import CampusQuery.Proofs.Saving

/-!
# Steps that fail

A step on a disk can fail although the disk would allow it, and a write can break off and leave
some text in its file (`Disk.Mishap`). Steps are then run under what befalls them
(`Disk.runStepsUnder`); where nothing befalls them they are run as before
(`Disk.runStepsUnder_nil`).

What a failure leaves on the disk matters only as far as a load notices it. A step is quiet if a
load finds the same before and after it, whatever becomes of it (`Disk.Step.Quiet.alike`): making
the directory is quiet, since there is nothing in a new directory, and so is writing a temporary
file. The latter needs that the file's name is never that of a dataset, wherever the slashes of an
id may lead (`Disk.resolve_temporaryName`). Renaming and deleting are not quiet, but they are made
as a whole or not at all. So a run of which only the last step is not quiet can fail at any step and
leaves what a load finds as it was (`Disk.load_of_failed`).
-/

namespace CampusQuery

namespace Disk

/-! ### Mishaps -/

/-- How a step fails, whatever the disk would allow. -/
inductive Mishap where
  /-- It fails and leaves the disk as it was. -/
  | failure (fault : DiskFault)
  /-- It breaks off and leaves a text, part of its own or any other, in the file that it writes. -/
  | breakOff (fault : DiskFault) (text : String)
deriving DecidableEq

/-- What a step leaves that breaks off. Only a write leaves anything; the other steps are made as a
whole or not at all. -/
def Step.brokenOff (disk : Disk) (text : String) : Step → Disk
  | write name _ =>
    match disk.write name text with
    | .ok next => next
    | .error _ => disk
  | _ => disk

/-- What becomes of a step under a mishap, if there is one: how it failed, and the disk then. -/
def Step.runUnder (disk : Disk) (step : Step) : Option Mishap → Option DiskFault × Disk
  | none =>
    match step.run disk with
    | .ok next => (none, next)
    | .error fault => (some fault, disk)
  | some (.failure fault) => (some fault, disk)
  | some (.breakOff fault text) => (some fault, step.brokenOff disk text)

/-- Runs steps up to the first that fails, each under what the list has for it; beyond the end of
the list nothing goes wrong. -/
def runStepsUnder (disk : Disk) : List (Option Mishap) → List Step → Option DiskFault × Disk
  | _, [] => (none, disk)
  | mishaps, step :: rest =>
    match step.runUnder disk mishaps.head?.join with
    | (none, next) => next.runStepsUnder mishaps.tail rest
    | (some fault, next) => (some fault, next)

/-- Without mishaps the steps are run as the disk allows them. -/
theorem runStepsUnder_nil (disk : Disk) (steps : List Step) :
    disk.runStepsUnder [] steps = disk.runSteps steps := by
  induction steps generalizing disk with
  | nil => rfl
  | cons step rest ih =>
    rw [runStepsUnder, runSteps, List.head?_nil, Option.join_none, Step.runUnder]
    cases step.run disk with
    | error fault => rfl
    | ok next => exact ih next

/-- Where the directory does not exist there is nothing below it. -/
def Grounded (disk : Disk) : Prop :=
  disk.find? [] = none → disk.things = []

instance (disk : Disk) : Decidable disk.Grounded :=
  inferInstanceAs (Decidable (_ → _))

/-! ### Where a temporary file is written -/

/-- With a text in front, the text goes before the parts that follow its last slash. -/
theorem exists_splitSlashes_append (front back : List Char) (h : '/' ∉ back) :
    ∃ parts part, splitSlashes (front ++ back) = parts ++ [part ++ back] := by
  induction front with
  | nil => exact ⟨[], [], splitSlashes_of_not_mem h⟩
  | cons c front ih =>
    obtain ⟨parts, part, hparts⟩ := ih
    rw [List.cons_append, splitSlashes, hparts]
    by_cases hc : c = '/'
    · exact ⟨[] :: parts, part, by rw [if_pos hc]; rfl⟩
    · rw [if_neg hc]
      -- the character belongs to the first part, which may be the only one
      cases parts with
      | nil => exact ⟨[], c :: part, rfl⟩
      | cons first parts => exact ⟨(c :: first) :: parts, part, rfl⟩

variable {disk next : Disk} {path : List String}

/-- A walk whose last part has more than two characters ends at a thing of that name. -/
theorem walk_concat {parts : List (List Char)} {name : List Char} {start : List String}
    (hname : 2 < name.length) (h : disk.walk start (parts ++ [name]) = .ok path) :
    ∃ above, path = above ++ [String.ofList name] := by
  have hstay : ¬(name = [] ∨ name = ['.']) := by
    rintro (rfl | rfl) <;> simp at hname
  have hup : name ≠ ['.', '.'] := by
    rintro rfl
    simp at hname
  induction parts generalizing start with
  | nil =>
    rw [List.nil_append, walk] at h
    split at h
    · cases h
    · cases h
    · rw [if_neg hstay, if_neg hup] at h
      split at h
      · rw [walk] at h
        exact ⟨start, (Except.ok.inj h).symm⟩
      · cases h
  | cons part parts ih =>
    rw [List.cons_append, walk] at h
    split at h
    · cases h
    · cases h
    · -- a part of the path text leads nowhere, up or down, or it ends the walk
      split at h
      · exact ih h
      · split at h
        · split at h
          · cases h
          · exact ih h
        · split at h
          · exact ih h
          · cases h

/-- A walk along some parts begins in a directory. -/
theorem walk_root {part : List Char} {parts : List (List Char)}
    (h : disk.walk [] (part :: parts) = .ok path) : disk.find? [] = some .directory := by
  rw [walk] at h
  split at h
  · cases h
  · cases h
  · assumption

/-- A temporary file is in the directory or below, under a name that is temporary too. -/
theorem resolve_temporaryName {name : String}
    (h : disk.resolve (Archive.temporaryName name) = .ok path) :
    disk.find? [] = some .directory ∧
      ∃ above stem, path = above ++ [Archive.temporaryName stem] := by
  obtain ⟨parts, part, hsplit⟩ :=
    exists_splitSlashes_append name.toList ".tmp".toList (by decide)
  have hwalk : disk.walk [] (parts ++ [part ++ ".tmp".toList]) = .ok path := by
    rw [← hsplit, ← String.toList_append, ← Archive.temporaryName]
    rw [resolve] at h
    split at h
    · cases h
    · split at h
      · cases h
      · exact h
  have hlength : 2 < (part ++ ".tmp".toList).length := by
    have htmp : ".tmp".toList.length = 4 := by decide
    rw [List.length_append, htmp]
    omega
  obtain ⟨above, rfl⟩ := walk_concat hlength hwalk
  refine ⟨?_, above, String.ofList part, ?_⟩
  · cases parts with
    | nil => exact walk_root hwalk
    | cons first rest => exact walk_root hwalk
  · rw [Archive.temporaryName, String.ofList_append, String.ofList_toList]

end Disk

/-! ### What a load finds -/

namespace Archive

variable {disk next : Disk} {path : List String}

/-- The dataset that is loaded from a thing on the disk. -/
def loadThing? : List String × Content → Option Dataset
  | ([name], content) => loadFile? name content
  | _ => none

/-- A load goes over the things on the disk. -/
theorem load_eq_of_root (hroot : disk.find? [] = some .directory) :
    load disk = .ok ((disk.things.filterMap loadThing?).mergeSort precedes) := by
  rw [load, Disk.list, hroot]
  simp only [List.filterMap_filterMap]
  congr 2
  refine List.filterMap_congr fun t _ => ?_
  obtain ⟨path, content⟩ := t
  cases path with
  | nil => rfl
  | cons name rest => cases rest <;> rfl

/-- A thing from which nothing is loaded can be put on the disk unnoticed. -/
theorem load_put (hroot : disk.find? [] = some .directory) (hpath : path ≠ [])
    (hnothing : ∀ content, loadThing? (path, content) = none) (content : Content) :
    load (disk.put path content) = load disk := by
  have hroot' : (disk.put path content).find? [] = some .directory := by
    rw [Disk.find?_put, if_neg hpath, hroot]
  have hfilter : ∀ things : List (List String × Content),
      (things.filter fun t => t.1 != path).filterMap loadThing? = things.filterMap loadThing? := by
    intro things
    rw [List.filterMap_filter]
    refine List.filterMap_congr fun t _ => ?_
    by_cases ht : t.1 = path
    · obtain ⟨_, c⟩ := t
      obtain rfl : _ = path := ht
      simp [hnothing]
    · simp [ht]
  rw [load_eq_of_root hroot', load_eq_of_root hroot, Disk.put, List.filterMap_append, hfilter,
    List.filterMap_cons, hnothing, List.filterMap_nil, List.append_nil]

/-- Nothing is loaded from a temporary file, wherever it is. -/
theorem loadThing?_temporaryName (above : List String) (stem : String) (content : Content) :
    loadThing? (above ++ [temporaryName stem], content) = none := by
  match above with
  | [] =>
    refine Option.eq_none_iff_forall_ne_some.2 fun d hd => ?_
    exact fileName_ne_temporaryName _ _ _ (loadFile?_eq_some_iff.1 hd).1.symm
  | [_] => rfl
  | _ :: _ :: _ => rfl

end Archive

namespace Disk

variable {disk next : Disk}

/-! ### Quiet steps -/

/-- A step that a load does not notice, whatever becomes of it. -/
inductive Step.Quiet : Step → Prop where
  /-- Making the directory. -/
  | makeRoot : Quiet .makeRoot
  /-- Writing a temporary file. -/
  | write (name text : String) : Quiet (.write (Archive.temporaryName name) text)

/-- A step that has no effect if it fails. -/
inductive Step.AllOrNothing : Step → Prop where
  /-- Giving a file another name. -/
  | rename (name target : String) : AllOrNothing (.rename name target)
  /-- Deleting a file. -/
  | remove (name : String) : AllOrNothing (.remove name)

/-- A disk on which a load finds the same as on another one. -/
structure Alike (disk next : Disk) : Prop where
  /-- There is nothing without the directory. -/
  grounded : next.Grounded
  /-- The same datasets are loaded. -/
  load_eq : Archive.load next = Archive.load disk

theorem Alike.refl (h : disk.Grounded) : Alike disk disk :=
  ⟨h, rfl⟩

/-- Making the directory is not noticed. -/
theorem alike_makeRoot (h : disk.Grounded) (hmake : disk.makeRoot = .ok next) :
    Alike disk next := by
  rw [makeRoot] at hmake
  cases hroot : disk.find? [] with
  | some content =>
    rw [hroot] at hmake
    cases content with
    | directory =>
      obtain rfl := Except.ok.inj hmake
      exact .refl h
    | file text => cases hmake
  | none =>
    rw [hroot] at hmake
    obtain rfl := Except.ok.inj hmake
    -- nothing was on the disk, so nothing is below the new directory
    have hmade : (disk.put [] .directory).things = [([], .directory)] := by
      rw [put, h hroot]
      rfl
    refine ⟨fun hnone => ?_, ?_⟩
    · rw [find?_put, if_pos rfl] at hnone
      cases hnone
    · have hload : Archive.load disk = .ok [] := by
        rw [Archive.load, list, hroot]
      rw [hload, Archive.load_eq_of_root (by rw [find?_put, if_pos rfl]), hmade]
      exact congrArg Except.ok List.mergeSort_nil

/-- Writing a temporary file is not noticed, whatever text is written. -/
theorem alike_write {name text : String}
    (hwrite : disk.write (Archive.temporaryName name) text = .ok next) : Alike disk next := by
  rw [write, bind_eq_ok_iff] at hwrite
  obtain ⟨path, hpath, hwrite⟩ := hwrite
  obtain ⟨hroot, above, stem, rfl⟩ := resolve_temporaryName hpath
  have hne : above ++ [Archive.temporaryName stem] ≠ [] := by simp
  split at hwrite
  · cases hwrite
  · obtain rfl := Except.ok.inj hwrite
    refine ⟨fun hnone => ?_,
      Archive.load_put hroot hne (Archive.loadThing?_temporaryName above stem) _⟩
    rw [find?_put, if_neg hne, hroot] at hnone
    cases hnone

/-- A quiet step is not noticed, whether it is made, fails or breaks off. -/
theorem Step.Quiet.alike {step : Step} (hstep : step.Quiet) (h : disk.Grounded)
    {mishap : Option Mishap} {fault : Option DiskFault}
    (hrun : step.runUnder disk mishap = (fault, next)) : Alike disk next := by
  have hdone : ∀ {next}, step.run disk = .ok next → Alike disk next := by
    intro next hnext
    cases hstep with
    | makeRoot => exact alike_makeRoot h hnext
    | write name text => exact alike_write hnext
  have hbroken : ∀ text, Alike disk (step.brokenOff disk text) := by
    intro text
    cases hstep with
    | makeRoot => exact .refl h
    | write name _ =>
      rw [Step.brokenOff]
      cases hwrite : disk.write (Archive.temporaryName name) text with
      | ok next => exact alike_write hwrite
      | error fault => exact .refl h
  unfold Step.runUnder at hrun
  split at hrun
  · split at hrun
    · next hnext =>
      obtain rfl := (Prod.mk.inj hrun).2
      exact hdone hnext
    · obtain rfl := (Prod.mk.inj hrun).2
      exact .refl h
  · obtain rfl := (Prod.mk.inj hrun).2
    exact .refl h
  · next text =>
    obtain rfl := (Prod.mk.inj hrun).2
    exact hbroken text

/-- A step that is made as a whole or not at all leaves the disk as it was if it fails. -/
theorem Step.AllOrNothing.eq_of_fault {step : Step} (hstep : step.AllOrNothing)
    {mishap : Option Mishap} {fault : DiskFault}
    (hrun : step.runUnder disk mishap = (some fault, next)) : next = disk := by
  have hbroken : ∀ text, step.brokenOff disk text = disk := by
    intro text
    cases hstep <;> rfl
  unfold Step.runUnder at hrun
  split at hrun
  · split at hrun
    · exact nomatch (Prod.mk.inj hrun).1
    · exact (Prod.mk.inj hrun).2.symm
  · exact (Prod.mk.inj hrun).2.symm
  · next text => exact (Prod.mk.inj hrun).2.symm.trans (hbroken text)

/-- **A failed run is not noticed** if all its steps but the last are quiet and the last is made as
a whole or not at all. -/
theorem load_of_failed {steps : List Step} {last : Step} (hsteps : ∀ step ∈ steps, step.Quiet)
    (hlast : last.AllOrNothing) {mishaps : List (Option Mishap)} {fault : DiskFault}
    (h : disk.Grounded) (hrun : disk.runStepsUnder mishaps (steps ++ [last]) = (some fault, next)) :
    Archive.load next = Archive.load disk := by
  induction steps generalizing disk mishaps with
  | nil =>
    rw [List.nil_append, runStepsUnder] at hrun
    split at hrun
    · exact nomatch (Prod.mk.inj hrun).1
    · next hfault =>
      obtain ⟨-, rfl⟩ := Prod.mk.inj hrun
      rw [hlast.eq_of_fault hfault]
  | cons step rest ih =>
    obtain ⟨hstep, hrest⟩ := List.forall_mem_cons.1 hsteps
    rw [List.cons_append, runStepsUnder] at hrun
    split at hrun
    · next middle hmiddle =>
      -- the step has been made, and the run has failed later
      have halike := hstep.alike h hmiddle
      exact (ih hrest halike.grounded hrun).trans halike.load_eq
    · next hfault =>
      obtain ⟨-, rfl⟩ := Prod.mk.inj hrun
      exact (hstep.alike h hfault).load_eq

end Disk

end CampusQuery
