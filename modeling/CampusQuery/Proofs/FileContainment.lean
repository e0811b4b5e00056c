import CampusQuery.Proofs.Interruption

/-!
# Where the files of datasets are

The name of a dataset's file is used as the text of a path. If the id has no slash, that path leads
to one name directly in the directory, and to no other place (`Archive.resolve_fileName`); this name
gives the id and the kind back, so that no two datasets share a file. What a save or a removal does
is then confined to the file of the dataset and its temporary file, however it ends, and also if it
is interrupted (`Disk.spares_runStepsUnder`): everything else below the directory stands as before
(`Disk.Spares`).

Slashes are allowed in an id, and with one of them the name of the file is read as the path of
another name. The path of `./x` is that of `x`, so these two datasets share a file, and the removal
of one takes the other with it (`Archive.not_forall_file_contained`). So the file of a dataset can
be told from its path exactly if there is no slash in the id (`Archive.parsePath?_fileName_iff`).
-/

namespace CampusQuery

namespace Disk

variable {disk next after : Disk} {path : List String} {touched more : List String}

/-! ### What stands as before -/

/-- All that is below the directory stands as before, except under some names directly in it. -/
def Spares (disk next : Disk) (touched : List String) : Prop :=
  ∀ path, path ≠ [] → (∀ name ∈ touched, path ≠ [name]) → next.find? path = disk.find? path

theorem Spares.refl (disk : Disk) (touched : List String) : Spares disk disk touched :=
  fun _ _ _ => rfl

theorem Spares.trans (h : Spares disk next touched) (h' : Spares next after more) :
    Spares disk after (touched ++ more) := by
  intro path hbelow hother
  rw [h' path hbelow fun name hname => hother name (List.mem_append_right _ hname)]
  exact h path hbelow fun name hname => hother name (List.mem_append_left _ hname)

theorem Spares.mono (h : Spares disk next touched) (hsubset : touched ⊆ more) :
    Spares disk next more :=
  fun path hbelow hother => h path hbelow fun name hname => hother name (hsubset hname)

theorem spares_put {name : String} (hname : name ∈ touched) (content : Content) :
    Spares disk (disk.put [name] content) touched := by
  intro path _ hother
  rw [find?_put, if_neg (hother name hname).symm]

theorem spares_delete {name : String} (hname : name ∈ touched) :
    Spares disk (disk.delete [name]) touched := by
  intro path _ hother
  rw [find?_delete, if_neg (hother name hname).symm]

/-! ### Steps on plain names -/

/-- The names that a step is made on. -/
def Step.names : Step → List String
  | makeRoot => []
  | write name _ => [name]
  | rename name target => [name, target]
  | remove name => [name]

/-- A plain name leads somewhere only if there is the directory. -/
theorem root_of_resolve {name : String} (hname : IsPlain name)
    (h : disk.resolve name = .ok path) : disk.find? [] = some .directory := by
  rw [resolve] at h
  split at h
  · cases h
  · split at h
    · cases h
    · rw [splitSlashes_of_not_mem hname.noSlash] at h
      exact walk_root h

/-- So all operations that begin with looking a plain name up need the directory. -/
theorem root_of_resolve_bind {α : Type} {f : List String → Except DiskFault α} {name : String}
    {result : α} (hname : IsPlain name) (h : disk.resolve name >>= f = .ok result) :
    disk.find? [] = some .directory := by
  obtain ⟨path, hpath, -⟩ := bind_eq_ok_iff.1 h
  exact root_of_resolve hname hpath

theorem spares_write {name text : String} (hname : IsPlain name)
    (h : disk.write name text = .ok next) : Spares disk next [name] := by
  rw [write_plain_eq hname (root_of_resolve_bind hname h) h]
  exact spares_put (List.mem_singleton_self name) _

/-- A step that succeeds spares all names but its own. -/
theorem Step.spares_run {step : Step} (hplain : ∀ name ∈ step.names, IsPlain name)
    (h : step.run disk = .ok next) : Spares disk next step.names := by
  cases step with
  | makeRoot =>
    rw [Step.run, Disk.makeRoot] at h
    split at h
    · -- the directory is made where there was none
      obtain rfl := Except.ok.inj h
      intro path hbelow _
      rw [find?_put, if_neg hbelow.symm]
    · obtain rfl := Except.ok.inj h
      exact .refl disk _
    · cases h
  | write name text => exact spares_write (hplain name (List.mem_singleton_self name)) h
  | rename name target =>
    have hname := hplain name (List.mem_cons_self ..)
    have htarget := hplain target (List.mem_cons_of_mem _ (List.mem_singleton_self target))
    obtain ⟨text, hread, -⟩ := bind_eq_ok_iff.1 h
    have hroot := root_of_resolve_bind hname hread
    obtain ⟨text, -, rfl⟩ := rename_plain_eq hname htarget hroot h
    exact (spares_delete (List.mem_singleton_self name)).trans
      (spares_put (List.mem_singleton_self target) _)
  | remove name =>
    have hname := hplain name (List.mem_singleton_self name)
    have hroot := root_of_resolve_bind hname h
    rw [(remove_plain_eq hname hroot).1 next h]
    exact spares_delete (List.mem_singleton_self name)

/-- So does a step that fails or breaks off. -/
theorem Step.spares_runUnder {step : Step} (hplain : ∀ name ∈ step.names, IsPlain name)
    (disk : Disk) (mishap : Option Mishap) :
    Spares disk (step.runUnder disk mishap).2 step.names := by
  unfold Step.runUnder
  split
  · split
    · next hrun => exact step.spares_run hplain hrun
    · exact .refl disk _
  · exact .refl disk _
  · next text =>
    cases step with
    | write name _ =>
      rw [Step.brokenOff]
      split
      · next hwrite => exact spares_write (hplain name (List.mem_singleton_self name)) hwrite
      · exact .refl disk _
    | makeRoot => exact .refl disk _
    | rename name target => exact .refl disk _
    | remove name => exact .refl disk _

/-- **A run spares all names but those of its steps**, wherever it ends. -/
theorem spares_runStepsUnder {steps : List Step}
    (hplain : ∀ name ∈ touched, IsPlain name) (hsteps : ∀ step ∈ steps, step.names ⊆ touched)
    (disk : Disk) (mishaps : List (Option Mishap)) :
    Spares disk (disk.runStepsUnder mishaps steps).2 touched := by
  induction steps generalizing disk mishaps with
  | nil =>
    rw [runStepsUnder]
    exact .refl disk touched
  | cons step rest ih =>
    obtain ⟨hstep, hrest⟩ := List.forall_mem_cons.1 hsteps
    have hfirst := (step.spares_runUnder (fun name hname => hplain name (hstep hname)) disk
      mishaps.head?.join).mono hstep
    rw [runStepsUnder]
    split
    · next middle hmiddle =>
      rw [hmiddle] at hfirst
      exact (hfirst.trans (ih hrest middle mishaps.tail)).mono
        (List.append_subset.2 ⟨List.Subset.refl _, List.Subset.refl _⟩)
    · next hfault =>
      rw [hfault] at hfirst
      exact hfirst

/-! ### The last part of a path -/

/-- No part of a path has a slash. -/
theorem not_mem_of_mem_splitSlashes {text part : List Char} (h : part ∈ splitSlashes text) :
    '/' ∉ part := by
  induction text generalizing part with
  | nil =>
    rw [List.mem_singleton.1 h]
    exact List.not_mem_nil
  | cons c rest ih =>
    rw [splitSlashes] at h
    split at h
    · rcases List.mem_cons.1 h with rfl | h
      · exact List.not_mem_nil
      · exact ih h
    · next hc =>
      cases hparts : splitSlashes rest with
      | nil =>
        rw [hparts] at h
        rw [List.mem_singleton.1 h, List.mem_singleton]
        exact Ne.symm hc
      | cons first parts =>
        rw [hparts] at h
        rcases List.mem_cons.1 h with rfl | h
        · exact fun hmem => (List.mem_cons.1 hmem).elim (Ne.symm hc)
            (ih (hparts ▸ List.mem_cons_self ..))
        · exact ih (hparts ▸ List.mem_cons_of_mem _ h)

/-- The name at the end of a path text, behind its last slash. -/
def lastName (text : String) : String :=
  String.ofList ((splitSlashes text.toList).getLastD [])

theorem lastName_eq_self_iff {text : String} : lastName text = text ↔ '/' ∉ text.toList := by
  constructor
  · intro h
    have hlast : text.toList = (splitSlashes text.toList).getLastD [] := by
      conv_lhs => rw [← h, lastName, String.toList_ofList]
    rw [hlast]
    cases hparts : splitSlashes text.toList with
    | nil => exact List.not_mem_nil
    | cons part parts =>
      have hmem : (part :: parts).getLastD [] ∈ splitSlashes text.toList := by
        rw [hparts, List.getLastD_cons]
        exact List.getLastD_mem_cons ..
      exact not_mem_of_mem_splitSlashes hmem
  · intro h
    rw [lastName, splitSlashes_of_not_mem h]
    exact String.ofList_toList

end Disk

namespace Archive

open Disk

variable {id id' : String} {kind kind' : Kind}

/-- The id and kind of the dataset of a file, by the file's path. -/
def parsePath? (path : String) : Option (String × Kind) :=
  parseFileName? (lastName path)

theorem slash_mem_fileName_iff : '/' ∈ (fileName id kind).toList ↔ '/' ∈ id.toList := by
  refine ⟨fun h => by_contra fun hid => (isPlain_fileName hid kind).noSlash h, fun h => ?_⟩
  rw [fileName, String.toList_append, String.toList_append, String.toList_append]
  simp [h]

/-- **The path of a file gives its dataset back** exactly if there is no slash in the id. -/
theorem parsePath?_fileName_iff (hid : idFault? id = none) (kind : Kind) :
    parsePath? (fileName id kind) = some (id, kind) ↔ '/' ∉ id.toList := by
  rw [parsePath?, parseFileName?_eq_some_iff, and_iff_left hid, lastName_eq_self_iff,
    slash_mem_fileName_iff]

/-- Without a slash in the id, the path leads to one name in the directory, unless the name is too
long or cannot be that of a file. -/
theorem resolve_fileName (hid : '/' ∉ id.toList) (kind : Kind) {disk : Disk}
    (hroot : disk.find? [] = some .directory) : disk.resolve (fileName id kind) =
      if isPathText (fileName id kind) && isName (fileName id kind).toList
      then .ok [fileName id kind] else .error .refused :=
  resolve_plain (isPlain_fileName hid kind) hroot

/-- The path that such a file is under. -/
theorem resolve_fileName_eq (hid : '/' ∉ id.toList) {disk : Disk} {path : List String}
    (h : disk.resolve (fileName id kind) = .ok path) : path = [fileName id kind] :=
  resolve_plain_eq (isPlain_fileName hid kind) (root_of_resolve (isPlain_fileName hid kind) h) h

/-- Saving touches the file of the dataset and its temporary file only. -/
theorem spares_save {d : Dataset} (hid : '/' ∉ d.id.toList) (disk : Disk) :
    Spares disk (save disk d).2
      [temporaryName (fileName d.id d.kind), fileName d.id d.kind] := by
  have hname := isPlain_fileName hid d.kind
  have hplain : ∀ name ∈ [temporaryName (fileName d.id d.kind), fileName d.id d.kind],
      IsPlain name :=
    List.forall_mem_cons.2 ⟨isPlain_temporaryName hname, List.forall_mem_singleton.2 hname⟩
  have hsteps : ∀ step ∈ saveSteps d, step.names ⊆
      [temporaryName (fileName d.id d.kind), fileName d.id d.kind] := by
    simp [saveSteps, Step.names]
  have hrun := spares_runStepsUnder hplain hsteps disk []
  rw [runStepsUnder_nil] at hrun
  rw [save]
  split
  · next hsteps => rwa [hsteps] at hrun
  · next hsteps => rwa [hsteps] at hrun

/-- Removing touches the file of the dataset only. -/
theorem spares_remove (hid : '/' ∉ id.toList) (kind : Kind) (disk : Disk) :
    Spares disk (remove disk id kind).2 [fileName id kind] := by
  have hsteps : ∀ step ∈ [Step.remove (fileName id kind)], step.names ⊆ [fileName id kind] := by
    simp [Step.names]
  have hrun := spares_runStepsUnder (List.forall_mem_singleton.2 (isPlain_fileName hid kind)) hsteps
    disk []
  rw [runStepsUnder_nil] at hrun
  rw [remove]
  split
  · next hsteps => rwa [hsteps] at hrun
  · next hsteps => rwa [hsteps] at hrun
  · next hsteps => rwa [hsteps] at hrun

/-- **Where the file of a dataset is.** Its path gives the dataset back exactly if there is no slash
in the id. Without one the path leads to a single name directly in the directory, if that name can
be used at all, and other datasets of the kind are under other names. Saving the dataset then spares
all names but this one and that of the temporary file, and removing it spares all but this one; none
of the two names is that of another dataset. -/
theorem file_contained (id : String) (kind : Kind) (hid : idFault? id = none) :
    (parsePath? (fileName id kind) = some (id, kind) ↔ '/' ∉ id.toList) ∧
    ('/' ∉ id.toList →
      (∀ disk : Disk, disk.find? [] = some .directory → disk.resolve (fileName id kind) =
        if isPathText (fileName id kind) && isName (fileName id kind).toList
        then .ok [fileName id kind] else .error .refused) ∧
      (∀ id' kind', idFault? id' = none → '/' ∉ id'.toList → ∀ (disk : Disk) (path : List String),
        disk.resolve (fileName id kind) = .ok path → disk.resolve (fileName id' kind') = .ok path →
        id' = id ∧ kind' = kind) ∧
      (∀ disk records, Spares disk (save disk ⟨id, kind, records⟩).2
        [temporaryName (fileName id kind), fileName id kind]) ∧
      (∀ disk, Spares disk (remove disk id kind).2 [fileName id kind]) ∧
      (∀ id' kind', idFault? id' = none → (id', kind') ≠ (id, kind) →
        fileName id' kind' ∉ [temporaryName (fileName id kind), fileName id kind])) := by
  refine ⟨parsePath?_fileName_iff hid kind, fun hslash =>
    ⟨fun disk => resolve_fileName hslash kind, ?_, fun disk records => ?_,
      spares_remove hslash kind, ?_⟩⟩
  · intro id' kind' hid' hslash' disk path hpath hpath'
    rw [resolve_fileName_eq hslash hpath] at hpath'
    have hname := resolve_fileName_eq hslash' hpath'
    exact fileName_injective hid' hid (List.singleton_inj.1 hname).symm
  · exact spares_save (d := ⟨id, kind, records⟩) hslash disk
  · intro id' kind' hid' hother hmem
    rcases List.mem_cons.1 hmem with htmp | hown
    · exact fileName_ne_temporaryName _ _ _ htmp
    · obtain ⟨rfl, rfl⟩ := fileName_injective hid' hid (List.mem_singleton.1 hown)
      exact hother rfl

/-- Removing a dataset leaves the file of another kind under the same id. -/
theorem file_contained_x :
    idFault? "x" = none ∧ parsePath? (fileName "x" .courses) = some ("x", .courses) ∧
      ∀ disk : Disk, (remove disk "x" .courses).2.find? [fileName "x" .rooms] =
        disk.find? [fileName "x" .rooms] := by
  have hid : idFault? "x" = none := by decide
  obtain ⟨hparse, hcontained⟩ := file_contained "x" .courses hid
  obtain ⟨-, -, -, hremove, hothers⟩ := hcontained (by decide)
  refine ⟨hid, hparse.2 (by decide), fun disk => hremove disk _ (List.cons_ne_nil _ _) ?_⟩
  intro name hname heq
  refine hothers "x" .rooms hid (by decide) (List.mem_cons_of_mem _ ?_)
  rwa [List.singleton_inj.1 heq]

/-- The ids `./x` and `x` are both valid, and their datasets share a file that is read as that of
`x`. So the path of a valid id does not always give it back, nor is it always that of one dataset
only. -/
theorem not_forall_file_contained :
    ¬∀ (id : String) (kind : Kind), idFault? id = none →
      (∀ (disk : Disk) (path : List String),
        disk.resolve (fileName id kind) = .ok path → ∃ name, path = [name]) ∧
      parsePath? (fileName id kind) = some (id, kind) ∧
      ∀ id' kind', idFault? id' = none → ∀ (disk : Disk) (path : List String),
        disk.resolve (fileName id kind) = .ok path → disk.resolve (fileName id' kind') = .ok path →
        id' = id ∧ kind' = kind := by
  intro h
  obtain ⟨-, -, happart⟩ := h "./x" .courses (by decide)
  have hsame := happart "x" .courses (by decide) emptyDirectory ["x_courses.json"]
    (by decide +kernel) (by decide +kernel)
  exact absurd hsame.1 (by decide)

/-- So the removal of the one takes away the file of the other. -/
example :
    let disk := (emptyDirectory.put ["x_courses.json"] (.file "[]"))
    disk.Proper ∧ remove disk "./x" .courses = (.ok (), emptyDirectory) := by
  decide +kernel

end Archive

end CampusQuery
