import CampusQuery.Archive.Disk
import CampusQuery.Proofs.Outcome
import Mathlib.Data.List.Nodup

/-!
# What a directory holds

A disk lists its things in no particular order. Where every thing has a path of its own, as on a
proper disk, that list is a finite map: what stands under a path is found there
(`Disk.find?_eq_some_iff`), and the two ways of changing a disk change what is found under one path
(`Disk.find?_put`, `Disk.find?_delete`).

A plain name is one without slashes that is no dot and no pair of dots, and it leads to the thing of
that name in the directory (`Disk.resolve_plain`), unless it is too long for a name. The operations
on plain names are described by what is found before and after them.
-/

namespace CampusQuery

namespace Disk

variable {disk next : Disk} {path : List String} {content : Content}

/-- A name that stands for the thing of that name in the directory. -/
structure IsPlain (name : String) : Prop where
  /-- There is a name. -/
  nonempty : name.toList ≠ []
  /-- It is not the name for the directory itself. -/
  notHere : name.toList ≠ ['.']
  /-- It is not the name for the directory above. -/
  notAbove : name.toList ≠ ['.', '.']
  /-- It is a single part of a path. -/
  noSlash : '/' ∉ name.toList

/-- Every thing on the disk has a path of its own, and all names are plain. -/
structure Proper (disk : Disk) : Prop where
  /-- No two things are under one path. -/
  distinct : (disk.things.map Prod.fst).Nodup
  /-- All paths are made of plain names. -/
  plain : ∀ t ∈ disk.things, ∀ name ∈ t.1, IsPlain name

instance (name : String) : Decidable (IsPlain name) :=
  decidable_of_iff (name.toList ≠ [] ∧ name.toList ≠ ['.'] ∧ name.toList ≠ ['.', '.'] ∧
      '/' ∉ name.toList)
    ⟨fun ⟨hne, hhere, habove, hslash⟩ => ⟨hne, hhere, habove, hslash⟩,
      fun h => ⟨h.nonempty, h.notHere, h.notAbove, h.noSlash⟩⟩

instance (disk : Disk) : Decidable disk.Proper :=
  decidable_of_iff ((disk.things.map Prod.fst).Nodup ∧
      ∀ t ∈ disk.things, ∀ name ∈ t.1, IsPlain name)
    ⟨fun ⟨hdistinct, hplain⟩ => ⟨hdistinct, hplain⟩, fun h => ⟨h.distinct, h.plain⟩⟩

/-! ### Looking up -/

theorem find?_eq_some_iff (h : disk.Proper) :
    disk.find? path = some content ↔ (path, content) ∈ disk.things := by
  rw [find?, Option.map_eq_some_iff]
  constructor
  · rintro ⟨⟨p, c⟩, hfind, rfl⟩
    obtain rfl : p = path := by simpa using List.find?_some hfind
    exact List.mem_of_find?_eq_some hfind
  · intro hmem
    have hsome : (disk.things.find? fun t => t.1 == path).isSome :=
      List.find?_isSome.2 ⟨_, hmem, beq_self_eq_true path⟩
    obtain ⟨t, ht⟩ := Option.isSome_iff_exists.1 hsome
    -- the thing that is found has the path, and only one thing has it
    have hpath : t.1 = path := by simpa using List.find?_some ht
    have heq : t = (path, content) :=
      List.inj_on_of_nodup_map h.distinct (List.mem_of_find?_eq_some ht) hmem hpath
    exact ⟨t, ht, by rw [heq]⟩

/-- The order in which a disk lists its things is of no account. -/
theorem Proper.perm {other : Disk} (h : disk.Proper) (hperm : other.things.Perm disk.things) :
    other.Proper :=
  ⟨(hperm.map Prod.fst).nodup_iff.2 h.distinct, fun t ht => h.plain t (hperm.mem_iff.1 ht)⟩

theorem find?_perm {other : Disk} (h : disk.Proper) (hperm : other.things.Perm disk.things)
    (path : List String) : other.find? path = disk.find? path := by
  refine Option.ext fun content => ?_
  rw [find?_eq_some_iff (h.perm hperm), find?_eq_some_iff h, hperm.mem_iff]

theorem find?_filter_bne (things : List (List String × Content)) (path other : List String) :
    (things.filter fun t => t.1 != path).find? (fun t => t.1 == other) =
      if path = other then none else things.find? fun t => t.1 == other := by
  rw [List.find?_filter]
  split
  · next h =>
    subst h
    simp
  · next h =>
    congr 1
    funext t
    by_cases ht : t.1 = other
    · simp [ht, Ne.symm h]
    · simp [ht]

theorem find?_put (disk : Disk) (path other : List String) (content : Content) :
    (disk.put path content).find? other = if path = other then some content
      else disk.find? other := by
  simp only [find?, put, List.find?_append, find?_filter_bne]
  by_cases h : path = other <;> simp [h]

theorem find?_delete (disk : Disk) (path other : List String) :
    (disk.delete path).find? other = if path = other then none else disk.find? other := by
  simp only [find?, delete, find?_filter_bne]
  by_cases h : path = other <;> simp [h]

theorem Proper.delete (h : disk.Proper) (path : List String) : (disk.delete path).Proper :=
  ⟨h.distinct.sublist (List.filter_sublist.map _), fun t ht => h.plain t (List.mem_filter.1 ht).1⟩

theorem Proper.put (h : disk.Proper) (hpath : ∀ name ∈ path, IsPlain name) (content : Content) :
    (disk.put path content).Proper := by
  refine ⟨?_, fun t ht => ?_⟩
  · -- the path that is put at the end has been taken out before
    have hnew : path ∉ (disk.delete path).things.map Prod.fst := by
      simp [Disk.delete]
    rw [Disk.put, List.map_append, List.map_singleton]
    exact List.nodup_append.2 ⟨(h.delete path).distinct, List.nodup_singleton _, by
      intro p hp q hq
      obtain rfl := List.mem_singleton.1 hq
      exact fun heq => hnew (heq ▸ hp)⟩
  · rcases List.mem_append.1 ht with ht | ht
    · exact (h.delete path).plain t ht
    · obtain rfl := List.mem_singleton.1 ht
      exact hpath

/-- The listing of a directory has the things directly in it. -/
theorem mem_list_iff (h : disk.Proper) (hroot : disk.find? [] = some .directory) :
    ∃ things, disk.list = .ok things ∧
      ∀ name content, (name, content) ∈ things ↔ disk.find? [name] = some content := by
  refine ⟨_, by rw [list, hroot], fun name content => ?_⟩
  rw [List.mem_filterMap, find?_eq_some_iff h]
  constructor
  · rintro ⟨⟨p, c⟩, hmem, heq⟩
    split at heq
    · next n hn =>
      obtain rfl : p = [n] := hn
      obtain ⟨rfl, rfl⟩ := Prod.mk.inj (Option.some.inj heq)
      exact hmem
    · exact nomatch heq
  · exact fun hmem => ⟨_, hmem, rfl⟩

/-! ### Plain names -/

theorem splitSlashes_of_not_mem {text : List Char} (h : '/' ∉ text) :
    splitSlashes text = [text] := by
  induction text with
  | nil => rfl
  | cons c rest ih =>
    obtain ⟨hc, hrest⟩ := not_or.1 (mt List.mem_cons.2 h)
    rw [splitSlashes, if_neg (Ne.symm hc), ih hrest]

/-- The length of a plain name decides whether it leads anywhere. -/
theorem resolve_plain {name : String} (hname : IsPlain name)
    (hroot : disk.find? [] = some .directory) :
    disk.resolve name =
      if isPathText name && isName name.toList then .ok [name] else .error .refused := by
  have hwalk : disk.walk [] (splitSlashes name.toList) =
      if isName name.toList then .ok [name] else .error .refused := by
    rw [splitSlashes_of_not_mem hname.noSlash, walk, hroot]
    have hdot : ¬(name.toList = [] ∨ name.toList = ['.']) :=
      not_or.2 ⟨hname.nonempty, hname.notHere⟩
    simp only [if_neg hdot, if_neg hname.notAbove, String.ofList_toList, walk, List.nil_append]
  rw [resolve]
  cases hpath : isPathText name with
  | false => simp
  | true =>
    simp only [Bool.not_true, Bool.false_eq_true, if_false, Bool.true_and]
    split
    · next rest hslash => exact absurd (hslash ▸ List.mem_cons_self ..) hname.noSlash
    · exact hwalk

/-- A plain name that is used without fault leads to the thing of that name. -/
theorem resolve_plain_eq {name : String} (hname : IsPlain name)
    (hroot : disk.find? [] = some .directory) {path : List String}
    (h : disk.resolve name = .ok path) : path = [name] := by
  rw [resolve_plain hname hroot] at h
  split at h
  · exact (Except.ok.inj h).symm
  · exact nomatch h

/-- A name of some length without slashes is plain. -/
theorem isPlain_of_length {name : String} (hlength : 2 < name.toList.length)
    (hslash : '/' ∉ name.toList) : IsPlain name := by
  refine ⟨?_, ?_, ?_, hslash⟩ <;> intro h <;> rw [h] at hlength <;> simp at hlength

/-! ### Operations on plain names -/

theorem write_plain_eq {name text : String} (hname : IsPlain name)
    (hroot : disk.find? [] = some .directory) (h : disk.write name text = .ok next) :
    next = disk.put [name] (.file text) := by
  rw [write, bind_eq_ok_iff] at h
  obtain ⟨path, hpath, h⟩ := h
  obtain rfl := resolve_plain_eq hname hroot hpath
  split at h
  · exact nomatch h
  · exact (Except.ok.inj h).symm

theorem read_plain_eq {name text : String} (hname : IsPlain name)
    (hroot : disk.find? [] = some .directory) (h : disk.read name = .ok text) :
    disk.find? [name] = some (.file text) := by
  rw [read, bind_eq_ok_iff] at h
  obtain ⟨path, hpath, h⟩ := h
  obtain rfl := resolve_plain_eq hname hroot hpath
  split at h
  · next hfind => rw [hfind, Except.ok.inj h]
  · exact nomatch h
  · exact nomatch h

theorem find?_delete_root (name : String) :
    (disk.delete [name]).find? [] = disk.find? [] := by
  rw [find?_delete, if_neg (List.cons_ne_nil name [])]

theorem find?_put_root (name : String) (content : Content) :
    (disk.put [name] content).find? [] = disk.find? [] := by
  rw [find?_put, if_neg (List.cons_ne_nil name [])]

theorem rename_plain_eq {name target : String} (hname : IsPlain name) (htarget : IsPlain target)
    (hroot : disk.find? [] = some .directory) (h : disk.rename name target = .ok next) :
    ∃ text, disk.find? [name] = some (.file text) ∧
      next = (disk.delete [name]).put [target] (.file text) := by
  rw [rename, bind_eq_ok_iff] at h
  obtain ⟨text, hread, h⟩ := h
  rw [bind_eq_ok_iff] at h
  obtain ⟨path, hpath, h⟩ := h
  obtain rfl := resolve_plain_eq hname hroot hpath
  have hroot' : (disk.delete [name]).find? [] = some .directory :=
    (find?_delete_root name).trans hroot
  exact ⟨text, read_plain_eq hname hroot hread, write_plain_eq htarget hroot' h⟩

/-- Deleting what is not there changes nothing. -/
theorem delete_eq_self (h : disk.find? path = none) : disk.delete path = disk := by
  rw [find?, Option.map_eq_none_iff, List.find?_eq_none] at h
  have hall : disk.things.filter (fun t => t.1 != path) = disk.things :=
    List.filter_eq_self.2 fun t ht => by simpa using h t ht
  rw [delete, hall]

/-- A removal that does not fail for another reason leaves nothing under the name. -/
theorem remove_plain_eq {name : String} (hname : IsPlain name)
    (hroot : disk.find? [] = some .directory) :
    (∀ next, disk.remove name = .ok next → next = disk.delete [name]) ∧
      (disk.remove name = .error .notFound → disk.delete [name] = disk) := by
  rw [remove]
  cases hpath : disk.resolve name with
  | error fault =>
    refine ⟨fun _ h => (nomatch h), fun h => ?_⟩
    obtain rfl := Except.error.inj h
    -- a plain name that leads nowhere is refused
    rw [resolve_plain hname hroot] at hpath
    split at hpath <;> exact nomatch hpath
  | ok path =>
    obtain rfl := resolve_plain_eq hname hroot hpath
    simp only [bind, Except.bind]
    cases hfind : disk.find? [name] with
    | none => exact ⟨fun _ h => (nomatch h), fun _ => delete_eq_self hfind⟩
    | some content =>
      cases content with
      | directory => exact ⟨fun _ h => (nomatch h), fun h => (nomatch h)⟩
      | file text => exact ⟨fun _ h => (Except.ok.inj h).symm, fun h => (nomatch h)⟩

/-- Steps that all succeed are made one after the other. -/
theorem runSteps_cons_eq_none_iff {step : Step} {rest : List Step} :
    disk.runSteps (step :: rest) = (none, next) ↔
      ∃ middle, step.run disk = .ok middle ∧ middle.runSteps rest = (none, next) := by
  rw [runSteps]
  cases step.run disk <;> simp

end Disk

end CampusQuery
