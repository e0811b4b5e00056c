import CampusQuery.Catalog.Basic
import CampusQuery.Proofs.Outcome

/-!
# What a store holds

A catalog is built by calls that add and remove datasets, and a refused call leaves it as it was
(`Catalog.after`). Whatever the calls, each dataset of the catalog is then fit to be stored
(`Dataset.Sound`): its id is valid, it has records, and each record has exactly the fields of the
dataset's kind, with values of the fields' types (`Record.Fits`).

The invariant rests on two facts. The check of a record accepts exactly the records that fit
(`Record.schemaFault?_eq_none_iff`), although it looks for foreign fields and for missing ones in
two separate passes. And a call that is not refused has made every check, so that it puts in a
sound dataset or takes one out (`Catalog.add_eq_ok_iff`, `Catalog.remove_eq_ok_iff`). A call that is
refused is so for the first check that fails (`Catalog.add_eq_error_iff`,
`Catalog.remove_eq_error_iff`).
-/

namespace CampusQuery

/-! ### Records that fit a kind -/

/-- A record has exactly the fields of a kind, with values of the fields' types. -/
structure Record.Fits (kind : Kind) (r : Record) : Prop where
  /-- A field of the kind has a value, and the value is of the field's type. -/
  present : ∀ f : Field, f.belongsTo kind = true → ∃ v, r.get? f = some v ∧ v.type = f.valueType
  /-- No other field has a value. -/
  absent : ∀ f : Field, f.belongsTo kind = false → r.get? f = none

theorem Record.mem_fields_iff {r : Record} {f : Field} : f ∈ r.fields ↔ (r.get? f).isSome := by
  simp only [Record.fields, Record.entries, List.mem_map, List.mem_filterMap]
  constructor
  · rintro ⟨⟨g, v⟩, ⟨g', -, hg⟩, rfl⟩
    obtain ⟨w, hw, heq⟩ := Option.map_eq_some_iff.1 hg
    obtain ⟨rfl, rfl⟩ := Prod.mk.inj heq
    simp [hw]
  · intro h
    obtain ⟨v, hv⟩ := Option.isSome_iff_exists.1 h
    exact ⟨(f, v), ⟨f, Field.mem_all f, by simp [hv]⟩, rfl⟩

theorem Field.mem_fields_iff {f : Field} {kind : Kind} :
    f ∈ kind.fields ↔ f.belongsTo kind = true := by
  simp [Field.belongsTo]

/-- The check of a record accepts the records that fit. -/
theorem Record.schemaFault?_eq_none_iff {kind : Kind} {r : Record} :
    r.schemaFault? kind = none ↔ r.Fits kind := by
  -- the first pass goes over the fields of the record, the second one over those of the kind
  have foreign : (r.fields.find? fun f => !f.belongsTo kind) = none ↔
      ∀ f : Field, f.belongsTo kind = false → r.get? f = none := by
    simp only [List.find?_eq_none, Record.mem_fields_iff, Bool.not_eq_true', Bool.not_eq_false]
    refine forall_congr' fun f => ?_
    cases r.get? f <;> simp
  rw [Record.schemaFault?]
  cases hfind : r.fields.find? fun f => !f.belongsTo kind with
  | some f =>
    refine ⟨fun h => (nomatch h), fun h => ?_⟩
    rw [foreign.2 h.absent] at hfind
    exact nomatch hfind
  | none =>
    simp only [List.findSome?_eq_none_iff, Field.mem_fields_iff]
    constructor
    · intro h
      refine ⟨fun f hf => ?_, foreign.1 hfind⟩
      have hcheck := h f hf
      cases hv : r.get? f with
      | none => simp [hv] at hcheck
      | some v =>
        refine ⟨v, rfl, ?_⟩
        by_contra hne
        simp [hv, hne] at hcheck
    · intro h f hf
      obtain ⟨v, hv, htype⟩ := h.present f hf
      simp [hv, htype]

/-! ### Ids -/

/-- An id that a dataset can have. -/
structure ValidId (id : String) : Prop where
  /-- There is a character. -/
  nonempty : id.toList ≠ []
  /-- Not all characters are blank. -/
  notBlank : ∃ c ∈ id.toList, isBlank c = false
  /-- An underscore would end the id in a field key. -/
  noUnderscore : '_' ∉ id.toList

/-- A fault is what is wrong with an id; a fault is named only if those before it are not there. -/
def IdFault.Describes (id : String) : IdFault → Prop
  | .empty => id.toList = []
  | .blank => id.toList ≠ [] ∧ ∀ c ∈ id.toList, isBlank c = true
  | .underscore => (∃ c ∈ id.toList, isBlank c = false) ∧ '_' ∈ id.toList

/-- The fault that is reported is the one that describes the id. -/
theorem idFault?_eq_some_iff {id : String} {fault : IdFault} :
    idFault? id = some fault ↔ fault.Describes id := by
  rw [idFault?]
  by_cases hempty : id.toList = []
  · cases fault <;> simp [IdFault.Describes, hempty]
  · rw [if_neg hempty]
    by_cases hblank : ∀ c ∈ id.toList, isBlank c = true
    · rw [if_pos (List.all_eq_true.2 hblank)]
      cases fault with
      | empty => exact iff_of_false nofun hempty
      | blank => exact iff_of_true rfl ⟨hempty, hblank⟩
      | underscore =>
        refine iff_of_false nofun ?_
        rintro ⟨⟨c, hc, hnot⟩, -⟩
        exact Bool.false_ne_true (hnot.symm.trans (hblank c hc))
    · have hsome : ∃ c ∈ id.toList, isBlank c = false := by simpa using hblank
      rw [if_neg (by simpa using hblank)]
      cases fault with
      | empty => exact iff_of_false (by simp) hempty
      | blank => exact iff_of_false (by simp) fun h => hblank h.2
      | underscore => simp [IdFault.Describes, hsome]

/-- An id is valid when no fault describes it. -/
theorem idFault?_eq_none_iff {id : String} : idFault? id = none ↔ ValidId id := by
  simp only [Option.eq_none_iff_forall_ne_some, ne_eq, idFault?_eq_some_iff]
  constructor
  · intro h
    have hnonempty : id.toList ≠ [] := h .empty
    have hblank : ∃ c ∈ id.toList, isBlank c = false := by
      by_contra hnone
      exact h .blank ⟨hnonempty, by simpa using hnone⟩
    exact ⟨hnonempty, hblank, fun hunderscore => h .underscore ⟨hblank, hunderscore⟩⟩
  · intro h fault hfault
    cases fault with
    | empty => exact h.nonempty hfault
    | blank =>
      obtain ⟨c, hc, hnot⟩ := h.notBlank
      exact Bool.false_ne_true (hnot.symm.trans (hfault.2 c hc))
    | underscore => exact h.noUnderscore hfault.2

/-! ### Datasets fit to be stored -/

/-- A dataset that a store accepts. -/
structure Dataset.Sound (d : Dataset) : Prop where
  /-- The id has no fault. -/
  validId : idFault? d.id = none
  /-- There is a record. -/
  nonempty : d.records.isEmpty = false
  /-- Every record fits the kind. -/
  fits : ∀ r ∈ d.records, r.Fits d.kind

theorem checkId_eq_ok_iff {id : String} : checkId id = .ok () ↔ idFault? id = none := by
  rw [checkId]
  cases idFault? id <;> simp

theorem checkId_eq_error_iff {id : String} {e : StoreError} :
    checkId id = .error e ↔ ∃ fault, idFault? id = some fault ∧ e = .invalidId id fault := by
  rw [checkId]
  cases idFault? id <;> simp [eq_comm]

/-- No row has a fault when all records fit. -/
theorem forall_zipIdx_schemaFault?_iff {kind : Kind} {records : List Record} {start : Nat} :
    (∀ p ∈ records.zipIdx start, (p.1.schemaFault? kind).map (p.2, ·) = none) ↔
      ∀ r ∈ records, r.Fits kind := by
  simp only [Option.map_eq_none_iff, Record.schemaFault?_eq_none_iff]
  conv_rhs => rw [← List.zipIdx_map_fst start records, List.forall_mem_map]

theorem Dataset.schemaFault?_eq_none_iff {d : Dataset} :
    d.schemaFault? = none ↔ ∀ r ∈ d.records, r.Fits d.kind := by
  simp only [Dataset.schemaFault?, List.findSome?_eq_none_iff, ← Array.mem_toList_iff]
  exact forall_zipIdx_schemaFault?_iff

theorem Dataset.checkSchema_eq_ok_iff {d : Dataset} :
    d.checkSchema = .ok () ↔ ∀ r ∈ d.records, r.Fits d.kind := by
  rw [← Dataset.schemaFault?_eq_none_iff, Dataset.checkSchema]
  cases d.schemaFault? <;> simp

/-- A row of a dataset is the first whose record does not fit, and has a fault. -/
def Dataset.IsFirstMisfit (d : Dataset) (row : Nat) (fault : SchemaFault) : Prop :=
  ∃ before r after, d.records.toList = before ++ r :: after ∧ before.length = row ∧
    (∀ s ∈ before, s.Fits d.kind) ∧ ¬r.Fits d.kind ∧ r.schemaFault? d.kind = some fault

/-- The fault of a dataset is that of the first record that does not fit. -/
theorem Dataset.schemaFault?_eq_some_iff {d : Dataset} {row : Nat} {fault : SchemaFault} :
    d.schemaFault? = some (row, fault) ↔ d.IsFirstMisfit row fault := by
  rw [Dataset.schemaFault?, List.findSome?_eq_some_iff]
  constructor
  · rintro ⟨_, ⟨r, i⟩, _, hsplit, hfault, hnone⟩
    -- the rows before and after are those of the records before and after
    obtain ⟨before, _, hrecords, rfl, hrest⟩ := List.zipIdx_eq_append_iff.1 hsplit
    obtain ⟨_, after, rfl, hpair, rfl⟩ := List.zipIdx_eq_cons_iff.1 hrest.symm
    obtain ⟨rfl, rfl⟩ := Prod.mk.inj hpair
    obtain ⟨_, hfound, hpair⟩ := Option.map_eq_some_iff.1 hfault
    obtain ⟨rfl, rfl⟩ := Prod.mk.inj hpair
    have hmisfit : ¬r.Fits d.kind := by
      rw [← Record.schemaFault?_eq_none_iff, hfound]
      rintro ⟨⟩
    exact ⟨before, r, after, hrecords, (Nat.zero_add _).symm,
      forall_zipIdx_schemaFault?_iff.1 hnone, hmisfit, hfound⟩
  · rintro ⟨before, r, after, hrecords, rfl, hfits, -, hfault⟩
    refine ⟨before.zipIdx, (r, before.length), after.zipIdx (before.length + 1), ?_, ?_,
      forall_zipIdx_schemaFault?_iff.2 hfits⟩
    · rw [hrecords, List.zipIdx_append, List.zipIdx_cons, Nat.zero_add]
    · exact congrArg (Option.map (before.length, ·)) hfault

theorem Dataset.checkSchema_eq_error_iff {d : Dataset} {e : StoreError} :
    d.checkSchema = .error e ↔
      ∃ row fault, d.IsFirstMisfit row fault ∧ e = .schemaMismatch d.id d.kind row fault := by
  simp only [← Dataset.schemaFault?_eq_some_iff]
  rw [Dataset.checkSchema]
  cases d.schemaFault? with
  | none => simp
  | some found =>
    obtain ⟨row, fault⟩ := found
    constructor
    · intro h
      exact ⟨row, fault, rfl, (Except.error.inj h).symm⟩
    · rintro ⟨_, _, h, rfl⟩
      obtain ⟨rfl, rfl⟩ := Prod.mk.inj (Option.some.inj h)
      rfl

namespace Catalog

/-! ### Calls -/

/-- A dataset is added when it is sound and its id is free. -/
theorem add_eq_ok_iff {c c' : Catalog} {d : Dataset} :
    c.add d = .ok c' ↔ d.Sound ∧ c.find? d.id = none ∧ c' = c.insert d := by
  simp only [Catalog.add, bind_eq_ok_iff, guard_eq_ok_iff]
  constructor
  · rintro ⟨⟨⟩, hid, hfree, hnonempty, ⟨⟩, hfits, h⟩
    -- each check that was made is a part of being sound, or says that the id is free
    refine ⟨⟨checkId_eq_ok_iff.1 hid, by simpa using hnonempty,
      Dataset.checkSchema_eq_ok_iff.1 hfits⟩, by simpa [contains] using hfree, ?_⟩
    exact (Except.ok.inj h).symm
  · rintro ⟨hd, hfree, rfl⟩
    exact ⟨(), checkId_eq_ok_iff.2 hd.validId, by simp [contains, hfree], by simp [hd.nonempty],
      (), Dataset.checkSchema_eq_ok_iff.2 hd.fits, rfl⟩

/-- A dataset is refused for the first check that fails. -/
theorem add_eq_error_iff {c : Catalog} {d : Dataset} {e : StoreError} :
    c.add d = .error e ↔
      (∃ fault, idFault? d.id = some fault ∧ e = .invalidId d.id fault) ∨
      idFault? d.id = none ∧
        (c.find? d.id ≠ none ∧ e = .duplicate d.id ∨
        c.find? d.id = none ∧
          (d.records = #[] ∧ e = .noRecords d.id ∨
          d.records ≠ #[] ∧
            ∃ row fault, d.IsFirstMisfit row fault ∧
              e = .schemaMismatch d.id d.kind row fault)) := by
  simp only [Catalog.add, bind_eq_error_iff, guard_eq_error_iff, checkId_eq_error_iff,
    Dataset.checkSchema_eq_error_iff, contains, Option.isSome_iff_ne_none, Array.isEmpty_iff]
  constructor
  · rintro (hid | ⟨⟨⟩, hid, hrest⟩)
    · exact Or.inl hid
    · refine Or.inr ⟨checkId_eq_ok_iff.1 hid, ?_⟩
      -- what comes after the checks never fails
      rcases hrest with hused | ⟨hfree, hempty | ⟨hne, hrow | ⟨-, -, h⟩⟩⟩
      · exact Or.inl hused
      · exact Or.inr ⟨not_not.1 hfree, Or.inl hempty⟩
      · exact Or.inr ⟨not_not.1 hfree, Or.inr ⟨hne, hrow⟩⟩
      · exact nomatch h
  · rintro (hid | ⟨hid, hrest⟩)
    · exact Or.inl hid
    · refine Or.inr ⟨(), checkId_eq_ok_iff.2 hid, ?_⟩
      rcases hrest with hused | ⟨hfree, hempty | ⟨hne, hrow⟩⟩
      · exact Or.inl hused
      · exact Or.inr ⟨not_not.2 hfree, Or.inl hempty⟩
      · exact Or.inr ⟨not_not.2 hfree, Or.inr ⟨hne, Or.inl hrow⟩⟩

/-- A removal is refused for an invalid id, or for one that is not in use. -/
theorem remove_eq_error_iff {c : Catalog} {id : String} {e : StoreError} :
    c.remove id = .error e ↔
      (∃ fault, idFault? id = some fault ∧ e = .invalidId id fault) ∨
      idFault? id = none ∧ c.find? id = none ∧ e = .notFound id := by
  rw [Catalog.remove, bind_eq_error_iff, checkId_eq_error_iff]
  refine or_congr Iff.rfl ?_
  constructor
  · rintro ⟨⟨⟩, hid, h⟩
    cases hfind : c.find? id with
    | none =>
      rw [hfind] at h
      exact ⟨checkId_eq_ok_iff.1 hid, rfl, (Except.error.inj h).symm⟩
    | some d =>
      rw [hfind] at h
      exact nomatch h
  · rintro ⟨hid, hfind, rfl⟩
    exact ⟨(), checkId_eq_ok_iff.2 hid, by rw [hfind]; rfl⟩

/-- A dataset is removed when its id is valid and in use. -/
theorem remove_eq_ok_iff {c c' : Catalog} {id : String} {d : Dataset} :
    c.remove id = .ok (d, c') ↔ idFault? id = none ∧ c.find? id = some d ∧ c' = c.erase id := by
  rw [Catalog.remove, bind_eq_ok_iff]
  constructor
  · rintro ⟨⟨⟩, hid, h⟩
    cases hfind : c.find? id with
    | none =>
      rw [hfind] at h
      exact nomatch h
    | some e =>
      rw [hfind] at h
      obtain ⟨rfl, rfl⟩ := Prod.mk.inj (Except.ok.inj h)
      exact ⟨checkId_eq_ok_iff.1 hid, rfl, rfl⟩
  · rintro ⟨hid, hfind, rfl⟩
    exact ⟨(), checkId_eq_ok_iff.2 hid, by rw [hfind]; rfl⟩

/-- A call to a store. -/
inductive Call where
  /-- Asks to add a dataset. -/
  | add (d : Dataset)
  /-- Asks to take out the dataset of an id. -/
  | remove (id : String)

/-- The catalog after a call; a refused call leaves it as it was. -/
def after (c : Catalog) : Call → Catalog
  | .add d =>
    match c.add d with
    | .ok c' => c'
    | .error _ => c
  | .remove id =>
    match c.remove id with
    | .ok (_, c') => c'
    | .error _ => c

/-- The catalog that calls build, starting without datasets. -/
def built (calls : List Call) : Catalog :=
  calls.foldl after .empty

/-- Every dataset of the catalog is sound. -/
def Sound (c : Catalog) : Prop :=
  ∀ id d, c.find? id = some d → d.Sound

theorem sound_empty : Catalog.empty.Sound :=
  fun _ _ h => nomatch h

/-- A call keeps a catalog sound. -/
theorem Sound.after {c : Catalog} (h : c.Sound) (call : Call) : (c.after call).Sound := by
  cases call with
  | add d =>
    rw [Catalog.after]
    cases hadd : c.add d with
    | error e => exact h
    | ok c' =>
      obtain ⟨hd, -, rfl⟩ := add_eq_ok_iff.1 hadd
      -- what is found is the new dataset, or it was there before
      intro id e he
      rw [find?_insert] at he
      split at he
      · obtain rfl := Option.some.inj he
        exact hd
      · exact h id e he
  | remove id =>
    rw [Catalog.after]
    cases hremove : c.remove id with
    | error e => exact h
    | ok removed =>
      obtain ⟨d, c'⟩ := removed
      obtain ⟨-, -, rfl⟩ := remove_eq_ok_iff.1 hremove
      -- what is still found was there before
      intro other e he
      rw [find?_erase] at he
      split at he
      · exact nomatch he
      · exact h other e he

/-- **Whatever the calls, the catalog that they build is sound.** -/
theorem sound_built (calls : List Call) : (built calls).Sound := by
  -- the induction is on the calls still to come, from any sound catalog
  have run : ∀ (calls : List Call) {c : Catalog}, c.Sound →
      (calls.foldl Catalog.after c).Sound := by
    intro calls
    induction calls with
    | nil => exact fun h => h
    | cons call rest ih => exact fun h => ih (h.after call)
  exact run calls sound_empty

end Catalog

end CampusQuery
