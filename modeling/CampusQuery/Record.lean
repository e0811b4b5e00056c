import CampusQuery.Field

/-!
# Records

A record gives values to some of the fields. It is kept as one slot per field, so two records are
the same exactly when they give the same values, however they were built, and `Record.entries`
lists the fields present in the order of `Field.all`.
-/

namespace CampusQuery

/-- A partial assignment of values to fields. -/
structure Record where
  /-- The value of each field, by its place in `Field.all`. -/
  slots : Vector (Option Value) 21

namespace Record

/-- The record without values. -/
def empty : Record := ⟨Vector.replicate 21 none⟩

/-- The value of a field. -/
def get? (r : Record) (f : Field) : Option Value :=
  r.slots[f.index]

/-- The record with a value set, in place of the field's value if it had one. -/
def set (r : Record) (f : Field) (v : Value) : Record :=
  ⟨r.slots.set f.index v⟩

/-- The fields present with their values, in field order. -/
def entries (r : Record) : List (Field × Value) :=
  Field.all.filterMap fun f => (r.get? f).map (f, ·)

/-- The fields present, in field order. -/
def fields (r : Record) : List Field :=
  r.entries.map (·.1)

/-- The record with the given entries, a later one replacing an earlier one of its field. -/
def ofEntries (entries : List (Field × Value)) : Record :=
  entries.foldl (fun r e => r.set e.1 e.2) empty

/-- Records are equal when they give equal values to the same fields. -/
instance : BEq Record where
  beq r s := Field.all.all fun f => r.get? f == s.get? f

@[simp] theorem get?_empty (f : Field) : empty.get? f = none := by
  simp [get?, empty]

@[simp] theorem get?_set (r : Record) (f g : Field) (v : Value) :
    (r.set f v).get? g = if f = g then some v else r.get? g := by
  by_cases h : f = g
  · subst h
    simp [get?, set]
  · have hne : (f.index : Nat) ≠ g.index := fun e => h (Field.index_injective (Fin.ext e))
    simp [get?, set, h, Vector.getElem_set_ne _ _ hne]

/-- Records that give the same values are the same. -/
theorem ext_get? {r s : Record} (h : ∀ f, r.get? f = s.get? f) : r = s := by
  have hslots : r.slots = s.slots := by
    apply Vector.ext
    intro i hi
    obtain ⟨f, hf⟩ := Field.exists_index_eq ⟨i, hi⟩
    have hslot := h f
    simpa [get?, hf] using hslot
  cases r
  cases s
  exact congrArg Record.mk hslots

end Record

end CampusQuery
