import CampusQuery.FieldKey
import CampusQuery.Proofs.Outcome
import Mathlib.Data.List.Nodup
import Mathlib.Data.List.TakeWhile

/-!
# Keys and their text

A field key is read from its own text and from no other (`FieldKey.parse_eq_ok_iff`): the id of the
dataset is what stands before the first underscore, so an id that is not empty and holds no
underscore (`FieldKey.WellFormed`) is read back, and so is the field, whose name holds none either.
-/

namespace CampusQuery

/-! ### The first place of a mark -/

theorem head_dropWhile_bne {mark c : Char} {text rest : List Char}
    (h : text.dropWhile (· != mark) = c :: rest) : c = mark := by
  have hhead := List.head?_dropWhile_not (· != mark) text
  simpa [h] using hhead

theorem takeWhile_dropWhile_iff {mark : Char} {text front back : List Char} :
    text.takeWhile (· != mark) = front ∧ (∃ c, text.dropWhile (· != mark) = c :: back) ↔
      text = front ++ mark :: back ∧ mark ∉ front := by
  constructor
  · rintro ⟨rfl, c, hdrop⟩
    -- what is left begins with the first character that stops the search
    obtain rfl := head_dropWhile_bne hdrop
    refine ⟨?_, fun hmem => ?_⟩
    · rw [← hdrop, List.takeWhile_append_dropWhile]
    · simpa using List.mem_takeWhile_imp hmem
  · rintro ⟨rfl, h⟩
    have hall : ∀ c ∈ front, (c != mark) = true := fun c hc => by
      simpa using fun heq : c = mark => h (heq ▸ hc)
    rw [List.dropWhile_append_of_pos hall, List.takeWhile_append_of_pos hall]
    simp

/-! ### Names of fields -/

theorem Field.underscore_not_mem_label (f : Field) : '_' ∉ f.label.toList := by
  cases f <;> decide +kernel

theorem Field.label_injective {f g : Field} (h : f.label = g.label) : f = g := by
  have hnodup : (Field.all.map Field.label).Nodup := by decide +kernel
  exact List.inj_on_of_nodup_map hnodup (Field.mem_all f) (Field.mem_all g) h

/-- A field is found by its name alone. -/
theorem Field.ofLabel?_eq_some_iff {label : String} {f : Field} :
    Field.ofLabel? label = some f ↔ f.label = label := by
  -- whatever is found has the name, and only one field has it
  have hlabel : ∀ {g : Field}, Field.ofLabel? label = some g → g.label = label := by
    intro g hg
    simpa using List.find?_some hg
  refine ⟨hlabel, fun h => ?_⟩
  have hsome : (Field.ofLabel? label).isSome :=
    List.find?_isSome.2 ⟨f, Field.mem_all f, beq_iff_eq.2 h⟩
  obtain ⟨g, hg⟩ := Option.isSome_iff_exists.1 hsome
  rw [hg, Field.label_injective ((hlabel hg).trans h.symm)]

theorem Field.parse_eq_ok_iff {label : String} {f : Field} :
    Field.parse label = .ok f ↔ f.label = label := by
  rw [Field.parse, ← Field.ofLabel?_eq_some_iff]
  cases Field.ofLabel? label <;> simp

/-! ### Field keys -/

namespace FieldKey

/-- A text is split at its first underscore. -/
theorem splitUnderscore?_eq_some_iff {text dataset label : List Char} :
    splitUnderscore? text = some (dataset, label) ↔
      text = dataset ++ '_' :: label ∧ '_' ∉ dataset := by
  rw [← takeWhile_dropWhile_iff, splitUnderscore?]
  cases text.dropWhile (· != '_') <;> simp

/-- A key that can stand in a query. -/
structure WellFormed (k : FieldKey) : Prop where
  /-- The id of the dataset is not empty. -/
  nonempty : k.dataset ≠ ""
  /-- It holds no underscore. -/
  plain : '_' ∉ k.dataset.toList

/-- **A well-formed key is read from its own text**, and nothing else is read as a key. -/
theorem parse_eq_ok_iff {text : String} {k : FieldKey} :
    parse text = .ok k ↔ text = k.toText ∧ k.WellFormed := by
  -- reading works on characters, so the texts are compared as lists of them
  have htext : text = k.toText ↔
      text.toList = k.dataset.toList ++ '_' :: k.field.label.toList := by
    rw [← String.toList_inj]
    simp [toText]
  rw [htext, parse]
  constructor
  · intro h
    cases hsplit : splitUnderscore? text.toList with
    | none =>
      rw [hsplit] at h
      exact nomatch h
    | some sides =>
      obtain ⟨dataset, label⟩ := sides
      obtain ⟨hsides, hdataset⟩ := splitUnderscore?_eq_some_iff.1 hsplit
      simp only [hsplit] at h
      split at h
      · exact nomatch h
      · next hform =>
        rw [map_eq_ok_iff] at h
        obtain ⟨f, hf, rfl⟩ := h
        have hlabel := Field.parse_eq_ok_iff.1 hf
        refine ⟨?_, ?_, ?_⟩
        · rw [hsides, hlabel, String.toList_ofList, String.toList_ofList]
        · simp only [Bool.or_eq_true, not_or, List.isEmpty_iff] at hform
          simpa using hform.1
        · simpa using hdataset
  · rintro ⟨htext, hne, hdataset⟩
    rw [htext, splitUnderscore?_eq_some_iff.2 ⟨rfl, hdataset⟩]
    have hform : ¬(k.dataset.toList.isEmpty || k.field.label.toList.contains '_') = true := by
      simp [hne, k.field.underscore_not_mem_label]
    simp only [if_neg hform, String.ofList_toList, Field.parse_eq_ok_iff.2 rfl]
    rfl

/-- The text of a key holds an underscore. -/
theorem underscore_mem_toText (k : FieldKey) : '_' ∈ k.toText.toList := by
  simp [toText]

end FieldKey

end CampusQuery
