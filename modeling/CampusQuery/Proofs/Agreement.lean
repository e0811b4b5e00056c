import CampusQuery.Proofs.Outcome
import CampusQuery.Query.Agreement

/-!
# What a resolved query agrees on

`Query.resolveAmong` checks six rules one after the other. When it yields a dataset, all of them
hold, and `Query.Agrees` states them without the order of the checks: what the parts of the query
have in common with each other, with the id of the dataset and with its kind. Conversely a query
that agrees with a dataset that there is is resolved to it (`Query.resolveAmong_eq_ok_iff`).
-/

namespace CampusQuery

namespace Query

/-! ### The rules -/

/-- The parts of a query agree with each other and with a dataset of some id and kind. -/
structure Agrees (q : Query) (id : String) (kind : Kind) : Prop where
  /-- Computed values have different names. -/
  names : ∀ g, q.grouping = some g → (g.rules.map Rule.name).Nodup
  /-- With a grouping a column is one of its keys or one of its computed values. -/
  grouped : ∀ g, q.grouping = some g → ∀ c ∈ q.columns, isGrouped g c = true
  /-- The order uses columns of the result. -/
  ordered : ∀ order, q.order = some order → ∀ c ∈ order.columns, c ∈ q.columns
  /-- Some field is named. -/
  named : q.fieldKeys ≠ []
  /-- Every field key names the dataset. -/
  shared : ∀ k ∈ q.fieldKeys, k.dataset = id
  /-- Only numeric fields are aggregated as numbers. -/
  numeric : ∀ g, q.grouping = some g → ∀ r ∈ g.rules,
    r.aggregation.needsNumbers = true → r.target.field.isNumeric = true
  /-- Without a grouping every column is a field. -/
  plain : q.grouping = none → ∀ c ∈ q.columns, ∃ k, c = .field k
  /-- The kind has every field that is named. -/
  belongs : ∀ k ∈ q.fieldKeys, k.field.belongsTo kind = true

/-! ### The checks -/

theorem hasRepetition_eq_false_iff {names : List String} :
    hasRepetition names = false ↔ names.Nodup := by
  induction names with
  | nil => simp [hasRepetition]
  | cons name rest ih => simp [hasRepetition, ih]

theorem refuseFirst_eq_ok_iff {α : Type} {wrong : α → Bool} {error : α → RuleError}
    {items : List α} :
    refuseFirst wrong error items = .ok () ↔ ∀ item ∈ items, wrong item = false := by
  simp only [← Bool.not_eq_true, ← List.find?_eq_none]
  rw [refuseFirst]
  cases items.find? wrong <;> simp

theorem checkGrouping_eq_ok_iff {q : Query} :
    q.checkGrouping = .ok () ↔ ∀ g, q.grouping = some g →
      (g.rules.map Rule.name).Nodup ∧ ∀ c ∈ q.columns, isGrouped g c = true := by
  rw [checkGrouping]
  cases q.grouping with
  | none => simp
  | some g =>
    simp only [Option.some.injEq, forall_eq', ← hasRepetition_eq_false_iff, ← List.all_eq_true]
    cases hasRepetition (g.rules.map Rule.name) <;> cases q.columns.all (isGrouped g) <;> simp

theorem checkOrder_eq_ok_iff {q : Query} :
    q.checkOrder = .ok () ↔
      ∀ order, q.order = some order → ∀ c ∈ order.columns, c ∈ q.columns := by
  rw [checkOrder]
  cases q.order with
  | none => simp
  | some order => simp [refuseFirst_eq_ok_iff]

theorem sharedDataset_eq_ok_iff {q : Query} {id : String} :
    q.sharedDataset = .ok id ↔ q.fieldKeys ≠ [] ∧ ∀ k ∈ q.fieldKeys, k.dataset = id := by
  rw [sharedDataset]
  cases q.fieldKeys with
  | nil => simp
  | cons key rest =>
    have hany : (rest.any fun k => k.dataset != key.dataset) = false ↔
        ∀ k ∈ rest, k.dataset = key.dataset := by
      simp
    by_cases h : rest.any fun k => k.dataset != key.dataset
    · -- some key names another dataset than the first one, so no id is that of all
      have hne : ¬∀ k ∈ rest, k.dataset = key.dataset := by
        rw [← hany, h]
        simp
      simp only [h, if_true, reduceCtorEq, List.forall_mem_cons, ne_eq, not_false_eq_true,
        true_and, false_iff, not_and]
      rintro rfl
      exact hne
    · have hall := hany.1 (Bool.eq_false_iff.2 h)
      simp only [h, if_false, Except.ok.injEq, List.forall_mem_cons, ne_eq, reduceCtorEq,
        not_false_eq_true, true_and]
      exact ⟨fun hid => ⟨hid, fun k hk => (hall k hk).trans hid⟩, fun hid => hid.1⟩

theorem knownDataset_eq_ok_iff {q : Query} {kindOf? : String → Option Kind} {id : String}
    {kind : Kind} :
    q.knownDataset kindOf? = .ok (id, kind) ↔
      (q.fieldKeys ≠ [] ∧ ∀ k ∈ q.fieldKeys, k.dataset = id) ∧ kindOf? id = some kind := by
  rw [knownDataset, bind_eq_ok_iff]
  simp only [← sharedDataset_eq_ok_iff]
  constructor
  · rintro ⟨dataset, hshared, h⟩
    cases hkind : kindOf? dataset with
    | none =>
      rw [hkind] at h
      exact nomatch h
    | some k =>
      rw [hkind] at h
      obtain ⟨rfl, rfl⟩ := Prod.mk.inj (Except.ok.inj h)
      exact ⟨hshared, hkind⟩
  · rintro ⟨hshared, hkind⟩
    exact ⟨id, hshared, by rw [hkind]; rfl⟩

theorem checkTargets_eq_ok_iff {q : Query} :
    q.checkTargets = .ok () ↔ ∀ g, q.grouping = some g → ∀ r ∈ g.rules,
      r.aggregation.needsNumbers = true → r.target.field.isNumeric = true := by
  rw [checkTargets]
  cases q.grouping with
  | none => simp
  | some g =>
    have hany : (g.rules.any fun r =>
        r.aggregation.needsNumbers && !r.target.field.isNumeric) = false ↔
        ∀ r ∈ g.rules, r.aggregation.needsNumbers = true → r.target.field.isNumeric = true := by
      simp
    simp only [Option.some.injEq, forall_eq', ← hany]
    cases g.rules.any fun r => r.aggregation.needsNumbers && !r.target.field.isNumeric <;> simp

theorem checkComputed_eq_ok_iff {q : Query} :
    q.checkComputed = .ok () ↔ (q.grouping = none → ∀ c ∈ q.columns, ∃ k, c = .field k) := by
  rw [checkComputed]
  cases q.grouping with
  | some g => simp
  | none =>
    simp only [refuseFirst_eq_ok_iff, forall_const]
    refine forall₂_congr fun c _ => ?_
    cases c <;> simp [Column.key?]

theorem checkFields_eq_ok_iff {q : Query} {id : String} {kind : Kind} :
    q.checkFields id kind = .ok () ↔ ∀ k ∈ q.fieldKeys, k.field.belongsTo kind = true := by
  rw [checkFields, refuseFirst_eq_ok_iff]
  simp

/-! ### Resolving -/

/-- **A query is resolved to a dataset exactly if it agrees with it.** -/
theorem resolveAmong_eq_ok_iff {q : Query} {kindOf? : String → Option Kind} {id : String} :
    q.resolveAmong kindOf? = .ok id ↔ ∃ kind, kindOf? id = some kind ∧ q.Agrees id kind := by
  simp only [resolveAmong, bind_eq_ok_iff]
  constructor
  · rintro ⟨⟨⟩, hgrouping, ⟨⟩, horder, ⟨dataset, kind⟩, hknown, ⟨⟩, htargets, ⟨⟩, hcomputed, ⟨⟩,
      hfields, h⟩
    obtain rfl := Except.ok.inj h
    obtain ⟨hshared, hkind⟩ := knownDataset_eq_ok_iff.1 hknown
    refine ⟨kind, hkind, ?_⟩
    have hgrouping := checkGrouping_eq_ok_iff.1 hgrouping
    exact {
      names := fun g hg => (hgrouping g hg).1
      grouped := fun g hg => (hgrouping g hg).2
      ordered := checkOrder_eq_ok_iff.1 horder
      named := hshared.1
      shared := hshared.2
      numeric := checkTargets_eq_ok_iff.1 htargets
      plain := checkComputed_eq_ok_iff.1 hcomputed
      belongs := checkFields_eq_ok_iff.1 hfields }
  · rintro ⟨kind, hkind, h⟩
    exact ⟨(), checkGrouping_eq_ok_iff.2 fun g hg => ⟨h.names g hg, h.grouped g hg⟩, (),
      checkOrder_eq_ok_iff.2 h.ordered, (id, kind),
      knownDataset_eq_ok_iff.2 ⟨⟨h.named, h.shared⟩, hkind⟩, (),
      checkTargets_eq_ok_iff.2 h.numeric, (), checkComputed_eq_ok_iff.2 h.plain, (),
      checkFields_eq_ok_iff.2 h.belongs, rfl⟩

/-- Resolving on a catalog. -/
theorem resolve_eq_ok_iff {q : Query} {c : Catalog} {id : String} :
    q.resolve c = .ok id ↔ ∃ kind, c.kind? id = some kind ∧ q.Agrees id kind :=
  resolveAmong_eq_ok_iff

end Query

end CampusQuery
