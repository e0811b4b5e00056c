import CampusQuery.Proofs.Grouping

/-!
# When a grouping yields rows

A grouping reads the fields that it groups by from every record, and each of its rules reads one
field from every record of a group. Since the groups are all of the records, nothing of this says
which record is in which group: rows come out exactly if every record has the fields of the grouping
and of the rules, with a number where a rule needs one (`Grouping.exists_rows_iff`).
-/

namespace CampusQuery

theorem Record.readNumber_eq_ok_iff {f : Field} {r : Record} {x : Binary64} :
    r.readNumber f = .ok x ↔ r.get? f = some (.number x) := by
  rw [Record.readNumber]
  cases r.get? f with
  | none => simp
  | some v => cases v <;> simp

namespace Aggregation

variable {a : Aggregation} {f : Field} {members : List Record} {v : Value}

/-- An aggregation of numbers is that of the numbers in the field. -/
theorem apply_numbers_eq_ok_iff {aggregate : List Binary64 → Binary64}
    (ha : a.ofNumbers? = some aggregate) : a.apply f members = .ok v ↔
      ∃ xs, List.Forall₂ (fun r x => r.get? f = some (.number x)) members xs ∧
        .number (aggregate xs) = v := by
  unfold apply
  simp only [ha, bind_eq_ok_iff, mapM_eq_ok_iff, Record.readNumber_eq_ok_iff, pure, Except.pure,
    Except.ok.injEq]

/-- A count is that of the different values in the field. -/
theorem apply_count_eq_ok_iff : count.apply f members = .ok v ↔
    ∃ values, List.Forall₂ (fun r w => r.get? f = some w) members values ∧
      .number (.ofInt values.eraseDups.length) = v := by
  have hdistinct : ∀ values, Value.distinct values = values.eraseDups := foldl_new_eq_eraseDups
  unfold apply
  simp only [ofNumbers?, bind_eq_ok_iff, mapM_eq_ok_iff, Record.read_eq_ok_iff, hdistinct, pure,
    Except.pure, Except.ok.injEq]

/-- Counting is the only aggregation that is not one of numbers. -/
theorem ofNumbers?_eq_none_iff : a.ofNumbers? = none ↔ a = count := by
  cases a <;> simp [ofNumbers?]

theorem needsNumbers_of_ofNumbers? {aggregate : List Binary64 → Binary64}
    (ha : a.ofNumbers? = some aggregate) : a.needsNumbers = true := by
  cases a with
  | count => exact nomatch ha
  | max | min | avg | sum => rfl

/-- A record has in a field what an aggregation can read. -/
def CanRead (a : Aggregation) (f : Field) (r : Record) : Prop :=
  ∃ w, r.get? f = some w ∧ (a.needsNumbers = true → w.type = .numeric)

/-- An aggregation can be computed from records that it can read. -/
theorem exists_apply_eq_ok_iff :
    (∃ v, a.apply f members = .ok v) ↔ ∀ r ∈ members, a.CanRead f r := by
  cases ha : a.ofNumbers? with
  | none =>
    obtain rfl := ofNumbers?_eq_none_iff.1 ha
    have hread : ∀ {r : Record}, count.CanRead f r ↔ ∃ w, r.get? f = some w := by
      intro r
      exact exists_congr fun w => and_iff_left fun hneeds => nomatch hneeds
    rw [forall_mem_iff_exists_forall₂ hread]
    simp only [apply_count_eq_ok_iff]
    constructor
    · rintro ⟨v, values, hvalues, -⟩
      exact ⟨values, hvalues⟩
    · rintro ⟨values, hvalues⟩
      exact ⟨_, values, hvalues, rfl⟩
  | some aggregate =>
    -- what is computed of the numbers can not fail, once they are all there
    have hread : ∀ {r : Record}, a.CanRead f r ↔ ∃ x, r.get? f = some (.number x) := by
      intro r
      constructor
      · rintro ⟨w, hw, htype⟩
        cases w with
        | number x => exact ⟨x, hw⟩
        | text s => exact nomatch htype (needsNumbers_of_ofNumbers? ha)
      · rintro ⟨x, hx⟩
        exact ⟨.number x, hx, fun _ => rfl⟩
    rw [forall_mem_iff_exists_forall₂ hread]
    simp only [apply_numbers_eq_ok_iff ha]
    constructor
    · rintro ⟨v, xs, hxs, -⟩
      exact ⟨xs, hxs⟩
    · rintro ⟨xs, hxs⟩
      exact ⟨_, xs, hxs, rfl⟩

end Aggregation

namespace Grouping

variable {g : Grouping} {records : List Record}

/-- A tuple of a record with all fields has a row if its rules can be computed. -/
theorem exists_rowOf_iff {tuple : List (Option Value)}
    (htuple : ∃ r : Record, r.tuple g.fields = tuple ∧ ∀ f ∈ g.fields, (r.get? f).isSome) :
    (∃ row, g.RowOf records tuple row) ↔
      ∀ rule ∈ g.rules, ∃ v, rule.aggregation.apply rule.target.field
        (records.filter fun r => r.tuple g.fields == tuple) = .ok v := by
  constructor
  · rintro ⟨row, hrow⟩ rule hrule
    obtain ⟨c, -, -, hc⟩ := exists_of_mem_left hrow.computed hrule
    exact ⟨c.2, hc⟩
  · intro hrules
    obtain ⟨computed, hcomputed⟩ := exists_forall₂
      (R := fun (rule : Rule) (c : String × Value) => c.1 = rule.name ∧
        rule.aggregation.apply rule.target.field
          (records.filter fun r => r.tuple g.fields == tuple) = .ok c.2)
      fun rule hrule => by
        obtain ⟨v, hv⟩ := hrules rule hrule
        exact ⟨(rule.name, v), rfl, hv⟩
    obtain ⟨r, rfl, hsome⟩ := htuple
    obtain ⟨keys, hkeys⟩ := exists_forall₂
      (R := fun (f : Field) (cell : Field × Value) => f = cell.1 ∧ r.get? f = some cell.2)
      fun f hf => by
        obtain ⟨v, hv⟩ := Option.isSome_iff_exists.1 (hsome f hf)
        exact ⟨(f, v), rfl, hv⟩
    refine ⟨⟨keys, computed⟩, ?_, ?_, hcomputed⟩
    · have hfields : g.fields.map id = keys.map Prod.fst :=
        forall₂_eq_iff_map_eq.1 (hkeys.imp fun _ _ hcell => hcell.1)
      rw [← hfields, List.map_id]
    · exact (forall₂_eq_iff_map_eq.1 (hkeys.imp fun _ _ hcell => hcell.2)).symm

/-- Records with every field of the grouping, and with a value for every rule that the rule can
read, have rows. -/
theorem exists_isPartition (h : ∀ r ∈ records, (∀ f ∈ g.fields, (r.get? f).isSome) ∧
    ∀ rule ∈ g.rules, rule.aggregation.CanRead rule.target.field r) :
    ∃ rows, g.IsPartition records rows := by
  refine exists_forall₂ fun tuple htuple => ?_
  -- the tuple is that of a record, and its group is some of the records
  obtain ⟨r, hr, rfl⟩ := List.mem_map.1 (mem_of_mem_eraseDups htuple)
  refine (exists_rowOf_iff ⟨r, rfl, (h r hr).1⟩).2 fun rule hrule => ?_
  exact Aggregation.exists_apply_eq_ok_iff.2 fun s hs =>
    (h s (List.mem_filter.1 hs).1).2 rule hrule

/-- Every record is in the group of a row, that of the tuple that its own was met after. -/
theorem IsPartition.exists_rowOf {rows : List GroupRow} (h : g.IsPartition records rows)
    {r : Record} (hr : r ∈ records) : ∃ tuple, ∃ row ∈ rows, g.RowOf records tuple row ∧
      (r.tuple g.fields == tuple) = true := by
  have hkept : (records.map (Record.tuple g.fields)).eraseDups.any
      (· == r.tuple g.fields) = true := by
    rw [any_beq_eraseDups]
    exact List.any_eq_true.2 ⟨_, List.mem_map_of_mem hr, BEq.rfl⟩
  obtain ⟨tuple, htuple, heq⟩ := List.any_eq_true.1 hkept
  obtain ⟨row, hmem, hrow⟩ := exists_of_mem_left h htuple
  exact ⟨tuple, row, hmem, hrow, BEq.symm heq⟩

/-- **When rows come out.** Every selected record has every field of the grouping, and for every
rule a value that the rule can read. -/
theorem exists_rows_iff {records : Array Record} {positions : List Nat} :
    (∃ rows, g.rows records positions = .ok rows) ↔
      ∀ r ∈ recordsAt records positions, (∀ f ∈ g.fields, (r.get? f).isSome) ∧
        ∀ rule ∈ g.rules, rule.aggregation.CanRead rule.target.field r := by
  simp only [rows_eq_ok_iff]
  generalize recordsAt records positions = selected
  rw [exists_and_left]
  constructor
  · rintro ⟨hsome, rows, hrows⟩ r hr
    refine ⟨hsome r hr, fun rule hrule => ?_⟩
    obtain ⟨tuple, row, -, hrow, htuple⟩ := hrows.exists_rowOf hr
    obtain ⟨c, -, -, hc⟩ := exists_of_mem_left hrow.computed hrule
    exact Aggregation.exists_apply_eq_ok_iff.1 ⟨c.2, hc⟩ r (List.mem_filter.2 ⟨hr, htuple⟩)
  · intro hread
    exact ⟨fun r hr => (hread r hr).1, exists_isPartition hread⟩

end Grouping

end CampusQuery
