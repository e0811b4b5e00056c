import CampusQuery.Proofs.GroupRows
import CampusQuery.Proofs.GroupTable

/-!
# Groups in the order of their first records

What a grouping does to the selected records is said here by places in their list. A record opens a
group if no record before it has equal values in the fields of the grouping. There is one row for
each such record, in their order, with the values of that record and with what the rules compute
from all the records that have equal values, in their order (`Grouping.ByFirstAppearance`). So each
selected record has the values of just one row.

A record that lacks a field of the grouping ends the grouping with the first such record and its
first such field, whatever the rules would come to (`Grouping.rows_eq_error`). Both and the
condition for rows to come out are `Grouping.rows_outcome`.
-/

namespace CampusQuery

/-! ### First places -/

/-- What is kept of a list without repetitions stands in the list at ascending places, with nothing
equal before it. -/
theorem exists_places_eraseDups {α : Type} [BEq α] [EquivBEq α] (as : List α) :
    ∃ places : List Nat, places.Pairwise (· < ·) ∧
      List.Forall₂ (fun i a => as[i]? = some a ∧ ∀ b ∈ as.take i, (b == a) = false)
        places as.eraseDups := by
  induction as using List.reverseRecOn with
  | nil => exact ⟨[], .nil, .nil⟩
  | append_singleton as a ih =>
    obtain ⟨places, hascending, hplaces⟩ := ih
    have hlt : ∀ i ∈ places, i < as.length := by
      intro i hi
      obtain ⟨b, -, hb, -⟩ := exists_of_mem_left hplaces hi
      exact (List.getElem?_eq_some_iff.1 hb).1
    -- one more item leaves the places as they are
    have hold : List.Forall₂
        (fun i b => (as ++ [a])[i]? = some b ∧ ∀ c ∈ (as ++ [a]).take i, (c == b) = false)
        places as.eraseDups := by
      refine hplaces.imp fun i b hb => ?_
      have hi : i < as.length := (List.getElem?_eq_some_iff.1 hb.1).1
      rw [List.getElem?_append_left hi, List.take_append_of_le_length (Nat.le_of_lt hi)]
      exact hb
    rw [eraseDups_concat, any_beq_eraseDups]
    split
    · exact ⟨places, hascending, hold⟩
    · next hnew =>
      have hnew : ∀ c ∈ as, (c == a) = false := by simpa using hnew
      refine ⟨places ++ [as.length], ?_, List.rel_append hold (.cons ⟨?_, ?_⟩ .nil)⟩
      · refine List.pairwise_append.2 ⟨hascending, List.pairwise_singleton _ _, fun i hi j hj => ?_⟩
        rw [List.mem_singleton.1 hj]
        exact hlt i hi
      · rw [List.getElem?_concat_length]
      · rw [List.take_left]
        exact hnew

/-! ### What rules compute -/

/-- There are so many different values in a list: as many can be kept that no two are equal and
each value equals one of them. -/
def Value.HasDistinct (values : List Value) (n : Nat) : Prop :=
  ∃ kept : List Value, kept.length = n ∧ kept ⊆ values ∧
    (kept.Pairwise fun v w => (v == w) = false) ∧ ∀ v ∈ values, ∃ w ∈ kept, (w == v) = true

theorem Value.hasDistinct_eraseDups (values : List Value) :
    HasDistinct values values.eraseDups.length := by
  refine ⟨values.eraseDups, rfl, fun v hv => mem_of_mem_eraseDups hv,
    pairwise_eraseDups_bne values, fun v hv => ?_⟩
  rw [← List.any_eq_true, any_beq_eraseDups]
  exact List.any_eq_true.2 ⟨v, hv, BEq.rfl⟩

/-- What an aggregation comes to on the values that some records have in a field. -/
inductive Aggregation.Computes (f : Field) (members : List Record) :
    Aggregation → Value → Prop where
  /-- Numbers are aggregated in the order of the records. -/
  | numbers {a : Aggregation} {aggregate : List Binary64 → Binary64} {xs : List Binary64}
    (ha : a.ofNumbers? = some aggregate)
    (hxs : List.Forall₂ (fun r x => r.get? f = some (.number x)) members xs) :
    Computes f members a (.number (aggregate xs))
  /-- Values of either type are counted, equal ones once. -/
  | count {values : List Value} {n : Nat}
    (hvalues : List.Forall₂ (fun r v => r.get? f = some v) members values)
    (hn : Value.HasDistinct values n) : Computes f members .count (.number (.ofInt n))

theorem Aggregation.computes_of_apply {a : Aggregation} {f : Field} {members : List Record}
    {v : Value} (h : a.apply f members = .ok v) : a.Computes f members v := by
  cases ha : a.ofNumbers? with
  | none =>
    obtain rfl := ofNumbers?_eq_none_iff.1 ha
    obtain ⟨values, hvalues, rfl⟩ := apply_count_eq_ok_iff.1 h
    exact .count hvalues (Value.hasDistinct_eraseDups values)
  | some aggregate =>
    obtain ⟨xs, hxs, rfl⟩ := (apply_numbers_eq_ok_iff ha).1 h
    exact .numbers ha hxs

/-! ### Rows by their first records -/

/-- A record has the values of a row in the fields of the grouping. -/
def GroupRow.has (row : GroupRow) (r : Record) : Bool :=
  row.keys.all fun cell => r.get? cell.1 == some cell.2

namespace Grouping

/-- A row is that of the record at a place among the selected ones. -/
structure RowAt (g : Grouping) (selected : List Record) (place : Nat) (row : GroupRow) :
    Prop where
  /-- The fields of the grouping in their order. -/
  fields : row.keys.map Prod.fst = g.fields
  /-- The values of the record. -/
  values : ∃ r, selected[place]? = some r ∧ ∀ cell ∈ row.keys, r.get? cell.1 = some cell.2
  /-- No record before it has these values. -/
  first : ∀ r ∈ selected.take place, row.has r = false
  /-- The rules in their order, each computed from all records that have these values. -/
  computed : List.Forall₂ (fun rule c => c.1 = rule.name ∧
    rule.aggregation.Computes rule.target.field (selected.filter row.has) c.2) g.rules row.computed

/-- There is a row for each group of the selected records, in the order of their first records. -/
structure ByFirstAppearance (g : Grouping) (selected : List Record) (rows : List GroupRow) :
    Prop where
  /-- The rows are those of records at ascending places. -/
  places : ∃ places : List Nat, places.Pairwise (· < ·) ∧
    List.Forall₂ (g.RowAt selected) places rows
  /-- Each selected record has the values of a row. -/
  covered : ∀ r ∈ selected, ∃ row ∈ rows, row.has r = true
  /-- No two rows have equal values. -/
  distinct : rows.Pairwise fun row row' =>
    (row.keys.map Prod.snd == row'.keys.map Prod.snd) = false

variable {g : Grouping} {selected : List Record} {tuple : List (Option Value)} {row : GroupRow}

theorem map_beq_map {α β : Type} [BEq β] (f f' : α → β) (xs : List α) :
    (xs.map f == xs.map f') = xs.all fun x => f x == f' x := by
  induction xs with
  | nil => rfl
  | cons x xs ih => rw [List.map_cons, List.map_cons, List.cons_beq_cons, List.all_cons, ih]

/-- The records with the values of a row are those with its tuple. -/
theorem RowOf.has_eq (h : g.RowOf selected tuple row) (r : Record) :
    row.has r = (r.tuple g.fields == tuple) := by
  rw [← h.fields, ← h.values, Record.tuple, List.map_map, map_beq_map]
  rfl

/-- The row of a tuple is that of the first record with the tuple. -/
theorem RowOf.rowAt {place : Nat} (h : g.RowOf selected tuple row)
    (hplace : (selected.map (Record.tuple g.fields))[place]? = some tuple)
    (hfirst : ∀ t ∈ (selected.map (Record.tuple g.fields)).take place, (t == tuple) = false) :
    g.RowAt selected place row where
  fields := h.fields
  values := by
    obtain ⟨r, hr, htuple⟩ := Option.map_eq_some_iff.1 ((List.getElem?_map ..).symm.trans hplace)
    refine ⟨r, hr, List.map_inj_left.1 ?_⟩
    rw [h.values, ← htuple, Record.tuple, ← h.fields, List.map_map]
    rfl
  first := by
    intro r hr
    rw [h.has_eq]
    rw [← List.map_take] at hfirst
    exact hfirst _ (List.mem_map_of_mem hr)
  computed := by
    have hmembers : selected.filter row.has = selected.filter fun r => r.tuple g.fields == tuple :=
      List.filter_congr fun r _ => h.has_eq r
    rw [hmembers]
    exact h.computed.imp fun rule c hc => ⟨hc.1, Aggregation.computes_of_apply hc.2⟩

/-- The rows of the distinct tuples are those of the first records. -/
theorem IsPartition.byFirstAppearance {rows : List GroupRow} (h : g.IsPartition selected rows) :
    g.ByFirstAppearance selected rows where
  places := by
    obtain ⟨places, hascending, hplaces⟩ :=
      exists_places_eraseDups (selected.map (Record.tuple g.fields))
    refine ⟨places, hascending, (forall₂_comp hplaces h).imp ?_⟩
    rintro place row ⟨tuple, ⟨hplace, hfirst⟩, hrow⟩
    exact hrow.rowAt hplace hfirst
  covered := by
    intro r hr
    obtain ⟨tuple, row, hmem, hrow, htuple⟩ := h.exists_rowOf hr
    exact ⟨row, hmem, (hrow.has_eq r).trans htuple⟩
  distinct := by
    -- the rows show the tuples that were kept, and of these no two are equal
    have htuples : (selected.map (Record.tuple g.fields)).eraseDups =
        rows.map fun row => row.keys.map fun cell => some cell.2 := by
      have hvalues : List.Forall₂ (fun tuple row => id tuple = row.keys.map fun cell => some cell.2)
          (selected.map (Record.tuple g.fields)).eraseDups rows :=
        h.imp fun _ _ hrow => hrow.values.symm
      rw [← forall₂_eq_iff_map_eq.1 hvalues, List.map_id]
    have hdistinct := pairwise_eraseDups_bne (selected.map (Record.tuple g.fields))
    rw [htuples, List.pairwise_map] at hdistinct
    refine hdistinct.imp fun {row row'} hne => ?_
    rwa [map_some_snd, map_some_snd, map_some_beq_map_some] at hne

/-! ### Missing fields -/

theorem keyOf_ne_ok_iff {fields : List Field} {r : Record} :
    (∀ key, Group.keyOf fields r ≠ .ok key) ↔ ∃ f ∈ fields, r.get? f = none := by
  rw [← not_exists, exists_keyOf_iff]
  simp only [not_forall, exists_prop, Bool.not_eq_true, Option.isSome_eq_false_iff,
    Option.isNone_iff_eq_none]

/-- The key of a record ends with the first field that it lacks. -/
theorem keyOf_eq_error {fields : List Field} {r : Record} {f : Field}
    (hf : IsFirst (fun f => r.get? f = none) fields f) :
    Group.keyOf fields r = .error (.missingValue f) := by
  have hread : ∀ f, (∀ v, r.read f ≠ .ok v) ↔ r.get? f = none := by
    intro f
    simp only [ne_eq, Record.read_eq_ok_iff, ← Option.eq_none_iff_forall_ne_some]
  have hmissing : r.read f = .error (.missingValue f) := by
    obtain ⟨-, -, -, hnone, -⟩ := hf
    rw [Record.read, hnone]
  refine mapM_eq_error ?_ hmissing
  simpa only [hread] using hf

/-- **A missing field.** The first record that lacks a field of the grouping is an error at its
first such field, before anything is computed. -/
theorem rows_eq_error {records : Array Record} {positions : List Nat} {r : Record} {f : Field}
    (hr : IsFirst (fun r => ∃ f ∈ g.fields, r.get? f = none) (recordsAt records positions) r)
    (hf : IsFirst (fun f => r.get? f = none) g.fields f) :
    g.rows records positions = .error (.missingValue f) := by
  -- all keys are read before a group is closed, so no rule has been looked at when this fails
  have hkeys : (recordsAt records positions).mapM (Group.keyOf g.fields) =
      .error (.missingValue f) := by
    refine mapM_eq_error ?_ (keyOf_eq_error hf)
    simpa only [keyOf_ne_ok_iff] using hr
  have hcollect : Group.collect g.fields (recordsAt records positions) =
      .error (.missingValue f) := by
    rw [Group.collect_eq, hkeys]
    rfl
  change (Group.collect g.fields (recordsAt records positions) >>= _) = _
  rw [hcollect]
  rfl

/-- **What a grouping comes to.** Rows come out exactly if every selected record has every field of
the grouping and, for every rule, a value that the rule can read. They are then those of the groups
in the order of first appearance. Where a field of the grouping is missing, the error is the first
one in the order of the records and of the fields. All this is so as well if the groups are found
through a table. -/
theorem rows_outcome (g : Grouping) (records : Array Record) (positions : List Nat) :
    g.rowsByTable records positions = g.rows records positions ∧
    ((∃ rows, g.rows records positions = .ok rows) ↔
      ∀ r ∈ recordsAt records positions, (∀ f ∈ g.fields, (r.get? f).isSome) ∧
        ∀ rule ∈ g.rules, rule.aggregation.CanRead rule.target.field r) ∧
    (∀ rows, g.rows records positions = .ok rows →
      g.ByFirstAppearance (recordsAt records positions) rows) ∧
    ((∃ r ∈ recordsAt records positions, ∃ f ∈ g.fields, r.get? f = none) →
      ∃ r f, IsFirst (fun r => ∃ f ∈ g.fields, r.get? f = none) (recordsAt records positions) r ∧
        IsFirst (fun f => r.get? f = none) g.fields f ∧
        g.rows records positions = .error (.missingValue f)) := by
  refine ⟨rowsByTable_eq .., exists_rows_iff, fun rows hrows => ?_, ?_⟩
  · exact (rows_eq_ok_iff.1 hrows).2.byFirstAppearance
  · rintro ⟨r, hr, hlacks⟩
    obtain ⟨r, hfirst⟩ := exists_isFirst (p := fun r => ∃ f ∈ g.fields, r.get? f = none) hr hlacks
    obtain ⟨-, -, -, ⟨f, hf, hnone⟩, -⟩ := id hfirst
    obtain ⟨f, hfield⟩ := exists_isFirst (p := fun f => r.get? f = none) hf hnone
    exact ⟨r, f, hfirst, hfield, rows_eq_error hfirst hfield⟩

/-- Records whose averages are negative zero, `nan` and zero, and one without an average. -/
def unusualAverages : Array Record :=
  #[.ofEntries [(.dept, .text "cpsc"), (.avg, .number (.ofWord ((1 : UInt64) <<< 63)))],
    .ofEntries [(.dept, .text "econ"), (.avg, .number .nan)],
    .ofEntries [(.dept, .text "cpsc"), (.avg, .number (.ofWord 0))],
    .ofEntries [(.dept, .text "math")]]

/-- The departments for each average, and how many there are. -/
def deptsPerAverage : Grouping where
  keys := [⟨"ubc", .avg⟩]
  rules := [⟨"depts", .count, ⟨"ubc", .dept⟩⟩]

/-- A position beyond the records is none, one that is repeated is one more record of its group, and
both zeros are in one group. -/
theorem rows_outcome_unusualAverages :
    ∃ nans zeros : GroupRow,
      deptsPerAverage.rows unusualAverages [1, 0, 7, 2, 1] = .ok [nans, zeros] ∧
      deptsPerAverage.ByFirstAppearance (recordsAt unusualAverages [1, 0, 7, 2, 1]) [nans, zeros] ∧
      ∃ f, deptsPerAverage.rows unusualAverages [1, 3, 0] = .error (.missingValue f) := by
  have hrows : deptsPerAverage.rows unusualAverages [1, 0, 7, 2, 1] =
      .ok [⟨[(.avg, .number .nan)], [("depts", .number (.ofInt 1))]⟩,
        ⟨[(.avg, .number (.ofWord ((1 : UInt64) <<< 63)))], [("depts", .number (.ofInt 1))]⟩] := rfl
  obtain ⟨-, -, hokay, -⟩ := rows_outcome deptsPerAverage unusualAverages [1, 0, 7, 2, 1]
  obtain ⟨-, -, -, hmissing⟩ := rows_outcome deptsPerAverage unusualAverages [1, 3, 0]
  obtain ⟨-, f, -, -, herror⟩ := hmissing
    ⟨.ofEntries [(.dept, .text "math")], .tail _ (.head _), .avg, .head _, rfl⟩
  exact ⟨_, _, hrows, hokay _ hrows, f, herror⟩

end Grouping

end CampusQuery
