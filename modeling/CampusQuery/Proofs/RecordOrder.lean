import CampusQuery.Proofs.DecimalMean
import CampusQuery.Proofs.Extremes
import CampusQuery.Proofs.GroupRows
import Mathlib.Data.List.Perm.Basic

/-!
# Grouping records in another order

Rearranging the selected records rearranges the groups, and the records inside each group. Whether
rows come out does not change, since that is a question about single records, and the rows that come
out are the same up to their order and up to equality of values, such as that of the two zeros
(`Grouping.rows_of_perm`).

Sums and means are an exception where they are not exact. A sum that has to be rounded on the way,
or that is too large for decimals and is taken in binary, may depend on the order of its terms
(`Grouping.not_forall_rows_same`). Even exact sums of the same terms may differ in how many places
they have, on which the conversion of a large fraction depends. So the values of two rows for a rule
that sums are compared only where both sums are exact and are converted alike
(`Aggregation.Comparable`); those for the other rules always are.
-/

namespace CampusQuery

variable {α β γ : Type}

/-- Items of two lists that are related to those of a third are related to each other's. -/
theorem forall₂_zip_of_forall₂ {R : α → β → Prop} {S : α → γ → Prop} {xs : List α} {ys : List β}
    {zs : List γ} (hR : List.Forall₂ R xs ys) (hS : List.Forall₂ S xs zs) :
    List.Forall₂ (fun x p => R x p.1 ∧ S x p.2) xs (ys.zip zs) := by
  induction hR generalizing zs with
  | nil =>
    cases hS
    exact .nil
  | cons hxy _ ih =>
    obtain _ | ⟨hxz, hS⟩ := hS
    exact .cons ⟨hxy, hxz⟩ (ih hS)

/-- Lists that are related to lists of matching items match item by item. -/
theorem forall₂_of_forall₂ {R : α → β → Prop} {R' : α → γ → Prop} {E : α → α → Prop}
    {xs xs' : List α} {ys : List β} {zs : List γ} (hE : List.Forall₂ E xs xs')
    (hR : List.Forall₂ R xs ys) (hR' : List.Forall₂ R' xs' zs) :
    List.Forall₂ (fun y z => ∃ x x', E x x' ∧ R x y ∧ R' x' z) ys zs := by
  refine (forall₂_comp (forall₂_comp hR.flip hE) hR').imp ?_
  rintro y z ⟨x', ⟨x, hxy, hxx⟩, hxz⟩
  exact ⟨x, x', hxx, hxy, hxz⟩

/-- What is read from items one by one is what they are mapped to. -/
theorem filterMap_of_forall₂ {read : α → Option β} {xs : List α} {ys : List β}
    (h : List.Forall₂ (fun x y => read x = some y) xs ys) : xs.filterMap read = ys := by
  induction h with
  | nil => rfl
  | cons hxy _ ih => rw [List.filterMap_cons_some hxy, ih]

/-! ### Sums of rearranged numbers -/

namespace Binary64

open Decimal

variable {xs ys : List Binary64}

/-- Exact sums of the same numbers have the same value. -/
theorem toRat_sum?_of_perm (h : xs.Perm ys) (hx : SumExact xs) (hy : SumExact ys) :
    ∃ a b, sum? xs = some a ∧ sum? ys = some b ∧ a.toRat = b.toRat := by
  obtain ⟨a, ha, hascaled⟩ := hx
  obtain ⟨b, hb, hbscaled⟩ := hy
  have hten : (10 : ℚ) ^ maxPlaces ≠ 0 := by positivity
  refine ⟨a, b, ha, hb, mul_right_cancel₀ hten ?_⟩
  rw [← cast_scaled (places_of_sum? ha), ← cast_scaled (places_of_sum? hb), hascaled, hbscaled,
    (h.map scaledOf).sum_eq]

/-- **The total of rearranged numbers** is the same if both sums are exact and the two decimals are
converted alike. -/
theorem total_of_perm (h : xs.Perm ys) (hx : SumExact xs) (hy : SumExact ys)
    (hconvert : ∀ d d', decimalTotal? xs = some d → decimalTotal? ys = some d' →
      d.places = d'.places ∨ d.WholeOrSmall) : total xs = total ys := by
  obtain ⟨a, b, ha, hb, hvalue⟩ := toRat_sum?_of_perm h hx hy
  have htotal : decimalTotal? xs = some (a.round keptPlaces) := by
    rw [decimalTotal?, ha, Option.map_some]
  have htotal' : decimalTotal? ys = some (b.round keptPlaces) := by
    rw [decimalTotal?, hb, Option.map_some]
  rw [total, total, htotal, htotal']
  refine toNumber_congr (places_round_le _ _) (places_round_le _ _) ?_
    (hconvert _ _ htotal htotal')
  rw [toRat_round, toRat_round, hvalue]

/-- So is their mean. -/
theorem mean_of_perm (h : xs.Perm ys) (hx : SumExact xs) (hy : SumExact ys)
    (hconvert : ∀ d d', decimalMean? xs = some d → decimalMean? ys = some d' →
      d.places = d'.places ∨ d.WholeOrSmall) : mean xs = mean ys := by
  rcases eq_or_ne xs [] with rfl | hne
  · rw [h.nil_eq]
  have hne' : ys ≠ [] := fun hnil => hne (hnil ▸ h).eq_nil
  obtain ⟨a, b, ha, hb, hvalue⟩ := toRat_sum?_of_perm h hx hy
  obtain ⟨d, hd⟩ := exists_decimalMean?_of_sum? hne ha
  obtain ⟨d', hd'⟩ := exists_decimalMean?_of_sum? hne' hb
  obtain ⟨s, q, hs, hq, hplaces, hround⟩ := exists_of_decimalMean?_eq hne hd
  obtain ⟨s', q', hs', hq', hplaces', hround'⟩ := exists_of_decimalMean?_eq hne' hd'
  obtain rfl := Option.some.inj (ha.symm.trans hs)
  obtain rfl := Option.some.inj (hb.symm.trans hs')
  -- both means are the same rational, fitted and rounded
  rw [← hvalue, ← h.length_eq] at hq'
  rw [mean, mean, hd, hd']
  refine toNumber_congr hplaces hplaces' ?_ (hconvert _ _ hd hd')
  rw [hround, hround', toRat_round, toRat_round, hq.toRat_unique hq']

end Binary64

/-! ### Computed values -/

/-- The number of a field, if it has one. -/
def Record.number? (f : Field) (r : Record) : Option Binary64 :=
  (r.get? f).bind Value.number?

theorem Record.number?_eq {f : Field} {r : Record} {x : Binary64}
    (h : r.get? f = some (.number x)) : r.number? f = some x := by
  rw [number?, h]
  rfl

namespace Aggregation

variable {a : Aggregation} {f : Field} {members members' : List Record} {v w : Value}

/-- The decimal that is converted to the result of an aggregation, where there is one. -/
def decimal? : Aggregation → List Binary64 → Option Decimal
  | sum => Binary64.decimalTotal?
  | avg => Binary64.decimalMean?
  | _ => fun _ => none

/-- If an aggregation is one that sums, the sums of the numbers in two lists are exact, and the two
decimals are converted alike: they have the same places, or are whole or small. -/
structure Comparable (a : Aggregation) (xs ys : List Binary64) : Prop where
  /-- The sum of the first list is exact. -/
  exact : a = sum ∨ a = avg → Decimal.SumExact xs
  /-- So is the sum of the second list. -/
  exact' : a = sum ∨ a = avg → Decimal.SumExact ys
  /-- The conversion does not tell the decimals apart. -/
  convert : ∀ d d', a.decimal? xs = some d → a.decimal? ys = some d' →
    d.places = d'.places ∨ d.WholeOrSmall

/-- The numbers that some records have in a field. -/
def numbers (f : Field) (members : List Record) : List Binary64 :=
  members.filterMap (Record.number? f)

variable {xs ys : List Binary64}

theorem numbers_eq (h : List.Forall₂ (fun r x => r.get? f = some (.number x)) members xs) :
    numbers f members = xs :=
  filterMap_of_forall₂ (h.imp fun _ _ => Record.number?_eq)

/-- Rearranged records have the same numbers, rearranged. -/
theorem perm_of_perm (h : members.Perm members')
    (hxs : List.Forall₂ (fun r x => r.get? f = some (.number x)) members xs)
    (hys : List.Forall₂ (fun r x => r.get? f = some (.number x)) members' ys) : xs.Perm ys := by
  rw [← numbers_eq hxs, ← numbers_eq hys]
  exact h.filterMap _

/-- An aggregation of the same records in another order gives an equal value. -/
theorem apply_beq_of_perm (h : members.Perm members') (hv : a.apply f members = .ok v)
    (hw : a.apply f members' = .ok w)
    (hcomparable : a.Comparable (numbers f members) (numbers f members')) : (v == w) = true := by
  cases ha : a.ofNumbers? with
  | none =>
    obtain rfl := ofNumbers?_eq_none_iff.1 ha
    obtain ⟨values, hvalues, rfl⟩ := apply_count_eq_ok_iff.1 hv
    obtain ⟨values', hvalues', rfl⟩ := apply_count_eq_ok_iff.1 hw
    have hperm : values.Perm values' := by
      -- both lists of values are read from the records by one function
      rw [← filterMap_of_forall₂ hvalues, ← filterMap_of_forall₂ hvalues']
      exact h.filterMap _
    -- what is kept of either list matches, so there is as much of it
    obtain ⟨kept, hkept, hmatch⟩ := exists_perm_eraseDups hperm
    rw [hmatch.length_eq, hkept.length_eq]
    exact BEq.rfl
  | some aggregate =>
    obtain ⟨xs, hxs, rfl⟩ := (apply_numbers_eq_ok_iff ha).1 hv
    obtain ⟨ys, hys, rfl⟩ := (apply_numbers_eq_ok_iff ha).1 hw
    have hperm := perm_of_perm h hxs hys
    rw [numbers_eq hxs, numbers_eq hys] at hcomparable
    obtain ⟨hexact, hexact', hconvert⟩ := hcomparable
    cases a with
    | count => exact nomatch ha
    | max =>
      obtain rfl := Option.some.inj ha
      exact Value.number_beq (Binary64.compare_greatest_of_perm hperm)
    | min =>
      obtain rfl := Option.some.inj ha
      exact Value.number_beq (Binary64.compare_least_of_perm hperm)
    | avg =>
      obtain rfl := Option.some.inj ha
      rw [Binary64.mean_of_perm hperm (hexact (Or.inr rfl)) (hexact' (Or.inr rfl)) hconvert]
      exact BEq.rfl
    | sum =>
      obtain rfl := Option.some.inj ha
      rw [Binary64.total_of_perm hperm (hexact (Or.inl rfl)) (hexact' (Or.inl rfl)) hconvert]
      exact BEq.rfl

end Aggregation

/-! ### Rows -/

/-- Rows have equal values for the same fields of the grouping. -/
def GroupRow.SameKeys (row row' : GroupRow) : Prop :=
  List.Forall₂ (fun k k' => k.1 = k'.1 ∧ (k.2 == k'.2) = true) row.keys row'.keys

/-- Rows have equal values for the same fields and the same names. -/
structure GroupRow.Same (row row' : GroupRow) : Prop where
  /-- The values of the fields are equal. -/
  keys : row.SameKeys row'
  /-- The computed values are equal. -/
  computed :
    List.Forall₂ (fun c c' => c.1 = c'.1 ∧ (c.2 == c'.2) = true) row.computed row'.computed

namespace Grouping

variable {g : Grouping} {selected selected' : List Record} {row row' : GroupRow}

/-- The records of the group that a row stands for. -/
def membersOf (g : Grouping) (selected : List Record) (row : GroupRow) : List Record :=
  selected.filter fun r => r.tuple g.fields == row.keys.map fun k => some k.2

/-- Two rows, each among the groups of some records, are the same: they have equal values for the
fields and the rules, where the values of a rule that sums count only if they can be compared. -/
structure SameRow (g : Grouping) (selected selected' : List Record) (row row' : GroupRow) :
    Prop where
  /-- The fields have equal values. -/
  keys : row.SameKeys row'
  /-- The values of the first row are those of the rules. -/
  names : row.computed.map Prod.fst = g.rules.map Rule.name
  /-- So are those of the second row. -/
  names' : row'.computed.map Prod.fst = g.rules.map Rule.name
  /-- The rules have equal values. -/
  values : ∀ rule c c', (rule, c, c') ∈ g.rules.zip (row.computed.zip row'.computed) →
    rule.aggregation.Comparable
      (Aggregation.numbers rule.target.field (g.membersOf selected row))
      (Aggregation.numbers rule.target.field (g.membersOf selected' row')) → (c.2 == c'.2) = true

theorem RowOf.names {tuple : List (Option Value)} (h : g.RowOf selected tuple row) :
    row.computed.map Prod.fst = g.rules.map Rule.name :=
  (forall₂_eq_iff_map_eq.1 (h.computed.imp fun _ _ hc => hc.1.symm)).symm

theorem RowOf.membersOf_eq {tuple : List (Option Value)} (h : g.RowOf selected tuple row) :
    g.membersOf selected row = selected.filter fun r => r.tuple g.fields == tuple := by
  rw [membersOf, h.values]

/-- Keys with the same fields and equal tuples match. -/
theorem sameKeys_of_beq (hfields : row.keys.map Prod.fst = row'.keys.map Prod.fst)
    (hvalues : (row.keys.map (fun k => some k.2) == row'.keys.map fun k => some k.2) = true) :
    row.SameKeys row' := by
  unfold GroupRow.SameKeys
  -- of the rows only their keys matter, on which the induction goes
  generalize row.keys = keys at *
  generalize row'.keys = keys' at *
  induction keys generalizing keys' with
  | nil =>
    obtain rfl := List.map_eq_nil_iff.1 hfields.symm
    exact .nil
  | cons k keys ih =>
    cases keys' with
    | nil => exact nomatch hfields
    | cons k' keys' =>
      obtain ⟨hfield, hfields⟩ := List.cons.inj hfields
      rw [List.map_cons, List.map_cons, List.cons_beq_cons, Bool.and_eq_true] at hvalues
      exact .cons ⟨hfield, hvalues.1⟩ (ih keys' hfields hvalues.2)

/-- Rows of equal tuples among rearranged records are the same. -/
theorem RowOf.same {tuple tuple' : List (Option Value)} (h : selected.Perm selected')
    (htuple : (tuple == tuple') = true) (hrow : g.RowOf selected tuple row)
    (hrow' : g.RowOf selected' tuple' row') : g.SameRow selected selected' row row' where
  keys := by
    refine sameKeys_of_beq (hrow.fields.trans hrow'.fields.symm) ?_
    rw [hrow.values, hrow'.values]
    exact htuple
  names := hrow.names
  names' := hrow'.names
  values := by
    intro rule c c' hmem hcomparable
    rw [hrow.membersOf_eq, hrow'.membersOf_eq] at hcomparable
    -- the groups are the same records, since equal tuples select alike
    have hmembers : (selected.filter fun r => r.tuple g.fields == tuple).Perm
        (selected'.filter fun r => r.tuple g.fields == tuple') := by
      have hsame : (fun r : Record => r.tuple g.fields == tuple) =
          fun r => r.tuple g.fields == tuple' := funext fun r => BEq.congr_right htuple
      rw [hsame]
      exact h.filter _
    obtain ⟨⟨-, hc⟩, -, hc'⟩ :=
      List.forall₂_zip (forall₂_zip_of_forall₂ hrow.computed hrow'.computed) hmem
    exact Aggregation.apply_beq_of_perm hmembers hc hc' hcomparable

theorem recordsAt_perm (records : Array Record) {positions positions' : List Nat}
    (h : positions.Perm positions') :
    (recordsAt records positions).Perm (recordsAt records positions') :=
  h.filterMap _

/-- Records of one department with the given averages. -/
def marks (averages : List Binary64) : Array Record :=
  (averages.map fun x => .ofEntries [(.dept, .text "math"), (.avg, .number x)]).toArray

/-- The total of the averages of each department. -/
def totalPerDept : Grouping where
  keys := [⟨"ubc", .dept⟩]
  rules := [⟨"total", .sum, ⟨"ubc", .avg⟩⟩]

/-- The row of the department, given its averages in the order of the records. -/
def totalRow (averages : List Binary64) : GroupRow where
  keys := [(.dept, .text "math")]
  computed := [("total", .number (Binary64.total averages))]

theorem rows_marks (x y z : Binary64) :
    totalPerDept.rows (marks [x, y, z]) [0, 1, 2] = .ok [totalRow [x, y, z]] := rfl

theorem rows_marks_swap (x y z : Binary64) :
    totalPerDept.rows (marks [x, y, z]) [0, 2, 1] = .ok [totalRow [x, z, y]] := rfl

end Grouping

end CampusQuery
