import CampusQuery.Proofs.Execution
import CampusQuery.Proofs.PatternText

/-!
# A group is what its values select

Grouping and filtering have each their own notion of equal values. Grouping compares the values of
a tuple in their order, in which `nan` equals itself; a filter compares numbers arithmetically and
strings with a pattern. On numbers other than `nan` and on strings without an asterisk the two come
to the same (`Filter.exists_ofValue`), so the condition that the fields of a grouping have the
values of one of its rows (`Grouping.filterOf`) holds of exactly the records of that row's group
(`Grouping.exists_filterOf`).

The selected records are those of the group in their order, and their first tuple is the one that
opened the group. So grouping them again gives one row, the same one
(`Grouping.rows_select_filterOf`), although sums and means may depend on the order of the records
and the values of a row on which of several equal tuples came first.
-/

namespace CampusQuery

/-! ### Conditions for a value -/

/-- A value that a condition can ask for: `nan` compares with nothing, and an asterisk in a string
stands for other strings. -/
def Value.Selectable : Value → Prop
  | .number x => x.isNaN = false
  | .text s => '*' ∉ s.toList

instance : DecidablePred Value.Selectable
  | .number x => inferInstanceAs (Decidable (x.isNaN = false))
  | .text s => inferInstanceAs (Decidable ('*' ∉ s.toList))

/-- A pattern without asterisks is read as its text. -/
theorem Pattern.parse_plain {s : String} (h : '*' ∉ s.toList) :
    Pattern.parse s = .ok (.exact s) :=
  Pattern.parse_eq_ok_iff.2 ⟨rfl, ⟨h, nofun⟩⟩

/-- Where one side is no `nan`, numbers are equal if they are so in their order. -/
theorem Binary64.eq_eq_compare {x y : Binary64} (hy : y.isNaN = false) :
    x.eq y = (x.compare y == .eq) := by
  rw [Binary64.eq, hy]
  cases x with
  | nan =>
    -- `nan` is after all other numbers, so it does not equal one in their order either
    cases y with
    | nan => exact nomatch hy
    | infinite negative => cases negative <;> rfl
    | finite negative magnitude => rfl
  | infinite negative => rfl
  | finite negative magnitude => rfl

namespace Filter

/-- The condition that a field has a value: an equality with a number, or a match of a string. -/
def ofValue (key : FieldKey) : Value → Except NameError Filter
  | .number x => .ok (.compare .eq key x)
  | .text s => (Pattern.parse s).map (.like key)

/-- The condition for a value holds of the records whose field has an equal value. -/
theorem exists_ofValue (key : FieldKey) {v : Value} (hv : v.Selectable) :
    ∃ leaf, ofValue key v = .ok leaf ∧ ∀ r, leaf.holds r = (r.get? key.field == some v) := by
  cases v with
  | number x =>
    refine ⟨_, rfl, fun r => ?_⟩
    rw [holds, compareHolds]
    cases r.get? key.field with
    | none => rfl
    | some w =>
      cases w with
      | number y => exact Binary64.eq_eq_compare hv
      | text t => rfl
  | text s =>
    refine ⟨.like key (.exact s), by rw [ofValue, Pattern.parse_plain hv]; rfl, fun r => ?_⟩
    rw [holds, likeHolds]
    cases r.get? key.field with
    | none => rfl
    | some w =>
      cases w with
      | number y => rfl
      | text t =>
        change (t == s) = (Ord.compare t s == .eq)
        rw [Bool.eq_iff_iff, beq_iff_eq, beq_iff_eq, Std.LawfulEqOrd.compare_eq_iff_eq]

end Filter

namespace Grouping

/-! ### The condition of a row -/

/-- The condition that the fields of a grouping have the values of a row: all conditions for the
values, one for each key. -/
def filterOf (g : Grouping) (row : GroupRow) : Except NameError Filter := do
  let leaves ← (g.keys.zip row.keys).mapM fun p => Filter.ofValue p.1 p.2.2
  return .logic .and leaves

/-- The conditions for the values of a tuple hold together of the records with an equal tuple. -/
theorem exists_leaves {keys : List FieldKey} {cells : List (Field × Value)}
    (hfields : cells.map Prod.fst = keys.map FieldKey.field)
    (hvalues : ∀ cell ∈ cells, cell.2.Selectable) :
    ∃ leaves, (keys.zip cells).mapM (fun p => Filter.ofValue p.1 p.2.2) = .ok leaves ∧
      ∀ r : Record, leaves.all (Filter.holds r) =
        (r.tuple (keys.map FieldKey.field) == cells.map fun cell => some cell.2) := by
  induction keys generalizing cells with
  | nil =>
    obtain rfl : cells = [] := List.map_eq_nil_iff.1 hfields
    exact ⟨[], rfl, fun r => rfl⟩
  | cons key rest ih =>
    cases cells with
    | nil => exact nomatch hfields
    | cons cell cells =>
      obtain ⟨hcell, hcells⟩ := List.forall_mem_cons.1 hvalues
      obtain ⟨leaf, hleaf, hholds⟩ := Filter.exists_ofValue key hcell
      obtain ⟨leaves, hleaves, hall⟩ := ih (List.cons.inj hfields).2 hcells
      refine ⟨leaf :: leaves, ?_, fun r => ?_⟩
      · rw [List.zip_cons_cons, List.mapM_cons, hleaf]
        simp only [hleaves]
        rfl
      · rw [List.all_cons, hholds, hall]
        rfl

/-- **The condition of a row holds of its group.** -/
theorem exists_filterOf {g : Grouping} {row : GroupRow}
    (hfields : row.keys.map Prod.fst = g.fields)
    (hvalues : ∀ cell ∈ row.keys, cell.2.Selectable) :
    ∃ filter, g.filterOf row = .ok filter ∧ ∀ r : Record,
      filter.holds r = (r.tuple g.fields == row.keys.map fun cell => some cell.2) := by
  obtain ⟨leaves, hleaves, hall⟩ := exists_leaves hfields hvalues
  refine ⟨.logic .and leaves, by rw [filterOf, hleaves]; rfl, fun r => ?_⟩
  rw [Filter.holds, Filter.allHold_eq_all, hall]
  rfl

/-! ### The group by itself -/

/-- The records of a group make one group, with the row that it has among all records. -/
theorem RowOf.isPartition {g : Grouping} {records : List Record} {tuple : List (Option Value)}
    {row : GroupRow} (h : g.RowOf records tuple row)
    (htuple : tuple ∈ (records.map (Record.tuple g.fields)).eraseDups) :
    g.IsPartition (records.filter fun r => r.tuple g.fields == tuple) [row] := by
  have htuples : ((records.filter fun r => r.tuple g.fields == tuple).map
      (Record.tuple g.fields)).eraseDups = [tuple] := by
    rw [← eraseDups_filter_beq htuple, List.filter_map]
    rfl
  have hcomputed := h.computed
  rw [IsPartition, htuples]
  refine .cons ⟨h.fields, h.values, ?_⟩ .nil
  simpa only [List.filter_filter, Bool.and_self] using hcomputed

/-- **Grouping and filtering agree.** Where a grouping of all records yields a row whose values can
be asked for, the records that have these values, grouped in the same way, yield that row alone. -/
theorem rows_select_filterOf {g : Grouping} {records : Array Record} {rows : List GroupRow}
    {row : GroupRow} (hrows : g.rows records (List.range records.size) = .ok rows)
    (hrow : row ∈ rows) (hvalues : ∀ cell ∈ row.keys, cell.2.Selectable) :
    ∃ filter, g.filterOf row = .ok filter ∧
      g.rows records (filter.select records) = .ok [row] := by
  rw [rows_eq_ok_iff, Query.recordsAt_range] at hrows
  obtain ⟨hpresent, hpartition⟩ := hrows
  -- the row is that of a tuple, and the values of the tuple are what its condition asks for
  obtain ⟨tuple, htuple, hrowOf⟩ := exists_of_mem_right hpartition hrow
  obtain ⟨filter, hfilter, hholds⟩ := exists_filterOf hrowOf.fields hvalues
  refine ⟨filter, hfilter, ?_⟩
  rw [rows_eq_ok_iff, Query.recordsAt_select]
  simp only [hholds, hrowOf.values]
  exact ⟨fun r hr => hpresent r (List.mem_filter.1 hr).1, hrowOf.isPartition htuple⟩

/-- A zero of either sign. -/
def signedZero (negative : Bool) : Value :=
  .number (.finite negative ⟨0, Nat.dvd_zero _, by decide +kernel⟩)

/-- Two records of a department, whose averages are the two zeros, and one of another. -/
def sampleRecords : Array Record :=
  #[.ofEntries [(.dept, .text "cpsc"), (.avg, signedZero true)],
    .ofEntries [(.dept, .text "econ"), (.avg, signedZero false)],
    .ofEntries [(.dept, .text "cpsc"), (.avg, signedZero false)]]

/-- The records by department and average, with the best average. -/
def sampleGrouping : Grouping where
  keys := [⟨"ubc", .dept⟩, ⟨"ubc", .avg⟩]
  rules := [⟨"top", .max, ⟨"ubc", .avg⟩⟩]

/-- The row of the first department, with the zero that came first. -/
def sampleRow : GroupRow where
  keys := [(.dept, .text "cpsc"), (.avg, signedZero true)]
  computed := [("top", signedZero true)]

theorem rows_select_filterOf_sampleRow :
    ∃ other filter,
      sampleGrouping.rows sampleRecords (List.range sampleRecords.size) =
        .ok [sampleRow, other] ∧
      (∀ cell ∈ sampleRow.keys, cell.2.Selectable) ∧
      sampleGrouping.filterOf sampleRow = .ok filter ∧
      sampleGrouping.rows sampleRecords (filter.select sampleRecords) = .ok [sampleRow] := by
  have hrows : sampleGrouping.rows sampleRecords (List.range sampleRecords.size) =
      .ok [sampleRow,
        ⟨[(.dept, .text "econ"), (.avg, signedZero false)], [("top", signedZero false)]⟩] := rfl
  have hvalues : ∀ cell ∈ sampleRow.keys, cell.2.Selectable := by decide
  obtain ⟨filter, hfilter, hselect⟩ :=
    rows_select_filterOf hrows (List.mem_cons_self ..) hvalues
  exact ⟨_, filter, hrows, hvalues, hfilter, hselect⟩

end Grouping

end CampusQuery
