import CampusQuery.Execution.Row
import CampusQuery.Proofs.Outcome
import CampusQuery.Proofs.ValueOrder

/-!
# Sorting rows

The order of rows compares the columns of an order one after the other, a missing column before any
value, and turns every comparison under `down`. Read from its result, the first column in which two
rows differ decides (`SortOrder.Precedes`), and rows that agree in all columns compare equal.

The order is total and transitive whatever the rows hold (the instance of `Std.TransCmp`), so there
is one way to sort rows stably (`SortOrder.StablySorted.unique`), which `SortOrder.StablySorted`
describes: the rows are those given, none stands before a smaller one, and rows that compare equal
are in the order in which they were given. `Row.sort` sorts in this way (`Row.stablySorted_sort`).
-/

namespace CampusQuery

namespace Row

/-- Cells are compared as optional values. -/
theorem compareCells_eq_compare (v w : Option Value) : compareCells v w = Ord.compare v w := by
  cases v <;> cases w <;> rfl

/-- The order of cells in a direction. -/
def compareColumn (direction : Direction) (name : String) (a b : Row) : Ordering :=
  match direction with
  | .up => compareOn (Row.get? · name) a b
  | .down => compareOn (Row.get? · name) b a

/-- The first column decides unless it is equal. -/
theorem compareBy_cons (direction : Direction) (name : String) (rest : List String) :
    compareBy direction (name :: rest) =
      compareLex (compareColumn direction name) (compareBy direction rest) := by
  funext a b
  unfold compareBy compareLex
  rw [compareCells_eq_compare]
  cases direction with
  | up =>
    change _ = (Ord.compare (a.get? name) (b.get? name)).then _
    cases Ord.compare (a.get? name) (b.get? name) <;> rfl
  | down =>
    -- turning a comparison is comparing the other way round
    change _ = (Ord.compare (b.get? name) (a.get? name)).then _
    rw [Std.OrientedOrd.eq_swap (a := b.get? name)]
    cases Ord.compare (a.get? name) (b.get? name) <;> rfl

instance (direction : Direction) (name : String) :
    Std.TransCmp (compareColumn direction name) := by
  cases direction with
  | up => exact inferInstanceAs (Std.TransCmp (compareOn (Row.get? · name)))
  | down => exact inferInstanceAs (Std.TransCmp fun a b => compareOn (Row.get? · name) b a)

/-- The order of rows is total and transitive. -/
instance (direction : Direction) (names : List String) :
    Std.TransCmp (compareBy direction names) := by
  induction names with
  | nil => exact { eq_swap := rfl, isLE_trans := fun _ _ => rfl }
  | cons name rest ih =>
    rw [compareBy_cons]
    infer_instance

end Row

/-- The comparison of rows that an order asks for. -/
def SortOrder.compare (order : SortOrder) : Row → Row → Ordering :=
  Row.compareBy order.direction (order.columns.map Column.name)

instance (order : SortOrder) : Std.TransCmp order.compare :=
  inferInstanceAs (Std.TransCmp (Row.compareBy _ _))

/-- Rows are put into an order, and rows that compare equal stay as they are. -/
structure SortOrder.StablySorted (order : SortOrder) (rows sorted : List Row) : Prop where
  /-- The rows are those given. -/
  perm : sorted.Perm rows
  /-- No row stands before one that it comes after. -/
  ascending : sorted.Pairwise fun a b => order.compare a b ≠ .gt
  /-- The rows that compare equal to any row stand as they were given. -/
  stable : ∀ row, (sorted.filter fun a => order.compare row a == .eq) =
    rows.filter fun a => order.compare row a == .eq

namespace Row

/-- **Sorting is stable.** -/
theorem stablySorted_sort (order : SortOrder) (rows : List Row) :
    order.StablySorted rows (Row.sort order rows) := by
  -- what the merge sort of the library asks of an order
  have htrans : ∀ a b c : Row, (order.compare a b).isLE → (order.compare b c).isLE →
      (order.compare a c).isLE := fun _ _ _ => Std.TransCmp.isLE_trans
  have htotal : ∀ a b : Row, ((order.compare a b).isLE || (order.compare b a).isLE) = true :=
    isLE_total order.compare
  have hperm : (Row.sort order rows).Perm rows := List.mergeSort_perm _ _
  refine ⟨hperm, ?_, fun row => ?_⟩
  · refine (List.pairwise_mergeSort htrans htotal rows).imp fun h => ?_
    rintro hgt
    rw [hgt] at h
    exact Bool.false_ne_true h
  · -- the rows of a class are in order as they stand, so sorting keeps them as a sublist
    have hsorted : (rows.filter fun a => order.compare row a == .eq).Pairwise
        fun a b => (order.compare a b).isLE := by
      refine List.pairwise_of_forall_mem_list fun a ha b hb => ?_
      have ha := beq_iff_eq.1 (List.mem_filter.1 ha).2
      have hb := beq_iff_eq.1 (List.mem_filter.1 hb).2
      rw [← Std.TransCmp.congr_left ha, hb]
      rfl
    have hsub := (List.sublist_mergeSort htrans htotal hsorted List.filter_sublist).filter
      fun a => order.compare row a == .eq
    rw [List.filter_filter] at hsub
    simp only [Bool.and_self] at hsub
    exact (hsub.eq_of_length (hperm.filter _).length_eq.symm).symm

end Row

/-! ### The order of rows, column by column -/

/-- A cell stands before another one: an absent one before any value, and a smaller value before a
greater one. -/
inductive Row.CellBefore : Option Value → Option Value → Prop where
  /-- The first cell is absent and the second is not. -/
  | absent (v : Value) : CellBefore none (some v)
  /-- Both cells are there. -/
  | value {v w : Value} (h : v.compare w = .lt) : CellBefore (some v) (some w)

/-- Rows agree in a column: neither has it, or they have equal values there. -/
def Column.EqualIn (a b : Row) (c : Column) : Prop :=
  (a.get? c.name == b.get? c.name) = true

/-- A row comes before another in an order. The first of the columns in which they differ decides,
by the smaller cell upwards and by the greater one downwards. -/
def SortOrder.Precedes (order : SortOrder) (a b : Row) : Prop :=
  ∃ c, IsFirst (fun c => ¬c.EqualIn a b) order.columns c ∧
    match order.direction with
    | .up => Row.CellBefore (a.get? c.name) (b.get? c.name)
    | .down => Row.CellBefore (b.get? c.name) (a.get? c.name)

namespace Row

theorem compare_eq_lt_iff_cellBefore {v w : Option Value} :
    Ord.compare v w = .lt ↔ CellBefore v w := by
  constructor
  · intro h
    cases v with
    | none =>
      cases w with
      | none => exact nomatch h
      | some w => exact .absent w
    | some v =>
      cases w with
      | none => exact nomatch h
      | some w => exact .value h
  · rintro (_ | h)
    · rfl
    · exact h

/-- Rows are equal in a column as their cells are. -/
theorem compareColumn_eq_eq_iff {direction : Direction} {c : Column} {a b : Row} :
    compareColumn direction c.name a b = .eq ↔ c.EqualIn a b := by
  cases direction with
  | up => exact Std.LawfulBEqOrd.compare_eq_iff_beq
  | down => exact Std.LawfulBEqOrd.compare_eq_iff_beq.trans (by rw [BEq.comm]; rfl)

theorem compareColumn_eq_lt_iff {direction : Direction} {name : String} {a b : Row} :
    compareColumn direction name a b = .lt ↔
      match direction with
      | .up => CellBefore (a.get? name) (b.get? name)
      | .down => CellBefore (b.get? name) (a.get? name) := by
  cases direction <;> exact compare_eq_lt_iff_cellBefore

variable {direction : Direction} {columns : List Column} {a b : Row}

/-- Rows compare equal if they agree in all columns. -/
theorem compareBy_eq_eq_iff :
    compareBy direction (columns.map Column.name) a b = .eq ↔ ∀ c ∈ columns, c.EqualIn a b := by
  induction columns with
  | nil => simp [compareBy]
  | cons c columns ih =>
    rw [List.map_cons, compareBy_cons, compareLex, Ordering.then_eq_eq, ih,
      compareColumn_eq_eq_iff, List.forall_mem_cons]

/-- The first column in which rows differ decides. -/
theorem compareBy_eq_lt_iff :
    compareBy direction (columns.map Column.name) a b = .lt ↔
      ∃ c, IsFirst (fun c => ¬c.EqualIn a b) columns c ∧
        compareColumn direction c.name a b = .lt := by
  induction columns with
  | nil => simp [compareBy, isFirst_nil]
  | cons c columns ih =>
    rw [List.map_cons, compareBy_cons, compareLex, Ordering.then_eq_lt, ih,
      compareColumn_eq_eq_iff]
    simp only [isFirst_cons_iff, not_not]
    constructor
    · -- either the head decides, or the rows agree there and the rest does
      rintro (hlt | ⟨hequal, c', hfirst, hlt⟩)
      · refine ⟨c, .inl ⟨fun hequal => ?_, rfl⟩, hlt⟩
        exact nomatch (compareColumn_eq_eq_iff.2 hequal).symm.trans hlt
      · exact ⟨c', .inr ⟨hequal, hfirst⟩, hlt⟩
    · rintro ⟨c', ⟨-, rfl⟩ | ⟨hequal, hfirst⟩, hlt⟩
      · exact .inl hlt
      · exact .inr ⟨hequal, c', hfirst, hlt⟩

end Row

namespace SortOrder

variable {order : SortOrder} {a b : Row}

theorem compare_eq_lt_iff : order.compare a b = .lt ↔ order.Precedes a b := by
  rw [SortOrder.compare, Row.compareBy_eq_lt_iff]
  simp only [Row.compareColumn_eq_lt_iff, Precedes]

theorem compare_eq_eq_iff :
    order.compare a b = .eq ↔ ∀ c ∈ order.columns, c.EqualIn a b :=
  Row.compareBy_eq_eq_iff

end SortOrder

/-! ### Sorting has one result -/

/-- Things that are neither way out of order compare equal. -/
theorem compare_eq_eq_of_ne_gt {α : Type} (cmp : α → α → Ordering) [Std.OrientedCmp cmp] {a b : α}
    (hab : cmp a b ≠ .gt) (hba : cmp b a ≠ .gt) : cmp a b = .eq := by
  have hswap : cmp b a = (cmp a b).swap := Std.OrientedCmp.eq_swap
  rw [hswap] at hba
  cases h : cmp a b with
  | eq => rfl
  | lt => exact absurd (congrArg Ordering.swap h) hba
  | gt => exact absurd h hab

/-- Lists of the same things in ascending order are the same if equal things stand alike in both. -/
theorem eq_of_perm_of_stable {α : Type} (cmp : α → α → Ordering) [Std.TransCmp cmp]
    {xs ys : List α} (hperm : xs.Perm ys) (hxs : xs.Pairwise fun a b => cmp a b ≠ .gt)
    (hys : ys.Pairwise fun a b => cmp a b ≠ .gt)
    (hstable : ∀ c, (xs.filter fun a => cmp c a == .eq) = ys.filter fun a => cmp c a == .eq) :
    xs = ys := by
  induction xs generalizing ys with
  | nil => exact hperm.nil_eq
  | cons a xs ih =>
    cases ys with
    | nil => exact absurd hperm.symm.nil_eq (List.cons_ne_nil a xs).symm
    | cons b ys =>
      obtain ⟨ha, hxrest⟩ := List.pairwise_cons.1 hxs
      obtain ⟨hb, hyrest⟩ := List.pairwise_cons.1 hys
      have hself : ∀ c, cmp c c = .eq := fun c => Std.ReflCmp.compare_self
      have hle : ∀ {x y : α} {zs : List α}, (∀ z ∈ zs, cmp x z ≠ .gt) → y ∈ x :: zs →
          cmp x y ≠ .gt := by
        intro x y zs hzs hy
        rcases List.mem_cons.1 hy with rfl | hy
        · rw [hself]
          decide
        · exact hzs y hy
      -- both heads are least, so they are equal in the order, and then they are the same
      have hab : cmp a b = .eq := compare_eq_eq_of_ne_gt cmp
        (hle ha (hperm.symm.subset (List.mem_cons_self ..)))
        (hle hb (hperm.subset (List.mem_cons_self ..)))
      have hheads := hstable a
      rw [List.filter_cons_of_pos (by rw [hself]; rfl), List.filter_cons_of_pos (by rw [hab]; rfl)]
        at hheads
      obtain ⟨rfl, -⟩ := List.cons.inj hheads
      refine congrArg (a :: ·) (ih hperm.cons_inv hxrest hyrest fun c => ?_)
      have hc := hstable c
      rw [List.filter_cons, List.filter_cons] at hc
      split at hc
      · exact (List.cons.inj hc).2
      · exact hc

namespace SortOrder

/-- Rows are stably sorted in one way. -/
theorem StablySorted.unique {order : SortOrder} {rows sorted sorted' : List Row}
    (h : order.StablySorted rows sorted) (h' : order.StablySorted rows sorted') :
    sorted = sorted' :=
  eq_of_perm_of_stable order.compare (h.perm.trans h'.perm.symm) h.ascending h'.ascending
    fun row => (h.stable row).trans (h'.stable row).symm

end SortOrder

/-- **Sorting rows.** Rows are compared column by column, which is a total preorder of all rows
whatever they hold, and sorting yields the one list of the rows that is stably sorted by it. -/
theorem Row.sort_eq_iff_stablySorted (order : SortOrder) (rows : List Row) :
    (∀ a b, order.compare a b = .lt ↔ order.Precedes a b) ∧
    (∀ a b, order.compare a b = .eq ↔ ∀ c ∈ order.columns, c.EqualIn a b) ∧
    (∀ a b, order.compare b a = (order.compare a b).swap) ∧
    (∀ a b c, order.compare a b ≠ .gt → order.compare b c ≠ .gt → order.compare a c ≠ .gt) ∧
    ∀ sorted, sorted = Row.sort order rows ↔ order.StablySorted rows sorted := by
  refine ⟨fun a b => SortOrder.compare_eq_lt_iff, fun a b => SortOrder.compare_eq_eq_iff,
    fun a b => Std.OrientedCmp.eq_swap, fun a b c hab hbc => ?_, fun sorted => ⟨?_, fun h => ?_⟩⟩
  · have hac := Std.TransCmp.isLE_trans (Ordering.isLE_iff_ne_gt.2 hab)
      (Ordering.isLE_iff_ne_gt.2 hbc)
    exact Ordering.isLE_iff_ne_gt.1 hac
  · rintro rfl
    exact Row.stablySorted_sort order rows
  · exact h.unique (Row.stablySorted_sort order rows)

end CampusQuery
