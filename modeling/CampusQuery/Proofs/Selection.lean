import CampusQuery.Execution.Selection
import Mathlib.Data.List.Sort

/-!
# Selecting is testing every record

`Filter.select` narrows a list of candidates while it carries negations down to the single
conditions; `Filter.holds` evaluates the tree of a filter on one record. The two agree: what
`narrow` leaves of a list of positions is what a test of each position leaves
(`Filter.narrow_eq_filter`), for either polarity and for every ascending list of positions. Hence
`select` yields, in ascending order, exactly the positions of the records of which the filter holds,
and the positions that a filter and its negation select make up all positions, each once.

Two steps matter. One is De Morgan's law in the form that the selection uses
(`Filter.holds_logic_bne`): a connective under a polarity asks for all its conditions or for one of
them, each under the same polarity. The other is that a strictly ascending list is known by its
members (`sortPositions_eq`), so that what several conditions leave, collected in any order and as
often as it may be, is one list once it has been sorted.
-/

namespace CampusQuery

/-! ### Positions in ascending order -/

/-- What has been collected of a list without its repeats stands in front of what follows. -/
theorem eraseReps_loop_append (a : Nat) (l acc : List Nat) :
    List.eraseRepsBy.loop (· == ·) a l acc =
      acc.reverse ++ List.eraseRepsBy.loop (· == ·) a l [] := by
  -- `a` is the item last seen, which the loop keeps apart from what it has collected
  induction l generalizing a acc with
  | nil => simp [List.eraseRepsBy.loop]
  | cons b rest ih =>
    rw [List.eraseRepsBy.loop, List.eraseRepsBy.loop]
    split
    · exact ih a acc
    · rw [ih b (a :: acc), ih b [a]]
      simp

/-- Erasing repeats compares neighbours only. -/
theorem eraseReps_cons_cons (a b : Nat) (l : List Nat) :
    (a :: b :: l).eraseReps =
      if a = b then (b :: l).eraseReps else a :: (b :: l).eraseReps := by
  change List.eraseRepsBy.loop (· == ·) a (b :: l) [] =
    if a = b then List.eraseRepsBy.loop (· == ·) b l []
    else a :: List.eraseRepsBy.loop (· == ·) b l []
  rw [List.eraseRepsBy.loop]
  by_cases h : a = b
  · subst h
    simp
  · have hne : (a == b) = false := by simpa using h
    rw [hne, if_neg h]
    exact eraseReps_loop_append b l [a]

theorem mem_eraseReps {i : Nat} : ∀ {l : List Nat}, i ∈ l.eraseReps ↔ i ∈ l
  | [] => Iff.rfl
  | [_] => Iff.rfl
  | a :: b :: l => by
    rw [eraseReps_cons_cons]
    by_cases h : a = b
    · subst h
      rw [if_pos rfl, mem_eraseReps]
      simp
    · rw [if_neg h, List.mem_cons, mem_eraseReps, ← List.mem_cons]

/-- Without its repeats an ascending list ascends strictly. -/
theorem pairwise_eraseReps :
    ∀ {l : List Nat}, l.Pairwise (· ≤ ·) → l.eraseReps.Pairwise (· < ·)
  | [], _ => List.Pairwise.nil
  | [a], _ => List.pairwise_singleton _ a
  | a :: b :: l, h => by
    obtain ⟨ha, hl⟩ := List.pairwise_cons.1 h
    rw [eraseReps_cons_cons]
    by_cases hab : a = b
    · rw [if_pos hab]
      exact pairwise_eraseReps hl
    · rw [if_neg hab]
      refine List.pairwise_cons.2 ⟨fun i hi => ?_, pairwise_eraseReps hl⟩
      -- `a` is below `b`, and `b` is the least of what follows
      have hlt : a < b := Nat.lt_of_le_of_ne (ha b (List.mem_cons_self ..)) hab
      rcases List.mem_cons.1 (mem_eraseReps.1 hi) with rfl | hi
      · exact hlt
      · exact Nat.lt_of_lt_of_le hlt ((List.pairwise_cons.1 hl).1 i hi)

theorem mem_sortPositions {i : Nat} {positions : List Nat} :
    i ∈ sortPositions positions ↔ i ∈ positions := by
  rw [sortPositions, mem_eraseReps, List.mem_mergeSort]

theorem pairwise_sortPositions (positions : List Nat) :
    (sortPositions positions).Pairwise (· < ·) := by
  refine pairwise_eraseReps ?_
  have hsorted := @List.pairwise_mergeSort Nat (fun i j => decide (i ≤ j))
    (by simpa using fun _ _ _ => Nat.le_trans) (by simpa using Nat.le_total) positions
  simpa using hsorted

/-- Sorting yields the one strictly ascending list with the same members. -/
theorem sortPositions_eq {positions l : List Nat} (h : l.Pairwise (· < ·))
    (hmem : ∀ i, i ∈ positions ↔ i ∈ l) : sortPositions positions = l :=
  List.Pairwise.eq_of_mem_iff (pairwise_sortPositions positions) h fun i => by
    rw [mem_sortPositions, hmem]

namespace Filter

/-! ### The polarity of a connective -/

theorem allHold_eq_all (r : Record) (children : List Filter) :
    allHold r children = children.all (holds r) := by
  induction children with
  | nil => rfl
  | cons f rest ih => rw [allHold, List.all_cons, ih]

theorem anyHolds_eq_any (r : Record) (children : List Filter) :
    anyHolds r children = children.any (holds r) := by
  induction children with
  | nil => rfl
  | cons f rest ih => rw [anyHolds, List.any_cons, ih]

/-- De Morgan's law for either polarity: a connective asks for all its conditions or for one of
them, under the polarity that it stands under itself. -/
theorem holds_logic_bne (r : Record) (c : Connective) (children : List Filter) (negated : Bool) :
    (holds r (logic c children) != negated) =
      if asksForAll c negated then children.all fun f => holds r f != negated
      else children.any fun f => holds r f != negated := by
  cases c <;> cases negated <;>
    simp [holds, asksForAll, allHold_eq_all, anyHolds_eq_any, List.not_all_eq_any_not,
      List.not_any_eq_all_not]

/-! ### Narrowing -/

/-- Positions of records, in ascending order. -/
structure ArePositions (records : Array Record) (candidates : List Nat) : Prop where
  /-- They ascend. -/
  ascending : candidates.Pairwise (· < ·)
  /-- There is a record at each. -/
  bounded : ∀ i ∈ candidates, i < records.size

theorem ArePositions.range (records : Array Record) :
    ArePositions records (List.range records.size) where
  ascending := List.pairwise_lt_range
  bounded := fun _ hi => List.mem_range.1 hi

theorem ArePositions.filter {records : Array Record} {candidates : List Nat}
    (h : ArePositions records candidates) (p : Nat → Bool) :
    ArePositions records (candidates.filter p) where
  ascending := h.ascending.filter p
  bounded := fun i hi => h.bounded i (List.mem_filter.1 hi).1

theorem holdsAt_eq {records : Array Record} {i : Nat} (h : i < records.size)
    (condition : Record → Bool) : holdsAt records i condition = condition records[i] := by
  rw [holdsAt, Array.getElem?_eq_getElem h]

/-- Whether a filter holds of the record at a position, or does not hold when it is negated. -/
def passes (records : Array Record) (negated : Bool) (f : Filter) (i : Nat) : Bool :=
  holdsAt records i (fun r => holds r f) != negated

/-- The test of a connective is made of the tests of its conditions. -/
theorem passes_logic {records : Array Record} {i : Nat} (h : i < records.size)
    (c : Connective) (children : List Filter) (negated : Bool) :
    passes records negated (logic c children) i =
      if asksForAll c negated then children.all fun f => passes records negated f i
      else children.any fun f => passes records negated f i := by
  simp only [passes, holdsAt_eq h]
  exact holds_logic_bne _ c children negated

/-- A negation turns the polarity. -/
theorem passes_not {records : Array Record} {i : Nat} (h : i < records.size) (child : Filter)
    (negated : Bool) :
    passes records negated (not child) i = passes records (!negated) child i := by
  simp only [passes, holdsAt_eq h, holds]
  cases holds records[i] child <;> cases negated <;> rfl

mutual

/-- **Narrowing is testing.** Of an ascending list of positions a filter leaves those that pass its
test, whatever the polarity. -/
theorem narrow_eq_filter (records : Array Record) (negated : Bool) :
    ∀ (f : Filter) {candidates : List Nat}, ArePositions records candidates →
      narrow records negated f candidates = candidates.filter (passes records negated f)
  | logic c children, candidates, h => by
    rw [narrow]
    by_cases hall : asksForAll c negated
    · rw [if_pos hall, narrowByAll_eq_filter records negated children h]
      refine List.filter_congr fun i hi => ?_
      rw [passes_logic (h.bounded i hi), if_pos hall]
    · rw [if_neg hall]
      -- a position may be left by several conditions, so only the members can be compared
      refine sortPositions_eq (h.ascending.filter _) fun i => ?_
      rw [mem_narrowByEach_iff records negated children h, List.mem_filter]
      refine and_congr_right fun hi => ?_
      rw [passes_logic (h.bounded i hi), if_neg hall]
  | not child, candidates, h => by
    rw [narrow, narrow_eq_filter records (!negated) child h]
    exact List.filter_congr fun i hi => (passes_not (h.bounded i hi) child negated).symm
  -- single conditions are tested under the polarity as they stand
  | compare _ _ _, _, _ => rfl
  | like _ _, _, _ => rfl

/-- What the filters of a list leave in turn passes the tests of all of them. -/
theorem narrowByAll_eq_filter (records : Array Record) (negated : Bool) :
    ∀ (children : List Filter) {candidates : List Nat}, ArePositions records candidates →
      narrowByAll records negated children candidates =
        candidates.filter fun i => children.all fun f => passes records negated f i
  | [], candidates, _ => by simp [narrowByAll]
  | f :: rest, candidates, h => by
    rw [narrowByAll]
    by_cases hempty : candidates.isEmpty
    · -- the early exit: no test can leave anything of an empty list
      rw [if_pos hempty, List.isEmpty_iff.1 hempty, List.filter_nil]
    · rw [if_neg hempty, narrow_eq_filter records negated f h,
        narrowByAll_eq_filter records negated rest (h.filter _), List.filter_filter]
      refine List.filter_congr fun i _ => ?_
      rw [List.all_cons, Bool.and_comm]

/-- What the filters of a list leave, each by itself, passes the test of one of them. -/
theorem mem_narrowByEach_iff (records : Array Record) (negated : Bool) :
    ∀ (children : List Filter) {candidates : List Nat}, ArePositions records candidates →
      ∀ {i : Nat}, i ∈ narrowByEach records negated children candidates ↔
        i ∈ candidates ∧ (children.any fun f => passes records negated f i) = true
  | [], _, _, i => by simp [narrowByEach]
  | f :: rest, candidates, h, i => by
    rw [narrowByEach, List.mem_append, narrow_eq_filter records negated f h, List.mem_filter,
      mem_narrowByEach_iff records negated rest h, List.any_cons, Bool.or_eq_true, and_or_left]

end

/-! ### Selecting -/

/-- Selecting tests every position. -/
theorem select_eq_filter (f : Filter) (records : Array Record) :
    f.select records = (List.range records.size).filter (passes records false f) :=
  narrow_eq_filter records false f (.range records)

theorem mem_select_iff (f : Filter) (records : Array Record) (i : Nat) :
    i ∈ f.select records ↔ ∃ h : i < records.size, holds records[i] f = true := by
  rw [select_eq_filter, List.mem_filter, List.mem_range]
  constructor
  · rintro ⟨h, hp⟩
    exact ⟨h, by simpa [passes, holdsAt_eq h] using hp⟩
  · rintro ⟨h, hf⟩
    exact ⟨h, by simpa [passes, holdsAt_eq h] using hf⟩

/-- The negation of a filter selects the positions that the filter does not. -/
theorem select_not_eq_filter (f : Filter) (records : Array Record) :
    (Filter.not f).select records =
      (List.range records.size).filter fun i => !passes records false f i := by
  rw [select_eq_filter]
  refine List.filter_congr fun i hi => ?_
  rw [passes_not (List.mem_range.1 hi)]
  simp [passes]

/-- **Selecting is exact.** For every filter and every list of records the selected positions
ascend, they are those of the records of which the filter holds, and with the positions that the
negation selects they are all positions, each once. -/
theorem select_exact_partition (f : Filter) (records : Array Record) :
    (f.select records).Pairwise (· < ·) ∧
    (∀ i, i ∈ f.select records ↔ ∃ h : i < records.size, holds records[i] f = true) ∧
    (f.select records ++ (Filter.not f).select records).Perm (List.range records.size) := by
  refine ⟨?_, mem_select_iff f records, ?_⟩
  · rw [select_eq_filter]
    exact (ArePositions.range records).ascending.filter _
  · rw [select_eq_filter, select_not_eq_filter]
    exact List.filter_append_perm _ _

end Filter

end CampusQuery
