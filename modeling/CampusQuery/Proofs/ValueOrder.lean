import CampusQuery.Value

/-!
# The order of values is total

Numbers are compared by their place among the kinds of number and then by their value, and values
by their type first. Both orders are total and transitive, and the equality `==` of values is the
equality of the order, so that it is an equivalence. Lists of optional values inherit all of this,
which is what grouping by a tuple of values needs.
-/

namespace CampusQuery

/-- Of two things one is not after the other. -/
theorem isLE_total {α : Type} (cmp : α → α → Ordering) [Std.OrientedCmp cmp] (a b : α) :
    ((cmp a b).isLE || (cmp b a).isLE) = true := by
  have hswap : cmp b a = (cmp a b).swap := Std.OrientedCmp.eq_swap
  rw [hswap]
  cases cmp a b <;> rfl

/-- Sorting by a total order leaves nothing behind a thing that it comes before. -/
theorem pairwise_mergeSort_isLE {α : Type} (cmp : α → α → Ordering) [Std.TransCmp cmp]
    (xs : List α) :
    (xs.mergeSort fun a b => (cmp a b).isLE).Pairwise fun a b => (cmp a b).isLE = true :=
  List.pairwise_mergeSort (fun _ _ _ => Std.TransCmp.isLE_trans) (isLE_total cmp) xs

/-- The order of numbers is one of two keys, the kind of number and then its value. -/
theorem Binary64.compare_eq_compareLex :
    Binary64.compare =
      compareLex (compareOn Binary64.rank) (compareOn Binary64.signedUnits) := rfl

instance : Std.TransCmp Binary64.compare := by
  rw [Binary64.compare_eq_compareLex]
  infer_instance

instance : Std.TransOrd Binary64 :=
  inferInstanceAs (Std.TransCmp Binary64.compare)

/-- Numbers stand at one place of the order if they are of one kind and have one value. -/
theorem Binary64.compare_eq_iff {x y : Binary64} :
    x.compare y = .eq ↔ x.rank = y.rank ∧ x.signedUnits = y.signedUnits := by
  rw [Binary64.compare, Ordering.then_eq_eq, Std.LawfulEqOrd.compare_eq_iff_eq,
    Std.LawfulEqOrd.compare_eq_iff_eq]

theorem Binary64.isFinite_eq_rank (x : Binary64) : x.isFinite = (x.rank == 1) := by
  cases x with
  | nan => rfl
  | infinite negative => cases negative <;> rfl
  | finite negative m => rfl

theorem Binary64.isNaN_eq_rank (x : Binary64) : x.isNaN = (x.rank == 3) := by
  cases x with
  | nan => rfl
  | infinite negative => cases negative <;> rfl
  | finite negative m => rfl

/-- Numbers at one place of the order are the same, unless they are zeros. -/
theorem Binary64.eq_of_compare_of_ne_zero {x y : Binary64} (h : x.compare y = .eq)
    (hne : y.isFinite = true → y.signedUnits ≠ 0) : x = y := by
  obtain ⟨hrank, hunits⟩ := compare_eq_iff.1 h
  -- the rank leaves one constructor, and for an infinity also the sign
  cases y with
  | nan =>
    cases x with
    | nan => rfl
    | infinite negative => cases negative <;> exact nomatch hrank
    | finite negative m => exact nomatch hrank
  | infinite negative' =>
    cases x with
    | nan => cases negative' <;> exact nomatch hrank
    | infinite negative =>
      cases negative <;> cases negative' <;> first | rfl | exact nomatch hrank
    | finite negative m => cases negative' <;> exact nomatch hrank
  | finite negative' n =>
    cases x with
    | nan => exact nomatch hrank
    | infinite negative => cases negative <;> exact nomatch hrank
    | finite negative m =>
      have hne := hne rfl
      obtain ⟨hsign, hsize⟩ : negative = negative' ∧ m.units = n.units := by
        cases negative <;> cases negative' <;> simp only [signedUnits] at hunits hne
        · exact ⟨rfl, by omega⟩
        · omega
        · omega
        · exact ⟨rfl, by omega⟩
      cases m
      cases n
      cases hsign
      cases hsize
      rfl

namespace Value

instance : Std.OrientedOrd Value where
  eq_swap := by
    intro v w
    cases v with
    | number x =>
      cases w with
      | number y => exact Std.OrientedOrd.eq_swap (α := Binary64)
      | text t => rfl
    | text s =>
      cases w with
      | number y => rfl
      | text t => exact Std.OrientedOrd.eq_swap (α := String)

instance : Std.TransOrd Value where
  isLE_trans := by
    intro u v w huv hvw
    cases u <;> cases v <;> cases w
    case number.number.number =>
      exact Std.TransOrd.isLE_trans (α := Binary64) huv hvw
    case text.text.text =>
      exact Std.TransOrd.isLE_trans (α := String) huv hvw
    -- of values of both types, either the outer two are in order or an assumption is not
    all_goals
      first
      | rfl
      | exact absurd huv Bool.false_ne_true
      | exact absurd hvw Bool.false_ne_true

instance : Std.LawfulBEqOrd Value where
  compare_eq_iff_beq := by
    intro v w
    exact (beq_iff_eq (a := Value.compare v w)).symm

theorem number_beq {x y : Binary64} (h : x.compare y = .eq) :
    (number x == number y) = true := by
  change (x.compare y == .eq) = true
  rw [h]
  rfl

end Value

end CampusQuery
