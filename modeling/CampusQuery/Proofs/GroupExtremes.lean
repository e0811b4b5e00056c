import CampusQuery.Proofs.Extremes
import CampusQuery.Proofs.GroupRows

/-!
# The greatest and the least value of a group

The greatest number of a group is found from minus infinity upwards and the least one from infinity
downwards, and `nan` is passed over on the way. As soon as there is a number in the group that is
not `nan`, both results are values of the group and bound all others
(`Aggregation.AreBounds`): where an infinity from the start is left at the end, it is also in the
group, since no number of the group was preferred to it.

A group with nothing but `nan` leaves both infinities as they are. They are not values of the group
then, and the least one is greater than the greatest one (`Aggregation.not_forall_areBounds`).
-/

namespace CampusQuery

namespace Binary64

variable {way : Ordering} {seed x y : Binary64} {xs : List Binary64}

/-- The best number of a list and a seed that is preferred to none is one of the list. -/
theorem IsBest.exists_mem_compare_eq (hway : way ≠ .eq) (h : IsBest way (seed :: xs) x)
    (hseed : ∀ z, z.isNaN = false → compare z seed ≠ way) (hy : y ∈ xs)
    (hnumber : y.isNaN = false) : ∃ z ∈ xs, compare z x = .eq := by
  rcases List.mem_cons.1 h.mem with rfl | hmem
  · -- what is in the list does not come before the seed, and is not preferred to it either
    have hbest := h.best y (List.mem_cons_of_mem _ hy) hnumber
    exact ⟨y, hy, compare_eq_of_ne_of_ne hway (hseed y hnumber) hbest⟩
  · exact ⟨x, hmem, Std.ReflCmp.compare_self⟩

/-- Where there is nothing but `nan`, the seed stays. -/
theorem foldl_prefer_of_forall_nan (way : Ordering) (hseed : seed.isNaN = false)
    (h : ∀ x ∈ xs, x.isNaN = true) : xs.foldl (prefer way) seed = seed := by
  induction xs with
  | nil => rfl
  | cons x xs ih =>
    obtain ⟨hx, hxs⟩ := List.forall_mem_cons.1 h
    have hstep : prefer way seed x = seed := by
      rw [prefer, hseed, hx]
      rfl
    rw [List.foldl_cons, hstep, ih hxs]

theorem isBest_greatest (xs : List Binary64) : IsBest .lt (.infinite true :: xs) (greatest xs) := by
  rw [greatest_eq_foldl]
  exact isBest_foldl_prefer (by decide) rfl xs

theorem isBest_least (xs : List Binary64) : IsBest .gt (.infinite false :: xs) (least xs) := by
  rw [least_eq_foldl]
  exact isBest_foldl_prefer (by decide) rfl xs

/-- No number is less than minus infinity. -/
theorem compare_infinite_true_ne_lt (x : Binary64) : compare x (.infinite true) ≠ .lt := by
  cases x with
  | nan => decide
  | infinite negative => cases negative <;> decide
  | finite negative m => nofun

/-- No number is greater than infinity. -/
theorem compare_infinite_false_ne_gt (hx : x.isNaN = false) :
    compare x (.infinite false) ≠ .gt := by
  cases x with
  | nan => exact nomatch hx
  | infinite negative => cases negative <;> decide
  | finite negative m => nofun

/-- The least number is not greater than the greatest one. -/
theorem compare_least_greatest_ne_gt (hy : y ∈ xs) (hnumber : y.isNaN = false) :
    compare (least xs) (greatest xs) ≠ .gt := by
  have hleast := (isBest_least xs).best y (List.mem_cons_of_mem _ hy) hnumber
  have hgreatest := (isBest_greatest xs).best y (List.mem_cons_of_mem _ hy) hnumber
  -- both are compared with the number of the list between them
  have hswap : compare y (greatest xs) = (compare (greatest xs) y).swap := Std.OrientedCmp.eq_swap
  refine compare_ne_trans (by decide) hleast fun hgt => hgreatest ?_
  rw [hswap] at hgt
  exact Ordering.swap_eq_gt.1 hgt

end Binary64

namespace Aggregation

variable {f : Field} {members : List Record} {xs : List Binary64}

/-- Two values bound the values of a field, and are among them. -/
structure AreBounds (f : Field) (members : List Record) (hi lo : Value) : Prop where
  /-- The upper bound equals the value of a record. -/
  hi_mem : ∃ r ∈ members, ∃ v, r.get? f = some v ∧ (v == hi) = true
  /-- The lower bound equals the value of a record. -/
  lo_mem : ∃ r ∈ members, ∃ v, r.get? f = some v ∧ (v == lo) = true
  /-- The upper bound is not less than any number. -/
  le_hi : ∀ r ∈ members, ∀ x, r.get? f = some (.number x) → x.isNaN = false →
    hi.compare (.number x) ≠ .lt
  /-- The lower bound is not greater than any number. -/
  lo_le : ∀ r ∈ members, ∀ x, r.get? f = some (.number x) → x.isNaN = false →
    lo.compare (.number x) ≠ .gt
  /-- The bounds are in order. -/
  lo_le_hi : lo.compare hi ≠ .gt

/-- The numbers read from a field are those that records have there. -/
theorem mem_numbers_iff (hxs : List.Forall₂ (fun r x => r.get? f = some (.number x)) members xs)
    {x : Binary64} : x ∈ xs ↔ ∃ r ∈ members, r.get? f = some (.number x) := by
  constructor
  · exact fun hx => exists_of_mem_right hxs hx
  · rintro ⟨r, hr, hget⟩
    obtain ⟨z, hz, hgetz⟩ := exists_of_mem_left hxs hr
    obtain rfl : x = z := Value.number.inj (Option.some.inj (hget.symm.trans hgetz))
    exact hz

/-- The best number of a field is that of a record, where a number is there for the seed to be
measured with. -/
theorem exists_mem_beq_of_isBest {way : Ordering} {seed best y : Binary64} (hway : way ≠ .eq)
    (hxs : List.Forall₂ (fun r x => r.get? f = some (.number x)) members xs)
    (hbest : Binary64.IsBest way (seed :: xs) best)
    (hseed : ∀ z, z.isNaN = false → Binary64.compare z seed ≠ way) (hy : y ∈ xs)
    (hnumber : y.isNaN = false) :
    ∃ r ∈ members, ∃ v, r.get? f = some v ∧ (v == .number best) = true := by
  obtain ⟨z, hz, hequal⟩ := hbest.exists_mem_compare_eq hway hseed hy hnumber
  obtain ⟨r, hr, hget⟩ := (mem_numbers_iff hxs).1 hz
  exact ⟨r, hr, .number z, hget, Value.number_beq hequal⟩

/-- No number of a field is preferred to the best one. -/
theorem compare_ne_of_isBest {way : Ordering} {seed best : Binary64}
    (hxs : List.Forall₂ (fun r x => r.get? f = some (.number x)) members xs)
    (hbest : Binary64.IsBest way (seed :: xs) best) {r : Record} (hr : r ∈ members) {x : Binary64}
    (hget : r.get? f = some (.number x)) (hx : x.isNaN = false) :
    (Value.number best).compare (.number x) ≠ way := by
  have hmem : x ∈ xs := (mem_numbers_iff hxs).2 ⟨r, hr, hget⟩
  exact hbest.best x (List.mem_cons_of_mem _ hmem) hx

/-- The greatest and the least number of a list with a number in it are its bounds. -/
theorem areBounds_of_exists (hxs : List.Forall₂ (fun r x => r.get? f = some (.number x)) members xs)
    (h : ∃ x ∈ xs, x.isNaN = false) :
    AreBounds f members (.number (Binary64.greatest xs)) (.number (Binary64.least xs)) := by
  obtain ⟨y, hy, hnumber⟩ := h
  have hgreatest := Binary64.isBest_greatest xs
  have hleast := Binary64.isBest_least xs
  exact {
    hi_mem := exists_mem_beq_of_isBest (by decide) hxs hgreatest
      (fun z _ => Binary64.compare_infinite_true_ne_lt z) hy hnumber
    lo_mem := exists_mem_beq_of_isBest (by decide) hxs hleast
      (fun z hz => Binary64.compare_infinite_false_ne_gt hz) hy hnumber
    le_hi := fun r hr x hget hx => compare_ne_of_isBest hxs hgreatest hr hget hx
    lo_le := fun r hr x hget hx => compare_ne_of_isBest hxs hleast hr hget hx
    lo_le_hi := Binary64.compare_least_greatest_ne_gt hy hnumber }

/-- **The greatest and the least value of a group.** Where a field holds numbers, both can be
computed. They are the bounds of the values if one of these is not `nan`, and otherwise the
infinities that they are computed from. -/
theorem max_min_of_numbers (h : ∀ r ∈ members, ∃ x, r.get? f = some (.number x)) :
    ∃ hi lo, max.apply f members = .ok hi ∧ min.apply f members = .ok lo ∧
      ((∃ r ∈ members, ∃ x, r.get? f = some (.number x) ∧ x.isNaN = false) →
        AreBounds f members hi lo) ∧
      ((∀ r ∈ members, r.get? f = some (.number .nan)) →
        hi = .number (.infinite true) ∧ lo = .number (.infinite false)) := by
  obtain ⟨xs, hxs⟩ := exists_forall₂ h
  refine ⟨_, _, (apply_numbers_eq_ok_iff rfl).2 ⟨xs, hxs, rfl⟩,
    (apply_numbers_eq_ok_iff rfl).2 ⟨xs, hxs, rfl⟩, ?_, ?_⟩
  · rintro ⟨r, hr, x, hget, hx⟩
    exact areBounds_of_exists hxs ⟨x, (mem_numbers_iff hxs).2 ⟨r, hr, hget⟩, hx⟩
  · -- every step of either fold passes over its number, so the seeds are left
    intro hnan
    have hall : ∀ x ∈ xs, x.isNaN = true := by
      intro x hx
      obtain ⟨r, hr, hget⟩ := (mem_numbers_iff hxs).1 hx
      obtain rfl : x = .nan := Value.number.inj (Option.some.inj (hget.symm.trans (hnan r hr)))
      rfl
    have hgreatest : Binary64.greatest xs = .infinite true :=
      Binary64.foldl_prefer_of_forall_nan .lt rfl hall
    have hleast : Binary64.least xs = .infinite false :=
      Binary64.foldl_prefer_of_forall_nan .gt rfl hall
    rw [hgreatest, hleast]
    exact ⟨rfl, rfl⟩

/-- Records with the given averages. -/
def withAverages (xs : List Binary64) : List Record :=
  xs.map fun x => .ofEntries [(.avg, .number x)]

theorem max_min_of_numbers_nan_one :
    ∃ hi lo, max.apply .avg (withAverages [.nan, .ofInt 1]) = .ok hi ∧
      min.apply .avg (withAverages [.nan, .ofInt 1]) = .ok lo ∧
      AreBounds .avg (withAverages [.nan, .ofInt 1]) hi lo := by
  have hnumbers : ∀ r ∈ withAverages [.nan, .ofInt 1], ∃ x, r.get? .avg = some (.number x) := by
    intro r hr
    obtain ⟨x, -, rfl⟩ := List.mem_map.1 hr
    exact ⟨x, rfl⟩
  obtain ⟨hi, lo, hhi, hlo, hbounds, -⟩ := max_min_of_numbers hnumbers
  refine ⟨hi, lo, hhi, hlo, hbounds ⟨_, List.mem_cons_of_mem _ (List.mem_singleton_self _),
    .ofInt 1, rfl, ?_⟩⟩
  decide +kernel

/-- A group with nothing but `nan` has minus infinity as its greatest value and infinity as its
least one, so the values of numbers that are computed for a group need not be its bounds. -/
theorem not_forall_areBounds :
    ¬∀ (f : Field) (members : List Record), members ≠ [] →
      (∀ r ∈ members, ∃ x, r.get? f = some (.number x)) →
      ∃ hi lo, max.apply f members = .ok hi ∧ min.apply f members = .ok lo ∧
        AreBounds f members hi lo := by
  intro h
  obtain ⟨hi, lo, hmax, hmin, hbounds⟩ := h .avg (withAverages [.nan]) (List.cons_ne_nil _ _) <| by
    intro r hr
    obtain rfl := List.mem_singleton.1 hr
    exact ⟨.nan, rfl⟩
  obtain rfl := Except.ok.inj hmax
  obtain rfl := Except.ok.inj hmin
  exact hbounds.lo_le_hi rfl

end Aggregation

end CampusQuery
