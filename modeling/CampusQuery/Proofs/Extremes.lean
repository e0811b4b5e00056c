import CampusQuery.Execution.Aggregate
import CampusQuery.Proofs.ValueOrder

/-!
# The greatest and the least of a list

Both are found by going through the list and keeping one of two numbers at each step, the second one
if the first compares with it in a certain way (`Binary64.prefer`). The result is one of the numbers
met, it is not `nan`, and no number met would be taken in its place (`Binary64.IsBest`). Numbers
that are best in this way of lists with the same items are equal, so the order of a list has no
effect up to the sign of a zero (`Binary64.compare_foldl_prefer_of_perm`).
-/

namespace CampusQuery

namespace Binary64

/-- The first of two numbers unless it compares with the second as given; `nan` is passed over. -/
def prefer (way : Ordering) (x y : Binary64) : Binary64 :=
  if x.isNaN then y
  else if y.isNaN then x
  else if compare x y == way then y else x

/-- The greatest number of a list is found in this way. -/
theorem greatest_eq_foldl (xs : List Binary64) :
    greatest xs = xs.foldl (prefer .lt) (.infinite true) := rfl

/-- So is the least. -/
theorem least_eq_foldl (xs : List Binary64) :
    least xs = xs.foldl (prefer .gt) (.infinite false) := rfl

/-- A number of a list that no other number of the list is preferred to. -/
structure IsBest (way : Ordering) (xs : List Binary64) (x : Binary64) : Prop where
  /-- It is in the list. -/
  mem : x ∈ xs
  /-- It is a number. -/
  number : x.isNaN = false
  /-- No number of the list takes its place. -/
  best : ∀ y ∈ xs, y.isNaN = false → compare x y ≠ way

variable {way : Ordering} {x y z : Binary64} {xs ys : List Binary64}

/-- To be preferred is transitive, in its negation. -/
theorem compare_ne_trans (hway : way ≠ .eq) (hxy : compare x y ≠ way) (hyz : compare y z ≠ way) :
    compare x z ≠ way := by
  -- not to be less is to be equal or greater, which is transitive, and so is its reverse
  cases way with
  | eq => exact absurd rfl hway
  | lt =>
    have hxz := Std.TransCmp.isGE_trans (Ordering.isGE_iff_ne_lt.2 hxy)
      (Ordering.isGE_iff_ne_lt.2 hyz)
    exact Ordering.isGE_iff_ne_lt.1 hxz
  | gt =>
    have hxz := Std.TransCmp.isLE_trans (Ordering.isLE_iff_ne_gt.2 hxy)
      (Ordering.isLE_iff_ne_gt.2 hyz)
    exact Ordering.isLE_iff_ne_gt.1 hxz

theorem compare_self_ne (hway : way ≠ .eq) (x : Binary64) : compare x x ≠ way := by
  have hself : compare x x = .eq := Std.ReflCmp.compare_self
  rw [hself]
  exact hway.symm

/-- Of two numbers the better one is kept. -/
theorem isBest_prefer (hway : way ≠ .eq) (hx : x.isNaN = false) (y : Binary64) :
    IsBest way [x, y] (prefer way x y) := by
  have hpair : ∀ {z}, z ∈ [x, y] → z = x ∨ z = y := by simp
  rw [prefer, hx, if_neg Bool.false_ne_true]
  split
  · next hy =>
    refine ⟨by simp, hx, fun z hz hnumber => ?_⟩
    rcases hpair hz with rfl | rfl
    · exact compare_self_ne hway z
    · exact nomatch hy.symm.trans hnumber
  · next hy =>
    split
    · next hcompare =>
      have hcompare : compare x y = way := beq_iff_eq.1 hcompare
      refine ⟨by simp, Bool.eq_false_iff.2 hy, fun z hz _ => ?_⟩
      rcases hpair hz with rfl | rfl
      · intro hback
        have hswap : compare z y = (compare y z).swap := Std.OrientedCmp.eq_swap
        rw [hcompare, hback] at hswap
        cases way <;> first | exact hway rfl | exact nomatch hswap
      · exact compare_self_ne hway z
    · next hcompare =>
      refine ⟨by simp, hx, fun z hz _ => ?_⟩
      rcases hpair hz with rfl | rfl
      · exact compare_self_ne hway z
      · exact fun h => hcompare (beq_iff_eq.2 h)

/-- Going through a list keeps the best of the numbers met. -/
theorem isBest_foldl_prefer (hway : way ≠ .eq) (hx : x.isNaN = false) (xs : List Binary64) :
    IsBest way (x :: xs) (xs.foldl (prefer way) x) := by
  induction xs generalizing x with
  | nil =>
    refine ⟨List.mem_singleton_self x, hx, fun y hy _ => ?_⟩
    rw [List.mem_singleton.1 hy]
    exact compare_self_ne hway x
  | cons y xs ih =>
    -- the best of the rest and the number kept is no worse than either of the first two
    have hstep := isBest_prefer hway hx y
    have hrest := ih hstep.number
    rw [List.foldl_cons]
    refine ⟨?_, hrest.number, fun z hz hnumber => ?_⟩
    · rcases List.mem_cons.1 hrest.mem with hmem | hmem
      · rw [hmem]
        exact List.mem_append_left xs hstep.mem
      · exact List.mem_cons_of_mem _ (List.mem_cons_of_mem _ hmem)
    · have hz : z ∈ [x, y] ++ xs := hz
      rcases List.mem_append.1 hz with hpair | hlist
      · exact compare_ne_trans hway (hrest.best _ (List.mem_cons_self ..) hstep.number)
          (hstep.best z hpair hnumber)
      · exact hrest.best z (List.mem_cons_of_mem _ hlist) hnumber

/-- Numbers neither of which is preferred to the other are equal, as in every total order. -/
theorem compare_eq_of_ne_of_ne (hway : way ≠ .eq) (hxy : compare x y ≠ way)
    (hyx : compare y x ≠ way) : compare x y = .eq := by
  have hswap : compare y x = (compare x y).swap := Std.OrientedCmp.eq_swap
  rw [hswap] at hyx
  cases hcompare : compare x y with
  | eq => rfl
  | lt => cases way <;> simp_all
  | gt => cases way <;> simp_all

/-- Best numbers of lists with the same items are equal. -/
theorem IsBest.compare_eq (hway : way ≠ .eq) (hx : IsBest way xs x) (hy : IsBest way ys y)
    (hmem : ∀ z, z ∈ xs ↔ z ∈ ys) : compare x y = .eq :=
  compare_eq_of_ne_of_ne hway (hx.best y ((hmem y).2 hy.mem) hy.number)
    (hy.best x ((hmem x).1 hx.mem) hx.number)

/-- **The best number of a list does not depend on its order.** -/
theorem compare_foldl_prefer_of_perm (hway : way ≠ .eq) (hx : x.isNaN = false)
    (h : xs.Perm ys) : compare (xs.foldl (prefer way) x) (ys.foldl (prefer way) x) = .eq :=
  (isBest_foldl_prefer hway hx xs).compare_eq hway (isBest_foldl_prefer hway hx ys) fun _ =>
    (h.cons x).mem_iff

theorem compare_greatest_of_perm (h : xs.Perm ys) : compare (greatest xs) (greatest ys) = .eq := by
  rw [greatest_eq_foldl, greatest_eq_foldl]
  exact compare_foldl_prefer_of_perm (by decide) rfl h

theorem compare_least_of_perm (h : xs.Perm ys) : compare (least xs) (least ys) = .eq := by
  rw [least_eq_foldl, least_eq_foldl]
  exact compare_foldl_prefer_of_perm (by decide) rfl h

end Binary64

end CampusQuery
