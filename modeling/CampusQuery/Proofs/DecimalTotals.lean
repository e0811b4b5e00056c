import CampusQuery.Proofs.DecimalRounding
import CampusQuery.Proofs.GroupExtremes
import CampusQuery.Proofs.RecordOrder
import Mathlib.Algebra.Order.BigOperators.Group.List
import Mathlib.Algebra.Order.BigOperators.Group.Multiset

/-!
# Totals and means of what is written

A list of numbers with room for its sum is summed in decimal, and the decimal of its total is the
rational sum of what the numbers are written as, rounded to two places with half a hundredth going
away from zero (`Aggregation.sum_of_hasRoom`).

In any other order the decimal has the same value, but it may have other places: a sum that has
cancelled takes those of its next term. With a large fraction this changes the number that the
decimal is converted to, so the order of the records may show in a total
(`Aggregation.not_forall_sum_same`). It does not if no sum of the first few numbers cancels.

A mean is rounded before that as well, since a quotient can have any number of places: it is fitted
in as many as there is room for. If these are more than two, the mean is nevertheless that of a
single rounding, except where fitting it raises it to the midpoint of two hundredths. This needs a
mean that is nearer to the midpoint than a quotient can tell, and never happens to a moderate number
of numbers with a moderate number of places (`HasRoom.exists_decimalMean?_eq_of_lt`). If they are
two or fewer, because the mean is so large that there is no room for more, the first rounding is the
only one, and it is to the even digit (`Aggregation.avg_of_hasRoom`).
-/

namespace CampusQuery

namespace Binary64

open Decimal

variable {xs : List Binary64}

/-- The rational mean of what the numbers of a list are written as. -/
def writtenMean (xs : List Binary64) : ℚ :=
  (xs.map writtenValue).sum / xs.length

/-- The sizes of all numbers together bound those of all sums of some of them, so there is room for
all of these in any order if there is room for the sizes. -/
theorem HasRoom.of_sizes (hfinite : ∀ x ∈ xs, x.isFinite = true)
    (hplaces : ∀ x ∈ xs, x.writtenPlaces ≤ maxPlaces)
    (hsizes : (xs.map fun x => |x.writtenValue|).sum * 10 ^ mostPlaces xs < mantissaBound) :
    HasRoom xs := by
  have hnonneg : ∀ v ∈ xs.map fun x => |x.writtenValue|, 0 ≤ v :=
    List.forall_mem_map.2 fun x _ => abs_nonneg _
  have hroom : ∀ v, v ≤ (xs.map fun x => |x.writtenValue|).sum →
      v * 10 ^ mostPlaces xs < mantissaBound := fun v hv =>
    lt_of_le_of_lt (mul_le_mul_of_nonneg_right hv (by positivity)) hsizes
  refine ⟨hfinite, hplaces, fun x hx => hroom _ ?_, fun ys hys => hroom _ ?_⟩
  · exact List.single_le_sum hnonneg _ (List.mem_map_of_mem hx)
  · calc |(ys.map writtenValue).sum|
        ≤ ((ys.map writtenValue).map abs).sum :=
          Multiset.abs_sum_le_sum_abs (s := (ys.map writtenValue : Multiset ℚ))
      _ = (ys.map fun x => |x.writtenValue|).sum := by
          rw [List.map_map]
          rfl
      _ ≤ (xs.map fun x => |x.writtenValue|).sum :=
          (hys.map _).sublist.sum_le_sum hnonneg

/-- The decimal total of a list with room for its sum. -/
theorem HasRoom.exists_decimalTotal?_eq (h : HasRoom xs) :
    ∃ s, sum? xs = some s ∧ decimalTotal? xs = some (s.round keptPlaces) ∧
      total xs = (s.round keptPlaces).toNumber ∧
      (s.round keptPlaces).toRat = roundPlaces halfUp keptPlaces (xs.map writtenValue).sum := by
  obtain ⟨s, hs, -, hvalue⟩ := h.exists_sum?_eq
  have htotal : decimalTotal? xs = some (s.round keptPlaces) := by
    rw [decimalTotal?, hs, Option.map_some]
  refine ⟨s, hs, htotal, ?_, ?_⟩
  · rw [total, htotal]
  · rw [toRat_round, hvalue]

/-- The decimal mean of a list with room for its sum is worth the mean fitted in at most 28 places
and then rounded to two. -/
theorem HasRoom.exists_decimalMean?_eq (h : HasRoom xs) (hne : xs ≠ []) :
    ∃ q d, IsFitted (writtenMean xs) maxPlaces q ∧ decimalMean? xs = some d ∧
      mean xs = d.toNumber ∧ d.toRat = (q.round keptPlaces).toRat := by
  obtain ⟨s, hs, -, hsum⟩ := h.exists_sum?_eq
  obtain ⟨d, hd⟩ := exists_decimalMean?_of_sum? hne hs
  obtain ⟨s', q, hs', hq, -, hvalue⟩ := exists_of_decimalMean?_eq hne hd
  obtain rfl := Option.some.inj (hs.symm.trans hs')
  rw [hsum] at hq
  exact ⟨q, d, hq, hd, by rw [mean, hd], hvalue⟩

/-- A sum is a whole number of units of the last place of any number. -/
theorem HasRoom.exists_sum_eq (h : HasRoom xs) :
    ∃ n : ℤ, (xs.map writtenValue).sum = n / 10 ^ mostPlaces xs := by
  have hterm : ∀ x ∈ xs, ∃ n : ℤ, x.writtenValue = n * ((10 : ℚ) ^ mostPlaces xs)⁻¹ := by
    intro x hx
    obtain ⟨d, -, hplaces, hvalue⟩ := h.ofNumber? hx
    obtain ⟨k, hk⟩ := Nat.exists_eq_add_of_le (hplaces ▸ writtenPlaces_le_mostPlaces hx)
    refine ⟨d.mantissa * 10 ^ k, ?_⟩
    rw [← hvalue, Decimal.toRat, hk, pow_add]
    push_cast
    field_simp
  choose! n hn using hterm
  refine ⟨(xs.map n).sum, ?_⟩
  rw [List.map_congr_left hn, List.sum_map_mul_right, div_eq_mul_inv, Int.cast_list_sum,
    List.map_map]
  rfl

/-- A mean with fewer parts than it is fitted in, for all places that are kept, is rounded once. -/
theorem HasRoom.toRat_round_of_lt (h : HasRoom xs) (hne : xs ≠ []) {q : Decimal}
    (hq : IsFitted (writtenMean xs) maxPlaces q)
    (hfew : xs.length * 10 ^ mostPlaces xs * 10 ^ keptPlaces < 10 ^ q.places) :
    (q.round keptPlaces).toRat = roundPlaces halfUp keptPlaces (writtenMean xs) := by
  have hparts : 0 < xs.length * 10 ^ mostPlaces xs :=
    Nat.mul_pos (List.length_pos_iff.2 hne) (ten_pow_pos _)
  obtain ⟨n, hn⟩ := h.exists_sum_eq
  have hmean : writtenMean xs = n / (xs.length * 10 ^ mostPlaces xs : Nat) := by
    rw [writtenMean, hn, div_div, mul_comm]
    push_cast
    rfl
  have hkept : keptPlaces < q.places := by
    refine (Nat.pow_lt_pow_iff_right (by decide : 1 < 10)).1 (lt_of_le_of_lt ?_ hfew)
    exact Nat.le_mul_of_pos_left _ hparts
  refine hq.toRat_round_of_lt hkept fun hup => ?_
  rw [hmean] at hq hup
  exact hq.not_isMidpoint hparts hfew hup

/-- **Ordinary means are rounded once.** This is so if the parts that the mean is made of are fewer
than some number of places can count, for all places that are kept, and there is room for the mean
with so many places. -/
theorem HasRoom.exists_decimalMean?_eq_of_lt (h : HasRoom xs) (hne : xs ≠ []) {places : Nat}
    (hplaces : places ≤ maxPlaces) (hroom : |writtenMean xs| * 10 ^ places + 1 ≤ mantissaBound)
    (hfew : xs.length * 10 ^ mostPlaces xs * 10 ^ keptPlaces < 10 ^ places) :
    ∃ d, decimalMean? xs = some d ∧ mean xs = d.toNumber ∧
      d.toRat = roundPlaces halfUp keptPlaces (writtenMean xs) := by
  obtain ⟨q, d, hq, hmean, hnumber, hvalue⟩ := h.exists_decimalMean?_eq hne
  refine ⟨d, hmean, hnumber, ?_⟩
  rw [hvalue]
  refine h.toRat_round_of_lt hne hq (lt_of_lt_of_le hfew ?_)
  exact Nat.pow_le_pow_right (by decide) (hq.le_places hplaces hroom)

end Binary64

namespace Aggregation

open Binary64

variable {f : Field} {members : List Record} {xs : List Binary64}

/-- The averages of these records are those that they are given. -/
theorem withAverages_numbers (xs : List Binary64) :
    List.Forall₂ (fun r x => r.get? .avg = some (.number x)) (withAverages xs) xs :=
  List.forall₂_map_left_iff.2 (List.forall₂_same.2 fun _ _ => rfl)

/-- The sum of numbers is their total. -/
theorem sum_apply_eq (hxs : List.Forall₂ (fun r x => r.get? f = some (.number x)) members xs) :
    sum.apply f members = .ok (.number (total xs)) :=
  (apply_numbers_eq_ok_iff rfl).2 ⟨xs, hxs, rfl⟩

/-- **The sum of a field.** If there is room for the sum of its numbers, it is taken in decimal, and
the decimal that is converted to a number is worth the rational sum of what the numbers are written
as, rounded to two places. So it is worth the same for any rearrangement of the records that leaves
this room; there is room in every order if the sizes of the numbers have room for their sum
(`HasRoom.of_sizes`). The number is the same as well if both decimals have the same places, or if
they are whole or small, and they do have the same places if the numbers never cancel in either
order. -/
theorem sum_of_hasRoom (hxs : List.Forall₂ (fun r x => r.get? f = some (.number x)) members xs)
    (h : HasRoom xs) :
    ∃ d, decimalTotal? xs = some d ∧
      d.toRat = roundPlaces halfUp 2 (xs.map writtenValue).sum ∧
      sum.apply f members = .ok (.number d.toNumber) ∧
      ∀ members' ys, members'.Perm members →
        List.Forall₂ (fun r x => r.get? f = some (.number x)) members' ys → HasRoom ys →
        ∃ d', decimalTotal? ys = some d' ∧ d'.toRat = d.toRat ∧
          (d'.places = d.places ∨ d.WholeOrSmall →
            sum.apply f members' = sum.apply f members) ∧
          (NeverCancels xs → NeverCancels ys → d'.places = d.places) := by
  obtain ⟨s, hs, hd, htotal, hvalue⟩ := h.exists_decimalTotal?_eq
  refine ⟨_, hd, hvalue, htotal ▸ sum_apply_eq hxs, fun members' ys hperm hys hroom => ?_⟩
  have hnumbers := perm_of_perm hperm hys hxs
  obtain ⟨s', hs', hd', htotal', hvalue'⟩ := hroom.exists_decimalTotal?_eq
  have hsame : (s'.round keptPlaces).toRat = (s.round keptPlaces).toRat := by
    rw [hvalue', hvalue, (hnumbers.map writtenValue).sum_eq]
  refine ⟨_, hd', hsame, fun halike => ?_, fun hcancel hcancel' => ?_⟩
  · have hnumber : (s.round keptPlaces).toNumber = (s'.round keptPlaces).toNumber :=
      Decimal.toNumber_congr (Decimal.places_round_le _ _) (Decimal.places_round_le _ _)
        hsame.symm (halike.imp_left Eq.symm)
    rw [sum_apply_eq hys, sum_apply_eq hxs, htotal, htotal', hnumber]
  · refine Decimal.places_round_congr ?_ _
    rw [hroom.places_sum? hcancel' hs', h.places_sum? hcancel hs, mostPlaces_of_perm hnumbers]

/-- Three items, with the last one first. -/
theorem rotation_perm (x y z : Binary64) : [z, x, y].Perm [x, y, z] :=
  (List.perm_append_comm : ([z] ++ [x, y]).Perm ([x, y] ++ [z]))

/-- The total of `1.1`, `2.2` and `3.3` is `6.6`, in this order and in another one. -/
theorem sum_of_hasRoom_tenths :
    ∃ x y z : Binary64, [x, y, z].map writtenValue = [11 / 10, 22 / 10, 33 / 10] ∧
      HasRoom [x, y, z] ∧
      (∃ d, decimalTotal? [x, y, z] = some d ∧ d.toRat = 66 / 10 ∧
        sum.apply .avg (withAverages [x, y, z]) = .ok (.number d.toNumber)) ∧
      sum.apply .avg (withAverages [z, x, y]) = sum.apply .avg (withAverages [x, y, z]) := by
  -- the numbers are named, so that none of them is evaluated before its text is read
  obtain ⟨x, hx⟩ : ∃ x, x = Binary64.ofDecimal false 11 (-1) := ⟨_, rfl⟩
  obtain ⟨y, hy⟩ : ∃ y, y = Binary64.ofDecimal false 22 (-1) := ⟨_, rfl⟩
  obtain ⟨z, hz⟩ : ∃ z, z = Binary64.ofDecimal false 33 (-1) := ⟨_, rfl⟩
  have hvalues : [x, y, z].map writtenValue = [11 / 10, 22 / 10, 33 / 10] := by
    rw [hx, hy, hz]
    decide +kernel
  have hroom : HasRoom [x, y, z] := by
    rw [hx, hy, hz]
    exact .of_sizes (by decide +kernel) (by decide +kernel) (by decide +kernel)
  have hroom' : HasRoom [z, x, y] := by
    rw [hx, hy, hz]
    exact .of_sizes (by decide +kernel) (by decide +kernel) (by decide +kernel)
  have hnonneg : ∀ v ∈ [x, y, z], 0 ≤ v.writtenValue := by
    rw [hx, hy, hz]
    decide +kernel
  obtain ⟨d, hd, hvalue, happly, hother⟩ :=
    sum_of_hasRoom (withAverages_numbers [x, y, z]) hroom
  obtain ⟨d', -, -, hsame, hplaces⟩ :=
    hother _ _ ((rotation_perm x y z).map _) (withAverages_numbers [z, x, y]) hroom'
  refine ⟨x, y, z, hvalues, hroom, ⟨d, hd, ?_, happly⟩, hsame (.inl ?_)⟩
  · rw [hvalue, hvalues]
    decide +kernel
  · exact hplaces (neverCancels_of_nonneg hnonneg)
      (neverCancels_of_nonneg fun v hv => hnonneg v ((rotation_perm x y z).mem_iff.1 hv))

/-- The total of `0.125`, `-0.125` and `40000000000000.2` is that of its last number, since the
others cancel, and has one place. In another order it has two, and then the fraction is too far
behind the first digit for the conversion to tell a fifth from `0.21`. -/
theorem not_forall_sum_same :
    ¬∀ (f : Field) (members : List Record) (xs : List Binary64),
      List.Forall₂ (fun r x => r.get? f = some (.number x)) members xs → HasRoom xs →
      (∃ d, decimalTotal? xs = some d ∧
        d.toRat = roundPlaces halfUp 2 (xs.map writtenValue).sum ∧
        sum.apply f members = .ok (.number d.toNumber)) ∧
      ∀ members' ys, members'.Perm members →
        List.Forall₂ (fun r x => r.get? f = some (.number x)) members' ys → HasRoom ys →
        sum.apply f members' = sum.apply f members := by
  intro h
  obtain ⟨x, hx⟩ : ∃ x, x = Binary64.ofDecimal false 125 (-3) := ⟨_, rfl⟩
  obtain ⟨y, hy⟩ : ∃ y, y = Binary64.ofDecimal true 125 (-3) := ⟨_, rfl⟩
  obtain ⟨z, hz⟩ : ∃ z, z = Binary64.ofDecimal false 400000000000002 (-1) := ⟨_, rfl⟩
  have hroom : HasRoom [x, y, z] := by
    rw [hx, hy, hz]
    exact .of_sizes (by decide +kernel) (by decide +kernel) (by decide +kernel)
  have hroom' : HasRoom [z, x, y] := by
    rw [hx, hy, hz]
    exact .of_sizes (by decide +kernel) (by decide +kernel) (by decide +kernel)
  have hsame := (h .avg _ _ (withAverages_numbers [x, y, z]) hroom).2 _ _
    ((rotation_perm x y z).map _) (withAverages_numbers [z, x, y]) hroom'
  have hother : total [x, y, z] ≠ total [z, x, y] := by
    rw [hx, hy, hz]
    decide +kernel
  have hnumbers := (sum_apply_eq (withAverages_numbers [z, x, y])).symm.trans
    (hsame.trans (sum_apply_eq (withAverages_numbers [x, y, z])))
  exact hother (Value.number.inj (Except.ok.inj hnumbers)).symm

/-- A rearrangement may leave no room: two times `7e28` take more than 96 bits, and the sum is taken
in binary then, where the `1` is lost. -/
example :
    total [.ofDecimal false 7 28, .ofDecimal true 7 28, .ofDecimal false 7 28, .ofDecimal true 7 28,
      .ofInt 1] = .ofInt 1 ∧
    total [.ofDecimal false 7 28, .ofInt 1, .ofDecimal false 7 28, .ofDecimal true 7 28,
      .ofDecimal true 7 28] = .ofInt 0 := by
  decide +kernel

/-- **The mean of a field.** If there is room for the sum of its numbers, the mean is taken in
decimal: the rational mean of what the numbers are written as is fitted in at most 28 places. If it
has more than two then, what is converted to a number is the rational mean rounded once to two
places, provided that fitting it has not raised it to the midpoint of two hundredths; and it has not
if its parts are fewer than the places can count. If it has no more than two, it is not rounded
again. -/
theorem avg_of_hasRoom (hxs : List.Forall₂ (fun r x => r.get? f = some (.number x)) members xs)
    (h : HasRoom xs) (hne : members ≠ []) :
    ∃ q d, Decimal.IsFitted (writtenMean xs) 28 q ∧ decimalMean? xs = some d ∧
      avg.apply f members = .ok (.number d.toNumber) ∧
      (2 < q.places → (|writtenMean xs| < |q.toRat| → ¬IsMidpoint 2 |q.toRat|) →
        d.toRat = roundPlaces halfUp 2 (writtenMean xs)) ∧
      (xs.length * 10 ^ mostPlaces xs * 10 ^ 2 < 10 ^ q.places →
        d.toRat = roundPlaces halfUp 2 (writtenMean xs)) ∧
      (q.places ≤ 2 → d.toRat = roundPlaces halfEven q.places (writtenMean xs)) := by
  have hnonempty : xs ≠ [] := by
    rintro rfl
    exact hne (List.forall₂_nil_right_iff.1 hxs)
  obtain ⟨q, d, hq, hmean, hnumber, hvalue⟩ := h.exists_decimalMean?_eq hnonempty
  refine ⟨q, d, hq, hmean, ?_, hvalue ▸ hq.toRat_round_of_lt,
    hvalue ▸ h.toRat_round_of_lt hnonempty hq, hvalue ▸ hq.toRat_round_of_le⟩
  rw [← hnumber]
  exact (apply_numbers_eq_ok_iff rfl).2 ⟨xs, hxs, rfl⟩

/-- The mean of `1`, `2` and `2` is `1.67`. -/
theorem avg_of_hasRoom_ones :
    HasRoom [.ofInt 1, .ofInt 2, .ofInt 2] ∧ ∃ d : Decimal, d.toRat = 167 / 100 ∧
      avg.apply .avg (withAverages [.ofInt 1, .ofInt 2, .ofInt 2]) = .ok (.number d.toNumber) := by
  have hroom : HasRoom [.ofInt 1, .ofInt 2, .ofInt 2] :=
    .of_sizes (by decide +kernel) (by decide +kernel) (by decide +kernel)
  have hmean : writtenMean [.ofInt 1, .ofInt 2, .ofInt 2] = 5 / 3 := by decide +kernel
  obtain ⟨q, d, hq, -, happly, -, hfew, -⟩ :=
    avg_of_hasRoom (withAverages_numbers _) hroom (List.cons_ne_nil _ _)
  rw [hmean] at hq hfew
  have hplaces : 28 ≤ q.places := hq.le_places (Nat.le_refl 28) (by decide +kernel)
  refine ⟨hroom, d, ?_, happly⟩
  rw [hfew (lt_of_lt_of_le (by decide +kernel) (Nat.pow_le_pow_right (by decide) hplaces))]
  decide +kernel

/-- The mean of `3e28`, `-4549175672831` and `0` is so large that there is no room for any places,
so its last third is dropped, and a mean is not always the rational one rounded once to two
places. -/
theorem not_forall_mean_rounded_once :
    ¬∀ xs : List Binary64, xs ≠ [] → HasRoom xs → ∃ d, decimalMean? xs = some d ∧
      mean xs = d.toNumber ∧ d.toRat = roundPlaces halfUp 2 (writtenMean xs) := by
  intro h
  obtain ⟨xs, hxs⟩ : ∃ xs : List Binary64,
      xs = [.ofDecimal false 3 28, .ofInt (-4549175672831), .ofInt 0] := ⟨_, rfl⟩
  have hroom : HasRoom xs := by
    rw [hxs]
    exact .of_sizes (by decide +kernel) (by decide +kernel) (by decide +kernel)
  obtain ⟨d, hd, -, hvalue⟩ := h xs (hxs ▸ List.cons_ne_nil _ _) hroom
  have hmean : decimalMean? xs = some ⟨9999999999999998483608109056, 0⟩ := by
    rw [hxs]
    decide +kernel
  obtain rfl := Option.some.inj (hmean.symm.trans hd)
  have hexact : writtenMean xs = 29999999999999995450824327169 / 3 := by
    rw [hxs]
    decide +kernel
  rw [hexact] at hvalue
  exact absurd hvalue (by decide +kernel)

/-- Nor is it where the mean is raised to a midpoint: that of `0.015`, `-1e-28` and `0` comes to
`0.005` in 28 places and to `0.01` in the end, although it is nearer to zero. -/
example :
    let xs : List Binary64 := [.ofDecimal false 15 (-3), .ofDecimal true 1 (-28), .ofInt 0]
    decimalMean? xs = some ⟨1, 2⟩ ∧ roundPlaces halfUp 2 (writtenMean xs) = 0 := by
  decide +kernel

end Aggregation

end CampusQuery
