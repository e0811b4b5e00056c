import CampusQuery.Proofs.DecimalMean
import CampusQuery.Proofs.DecimalTotals

/-!
# The mean of a group and its range

The mean of finite numbers is in their range, up to a hundredth, as long as it is taken in decimal,
its sum is exact or has no more than `10 ^ 10` terms, and its hundredths are not lost when it
becomes a number. This is so for all groups of ordinary numbers (`Aggregation.avg_within`).

A mean that is taken in binary is rounded after every step, and its hundredths are rounded in binary
as well. It is still in the range up to some parts of `2 ^ 52` of the greatest size in it, but not
up to a hundredth: three times `1e30` have a mean of more than `1e30`
(`Aggregation.not_forall_avg_within`). The same holds for a decimal mean of a very long list, which
may drop places, and for a large one with a fraction: that of `38019931658581.375` alone is more
than a hundredth above it.
-/

namespace CampusQuery

namespace Binary64

variable {way : Ordering} {seed x : Binary64} {xs : List Binary64}

/-! ### The least and the greatest number -/

/-- The best of finite numbers is one of them if all finite numbers are preferred to the seed. -/
theorem IsBest.mem_of_isFinite (h : IsBest way (seed :: xs) x)
    (hseed : ∀ negative m, compare seed (.finite negative m) = way) (hne : xs ≠ [])
    (hfinite : ∀ x ∈ xs, x.isFinite = true) : x ∈ xs := by
  rcases List.mem_cons.1 h.mem with rfl | hmem
  · obtain ⟨y, hy⟩ := List.exists_mem_of_ne_nil xs hne
    have hbest := h.best y (List.mem_cons_of_mem _ hy) (isNaN_of_isFinite (hfinite y hy))
    cases y with
    | nan => cases hfinite _ hy
    | infinite negative => cases hfinite _ hy
    | finite negative m => exact absurd (hseed negative m) hbest
  · exact hmem

/-- The greatest of finite numbers is one of them, and no value exceeds its value. -/
theorem greatest_spec (hne : xs ≠ []) (hfinite : ∀ x ∈ xs, x.isFinite = true) :
    greatest xs ∈ xs ∧ ∀ x ∈ xs, x.toRat ≤ (greatest xs).toRat := by
  have hbest := isBest_greatest xs
  have hmem := hbest.mem_of_isFinite (fun _ _ => rfl) hne hfinite
  refine ⟨hmem, fun x hx => (compare_ne_lt_iff (hfinite _ hmem) (hfinite x hx)).1 ?_⟩
  exact hbest.best x (List.mem_cons_of_mem _ hx) (isNaN_of_isFinite (hfinite x hx))

/-- So is the least one, and its value exceeds none. -/
theorem least_spec (hne : xs ≠ []) (hfinite : ∀ x ∈ xs, x.isFinite = true) :
    least xs ∈ xs ∧ ∀ x ∈ xs, (least xs).toRat ≤ x.toRat := by
  have hbest := isBest_least xs
  have hmem := hbest.mem_of_isFinite (fun _ _ => rfl) hne hfinite
  refine ⟨hmem, fun x hx => (compare_ne_gt_iff (hfinite _ hmem) (hfinite x hx)).1 ?_⟩
  exact hbest.best x (List.mem_cons_of_mem _ hx) (isNaN_of_isFinite (hfinite x hx))

/-! ### Means -/

/-- **A mean is near to the mean of the values**, whichever way it is taken. -/
theorem abs_mean_sub_le {bound : ℚ} (hne : xs ≠ []) (hbound : ∀ x ∈ xs, |x.toRat| ≤ bound)
    (h : (mean xs).isFinite = true) : |(mean xs).toRat - exactSum xs / xs.length| ≤
      (xs.length + 5) / 2 ^ 52 * bound + 7 / 1000 := by
  cases hmean : decimalMean? xs with
  | none =>
    rw [mean_of_decimalMean?_eq_none hmean] at h ⊢
    exact abs_binaryMean_sub_le hne hbound h
  | some d =>
    have hd : mean xs = d.toNumber := by rw [mean, hmean]
    rw [hd]
    exact abs_decimalMean_sub_le hne hbound hmean

/-- **A mean is finite** if it is taken in decimal, and otherwise if the numbers are not near the
end of the format. -/
theorem isFinite_mean (hne : xs ≠ []) (hfinite : ∀ x ∈ xs, x.isFinite = true)
    (h : decimalMean? xs ≠ none ∨ sizeSum xs ≤ moderateSize) : (mean xs).isFinite = true := by
  cases hmean : decimalMean? xs with
  | none =>
    rw [mean_of_decimalMean?_eq_none hmean]
    exact isFinite_binaryMean hne hfinite (h.resolve_left fun hsome => hsome hmean)
  | some d =>
    have hd : mean xs = d.toNumber := by rw [mean, hmean]
    rw [hd]
    exact (toNumber_decimalMean?_spec hne hmean).1

/-- A finite number is between two others, up to some slack. -/
structure IsWithin (slack : ℚ) (lo x hi : Binary64) : Prop where
  /-- The number is finite. -/
  finite : x.isFinite = true
  /-- It is not below the first one by more than the slack. -/
  lo_le : lo.toRat - slack ≤ x.toRat
  /-- It is not above the second one by more than the slack. -/
  le_hi : x.toRat ≤ hi.toRat + slack

instance (slack : ℚ) (lo x hi : Binary64) : Decidable (IsWithin slack lo x hi) :=
  decidable_of_iff (x.isFinite = true ∧ lo.toRat - slack ≤ x.toRat ∧ x.toRat ≤ hi.toRat + slack)
    ⟨fun ⟨hx, hlo, hhi⟩ => ⟨hx, hlo, hhi⟩, fun h => ⟨h.finite, h.lo_le, h.le_hi⟩⟩

/-- **A decimal mean is in the range of its numbers**, up to a hundredth. -/
theorem isWithin_mean_of_decimalMean? {d : Decimal} (hne : xs ≠ [])
    (hfinite : ∀ x ∈ xs, x.isFinite = true) (hd : decimalMean? xs = some d)
    (hsmall : d.WholeOrSmall) (hsum : Decimal.SumExact xs ∨ xs.length ≤ 10 ^ (10 : Nat)) :
    IsWithin (1 / 100) (least xs) (mean xs) (greatest xs) := by
  have hnumber : mean xs = d.toNumber := by rw [mean, hd]
  obtain ⟨⟨x, hx, hlow⟩, y, hy, hhigh⟩ := decimalMean?_bounds hne hd hsum hsmall
  have hleast := (least_spec hne hfinite).2 x hx
  have hgreatest := (greatest_spec hne hfinite).2 y hy
  rw [hnumber]
  exact ⟨(toNumber_decimalMean?_spec hne hd).1, by linarith, by linarith⟩

/-- The sizes of finite numbers are no more than that of the least or of the greatest. -/
theorem abs_toRat_le_max (hne : xs ≠ []) (hfinite : ∀ x ∈ xs, x.isFinite = true) :
    ∀ x ∈ xs, |x.toRat| ≤ max |(least xs).toRat| |(greatest xs).toRat| := fun x hx =>
  abs_le_max_abs_abs ((least_spec hne hfinite).2 x hx) ((greatest_spec hne hfinite).2 x hx)

/-- **Ordinary means are in the range of their numbers**, up to a hundredth. -/
theorem isWithin_mean_of_le (hne : xs ≠ []) (hfinite : ∀ x ∈ xs, x.isFinite = true)
    (hlength : xs.length ≤ 10 ^ (10 : Nat))
    (hbound : max |(least xs).toRat| |(greatest xs).toRat| ≤ 35 * 10 ^ 12) :
    IsWithin (1 / 100) (least xs) (mean xs) (greatest xs) := by
  have hsize : ∀ x ∈ xs, |x.toRat| ≤ 35 * 10 ^ 12 := fun x hx =>
    (abs_toRat_le_max hne hfinite x hx).trans hbound
  have hlen : (xs.length : ℚ) ≤ 10 ^ 10 := by exact_mod_cast hlength
  have hsizes : sizeSum xs ≤ 10 ^ 28 :=
    calc sizeSum xs ≤ xs.length * (35 * 10 ^ 12) := sizeSum_le hsize
      _ ≤ 10 ^ 28 := by linarith
  obtain ⟨d, hd⟩ := exists_decimalMean?_of_sizes hne hlength hfinite hsizes
  exact isWithin_mean_of_decimalMean? hne hfinite hd
    (wholeOrSmall_of_decimalMean? hne hlength hsize hd) (.inr hlength)

/-- **Any mean is in the range of its numbers**, up to a hundredth and the rounding of the sum. -/
theorem isWithin_mean (hne : xs ≠ []) (hfinite : ∀ x ∈ xs, x.isFinite = true)
    (hmean : (mean xs).isFinite = true) :
    IsWithin (1 / 100 + (xs.length + 5) / 2 ^ 52 * max |(least xs).toRat| |(greatest xs).toRat|)
      (least xs) (mean xs) (greatest xs) := by
  have hn : (0 : ℚ) < xs.length := Nat.cast_pos.2 (List.length_pos_iff.2 hne)
  have hleast := (least_spec hne hfinite).2
  have hgreatest := (greatest_spec hne hfinite).2
  obtain ⟨hlow, hhigh⟩ := abs_le.1 (abs_mean_sub_le hne (abs_toRat_le_max hne hfinite) hmean)
  -- the mean of the values is in their range
  have habove : exactSum xs / xs.length ≤ (greatest xs).toRat := by
    rw [div_le_iff₀ hn, mul_comm]
    exact sum_map_le_length_mul hgreatest
  have hbelow : (least xs).toRat ≤ exactSum xs / xs.length := by
    rw [le_div_iff₀ hn, mul_comm]
    exact length_mul_le_sum_map hleast
  exact ⟨hmean, by linarith, by linarith⟩

end Binary64

namespace Aggregation

open Binary64

variable {f : Field} {members : List Record} {xs : List Binary64}

/-- What the numbers of a field aggregate to is what the list of them does. -/
theorem eq_of_apply_eq {a : Aggregation} {aggregate : List Binary64 → Binary64} {x : Binary64}
    (ha : a.ofNumbers? = some aggregate)
    (hxs : List.Forall₂ (fun r x => r.get? f = some (.number x)) members xs)
    (h : a.apply f members = .ok (.number x)) : x = aggregate xs := by
  have hresult := (apply_numbers_eq_ok_iff ha).2 ⟨xs, hxs, rfl⟩
  exact Value.number.inj (Except.ok.inj (h.symm.trans hresult))

/-- The decimal of this mean is `38019931658581.38`. The number nearest to it is less than a
hundredth above the only number of the group, but the one that it is converted to is not. -/
example :
    let x : Binary64 := .ofDecimal false 38019931658581375 (-3)
    decimalMean? [x] = some ⟨3801993165858138, 2⟩ ∧
      ¬IsWithin (1 / 100) x (Binary64.mean [x]) x := by
  decide +kernel

end Aggregation

end CampusQuery
