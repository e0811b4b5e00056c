import CampusQuery.Proofs.BinaryMean
import CampusQuery.Proofs.DecimalDigits

/-!
# Decimals as numbers

A decimal with two places leaves decimal arithmetic by way of binary numbers: its whole part and its
fraction are added, the sum is taken times a hundred and rounded to an integer, and that is divided
by a hundred again (`Binary64.join`). The sum is what may go wrong. It has to keep the fraction to
less than half a hundredth, and a number with more than 53 bits above that does not.

Up to `2 ^ 45` the sum is near enough, the integer is that of the digits, and the quotient is the
number nearest to the decimal. Without a fraction nothing is added at all. So in these two cases
(`Decimal.WholeOrSmall`) the number is a matter of the value alone (`Decimal.isNearest_toNumber`,
`Decimal.toNumber_congr`). In all others the digits that are rounded depend on how many places there
are, but the number is off by no more than some parts of `2 ^ 53`, since no integer is nearer to the
product than the one that is taken (`Decimal.toNumber_spec`).
-/

namespace CampusQuery

namespace Binary64

variable {whole part parts : Nat}

/-! ### Joining a whole number and a fraction -/

/-- A whole number and some parts of one, added in binary and rounded to a whole number of parts. -/
def join (whole part parts : Nat) : Binary64 :=
  ((((ofInt whole).add ((ofInt part).scale 1 parts)).scale parts 1).roundToInt).scale 1 parts

/-- The fraction is off by next to nothing. -/
theorem fraction_spec (hparts : parts ≤ 100) (hpart : part < parts) :
    ((ofInt part).scale 1 parts).isFinite = true ∧
      |((ofInt part).scale 1 parts).toRat - part / parts| ≤ 1 / 2 ^ 54 := by
  obtain ⟨hfinite, hvalue⟩ := toRat_ofInt_of_natAbs_le (i := part) (by omega)
  generalize ofInt part = x at hfinite hvalue ⊢
  have hnear := isNearest_scale hfinite 1 (Nat.zero_lt_of_lt hpart)
  rw [hvalue, Nat.cast_one, mul_one, Int.cast_natCast] at hnear
  have hsize : |(part / parts : ℚ)| ≤ 2 ^ 53 * 2 ^ (-53 : ℤ) := by
    have hpos : (0 : ℚ) < parts := Nat.cast_pos.2 (Nat.zero_lt_of_lt hpart)
    rw [abs_of_nonneg (by positivity), div_le_iff₀ hpos]
    norm_num
    exact hpart.le
  have hgap : (2 : ℚ) ^ (-53 : ℤ) / 2 = 1 / 2 ^ 54 := by norm_num
  rw [← hgap]
  exact hnear.abs_sub_le_half_gap (by decide) (by decide) hsize

/-- All parts together are a whole number of them. -/
theorem exists_intCast_eq (whole part : Nat) (hparts : 0 < parts) :
    ∃ k : ℤ, (k : ℚ) = parts * (whole + part / parts) := by
  have hpos : (parts : ℚ) ≠ 0 := Nat.cast_ne_zero.2 hparts.ne'
  refine ⟨parts * whole + part, ?_⟩
  push_cast
  rw [mul_add, mul_div_cancel₀ _ hpos]

/-! ### Small sums -/

/-- A sum of less than `2 ^ 45` is off by a fifth of a hundredth. -/
theorem sum_spec_of_lt (hparts : parts ≤ 100) (hpart : part < parts)
    (hwhole : whole < 2 ^ (45 : Nat)) :
    ((ofInt whole).add ((ofInt part).scale 1 parts)).isFinite = true ∧
      |((ofInt whole).add ((ofInt part).scale 1 parts)).toRat| ≤ 2 ^ 45 ∧
      |((ofInt whole).add ((ofInt part).scale 1 parts)).toRat - (whole + part / parts)| ≤
        2 / 1000 := by
  obtain ⟨hw, hwvalue⟩ := toRat_ofInt_of_natAbs_le (i := whole) (by omega)
  obtain ⟨hf, hfnear⟩ := fraction_spec hparts hpart
  generalize (ofInt part).scale 1 parts = f at hf hfnear ⊢
  generalize ofInt whole = w at hw hwvalue ⊢
  -- the fraction is below one by more than it is off
  have hfraction : 0 ≤ (part / parts : ℚ) ∧ (part / parts : ℚ) ≤ 99 / 100 := by
    have hless : (part : ℚ) + 1 ≤ parts := by exact_mod_cast hpart
    have hmost : (parts : ℚ) ≤ 100 := by exact_mod_cast hparts
    refine ⟨by positivity, ?_⟩
    rw [div_le_iff₀ (Nat.cast_pos.2 (Nat.zero_lt_of_lt hpart))]
    linarith
  have hbelow : (whole : ℚ) + 1 ≤ 2 ^ 45 := by exact_mod_cast hwhole
  have hnonneg : (0 : ℚ) ≤ whole := Nat.cast_nonneg _
  have hsum := isNearest_add hw hf
  rw [hwvalue, Int.cast_natCast] at hsum
  generalize w.add f = s at hsum ⊢
  obtain ⟨hflow, hfhigh⟩ := abs_le.1 hfnear
  obtain ⟨hs, hsnear⟩ := hsum.abs_sub_le_half_gap (e := -8) (by decide) (by decide) (by
    rw [abs_le]
    norm_num
    constructor <;> linarith)
  have hoff : |s.toRat - (whole + part / parts)| ≤ 2 / 1000 := by
    have htwo := abs_sub_le s.toRat (whole + f.toRat) (whole + part / parts)
    rw [add_sub_add_left_eq_sub] at htwo
    norm_num at hsnear
    linarith
  obtain ⟨hslow, hshigh⟩ := abs_le.1 hoff
  exact ⟨hs, abs_le.2 ⟨by linarith, by linarith⟩, hoff⟩

/-- A hundred times as much is off by a fifth, and rounding the product takes it a quarter further
at most, so it is rounded to the right integer. -/
theorem toRat_roundToInt_scale {s : Binary64} {v : ℚ} {k : ℤ} (hparts : parts ≤ 100)
    (hpos : 0 < parts) (hs : s.isFinite = true) (hsize : |s.toRat| ≤ 2 ^ 45)
    (hoff : |s.toRat - v| ≤ 2 / 1000) (hk : (k : ℚ) = parts * v) :
    (s.scale parts 1).roundToInt.isFinite = true ∧
      (s.scale parts 1).roundToInt.toRat = k := by
  have hpos : (0 : ℚ) < parts := Nat.cast_pos.2 hpos
  have hmost : (parts : ℚ) ≤ 100 := by exact_mod_cast hparts
  have hproduct := isNearest_scale hs parts (d := 1) (by decide)
  rw [Nat.cast_one, div_one] at hproduct
  generalize s.scale parts 1 = t at hproduct ⊢
  have hexact : |s.toRat * parts - k| ≤ 2 / 10 := by
    rw [hk, mul_comm (parts : ℚ), ← sub_mul, abs_mul, abs_of_pos hpos]
    calc |s.toRat - v| * parts ≤ 2 / 1000 * 100 := by gcongr
      _ = 2 / 10 := by norm_num
  obtain ⟨ht, htnear⟩ := hproduct.abs_sub_le_half_gap (e := -1) (by decide) (by decide) (by
    rw [abs_mul, abs_of_pos hpos]
    calc |s.toRat| * parts ≤ 2 ^ 45 * 100 := by gcongr
      _ ≤ 2 ^ 53 * 2 ^ (-1 : ℤ) := by norm_num)
  refine ⟨(roundToInt_spec ht).1, toRat_roundToInt_of_abs_sub_lt ht ?_⟩
  have hboth := abs_sub_le t.toRat (s.toRat * parts) k
  rw [abs_sub_comm t.toRat k] at hboth
  norm_num at htnear
  linarith

/-- **A sum of less than `2 ^ 45`** is rounded to the whole number of parts that it is worth, and
then to the nearest number. -/
theorem isNearest_join (hparts : parts ≤ 100) (hpart : part < parts)
    (hwhole : whole < 2 ^ (45 : Nat)) :
    IsNearest (whole + part / parts) (join whole part parts) := by
  have hpos : 0 < parts := Nat.zero_lt_of_lt hpart
  obtain ⟨hs, hsize, hoff⟩ := sum_spec_of_lt hparts hpart hwhole
  obtain ⟨k, hk⟩ := exists_intCast_eq whole part hpos
  obtain ⟨hr, hround⟩ := toRat_roundToInt_scale hparts hpos hs hsize hoff hk
  have hlast := isNearest_scale hr 1 hpos
  rwa [hround, hk, Nat.cast_one, mul_one, mul_div_cancel_left₀ _ (Nat.cast_ne_zero.2 hpos.ne')]
    at hlast

/-! ### Sums of moderate size -/

/-- Any sum of moderate size is off by some parts of `2 ^ 53`. -/
theorem sum_spec (hparts : parts ≤ 100) (hpart : part < parts)
    (hwhole : (whole : ℚ) ≤ moderateSize) :
    ((ofInt whole).add ((ofInt part).scale 1 parts)).isFinite = true ∧
      |((ofInt whole).add ((ofInt part).scale 1 parts)).toRat - (whole + part / parts)| ≤
        9 / 4 / 2 ^ 53 * (whole + part / parts) + 3 / 10 ^ 6 := by
  have hmoderate := moderateSize_ge
  obtain ⟨hf, hfnear⟩ := fraction_spec hparts hpart
  have hw := isNearest_ofInt whole
  generalize (ofInt part).scale 1 parts = f at hf hfnear ⊢
  generalize ofInt whole = w at hw ⊢
  rw [Int.cast_natCast] at hw
  have hnonneg : (0 : ℚ) ≤ whole := Nat.cast_nonneg _
  have hfraction : 0 ≤ (part / parts : ℚ) ∧ (part / parts : ℚ) ≤ 1 := by
    refine ⟨by positivity, ?_⟩
    rw [div_le_one (Nat.cast_pos.2 (Nat.zero_lt_of_lt hpart))]
    exact_mod_cast hpart.le
  generalize (part / parts : ℚ) = fraction at hfnear hfraction ⊢
  -- both terms are hardly larger than what they are rounded from
  have hsize : |(whole : ℚ)| = whole := abs_of_nonneg hnonneg
  have hwfinite := hw.isFinite_of_moderate (by linarith)
  have hwnear := hw.error_le hwfinite
  have hwback := abs_sub_abs_le_abs_sub w.toRat whole
  have hfback := abs_sub_abs_le_abs_sub f.toRat fraction
  rw [abs_of_nonneg hfraction.1] at hfback
  have hsum := isNearest_add hwfinite hf
  have hsumsize := abs_add_le w.toRat f.toRat
  generalize w.add f = s at hsum ⊢
  have hs := hsum.isFinite_of_moderate (by linarith)
  have hsnear := hsum.error_le hs
  have hterms := abs_add_le (w.toRat - whole) (f.toRat - fraction)
  rw [← add_sub_add_comm] at hterms
  refine ⟨hs, (abs_sub_le _ (w.toRat + f.toRat) _).trans ?_⟩
  linarith

/-- No integer is nearer to the product with the parts than the one that it is rounded to, so this
one is no more than twice as far from the exact product. -/
theorem roundToInt_scale_spec {s : Binary64} {v : ℚ} {k : ℤ} (hparts : parts ≤ 100)
    (hpos : 0 < parts) (hs : s.isFinite = true) (hsize : |s.toRat| ≤ 3 * moderateSize)
    (hk : (k : ℚ) = parts * v) : (s.scale parts 1).roundToInt.isFinite = true ∧
      |(s.scale parts 1).roundToInt.toRat / parts - v| ≤
        2 * (|s.toRat| / 2 ^ 53 + |s.toRat - v|) := by
  have hpos : (0 : ℚ) < parts := Nat.cast_pos.2 hpos
  have hmost : (parts : ℚ) ≤ 100 := by exact_mod_cast hparts
  have hmoderate := moderateSize_ge
  have hproduct : (s.scale parts 1).isFinite = true := by
    refine (isNearest_scale hs parts (d := 1) (by decide)).isFinite_of_moderate ?_
    rw [Nat.cast_one, div_one, abs_mul, abs_of_pos hpos]
    calc |s.toRat| * parts ≤ (3 * moderateSize) * 100 :=
          mul_le_mul hsize hmost hpos.le (by linarith)
      _ ≤ 1000 * moderateSize := by linarith
  have htnear := abs_toRat_scale_natCast_sub_le parts hproduct
  generalize s.scale parts 1 = t at hproduct htnear ⊢
  have hrnear := abs_roundToInt_sub_le hproduct k
  refine ⟨(roundToInt_spec hproduct).1, ?_⟩
  generalize t.roundToInt = r at hrnear ⊢
  have htoff : |(k : ℚ) - t.toRat| ≤ parts * (|s.toRat| / 2 ^ 53 + |s.toRat - v|) := by
    have htwo := abs_sub_le t.toRat (parts * s.toRat) k
    rw [hk, ← mul_sub, abs_mul, abs_of_pos hpos, ← hk, abs_sub_comm t.toRat k] at htwo
    linarith
  have htwo := abs_sub_le r.toRat t.toRat k
  rw [abs_sub_comm t.toRat] at htwo
  have hsplit : r.toRat / parts - v = (r.toRat - k) / parts := by
    rw [hk, sub_div, mul_div_cancel_left₀ _ hpos.ne']
  rw [hsplit, abs_div, abs_of_pos hpos, div_le_iff₀ hpos]
  linarith

/-- **Any sum** of moderate size is rounded to a number that is off by some parts of `2 ^ 53`. -/
theorem join_spec (hparts : parts ≤ 100) (hpart : part < parts)
    (hwhole : (whole : ℚ) ≤ moderateSize) :
    (join whole part parts).isFinite = true ∧
      |(join whole part parts).toRat - (whole + part / parts)| ≤
        8 / 2 ^ 53 * (whole + part / parts) + 1 / 10 ^ 4 := by
  have hpos : 0 < parts := Nat.zero_lt_of_lt hpart
  have hmoderate := moderateSize_ge
  obtain ⟨hs, hsnear⟩ := sum_spec hparts hpart hwhole
  rw [join]
  generalize (ofInt whole).add ((ofInt part).scale 1 parts) = s at hs hsnear ⊢
  have hnonneg : (0 : ℚ) ≤ whole + part / parts := by positivity
  have hless : (whole + part / parts : ℚ) ≤ whole + 1 := by
    rw [add_le_add_iff_left, div_le_one (Nat.cast_pos.2 hpos)]
    exact_mod_cast hpart.le
  obtain ⟨k, hk⟩ := exists_intCast_eq whole part hpos
  generalize (whole + part / parts : ℚ) = v at hsnear hnonneg hless hk ⊢
  have hsback := abs_sub_abs_le_abs_sub s.toRat v
  rw [abs_of_nonneg hnonneg] at hsback
  obtain ⟨hr, hroff⟩ := roundToInt_scale_spec hparts hpos hs (by linarith) hk
  generalize (s.scale parts 1).roundToInt = r at hr hroff ⊢
  have hrback := abs_sub_abs_le_abs_sub (r.toRat / parts) v
  rw [abs_of_nonneg hnonneg] at hrback
  have hlast : (r.scale 1 parts).isFinite = true := by
    refine (isNearest_scale hr 1 hpos).isFinite_of_moderate ?_
    rw [Nat.cast_one, mul_one]
    linarith
  have hnear := abs_toRat_scale_sub_le hpos hlast
  refine ⟨hlast, (abs_sub_le _ (r.toRat / parts) _).trans ?_⟩
  linarith

end Binary64

namespace Decimal

open Binary64

variable {a b : Decimal} {digits places : Nat}

/-- The decimal is whole, or it is so small that its fraction can be told in binary. -/
def WholeOrSmall (a : Decimal) : Prop :=
  (∃ k : ℤ, a.toRat = k) ∨ |a.toRat| ≤ 2 ^ 45

/-- The first powers of ten are numbers themselves. -/
theorem binaryPower_eq (hplaces : places ≤ 2) : binaryPower places = 10 ^ places := by
  have hall : ∀ p ≤ 2, binaryPower p = 10 ^ p := by decide +kernel
  exact hall places hplaces

theorem toSize_of_mod_ne_zero (hplaces : places ≤ 2) (hpart : digits % 10 ^ places ≠ 0) :
    toSize digits places = join (digits / 10 ^ places) (digits % 10 ^ places) (10 ^ places) := by
  rw [toSize, if_neg hpart, binaryPower_eq hplaces]
  rfl

/-- The whole part and the fraction of a decimal. -/
theorem div_add_mod_div (digits places : Nat) :
    ((digits / 10 ^ places : Nat) + (digits % 10 ^ places : Nat) / (10 ^ places : Nat) : ℚ) =
      digits / 10 ^ places := by
  have hten : (10 : ℚ) ^ places ≠ 0 := by positivity
  have hsplit : (digits : ℚ) =
      10 ^ places * (digits / 10 ^ places : Nat) + (digits % 10 ^ places : Nat) := by
    exact_mod_cast (Nat.div_add_mod digits (10 ^ places)).symm
  rw [hsplit, Nat.cast_pow, Nat.cast_ofNat, add_div, mul_div_cancel_left₀ _ hten]

/-- What has no fraction is converted at once. -/
theorem isNearest_toSize_of_mod_eq_zero (hpart : digits % 10 ^ places = 0) :
    IsNearest (digits / 10 ^ places) (toSize digits places) := by
  have hnear := isNearest_ofInt (digits / 10 ^ places : Nat)
  rw [← div_add_mod_div, hpart, Nat.cast_zero, zero_div, add_zero, toSize, if_pos hpart]
  rwa [Int.cast_natCast] at hnear

theorem ten_pow_le (hplaces : places ≤ 2) : 10 ^ places ≤ 100 :=
  Nat.pow_le_pow_right (by decide) hplaces

theorem isNearest_toSize (hplaces : places ≤ 2)
    (h : digits % 10 ^ places = 0 ∨ digits ≤ 2 ^ (45 : Nat) * 10 ^ places) :
    IsNearest (digits / 10 ^ places) (toSize digits places) := by
  by_cases hpart : digits % 10 ^ places = 0
  · exact isNearest_toSize_of_mod_eq_zero hpart
  · have hless := Nat.mod_lt digits (ten_pow_pos places)
    -- with a fraction the whole part does not come up to the bound
    have hwhole : digits / 10 ^ places < 2 ^ (45 : Nat) := by
      have hmost := h.resolve_left hpart
      have hsplit := Nat.div_add_mod digits (10 ^ places)
      refine (Nat.mul_lt_mul_left (ten_pow_pos places)).1 ?_
      rw [Nat.mul_comm _ (2 ^ 45)]
      omega
    have hnear := isNearest_join (ten_pow_le hplaces) hless hwhole
    rwa [div_add_mod_div, ← toSize_of_mod_ne_zero hplaces hpart] at hnear

theorem toSize_spec (hplaces : places ≤ 2) (h : (digits / 10 ^ places : ℚ) ≤ moderateSize) :
    (toSize digits places).isFinite = true ∧
      |(toSize digits places).toRat - digits / 10 ^ places| ≤
        8 / 2 ^ 53 * (digits / 10 ^ places) + 1 / 10 ^ 4 := by
  have hnonneg : (0 : ℚ) ≤ digits / 10 ^ places := by positivity
  by_cases hpart : digits % 10 ^ places = 0
  · have hmoderate := moderateSize_ge
    have hnear := isNearest_toSize_of_mod_eq_zero hpart
    have hfinite := hnear.isFinite_of_moderate (by rw [abs_of_nonneg hnonneg]; linarith)
    have herror := hnear.error_le hfinite
    rw [abs_of_nonneg hnonneg] at herror
    exact ⟨hfinite, by linarith⟩
  · have hwhole : ((digits / 10 ^ places : Nat) : ℚ) ≤ digits / 10 ^ places := by
      rw [← div_add_mod_div digits places]
      exact le_add_of_nonneg_right (by positivity)
    have hspec := join_spec (ten_pow_le hplaces) (Nat.mod_lt digits (ten_pow_pos places))
      (hwhole.trans h)
    rwa [div_add_mod_div, ← toSize_of_mod_ne_zero hplaces hpart] at hspec

/-! ### Signs -/

/-- The number of a decimal is that of its size, with its sign. -/
theorem toNumber_cases (a : Decimal) :
    (a.toRat = a.mantissa.natAbs / 10 ^ a.places ∧
      a.toNumber = toSize a.mantissa.natAbs a.places) ∨
    (a.toRat = -(a.mantissa.natAbs / 10 ^ a.places) ∧
      a.toNumber = (toSize a.mantissa.natAbs a.places).negate) := by
  rw [toNumber, Decimal.toRat, Nat.cast_natAbs, Int.cast_abs]
  split
  · next hneg =>
    refine .inr ⟨?_, rfl⟩
    rw [abs_of_neg (Int.cast_lt_zero.2 hneg), neg_div, neg_neg]
  · next hpos =>
    refine .inl ⟨?_, rfl⟩
    rw [abs_of_nonneg (Int.cast_nonneg (not_lt.1 hpos))]

theorem abs_toRat_eq_div (a : Decimal) : |a.toRat| = a.mantissa.natAbs / 10 ^ a.places := by
  rw [← abs_toRat_mul_pow, mul_div_cancel_right₀ _ (by positivity)]

/-- **The number of a decimal that is whole or small** is the one nearest to it. -/
theorem isNearest_toNumber (hplaces : a.places ≤ 2) (h : a.WholeOrSmall) :
    IsNearest a.toRat a.toNumber := by
  have hten : (0 : ℚ) < 10 ^ a.places := by positivity
  have hparts : a.mantissa.natAbs % 10 ^ a.places = 0 ∨
      a.mantissa.natAbs ≤ 2 ^ (45 : Nat) * 10 ^ a.places := by
    rcases h with ⟨k, hk⟩ | hsmall
    · -- the digits are a whole number of ones
      refine .inl (Nat.mod_eq_zero_of_dvd (Dvd.intro_left k.natAbs ?_))
      rw [Decimal.toRat, div_eq_iff hten.ne'] at hk
      have hdigits : a.mantissa = k * (10 ^ a.places : Nat) := by exact_mod_cast hk
      rw [hdigits, Int.natAbs_mul, Int.natAbs_natCast]
    · rw [abs_toRat_eq_div, div_le_iff₀ hten] at hsmall
      exact .inr (by exact_mod_cast hsmall)
  have hnear := isNearest_toSize hplaces hparts
  rcases toNumber_cases a with ⟨hvalue, hnumber⟩ | ⟨hvalue, hnumber⟩
  · rwa [hvalue, hnumber]
  · rw [hvalue, hnumber]
    exact hnear.negate

/-- Zero is converted to positive zero. -/
theorem toNumber_of_toRat_eq_zero (h : a.toRat = 0) : a.toNumber = ofInt 0 := by
  have hmantissa : a.mantissa = 0 := by
    rw [Decimal.toRat, div_eq_zero_iff] at h
    exact Int.cast_eq_zero.1 (h.resolve_right (by positivity))
  rw [toNumber, hmantissa, if_neg (lt_irrefl 0), toSize]
  simp

/-- **Decimals of the same value are the same number** if they have the same places, or if they are
whole or small. -/
theorem toNumber_congr (ha : a.places ≤ 2) (hb : b.places ≤ 2) (hvalue : a.toRat = b.toRat)
    (h : a.places = b.places ∨ a.WholeOrSmall) : a.toNumber = b.toNumber := by
  rcases h with hplaces | hsmall
  · have hten : (10 : ℚ) ^ b.places ≠ 0 := by positivity
    have hmantissa : a.mantissa = b.mantissa := by
      rw [Decimal.toRat, Decimal.toRat, hplaces, div_left_inj' hten] at hvalue
      exact Int.cast_injective hvalue
    rw [toNumber, toNumber, hplaces, hmantissa]
  · by_cases hzero : a.toRat = 0
    · rw [toNumber_of_toRat_eq_zero hzero, toNumber_of_toRat_eq_zero (hvalue ▸ hzero)]
    · have hnear := isNearest_toNumber hb (by rwa [WholeOrSmall, ← hvalue])
      exact (isNearest_toNumber ha hsmall).eq (hvalue ▸ hnear) hzero

/-- **The number of any decimal** of moderate size is finite, and off by some parts of `2 ^ 53`. -/
theorem toNumber_spec (hplaces : a.places ≤ 2) (h : |a.toRat| ≤ moderateSize) :
    a.toNumber.isFinite = true ∧
      |a.toNumber.toRat - a.toRat| ≤ 8 / 2 ^ 53 * |a.toRat| + 1 / 10 ^ 4 := by
  rw [abs_toRat_eq_div] at h ⊢
  obtain ⟨hfinite, hnear⟩ := toSize_spec hplaces h
  rcases toNumber_cases a with ⟨hvalue, hnumber⟩ | ⟨hvalue, hnumber⟩
  · rw [hvalue, hnumber]
    exact ⟨hfinite, hnear⟩
  · rw [hvalue, hnumber, isFinite_negate, toRat_negate, neg_sub_neg, abs_sub_comm]
    exact ⟨hfinite, hnear⟩

end Decimal

end CampusQuery
