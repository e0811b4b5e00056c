import CampusQuery.Proofs.NearestNumber

/-!
# What the operations round

Every operation on finite numbers rounds a rational once: a sum, a product with a fraction, the
conversion of an integer. So the laws of rounding say how far each result is off. What is known to
be below some power of two is off by no more than half the gap there
(`Binary64.IsNearest.abs_sub_le_half_gap`).

Integers keep more than that. A number of `2 ^ 52` or more has no places left, so whatever an
integer is rounded to is an integer again (`Binary64.IsNearest.exists_toRat_eq`), and rounding a
number to an integer is off by one half at most, with no further rounding
(`Binary64.roundToInt_spec`): no other integer is nearer.
-/

namespace CampusQuery

namespace Binary64

variable {q : ℚ} {x y : Binary64} {i : ℤ}

theorem abs_toRat_finite (negative : Bool) (m : Magnitude) :
    |(finite negative m).toRat| = m.units * 2 ^ (-1074 : ℤ) := by
  rw [toRat_finite, abs_mul, abs_mul, abs_signFactor, one_mul, Nat.abs_cast, abs_of_pos unit_pos]

/-! ### What the operations round -/

/-- A number is rounded to itself. -/
theorem isNearest_self (hx : x.isFinite = true) : IsNearest x.toRat x := by
  cases x with
  | nan => cases hx
  | infinite negative => cases hx
  | finite negative m =>
    refine ⟨negative, m.units, 1, by decide, ?_, (nearest_units m negative).symm⟩
    rw [toRat_finite, Nat.cast_one, div_one]

/-- A number is what its text is rounded to. -/
theorem isNearest_writtenValue (hx : x.isFinite = true) : IsNearest x.writtenValue x := by
  cases x with
  | nan => cases hx
  | infinite negative => cases hx
  | finite negative m =>
    refine ⟨negative, _, _, (m.shortest .up).denominator_pos, ?_,
      (m.nearest_shortest .up negative).symm⟩
    rw [(written_finite negative m).2, DecimalForm.toRat_eq_div, DecimalForm.numerator,
      DecimalForm.denominator, ← Nat.mul_assoc, Nat.cast_mul _ unitsPerOne, Nat.cast_pow,
      Nat.cast_ofNat, mul_assoc, mul_div_right_comm, mul_assoc, unitsPerOne_mul_unit, mul_one]

/-- The units of a whole count, with its sign. -/
theorem signFactor_mul_natAbs (i : ℤ) : signFactor (decide (i < 0)) * (i.natAbs : ℚ) = i := by
  rw [← Decimal.cast_signed, Decimal.signed_natAbs]

theorem isNearest_add (hx : x.isFinite = true) (hy : y.isFinite = true) :
    IsNearest (x.toRat + y.toRat) (x.add y) := by
  cases x with
  | nan => cases hx
  | infinite negative => cases hx
  | finite negative m =>
    cases y with
    | nan => cases hy
    | infinite negative' => cases hy
    | finite negative' m' =>
      refine ⟨_, _, 1, by decide, ?_, rfl⟩
      rw [toRat, toRat, ← add_mul, ← Int.cast_add, Nat.cast_one, div_one]
      generalize (finite negative m).signedUnits + (finite negative' m').signedUnits = total
      split
      · next hzero => simp [hzero]
      · rw [signFactor_mul_natAbs]

theorem isNearest_scale (hx : x.isFinite = true) (n : Nat) {d : Nat} (hd : 0 < d) :
    IsNearest (x.toRat * n / d) (x.scale n d) := by
  cases x with
  | nan => cases hx
  | infinite negative => cases hx
  | finite negative m =>
    refine ⟨negative, m.units * n, d, hd, ?_, rfl⟩
    rw [toRat_finite]
    generalize (2 : ℚ) ^ (-1074 : ℤ) = unit
    push_cast
    ring

/-- An integer enters as the number nearest to it. -/
theorem isNearest_ofInt (i : ℤ) : IsNearest i (ofInt i) := by
  refine ⟨_, _, 1, by decide, ?_, rfl⟩
  rw [Nat.cast_one, div_one, Nat.cast_mul, ← mul_assoc, signFactor_mul_natAbs, mul_assoc,
    unitsPerOne_mul_unit, mul_one]

/-- A size that is large and yet leaves some room below the end of the format. -/
def moderateSize : ℚ := 10 ^ 305

theorem moderateSize_ge : 1000 ≤ moderateSize := by
  decide +kernel

/-- What is rounded from no more than a thousand times the moderate size is finite. -/
theorem IsNearest.isFinite_of_moderate (h : IsNearest q x) (hq : |q| ≤ 1000 * moderateSize) :
    x.isFinite = true := by
  have hlarge : (ofDecimal false 17 307).isFinite = true ∧
      1000 * moderateSize ≤ |(ofDecimal false 17 307).toRat| := by
    decide +kernel
  exact h.isFinite_of_abs_le hlarge.1 (hq.trans hlarge.2)

/-! ### Order -/

/-- Finite numbers are compared by their values. -/
theorem compare_finite (hx : x.isFinite = true) (hy : y.isFinite = true) :
    compare x y = Ord.compare x.signedUnits y.signedUnits := by
  cases x with
  | nan => cases hx
  | infinite negative => cases hx
  | finite negative m =>
    cases y with
    | nan => cases hy
    | infinite negative' => cases hy
    | finite negative' m' => rfl

theorem toRat_le_toRat_iff : x.toRat ≤ y.toRat ↔ x.signedUnits ≤ y.signedUnits := by
  rw [toRat, toRat, mul_le_mul_iff_left₀ unit_pos, Int.cast_le]

theorem compare_ne_lt_iff (hx : x.isFinite = true) (hy : y.isFinite = true) :
    compare x y ≠ .lt ↔ y.toRat ≤ x.toRat := by
  rw [compare_finite hx hy, toRat_le_toRat_iff, Ne, Int.compare_eq_lt, not_lt]

theorem compare_ne_gt_iff (hx : x.isFinite = true) (hy : y.isFinite = true) :
    compare x y ≠ .gt ↔ x.toRat ≤ y.toRat := by
  rw [compare_finite hx hy, toRat_le_toRat_iff, Ne, Int.compare_eq_gt, not_lt]

theorem isNaN_of_isFinite (hx : x.isFinite = true) : x.isNaN = false := by
  cases x with
  | nan => cases hx
  | infinite negative => cases hx
  | finite negative m => rfl

/-- Finite numbers are equal if they have the same value. -/
theorem eq_iff_toRat_eq (hx : x.isFinite = true) (hy : y.isFinite = true) :
    eq x y = true ↔ x.toRat = y.toRat := by
  rw [eq, isNaN_of_isFinite hx, isNaN_of_isFinite hy, compare_finite hx hy, toRat, toRat,
    mul_left_inj' unit_pos.ne', Int.cast_inj]
  simp

/-! ### Integers -/

/-- A number is an integer if it is that many times the units of one. -/
theorem toRat_eq_intCast_iff : x.toRat = i ↔ x.signedUnits = i * unitsPerOne := by
  rw [toRat, ← mul_one (i : ℚ), ← unitsPerOne_mul_unit, ← mul_assoc, mul_left_inj' unit_pos.ne']
  exact_mod_cast Iff.rfl

/-- A number of `2 ^ 52` or more has no places. -/
theorem exists_toRat_eq_intCast (h : (2 : ℚ) ^ 52 ≤ |x.toRat|) : ∃ k : ℤ, x.toRat = k := by
  cases x with
  | nan => exact ⟨0, by simp [toRat, signedUnits]⟩
  | infinite negative => exact ⟨0, by simp [toRat, signedUnits]⟩
  | finite negative m =>
    have hlarge : 2 ^ (52 : Nat) * unitsPerOne ≤ m.units := by
      rw [abs_toRat_finite] at h
      have hones := unitsPerOne_mul_unit
      have hunit := unit_pos
      generalize (2 : ℚ) ^ (-1074 : ℤ) = unit at h hones hunit
      generalize unitsPerOne = ones at hones ⊢
      have hcount : (2 ^ 52 * ones : ℚ) * unit ≤ m.units * unit := by
        rwa [mul_assoc, hones, mul_one]
      exact_mod_cast le_of_mul_le_mul_right hcount hunit
    -- its gap is a whole number of ones
    have hgap : unitsPerOne ∣ spacing m.units := by
      obtain ⟨j, hj⟩ : ∃ j : Nat, j = 1074 := ⟨_, rfl⟩
      have hspacing := spacing_dvd_spacing hlarge
      rwa [unitsPerOne_eq hj, ← Nat.pow_add, spacing, Nat.log2_two_pow, Nat.add_sub_cancel_left,
        ← unitsPerOne_eq hj] at hspacing
    obtain ⟨c, hc⟩ := Nat.dvd_trans hgap m.representable.1
    refine ⟨if negative then -(c : ℤ) else c, toRat_eq_intCast_iff.2 ?_⟩
    have hunits : (m.units : ℤ) = c * unitsPerOne := by
      rw [hc, Nat.mul_comm, Nat.cast_mul]
    cases negative with
    | false => exact hunits
    | true =>
      rw [signedUnits, hunits, if_pos rfl]
      exact (neg_mul ..).symm

/-- What an integer is rounded to is the integer, if a number has its value. -/
theorem IsNearest.toRat_eq (h : IsNearest x.toRat y) (hx : x.isFinite = true) :
    y.isFinite = true ∧ y.toRat = x.toRat := by
  have hy := h.isFinite_of_abs_le hx le_rfl
  have hnear := h.abs_sub_le hy hx
  rw [sub_self, abs_zero] at hnear
  exact ⟨hy, sub_eq_zero.1 (abs_eq_zero.1 (le_antisymm hnear (abs_nonneg _)))⟩

/-- A number of 53 bits is in the format, wherever its point is. -/
theorem exists_toRat_eq_mul_zpow (hi : i.natAbs ≤ 2 ^ (53 : Nat)) {e : ℤ} (hlow : -1074 ≤ e)
    (hhigh : e ≤ 970) : ∃ z : Binary64, z.isFinite = true ∧ z.toRat = i * 2 ^ e := by
  obtain ⟨k, rfl⟩ : ∃ k : Nat, e = k + -1074 := ⟨(e + 1074).toNat, by omega⟩
  have hk : k ≤ 2044 := by omega
  refine ⟨finite (decide (i < 0)) ⟨_, representable_shift hi hk⟩, rfl, ?_⟩
  rw [toRat_finite, zpow_add₀ two_ne_zero, zpow_natCast, Nat.cast_mul, ← mul_assoc,
    signFactor_mul_natAbs, Nat.cast_pow, Nat.cast_ofNat, mul_assoc]

theorem exists_toRat_eq_of_natAbs_le (h : i.natAbs ≤ 2 ^ (53 : Nat)) :
    ∃ z : Binary64, z.isFinite = true ∧ z.toRat = i := by
  obtain ⟨z, hz, hvalue⟩ := exists_toRat_eq_mul_zpow h (e := 0) (by decide) (by decide)
  exact ⟨z, hz, by rw [hvalue, zpow_zero, mul_one]⟩

/-- An integer that a number has for its value is converted to an equal number. -/
theorem toRat_ofInt_of_isFinite (hx : x.isFinite = true) (h : x.toRat = i) :
    (ofInt i).isFinite = true ∧ (ofInt i).toRat = i := by
  have hnear := isNearest_ofInt i
  rw [← h] at hnear ⊢
  exact hnear.toRat_eq hx

/-- An integer of 53 bits is so. -/
theorem toRat_ofInt_of_natAbs_le (h : i.natAbs ≤ 2 ^ (53 : Nat)) :
    (ofInt i).isFinite = true ∧ (ofInt i).toRat = i := by
  obtain ⟨z, hz, hvalue⟩ := exists_toRat_eq_of_natAbs_le h
  exact toRat_ofInt_of_isFinite hz hvalue

/-- **What is no more than a power of two** is off by half the gap below that power. -/
theorem IsNearest.abs_sub_le_half_gap (h : IsNearest q x) {e : ℤ} (hlow : -1074 ≤ e)
    (hhigh : e ≤ 970) (hq : |q| ≤ 2 ^ 53 * 2 ^ e) :
    x.isFinite = true ∧ |x.toRat - q| ≤ 2 ^ e / 2 := by
  have hgap : (0 : ℚ) < 2 ^ e := zpow_pos two_pos e
  have hcount : |q / 2 ^ e| ≤ 2 ^ 53 := by
    rwa [abs_div, abs_of_pos hgap, div_le_iff₀ hgap]
  -- the multiple of the gap that is nearest is a number
  obtain ⟨i, hi⟩ : ∃ i, halfEven (q / 2 ^ e) = i := ⟨_, rfl⟩
  have hbits : i.natAbs ≤ 2 ^ (53 : Nat) := by
    obtain ⟨hleast, hmost⟩ := abs_le.1 hcount
    have hbelow : -2 ^ 53 ≤ i := hi ▸ le_halfEven (by push_cast; exact hleast)
    have habove : i ≤ 2 ^ 53 := hi ▸ halfEven_le (by push_cast; exact hmost)
    omega
  obtain ⟨z, hz, hzvalue⟩ := exists_toRat_eq_mul_zpow hbits hlow hhigh
  obtain ⟨top, htop, htopvalue⟩ :=
    exists_toRat_eq_mul_zpow (i := 2 ^ 53) (by decide) hlow hhigh
  have hfinite : x.isFinite = true := by
    refine h.isFinite_of_abs_le htop (hq.trans ?_)
    rw [htopvalue]
    push_cast
    exact le_abs_self _
  refine ⟨hfinite, ?_⟩
  calc |x.toRat - q|
      ≤ |z.toRat - q| := h.abs_sub_le hfinite hz
    _ = |(i : ℚ) - q / 2 ^ e| * 2 ^ e := by
        rw [hzvalue, ← abs_of_pos hgap, ← abs_mul, abs_of_pos hgap, sub_mul,
          div_mul_cancel₀ _ hgap.ne']
    _ ≤ 1 / 2 * 2 ^ e :=
        mul_le_mul_of_nonneg_right (hi ▸ abs_halfEven_sub_le_half _) hgap.le
    _ = 2 ^ e / 2 := by ring

/-- What an integer is rounded to is an integer. -/
theorem IsNearest.exists_toRat_eq (h : IsNearest i x) (hx : x.isFinite = true) :
    ∃ k : ℤ, x.toRat = k := by
  by_cases hsmall : i.natAbs ≤ 2 ^ (53 : Nat)
  · obtain ⟨z, hz, hvalue⟩ := exists_toRat_eq_of_natAbs_le hsmall
    rw [← hvalue] at h
    exact ⟨i, (h.toRat_eq hz).2.trans hvalue⟩
  · -- rounding does not take it below half of what it was
    refine exists_toRat_eq_intCast ?_
    have hlarge : (2 : ℚ) ^ 53 ≤ |(i : ℚ)| := by
      rw [← Int.cast_abs, Int.abs_eq_natAbs]
      exact_mod_cast (not_le.1 hsmall).le
    have hunits : (i : ℚ) = (i * unitsPerOne : ℤ) * 2 ^ (-1074 : ℤ) := by
      rw [Int.cast_mul, Int.cast_natCast, mul_assoc, unitsPerOne_mul_unit, mul_one]
    have herror := h.error_of_units hx hunits
    have hback := abs_sub_abs_le_abs_sub (i : ℚ) x.toRat
    rw [abs_sub_comm] at hback
    linarith

/-! ### Rounding to an integer -/

theorem abs_halfUp_sub_le (q : ℚ) : |(halfUp q : ℚ) - q| ≤ 1 / 2 := by
  obtain ⟨hlow, hhigh⟩ := halfUp_eq_iff.1 (rfl : halfUp q = halfUp q)
  rw [abs_le]
  constructor <;> linarith

theorem halfUp_intCast (k : ℤ) : halfUp k = k :=
  halfUp_eq_iff.2 ⟨by linarith, by linarith⟩

/-- The size of a finite number, as a fraction of its units. -/
theorem abs_toRat_eq_div (negative : Bool) (m : Magnitude) :
    |(finite negative m).toRat| = m.units / unitsPerOne := by
  have hone := unitsPerOne_mul_unit
  rw [abs_toRat_finite]
  generalize (2 : ℚ) ^ (-1074 : ℤ) = unit at hone ⊢
  rw [eq_div_iff (left_ne_zero_of_mul_eq_one hone), mul_assoc, mul_comm unit, hone, mul_one]

/-- **Rounding to an integer** is off by one half at most. The integer is a number of the format:
either it is small, or the number is an integer already. -/
theorem roundToInt_spec (hx : x.isFinite = true) : x.roundToInt.isFinite = true ∧
    (∃ k : ℤ, x.roundToInt.toRat = k) ∧ |x.roundToInt.toRat - x.toRat| ≤ 1 / 2 := by
  cases x with
  | nan => cases hx
  | infinite negative => cases hx
  | finite negative m =>
    obtain ⟨i, hi⟩ : ∃ i : ℤ, i = Decimal.signed negative (roundDivUp m.units unitsPerOne) :=
      ⟨_, rfl⟩
    have hround : (i : ℚ) = signFactor negative * halfUp |(finite negative m).toRat| := by
      rw [hi, Decimal.cast_signed, abs_toRat_eq_div, halfUp_div _ unitsPerOne_pos, Int.cast_natCast]
    have hvalue : (finite negative m).toRat =
        signFactor negative * |(finite negative m).toRat| := by
      rw [abs_toRat_finite, toRat_finite, mul_assoc]
    have hnear : IsNearest i (finite negative m).roundToInt := by
      refine ⟨negative, _, 1, by decide, ?_, rfl⟩
      rw [hi, Decimal.cast_signed, Nat.cast_one, div_one, Nat.cast_mul, mul_assoc, mul_assoc,
        unitsPerOne_mul_unit, mul_one]
    have hdist : |(i : ℚ) - (finite negative m).toRat| ≤ 1 / 2 := by
      rw [hround, hvalue, ← mul_sub, abs_mul, abs_signFactor, one_mul, abs_mul, abs_signFactor,
        one_mul, abs_abs]
      exact abs_halfUp_sub_le _
    obtain ⟨z, hz, hzvalue⟩ : ∃ z : Binary64, z.isFinite = true ∧ z.toRat = i := by
      by_cases hlarge : (2 : ℚ) ^ 52 ≤ |(finite negative m).toRat|
      · obtain ⟨c, hc⟩ := exists_toRat_eq_intCast hlarge
        refine ⟨finite negative m, rfl, ?_⟩
        rw [hround, hvalue, abs_mul, abs_signFactor, one_mul, abs_abs, hc, ← Int.cast_abs,
          halfUp_intCast]
      · refine exists_toRat_eq_of_natAbs_le ?_
        have hsmall : |(i : ℚ)| ≤ 2 ^ 53 := by
          have hback := abs_sub_abs_le_abs_sub (i : ℚ) (finite negative m).toRat
          linarith [not_le.1 hlarge]
        rw [← Int.cast_abs, Int.abs_eq_natAbs] at hsmall
        exact_mod_cast hsmall
    rw [← hzvalue] at hnear hdist
    obtain ⟨hfinite, hsame⟩ := hnear.toRat_eq hz
    refine ⟨hfinite, ⟨i, hsame.trans hzvalue⟩, ?_⟩
    rw [hsame]
    exact hdist

/-- No other integer is nearer. -/
theorem abs_roundToInt_sub_le (hx : x.isFinite = true) (k : ℤ) :
    |x.roundToInt.toRat - x.toRat| ≤ |(k : ℚ) - x.toRat| := by
  obtain ⟨-, ⟨i, hi⟩, hhalf⟩ := roundToInt_spec hx
  rw [hi] at hhalf ⊢
  by_cases hsame : i = k
  · rw [hsame]
  · have hapart : (1 : ℚ) ≤ |(i : ℚ) - k| := by
      exact_mod_cast Int.one_le_abs (sub_ne_zero.2 hsame)
    have hback := abs_sub_le (i : ℚ) x.toRat k
    rw [abs_sub_comm x.toRat] at hback
    linarith

/-- A number that is less than one half away from an integer is rounded to it. -/
theorem toRat_roundToInt_of_abs_sub_lt (hx : x.isFinite = true) {k : ℤ}
    (h : |(k : ℚ) - x.toRat| < 1 / 2) : x.roundToInt.toRat = k := by
  obtain ⟨-, ⟨i, hi⟩, hhalf⟩ := roundToInt_spec hx
  rw [hi] at hhalf ⊢
  have hback := abs_sub_le (i : ℚ) x.toRat k
  rw [abs_sub_comm x.toRat] at hback
  -- two integers with less than one between them are the same
  have hapart : |((i - k : ℤ) : ℚ)| < 1 := by
    push_cast
    linarith
  have hsame : i - k = 0 := by
    rw [← Int.cast_abs] at hapart
    exact Int.abs_lt_one_iff.1 (by exact_mod_cast hapart)
  rw [sub_eq_zero.1 hsame]

end Binary64

end CampusQuery
