import CampusQuery.Proofs.RoundedResults

/-!
# How many digits the decimal of a number has

The shortest form of a number is searched on grids of powers of ten, from one that is coarser than
the number. A grid that is finer than three quarters of the gap has a point in the rounding
interval, whose width is that near a power of two and more elsewhere
(`Magnitude.exists_readsBack_of_lt_gap`). This is so eighteen grids below the first one at the
latest, so a form has at most nineteen digits (`Magnitude.shortest_coefficient_le`), and a number
with a gap of `2 ^ -6` or more has a form with at most two places
(`Magnitude.neg_two_le_exponent_shortest`).

Near zero a number has more places than a decimal, but not more digits. So a decimal that has places
has at most nineteen digits, which leaves much room in its 96 bits (`Decimal.digits_of_ofNumber?`).
-/

namespace CampusQuery

/-! ### Powers of two and of ten -/

/-- The powers of ten around a power of two are told by `30103 / 100000`, upwards from one. -/
theorem pow_ten_bounds_natCast : ∀ k < 1025, 10 ^ (k * 30103 / 100000) ≤ 2 ^ k ∧
    2 ^ k ≤ 10 ^ (k * 30103 / 100000 + 1) := by
  decide +kernel

/-- They are told so downwards from one, too. -/
theorem pow_ten_bounds_neg : ∀ k < 41, 2 ^ k ≤ 10 ^ ((k * 30103 + 99999) / 100000) ∧
    10 ^ ((k * 30103 + 99999) / 100000) ≤ 10 * 2 ^ k := by
  decide +kernel

theorem pow_ten_bounds {k : ℤ} (hlow : -40 ≤ k) (hhigh : k ≤ 1024) :
    (10 : ℚ) ^ (k * 30103 / 100000) ≤ 2 ^ k ∧ (2 : ℚ) ^ k ≤ 10 * 10 ^ (k * 30103 / 100000) := by
  rcases Int.le_total 0 k with hpos | hneg
  · obtain ⟨n, rfl⟩ := Int.eq_ofNat_of_zero_le hpos
    obtain ⟨hbelow, habove⟩ := pow_ten_bounds_natCast n (by omega)
    have hdiv : (n : ℤ) * 30103 / 100000 = ((n * 30103 / 100000 : Nat) : ℤ) := by omega
    rw [hdiv, zpow_natCast, zpow_natCast]
    rw [Nat.pow_succ'] at habove
    exact ⟨by exact_mod_cast hbelow, by exact_mod_cast habove⟩
  · obtain ⟨n, hn⟩ := Int.eq_ofNat_of_zero_le (Int.neg_nonneg.2 hneg)
    obtain ⟨hbelow, habove⟩ := pow_ten_bounds_neg n (by omega)
    have hk : k = -(n : ℤ) := by omega
    have hdiv : k * 30103 / 100000 = -(((n * 30103 + 99999) / 100000 : Nat) : ℤ) := by omega
    rw [hdiv, hk, zpow_neg, zpow_neg, zpow_natCast, zpow_natCast]
    generalize (n * 30103 + 99999) / 100000 = j at hbelow habove
    have hten : (0 : ℚ) < 10 ^ j := by positivity
    have htwo : (0 : ℚ) < 2 ^ n := by positivity
    have hbelow : (2 : ℚ) ^ n ≤ 10 ^ j := by exact_mod_cast hbelow
    have habove : (10 : ℚ) ^ j ≤ 10 * 2 ^ n := by exact_mod_cast habove
    refine ⟨(inv_le_inv₀ hten htwo).2 hbelow, ?_⟩
    rw [← div_eq_mul_inv, inv_eq_one_div, div_le_div_iff₀ htwo hten, one_mul]
    exact habove

namespace Magnitude

variable {m : Magnitude} {tie : TieRule}

/-! ### Gaps and grids -/

/-- The gap at a number. -/
def gap (m : Magnitude) : ℚ :=
  spacing m.units * 2 ^ (-1074 : ℤ)

/-- The gap of a number with at least 53 bits. -/
theorem gap_eq (h : 52 ≤ m.units.log2) : m.gap = 2 ^ ((m.units.log2 : ℤ) - 1126) := by
  have hexponent : (m.units.log2 : ℤ) - 1126 = ((m.units.log2 - 52 : Nat) : ℤ) + -1074 := by omega
  rw [gap, spacing, hexponent, zpow_add₀ two_ne_zero, zpow_natCast,
    Nat.cast_pow, Nat.cast_ofNat]

/-- A number is less than the power of two that it has one bit less than. -/
theorem units_mul_unit_lt (m : Magnitude) :
    (m.units : ℚ) * 2 ^ (-1074 : ℤ) < 2 ^ ((m.units.log2 : ℤ) - 1073) := by
  have hexponent : (m.units.log2 : ℤ) - 1073 = ((m.units.log2 + 1 : Nat) : ℤ) + -1074 := by omega
  rw [hexponent, zpow_add₀ two_ne_zero, zpow_natCast]
  refine mul_lt_mul_of_pos_right ?_ unit_pos
  exact_mod_cast (Nat.lt_log2_self : m.units < 2 ^ (m.units.log2 + 1))

theorem ten_zpow_eq_div (e : ℤ) :
    (10 : ℚ) ^ e = (10 ^ e.toNat : Nat) / (10 ^ (-e).toNat : Nat) := by
  have hform := (DecimalForm.mk 1 e).toRat_eq_div
  rw [DecimalForm.toRat, Nat.cast_one, one_mul, Nat.one_mul] at hform
  rw [hform]
  push_cast
  rfl

/-- The lower end of the rounding interval is a quarter of the gap below the number, or half of
it. -/
theorem lowerEnd_add_spacing_le (hm : 0 < m.units) :
    m.lowerEnd + spacing m.units ≤ 4 * m.units := by
  have hgap := spacing_le hm
  rw [lowerEnd]
  split <;> omega

/-- A grid is finer than a part of the gap if it is so in units of the format. -/
theorem four_mul_lt_of_lt_gap {e : ℤ} (h : 4 * (10 : ℚ) ^ e < 3 * m.gap) :
    4 * (10 ^ e.toNat * unitsPerOne) < 3 * (spacing m.units * 10 ^ (-e).toNat) := by
  have hone := unitsPerOne_mul_unit
  have hunit := unit_pos
  have hdown : (0 : ℚ) < (10 ^ (-e).toNat : Nat) := Nat.cast_pos.2 (Nat.pow_pos (by decide))
  rw [ten_zpow_eq_div, gap, mul_div_assoc', div_lt_iff₀ hdown] at h
  generalize (2 : ℚ) ^ (-1074 : ℤ) = unit at h hone hunit
  have hscaled : (4 * (10 ^ e.toNat : Nat) * unitsPerOne : ℚ) * unit <
      (3 * (spacing m.units * (10 ^ (-e).toNat : Nat)) : ℚ) * unit := by
    rw [mul_assoc _ _ unit, hone]
    linarith
  have hlt := lt_of_mul_lt_mul_right hscaled hunit.le
  rw [← Nat.mul_assoc]
  generalize unitsPerOne = ones at hlt ⊢
  exact_mod_cast hlt

/-- **A grid that is finer than three quarters of the gap** has a point in the rounding interval. -/
theorem exists_readsBack_of_lt_gap (hm : 0 < m.units) {e : ℤ}
    (h : 4 * (10 : ℚ) ^ e < 3 * m.gap) :
    ∃ c, m.readsBack (DecimalForm.mk c e).numerator (DecimalForm.mk c e).denominator = true := by
  have hcount := four_mul_lt_of_lt_gap h
  have hup : 0 < 10 ^ e.toNat * unitsPerOne :=
    Nat.mul_pos (Nat.pow_pos (by decide)) unitsPerOne_pos
  show ∃ c, m.readsBack (c * (10 ^ e.toNat * unitsPerOne)) (10 ^ (-e).toNat) = true
  generalize 10 ^ e.toNat * unitsPerOne = up at hcount hup ⊢
  generalize 10 ^ (-e).toNat = down at hcount ⊢
  -- the number is between two points of the grid
  have hbelow := Nat.div_mul_le_self (m.units * down) up
  have habove := (Nat.div_lt_iff_lt_mul hup).1 (Nat.lt_succ_self (m.units * down / up))
  generalize m.units * down / up = below at hbelow habove
  rw [Nat.succ_mul] at habove
  -- the ends of the interval, a quarter of the gap below at least and half of it above
  have hupper : m.upperEnd * down = 4 * (m.units * down) + 2 * (spacing m.units * down) := by
    rw [upperEnd]
    ring
  have hlower : m.lowerEnd * down + spacing m.units * down ≤ 4 * (m.units * down) := by
    rw [← Nat.add_mul, ← Nat.mul_assoc]
    exact Nat.mul_le_mul_right down (lowerEnd_add_spacing_le hm)
  by_cases hfits : m.readsBack (below * up) down = true
  · exact ⟨below, hfits⟩
  · refine ⟨below + 1, ?_⟩
    have hnext : (below + 1) * up = below * up + up := Nat.succ_mul ..
    rw [readsBack, hupper] at hfits ⊢
    split at hfits
    · next hincluded =>
      rw [if_pos hincluded]
      simp only [Bool.and_eq_true, decide_eq_true_eq] at hfits ⊢
      omega
    · next hincluded =>
      rw [if_neg hincluded]
      simp only [Bool.and_eq_true, decide_eq_true_eq] at hfits ⊢
      omega

/-! ### The grid of the shortest form -/

/-- The search goes no further down than to a grid finer than three quarters of the gap. -/
theorem le_exponent_shortest (hm : 0 < m.units) {e : ℤ} (h : 4 * (10 : ℚ) ^ e < 3 * m.gap)
    (hle : e ≤ m.coarsestExponent) (hsteps : m.coarsestExponent < e + 24) :
    e ≤ (m.shortest tie).exponent := by
  obtain ⟨c, hc⟩ := exists_readsBack_of_lt_gap hm h
  rw [shortest, if_neg hm.ne']
  exact le_exponent_searchGrid hle hsteps (isSome_gridPoint? (d := ⟨c, e⟩) hc)

/-- The powers of ten around a number that is not near zero, by the exponent that the search begins
with. -/
theorem coarsestExponent_spec (hlog : 1033 ≤ m.units.log2) :
    (10 : ℚ) ^ m.coarsestExponent ≤ 10 * 2 ^ ((m.units.log2 : ℤ) - 1073) ∧
      (2 : ℚ) ^ ((m.units.log2 : ℤ) - 1073) ≤ 10 ^ m.coarsestExponent := by
  have hbits := m.representable.log2_lt
  obtain ⟨hbelow, habove⟩ :=
    pow_ten_bounds (k := (m.units.log2 : ℤ) - 1073) (by omega) (by omega)
  have hsucc : (10 : ℚ) ^ m.coarsestExponent =
      10 * 10 ^ (((m.units.log2 : ℤ) - 1073) * 30103 / 100000) := by
    rw [coarsestExponent, zpow_add₀ (by norm_num), zpow_one, mul_comm]
  rw [hsucc]
  exact ⟨mul_le_mul_of_nonneg_left hbelow (by norm_num), habove⟩

theorem ten_zpow_sub_eighteen (e : ℤ) : (10 : ℚ) ^ (e - 18) = 10 ^ e * (1 / 10 ^ 18) := by
  rw [zpow_sub₀ (by norm_num), div_eq_mul_one_div]
  norm_num

theorem units_pos_of_log2 (hlog : 0 < m.units.log2) : 0 < m.units := by
  by_contra hzero
  rw [Nat.eq_zero_of_not_pos hzero] at hlog
  exact absurd hlog (by decide)

/-- **The search ends** eighteen grids below the first one at the latest. -/
theorem coarsestExponent_le_exponent_shortest (hlog : 1033 ≤ m.units.log2) (tie : TieRule) :
    m.coarsestExponent - 18 ≤ (m.shortest tie).exponent := by
  have hm : 0 < m.units := units_pos_of_log2 (by omega)
  refine le_exponent_shortest hm ?_ (by omega) (by omega)
  have hten : (0 : ℚ) < 2 ^ ((m.units.log2 : ℤ) - 1073) := zpow_pos two_pos _
  -- the gap has 53 bits less than the number
  have hgap : m.gap = 2 ^ ((m.units.log2 : ℤ) - 1073) * (1 / 2 ^ 53) := by
    have hexponent : (m.units.log2 : ℤ) - 1126 = (m.units.log2 : ℤ) - 1073 + -53 := by omega
    rw [gap_eq (by omega), hexponent, zpow_add₀ two_ne_zero]
    norm_num
  have hcoarse := (coarsestExponent_spec hlog).1
  rw [ten_zpow_sub_eighteen, hgap]
  linarith

/-- What the shortest form is worth is at most one and a half times the number. -/
theorem toRat_shortest_le (m : Magnitude) (tie : TieRule) :
    (m.shortest tie).toRat ≤ 3 / 2 * (m.units * 2 ^ (-1074 : ℤ)) := by
  rcases Nat.eq_zero_or_pos m.units with hzero | hm
  · rw [shortest, if_pos hzero, hzero, DecimalForm.toRat]
    simp
  · have hhigh := (bounds_of_readsBack hm (m.readsBack_shortest tie)).2
    have hdown : (0 : ℚ) < (m.shortest tie).denominator :=
      Nat.cast_pos.2 (m.shortest tie).denominator_pos
    have hone := unitsPerOne_mul_unit
    have hunit := unit_pos
    have hform : (m.shortest tie).toRat =
        (m.shortest tie).numerator * 2 ^ (-1074 : ℤ) / (m.shortest tie).denominator := by
      rw [DecimalForm.toRat_eq_div, DecimalForm.numerator, DecimalForm.denominator,
        ← Nat.mul_assoc, Nat.cast_mul _ unitsPerOne, mul_assoc _ _ ((2 : ℚ) ^ (-1074 : ℤ)), hone,
        mul_one, Nat.cast_pow, Nat.cast_ofNat]
    have hhigh : (2 * (m.shortest tie).numerator : ℚ) ≤
        3 * (m.units * (m.shortest tie).denominator) := by exact_mod_cast hhigh
    rw [hform, div_le_iff₀ hdown]
    generalize (2 : ℚ) ^ (-1074 : ℤ) = unit at hunit ⊢
    linarith [mul_le_mul_of_nonneg_right hhigh hunit.le]

/-- **The shortest form has at most nineteen digits**, if the number is not near zero. -/
theorem shortest_coefficient_le (hlog : 1033 ≤ m.units.log2) (tie : TieRule) :
    ((m.shortest tie).coefficient : ℚ) ≤ 3 / 2 * 10 ^ 18 := by
  have hexponent := coarsestExponent_le_exponent_shortest hlog tie
  have hvalue := m.toRat_shortest_le tie
  have hsize := m.units_mul_unit_lt
  have hcoarse := (coarsestExponent_spec hlog).2
  have hten : (0 : ℚ) < 10 ^ m.coarsestExponent := zpow_pos (by norm_num) _
  have hgrid : (10 : ℚ) ^ m.coarsestExponent * (1 / 10 ^ 18) ≤
      10 ^ (m.shortest tie).exponent := by
    rw [← ten_zpow_sub_eighteen]
    exact zpow_le_zpow_right₀ (by norm_num) hexponent
  rw [DecimalForm.toRat] at hvalue
  have hcount := mul_le_mul_of_nonneg_left hgrid (Nat.cast_nonneg (α := ℚ)
    (m.shortest tie).coefficient)
  refine le_of_mul_le_mul_right ?_ hten
  linarith

/-- **So has every form with no more than 28 places**: near zero most of them are filled with
zeros. -/
theorem shortest_coefficient_le_of_places (hplaces : -28 ≤ (m.shortest tie).exponent) :
    ((m.shortest tie).coefficient : ℚ) ≤ 2 * 10 ^ 18 := by
  rcases lt_or_ge m.units.log2 1033 with hlow | hlog
  · have hsmall : (m.units : ℚ) * 2 ^ (-1074 : ℤ) ≤ 1 / 10 ^ 11 :=
      calc (m.units : ℚ) * 2 ^ (-1074 : ℤ)
          ≤ 2 ^ ((m.units.log2 : ℤ) - 1073) := m.units_mul_unit_lt.le
        _ ≤ 2 ^ (-41 : ℤ) := zpow_le_zpow_right₀ one_le_two (by omega)
        _ ≤ 1 / 10 ^ 11 := by norm_num
    have hvalue := m.toRat_shortest_le tie
    have hpower : (10 : ℚ) ^ (-28 : ℤ) ≤ 10 ^ (m.shortest tie).exponent :=
      zpow_le_zpow_right₀ (by norm_num) hplaces
    have hcount := mul_le_mul_of_nonneg_left hpower (Nat.cast_nonneg (α := ℚ)
      (m.shortest tie).coefficient)
    rw [DecimalForm.toRat] at hvalue
    generalize (2 : ℚ) ^ (-1074 : ℤ) = unit at hvalue hsmall
    norm_num at hcount hsmall
    linarith
  · have hcount := shortest_coefficient_le hlog tie
    linarith

/-- **A number with a gap of `2 ^ -6` or more is written with at most two places.** -/
theorem neg_two_le_exponent_shortest (hlog : 1120 ≤ m.units.log2) (tie : TieRule) :
    -2 ≤ (m.shortest tie).exponent := by
  have hm : 0 < m.units := units_pos_of_log2 (by omega)
  rcases lt_or_ge m.coarsestExponent 16 with hfew | hmany
  · refine le_exponent_shortest hm ?_ ?_ (by omega)
    · have hgap : (2 : ℚ) ^ (-6 : ℤ) ≤ m.gap := by
        rw [gap_eq (by omega)]
        exact zpow_le_zpow_right₀ one_le_two (by omega)
      norm_num at hgap ⊢
      linarith
    · rw [coarsestExponent]
      omega
  · have hend := coarsestExponent_le_exponent_shortest (m := m) (by omega) tie
    omega

/-- Only a number near zero is written with more than 28 places. -/
theorem units_le_of_exponent_shortest (h : (m.shortest tie).exponent < -28) :
    (m.units : ℚ) * 2 ^ (-1074 : ℤ) ≤ 1 / 10 ^ 11 := by
  refine m.units_mul_unit_lt.le.trans ?_
  rcases lt_or_ge m.units.log2 1033 with hlow | hlog
  · calc (2 : ℚ) ^ ((m.units.log2 : ℤ) - 1073)
        ≤ 2 ^ (-41 : ℤ) := zpow_le_zpow_right₀ one_le_two (by omega)
      _ ≤ 1 / 10 ^ 11 := by norm_num
  · have hexponent := coarsestExponent_le_exponent_shortest hlog tie
    calc (2 : ℚ) ^ ((m.units.log2 : ℤ) - 1073)
        ≤ 10 ^ m.coarsestExponent := (coarsestExponent_spec hlog).2
      _ ≤ 10 ^ (-11 : ℤ) := zpow_le_zpow_right₀ (by norm_num) (by omega)
      _ ≤ 1 / 10 ^ 11 := by norm_num

end Magnitude

namespace Decimal

variable {a b c : Decimal} {negative : Bool} {m : Magnitude}

/-! ### Decimals of numbers -/

/-- A form with more places, cut off behind the 28th one. -/
theorem abs_toRat_cut_sub_le (negative : Bool) {form : DecimalForm} (h : form.exponent < -28) :
    |(|(⟨signed negative (roundDivUp form.coefficient
      (10 ^ ((-form.exponent).toNat - maxPlaces))), 28⟩ : Decimal).toRat| * 10 ^ 28 -
        form.toRat * 10 ^ 28)| ≤ 1 / 2 := by
  obtain ⟨c, e⟩ := form
  dsimp only at h ⊢
  obtain ⟨k, hk⟩ : ∃ k : Nat, e = -(28 + k : ℤ) := ⟨(-e).toNat - 28, by omega⟩
  have hcut : (-e).toNat - maxPlaces = k := by
    rw [maxPlaces]
    omega
  have hsize : |(⟨signed negative (roundDivUp c (10 ^ k)), 28⟩ : Decimal).toRat| * 10 ^ 28 =
      halfUp (c / (10 ^ k : Nat)) := by
    have hdigits := abs_toRat_mul_pow ⟨signed negative (roundDivUp c (10 ^ k)), 28⟩
    rw [natAbs_signed] at hdigits
    rw [hdigits, halfUp_div _ (ten_pow_pos k), Int.cast_natCast]
  have hform : (DecimalForm.mk c e).toRat * 10 ^ 28 = c / (10 ^ k : Nat) := by
    have hpower : (10 : ℚ) ^ e = (10 ^ 28 * 10 ^ k)⁻¹ := by
      rw [hk, zpow_neg, zpow_add₀ (by norm_num), zpow_natCast, zpow_ofNat]
    rw [DecimalForm.toRat, hpower]
    push_cast
    field_simp
  rw [hcut, hsize, hform]
  exact Binary64.abs_halfUp_sub_le _

/-- The decimal of a number is its shortest form, cut off behind the 28th place. -/
theorem ofNumber?_cases (h : ofNumber? (.finite negative m) = some a) :
    (a.toRat = (Binary64.finite negative m).writtenValue ∧
      a.places = (-(m.shortest .up).exponent).toNat ∧
      a.mantissa.natAbs = (m.shortest .up).coefficient * 10 ^ (m.shortest .up).exponent.toNat) ∨
    ((m.shortest .up).exponent < -28 ∧ a.places = 28 ∧
      |(|a.toRat| * 10 ^ 28 - (m.shortest .up).toRat * 10 ^ 28)| ≤ 1 / 2) := by
  simp only [ofNumber?] at h
  split at h
  · next hplaces =>
    refine .inl ?_
    split at h
    · obtain rfl := Option.some.inj h
      refine ⟨?_, rfl, natAbs_signed ..⟩
      rw [Decimal.toRat, cast_signed, (Binary64.written_finite negative m).2,
        DecimalForm.toRat_eq_div, mul_div_assoc]
    · cases h
  · next hplaces =>
    have hexponent : (m.shortest .up).exponent < -28 := by
      rw [maxPlaces] at hplaces
      omega
    obtain rfl := Option.some.inj h
    exact .inr ⟨hexponent, rfl, abs_toRat_cut_sub_le negative hexponent⟩

variable {x : Binary64}

/-- **A decimal with places has at most nineteen digits.** -/
theorem digits_of_ofNumber? (h : ofNumber? x = some a) (hplaces : 0 < a.places) :
    |a.toRat| * 10 ^ a.places ≤ 2 * 10 ^ 18 := by
  cases x with
  | nan => cases h
  | infinite negative => cases h
  | finite negative m =>
    have hsize := m.toRat_shortest_le .up
    rcases ofNumber?_cases h with ⟨-, hexponent, hdigits⟩ | ⟨hexponent, hmost, hnear⟩
    · have hmax := places_of_ofNumber? h
      rw [abs_toRat_mul_pow, hdigits]
      have hup : (m.shortest .up).exponent.toNat = 0 := by omega
      rw [hup, Nat.pow_zero, Nat.mul_one]
      exact Magnitude.shortest_coefficient_le_of_places (by rw [maxPlaces] at hmax; omega)
    · have hsmall := Magnitude.units_le_of_exponent_shortest hexponent
      have hclose := (abs_le.1 hnear).2
      rw [hmost]
      generalize (2 : ℚ) ^ (-1074 : ℤ) = unit at hsize hsmall
      norm_num at hsmall hclose ⊢
      linarith

theorem proper_of_ofNumber? (h : ofNumber? x = some a) : a.Proper := by
  refine ⟨places_of_ofNumber? h, ?_⟩
  rcases Nat.eq_zero_or_pos a.places with hnone | hsome
  · cases x with
    | nan => cases h
    | infinite negative => cases h
    | finite negative m =>
      -- the digits before the point have been compared with the bound
      simp only [ofNumber?] at h
      split at h
      · split at h
        · next hfits =>
          obtain rfl := Option.some.inj h
          rwa [natAbs_signed]
        · cases h
      · obtain rfl := Option.some.inj h
        cases hnone
  · have hdigits := digits_of_ofNumber? h hsome
    have hbound : (2 * 10 ^ 18 : ℚ) < mantissaBound := by
      rw [mantissaBound]
      norm_num
    rw [abs_toRat_mul_pow] at hdigits
    exact_mod_cast hdigits.trans_lt hbound

theorem proper_add? (ha : a.Proper) (hb : b.Proper) (h : a.add? b = some c) : c.Proper := by
  refine ⟨(places_of_add? h).trans (max_le ha.places hb.places), ?_⟩
  rw [add?] at h
  split at h
  · exact Option.some.inj h ▸ hb.size
  · split at h
    · exact Option.some.inj h ▸ ha.size
    · exact (bounds_of_fit? h).2

/-- A sum is within the bounds of decimals. -/
theorem proper_sum? {xs : List Binary64} (h : sum? xs = some a) : a.Proper := by
  induction xs using List.reverseRecOn generalizing a with
  | nil =>
    obtain rfl : zero = a := Option.some.inj h
    exact proper_zero
  | append_singleton xs x ih =>
    obtain ⟨total, d, htotal, hd, h⟩ := sum?_concat_eq_some_iff.1 h
    exact proper_add? (ih htotal) (proper_of_ofNumber? hd) h

/-- **The decimal of a number** is what the number is written as, unless both are near zero. -/
theorem toRat_of_ofNumber? (h : ofNumber? x = some a) : a.toRat = x.writtenValue ∨
    (|x.toRat| ≤ 1 / 10 ^ 10 ∧ |a.toRat| ≤ 1 / 10 ^ 10) := by
  cases x with
  | nan => cases h
  | infinite negative => cases h
  | finite negative m =>
    rcases ofNumber?_cases h with ⟨hvalue, -, -⟩ | ⟨hexponent, -, hnear⟩
    · exact .inl hvalue
    · have hsmall := Magnitude.units_le_of_exponent_shortest hexponent
      have hsize := m.toRat_shortest_le .up
      have hclose := (abs_le.1 hnear).2
      refine .inr ?_
      rw [Binary64.abs_toRat_finite]
      generalize (2 : ℚ) ^ (-1074 : ℤ) = unit at hsize hsmall
      norm_num at hsmall hclose ⊢
      constructor <;> linarith

/-- The decimal of a number is no larger than three times the number, even if it is next to nothing
and has been rounded to the 28th place. -/
theorem abs_toRat_le_of_ofNumber? (h : ofNumber? x = some a) : |a.toRat| ≤ 3 * |x.toRat| := by
  cases x with
  | nan => cases h
  | infinite negative => cases h
  | finite negative m =>
    have hsize := m.toRat_shortest_le .up
    have hform := (m.shortest .up).toRat_nonneg
    rw [Binary64.abs_toRat_finite]
    generalize (2 : ℚ) ^ (-1074 : ℤ) = unit at hsize ⊢
    rcases ofNumber?_cases h with ⟨hvalue, -, -⟩ | ⟨-, hmost, hnear⟩
    · rw [hvalue, (Binary64.written_finite negative m).2, abs_mul, abs_signFactor, one_mul,
        abs_of_nonneg hform]
      linarith
    · have hdigits := abs_toRat_mul_pow a
      rw [hmost] at hdigits
      rw [hdigits] at hnear
      -- a whole number that is within one half is no more than twice as large
      have hdouble : (a.mantissa.natAbs : ℚ) ≤ 2 * ((m.shortest .up).toRat * 10 ^ 28) := by
        have hfar := (abs_le.1 hnear).2
        rcases Nat.eq_zero_or_pos a.mantissa.natAbs with hzero | hpos
        · rw [hzero, Nat.cast_zero]
          positivity
        · have hone : (1 : ℚ) ≤ a.mantissa.natAbs := by exact_mod_cast hpos
          linarith
      linarith

/-- A number of `2 ^ 46` or more has a decimal with at most two places. -/
theorem places_le_two_of_ofNumber? (h : ofNumber? x = some a) (hlarge : 2 ^ 46 ≤ |x.toRat|) :
    a.places ≤ 2 := by
  cases x with
  | nan => cases h
  | infinite negative => cases h
  | finite negative m =>
    have hsize := m.units_mul_unit_lt
    have hlog : 1120 ≤ m.units.log2 := by
      by_contra hfew
      have hbits : (2 : ℚ) ^ ((m.units.log2 : ℤ) - 1073) ≤ 2 ^ (46 : ℤ) :=
        zpow_le_zpow_right₀ one_le_two (by omega)
      rw [Binary64.abs_toRat_finite] at hlarge
      norm_num at hbits
      linarith
    have hexponent := Magnitude.neg_two_le_exponent_shortest hlog .up
    rcases ofNumber?_cases h with ⟨-, hplaces, -⟩ | ⟨hmany, -, -⟩ <;> omega

/-- **A number that is not very large has a decimal.** -/
theorem exists_ofNumber?_of_abs_le (hfinite : x.isFinite = true) (hsize : |x.toRat| ≤ 10 ^ 28) :
    ∃ a, ofNumber? x = some a := by
  cases x with
  | nan => cases hfinite
  | infinite negative => cases hfinite
  | finite negative m =>
    obtain ⟨hplaces, hvalue⟩ := Binary64.written_finite negative m
    by_cases hfew : (-(m.shortest .up).exponent).toNat ≤ maxPlaces
    · -- the digits have room, counted in the last place
      have hdigits : (m.shortest .up).toRat * 10 ^ (-(m.shortest .up).exponent).toNat <
          mantissaBound := by
        have hbound : (2 * 10 ^ 28 : ℚ) < mantissaBound := by
          rw [mantissaBound]
          norm_num
        rcases le_or_gt 0 (m.shortest .up).exponent with hwhole | hpoint
        · have hshort := m.toRat_shortest_le .up
          have hnone : (-(m.shortest .up).exponent).toNat = 0 := by omega
          rw [Binary64.abs_toRat_finite] at hsize
          rw [hnone, pow_zero, mul_one]
          linarith
        · have hcount : ((m.shortest .up).coefficient : ℚ) ≤ 2 * 10 ^ 18 := by
            refine Magnitude.shortest_coefficient_le_of_places ?_
            rw [maxPlaces] at hfew
            omega
          have hten : (10 : ℚ) ^ (-(m.shortest .up).exponent).toNat ≠ 0 := by positivity
          have hup : (m.shortest .up).exponent.toNat = 0 := by omega
          rw [DecimalForm.toRat_eq_div, div_mul_cancel₀ _ hten, hup, Nat.pow_zero, Nat.mul_one]
          linarith
      obtain ⟨a, ha, -⟩ := Binary64.exists_ofNumber?_eq (x := .finite negative m) rfl
        (hplaces ▸ hfew) (by
          rwa [hplaces, hvalue, abs_mul, abs_signFactor, one_mul,
            abs_of_nonneg (m.shortest .up).toRat_nonneg])
      exact ⟨a, ha⟩
    · simp only [ofNumber?, if_neg hfew]
      exact ⟨_, rfl⟩

end Decimal

end CampusQuery
