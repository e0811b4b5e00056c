import CampusQuery.Number.Bits
import Mathlib.Algebra.Order.Field.Rat
import Mathlib.Tactic.FieldSimp
import Mathlib.Tactic.Ring

/-!
# Numbers and their words

Every number has a word (`Binary64.ofWord_toWord`), and every word that does not stand for `nan` is
the only one of its number (`Binary64.toWord_ofWord`). What a word is worth can be said from its
parts alone: with the exponent `e` and the fraction `f` it is `(1 + f / 2 ^ 52) * 2 ^ (e - 1023)`,
without the leading one at the exponent zero (`BitFields.toRat`). The units of a number say the same
(`Binary64.toRat_ofFields`).
-/

namespace CampusQuery

namespace BitFields

@[ext] theorem ext {b c : BitFields} (hnegative : b.negative = c.negative)
    (hexponent : b.exponent = c.exponent) (hfraction : b.fraction = c.fraction) : b = c := by
  cases b
  cases c
  simp_all

theorem toNat_toWord (b : BitFields) :
    b.toWord.toNat =
      b.negative.toNat * 2 ^ (63 : Nat) + b.exponent * 2 ^ (52 : Nat) + b.fraction := by
  have hnegative := Bool.toNat_le b.negative
  have hexponent := b.exponent_lt
  have hfraction := b.fraction_lt
  rw [toWord, UInt64.toNat_ofNat']
  omega

theorem ofWord_toWord (b : BitFields) : ofWord b.toWord = b := by
  have hexponent := b.exponent_lt
  have hfraction := b.fraction_lt
  ext1
  · simp only [ofWord, toNat_toWord]
    cases b.negative with
    | false => exact decide_eq_false (by simp only [Bool.toNat_false]; omega)
    | true => exact decide_eq_true (by simp only [Bool.toNat_true]; omega)
  · simp only [ofWord, toNat_toWord]
    cases b.negative <;> simp only [Bool.toNat_false, Bool.toNat_true] <;> omega
  · simp only [ofWord, toNat_toWord]
    omega

theorem toWord_ofWord (w : UInt64) : (ofWord w).toWord = w := by
  have hw := w.toNat_lt
  rw [← UInt64.toNat_inj, toNat_toWord]
  simp only [ofWord]
  by_cases hsign : 2 ^ (63 : Nat) ≤ w.toNat
  · simp only [hsign, decide_true, Bool.toNat_true]
    omega
  · simp only [hsign, decide_false, Bool.toNat_false]
    omega

/-! ### Kinds of words -/

/-- The parts are those of `nan`, with any sign and any other fraction than that of an infinity. -/
def IsNaN (b : BitFields) : Prop :=
  b.exponent = topExponent ∧ b.fraction ≠ 0

/-- The parts are those of an infinity. -/
def IsInfinite (b : BitFields) : Prop :=
  b.exponent = topExponent ∧ b.fraction = 0

/-- The parts are those of a finite number. -/
def IsFinite (b : BitFields) : Prop :=
  b.exponent < topExponent

/-- There are no other words. -/
theorem kinds (b : BitFields) : b.IsNaN ∨ b.IsInfinite ∨ b.IsFinite := by
  have hexponent := b.exponent_lt
  unfold IsNaN IsInfinite IsFinite topExponent
  omega

/-- What the parts of a finite number are worth. -/
def toRat (b : BitFields) : ℚ :=
  (if b.negative then -1 else 1) *
    if b.exponent = 0 then b.fraction / (2 : ℚ) ^ (52 : ℤ) * (2 : ℚ) ^ (-1022 : ℤ)
    else (1 + b.fraction / (2 : ℚ) ^ (52 : ℤ)) * (2 : ℚ) ^ ((b.exponent : ℤ) - 1023)

end BitFields

namespace Binary64

variable {b : BitFields}

theorem ofFields_of_isNaN (h : b.IsNaN) : ofFields b = nan := by
  rw [ofFields, dif_neg (Nat.not_lt.2 h.1.ge), if_neg h.2]

theorem ofFields_of_isInfinite (h : b.IsInfinite) : ofFields b = infinite b.negative := by
  rw [ofFields, dif_neg (Nat.not_lt.2 h.1.ge), if_pos h.2]

theorem ofFields_of_isFinite (h : b.IsFinite) : ofFields b = finite b.negative
    ⟨BitFields.units b.exponent b.fraction, BitFields.representable_units h b.fraction_lt⟩ :=
  dif_pos h

/-! ### A number and its word -/

/-- Without a leading bit there is no shift. -/
theorem log2_lt_of_lt {n : Nat} (h : n < 2 ^ (52 : Nat)) : n.log2 < 52 := by
  rcases Nat.eq_zero_or_pos n with rfl | hn
  · decide
  · exact (Nat.log2_lt (Nat.ne_of_gt hn)).2 h

/-- With a leading bit there are 53 bits before the shift. -/
theorem log2_units_succ (shift : Nat) {fraction : Nat} (h : fraction < 2 ^ (52 : Nat)) :
    (BitFields.units (shift + 1) fraction).log2 = 52 + shift := by
  have hpow := Nat.two_pow_pos shift
  have hlow : 2 ^ (52 + shift) ≤ BitFields.units (shift + 1) fraction := by
    rw [Nat.pow_add]
    exact Nat.mul_le_mul_right _ (Nat.le_add_right _ _)
  have hhigh : BitFields.units (shift + 1) fraction < 2 ^ (52 + shift + 1) := by
    rw [Nat.add_right_comm, Nat.pow_add]
    exact Nat.mul_lt_mul_of_pos_right (by omega) hpow
  exact (Nat.log2_eq_iff (by omega)).2 ⟨hlow, hhigh⟩

/-- The exponent and the fraction of a number give its units. -/
theorem units_fields (m : Magnitude) :
    BitFields.units (m.units.log2 - 51) (m.units / spacing m.units % 2 ^ (52 : Nat)) = m.units := by
  rcases Nat.lt_or_ge m.units.log2 52 with hlog | hlog
  · have hexponent : m.units.log2 - 51 = 0 := by omega
    have hspacing : m.units.log2 - 52 = 0 := by omega
    have hsmall : m.units < 2 ^ (52 : Nat) :=
      Nat.lt_of_lt_of_le Nat.lt_log2_self (Nat.pow_le_pow_right (by decide) hlog)
    rw [hexponent, BitFields.units, spacing, hspacing, Nat.pow_zero, Nat.div_one]
    exact Nat.mod_eq_of_lt hsmall
  · obtain ⟨shift, hshift⟩ := Nat.exists_eq_add_of_le hlog
    have hexponent : m.units.log2 - 51 = shift + 1 := by omega
    have hspacing : spacing m.units = 2 ^ shift := by
      rw [spacing, hshift, Nat.add_sub_cancel_left]
    have hpow := Nat.two_pow_pos shift
    -- above the gap there are 53 bits, of which the fraction leaves out the leading one
    have hlow : 2 ^ (52 : Nat) ≤ m.units / 2 ^ shift := by
      rw [Nat.le_div_iff_mul_le hpow, ← Nat.pow_add, ← hshift]
      refine Nat.log2_self_le fun hzero => ?_
      rw [hzero] at hlog
      exact absurd hlog (by decide)
    have hhigh : m.units / 2 ^ shift < 2 ^ (53 : Nat) := by
      have hbits : 53 + shift = m.units.log2 + 1 := by omega
      rw [Nat.div_lt_iff_lt_mul hpow, ← Nat.pow_add, hbits]
      exact Nat.lt_log2_self
    have hlead : 2 ^ (52 : Nat) + m.units / 2 ^ shift % 2 ^ (52 : Nat) = m.units / 2 ^ shift := by
      omega
    rw [hexponent, hspacing, BitFields.units, hlead]
    exact Nat.div_mul_cancel (hspacing ▸ m.representable.1)

theorem ofFields_fields (x : Binary64) : ofFields x.fields = x := by
  cases x with
  | nan => exact ofFields_of_isNaN ⟨rfl, by decide⟩
  | infinite negative => exact ofFields_of_isInfinite ⟨rfl, rfl⟩
  | finite negative m =>
    have hfinite : (finite negative m).fields.IsFinite := by
      have hlog := m.representable.log2_lt
      change m.units.log2 - 51 < 2047
      omega
    rw [ofFields_of_isFinite hfinite]
    congr
    exact units_fields m

theorem fields_ofFields (h : (ofFields b).isNaN = false) : (ofFields b).fields = b := by
  rcases b.kinds with hnan | hinfinite | hfinite
  · rw [ofFields_of_isNaN hnan] at h
    exact nomatch h
  · rw [ofFields_of_isInfinite hinfinite]
    exact BitFields.ext rfl hinfinite.1.symm hinfinite.2.symm
  · rw [ofFields_of_isFinite hfinite]
    obtain ⟨negative, exponent, fraction, hexponent, hfraction⟩ := b
    cases exponent with
    | zero =>
      have hlog := log2_lt_of_lt hfraction
      have hspacing : fraction.log2 - 52 = 0 := by omega
      refine BitFields.ext rfl ?_ ?_
      · change fraction.log2 - 51 = 0
        omega
      · change fraction / 2 ^ (fraction.log2 - 52) % 2 ^ (52 : Nat) = fraction
        rw [hspacing, Nat.pow_zero, Nat.div_one, Nat.mod_eq_of_lt hfraction]
    | succ shift =>
      have hlog := log2_units_succ shift hfraction
      refine BitFields.ext rfl ?_ ?_
      · change (BitFields.units (shift + 1) fraction).log2 - 51 = shift + 1
        omega
      · change BitFields.units (shift + 1) fraction /
          2 ^ ((BitFields.units (shift + 1) fraction).log2 - 52) % 2 ^ (52 : Nat) = fraction
        rw [hlog, Nat.add_sub_cancel_left, BitFields.units,
          Nat.mul_div_cancel _ (Nat.two_pow_pos shift), Nat.add_mod_left,
          Nat.mod_eq_of_lt hfraction]

/-- Every number has a word. -/
theorem ofWord_toWord (x : Binary64) : ofWord x.toWord = x := by
  rw [ofWord, toWord, BitFields.ofWord_toWord, ofFields_fields]

/-- No other word stands for a number that is not `nan`. -/
theorem toWord_ofWord {w : UInt64} (h : (ofWord w).isNaN = false) : (ofWord w).toWord = w := by
  rw [toWord, ofWord, fields_ofFields h, BitFields.toWord_ofWord]

/-- The value of a finite number. -/
def toRat (x : Binary64) : ℚ :=
  x.signedUnits * 2 ^ (-1074 : ℤ)

theorem toRat_ofFields (h : b.IsFinite) : (ofFields b).toRat = b.toRat := by
  have hunits : (BitFields.units b.exponent b.fraction : ℚ) * (2 : ℚ) ^ (-1074 : ℤ) =
      if b.exponent = 0 then b.fraction / (2 : ℚ) ^ (52 : ℤ) * (2 : ℚ) ^ (-1022 : ℤ)
      else (1 + b.fraction / (2 : ℚ) ^ (52 : ℤ)) * (2 : ℚ) ^ ((b.exponent : ℤ) - 1023) := by
    cases b.exponent with
    | zero =>
      rw [if_pos rfl, BitFields.units, div_mul_eq_mul_div, mul_div_assoc, ← zpow_sub₀ two_ne_zero]
      norm_num
    | succ shift =>
      -- a unit is the last bit of the smallest numbers, 52 places below their leading one
      have hexponent : ((shift + 1 : ℕ) : ℤ) - 1023 = shift + (52 + -1074) := by
        push_cast
        ring
      rw [if_neg (Nat.succ_ne_zero shift), BitFields.units, hexponent, zpow_add₀ two_ne_zero,
        zpow_add₀ two_ne_zero, zpow_natCast]
      generalize (2 : ℚ) ^ (-1074 : ℤ) = unit
      push_cast
      field_simp
  rw [toRat, ofFields_of_isFinite h, BitFields.toRat, ← hunits]
  cases b.negative <;> simp [signedUnits]

end Binary64

end CampusQuery
