import CampusQuery.Proofs.NumeralText
import CampusQuery.Proofs.ShortestForm

/-!
# Decimals in a machine word that are read exactly

`WordDecimal.value` rounds three times. Where the word is at most `2 ^ 53` and the power of ten at
most `10 ^ 22`, two of these change nothing, and the value is the number nearest to the decimal
(`WordDecimal.value_eq_nearest`). The word is all digits of a numeral if they fit
(`WordDecimal.ofNumeral_eq`), and the digits of a numeral are those of the decimal that it was
written for (`DecimalForm.numeral_of_exponent_neg`). So a decimal with places and few digits is read
as the number nearest to it (`DecimalForm.ofNumeral_numeral`).
-/

namespace CampusQuery

/-! ### Rounding that changes nothing -/

theorem roundDivEven_mul_mul_right {n d k : Nat} (hk : 0 < k) :
    roundDivEven (n * k) (d * k) = roundDivEven n d := by
  have hdouble : 2 * (n % d * k) = 2 * (n % d) * k := (Nat.mul_assoc ..).symm
  rw [roundDivEven, roundDivEven, Nat.mul_mod_mul_right, Nat.mul_div_mul_right _ _ hk, hdouble]
  simp only [Nat.mul_lt_mul_right hk]

theorem nearest_mul_mul_right {n d k : Nat} (hk : 0 < k) (negative : Bool) :
    Binary64.nearest negative (n * k) (d * k) = Binary64.nearest negative n d := by
  have hround : roundSignificant (n * k) (d * k) = roundSignificant n d := by
    rw [roundSignificant, roundSignificant, Nat.mul_div_mul_right _ _ hk, Nat.mul_right_comm,
      roundDivEven_mul_mul_right hk]
  simp only [Binary64.nearest, hround]

/-- Whole numbers of few digits times a power of two are in the format. -/
theorem representable_shift {c k : Nat} (hc : c ≤ 2 ^ (53 : Nat)) (hk : k ≤ 2044) :
    Representable (c * 2 ^ k) := by
  refine ⟨spacing_dvd_shift hc, ?_⟩
  obtain ⟨j, hj⟩ : ∃ j : Nat, j = 2098 := ⟨_, rfl⟩
  rw [unitsBound, ← hj]
  calc c * 2 ^ k ≤ 2 ^ (53 : Nat) * 2 ^ k := Nat.mul_le_mul_right _ hc
    _ = 2 ^ (53 + k) := (Nat.pow_add ..).symm
    _ < 2 ^ j := Nat.pow_lt_pow_right (by decide) (by omega)

theorem representable_whole {c : Nat} (hc : c ≤ 2 ^ (53 : Nat)) :
    Representable (c * unitsPerOne) := by
  obtain ⟨j, hj⟩ : ∃ j : Nat, j = 1074 := ⟨_, rfl⟩
  rw [unitsPerOne_eq hj]
  exact representable_shift hc (by omega)

/-- A short whole number is rounded to itself alone. -/
theorem Magnitude.units_of_readsBack {m : Magnitude} {c : Nat} (hc : c ≤ 2 ^ (53 : Nat))
    (h : m.readsBack (c * unitsPerOne) 1 = true) : m.units = c * unitsPerOne := by
  have hself := (representable_whole hc).roundSignificant_eq (d := 1) (by decide)
  rw [Nat.mul_one] at hself
  exact ((readsBack_iff_roundSignificant (by decide)).1 h).symm.trans hself

/-- A number of the format is the one nearest to itself. -/
theorem nearest_units (m : Magnitude) (negative : Bool) :
    Binary64.nearest negative m.units 1 = .finite negative m := by
  have hself := m.readsBack_self (d := 1) (by decide)
  rw [Nat.mul_one] at hself
  exact (Magnitude.readsBack_iff_nearest (by decide) negative).1 hself

namespace WordDecimal

/-- The powers of ten that are numbers of the format. -/
theorem tenPowerUnits_eq {p : Nat} (hp : p ≤ 22) : tenPowerUnits p = 10 ^ p * unitsPerOne := by
  obtain ⟨j, hj⟩ : ∃ j : Nat, j = 1074 := ⟨_, rfl⟩
  have hfive : 5 ^ p ≤ 2 ^ (53 : Nat) :=
    Nat.le_trans (Nat.pow_le_pow_right (by decide) hp) (by decide)
  have hscale : 10 ^ p * unitsPerOne = 5 ^ p * 2 ^ (p + j) := by
    rw [unitsPerOne_eq hj, Nat.pow_add, ← Nat.mul_assoc, ← Nat.mul_pow]
  have hrep : Representable (10 ^ p * unitsPerOne) := by
    rw [hscale]
    exact representable_shift hfive (by omega)
  have hself := hrep.roundSignificant_eq (d := 1) (by decide)
  rwa [Nat.mul_one] at hself

/-- **A short word in a small power of ten is rounded once.** -/
theorem value_eq_nearest {d : WordDecimal} (hword : d.word ≤ 2 ^ (53 : Nat))
    (hexp : d.exponent.natAbs ≤ 22) (negative : Bool) :
    d.value negative = Binary64.nearest negative (DecimalForm.mk d.word d.exponent).numerator
      (DecimalForm.mk d.word d.exponent).denominator := by
  have hstart : Binary64.nearest negative (d.word * unitsPerOne) 1 =
      .finite negative ⟨d.word * unitsPerOne, representable_whole hword⟩ :=
    nearest_units ⟨_, representable_whole hword⟩ negative
  have hmax : d.exponent.natAbs ≤ maxTenPower := Nat.le_trans hexp (by decide)
  have hten := tenPowerUnits_eq hexp
  rw [value, DecimalForm.numerator, DecimalForm.denominator]
  dsimp only
  rcases Nat.eq_zero_or_pos d.word with hzero | hpos
  · have hdown : 0 < 10 ^ (-d.exponent).toNat := Nat.pow_pos (by decide)
    rw [if_pos hzero, hzero, ← nearest_mul_mul_right hdown, Nat.zero_mul, Nat.zero_mul,
      Nat.zero_mul, Nat.one_mul]
  · rw [if_neg hpos.ne', hstart]
    by_cases hexp' : 0 ≤ d.exponent
    · have hdown : (-d.exponent).toNat = 0 := by omega
      have hup : d.exponent.toNat = d.exponent.natAbs := by omega
      have hcancel := nearest_mul_mul_right (n := d.word * (10 ^ d.exponent.natAbs * unitsPerOne))
        (d := 1) unitsPerOne_pos negative
      rw [Nat.one_mul] at hcancel
      rw [if_pos hexp', if_pos hmax, timesTenPower, Binary64.scale, hten, hdown, hup,
        Nat.pow_zero, Nat.mul_right_comm, hcancel]
    · have hdown : (-d.exponent).toNat = d.exponent.natAbs := by omega
      have hup : d.exponent.toNat = 0 := by omega
      rw [if_neg hexp', if_pos hmax, overTenPower, Binary64.scale, hten, hdown, hup,
        nearest_mul_mul_right unitsPerOne_pos, Nat.pow_zero, Nat.one_mul]

/-- **Digits that fit a word are all taken.** -/
theorem ofNumeral_eq {n : Numeral} (h : n.coefficient < wordBound) :
    ofNumeral n = ⟨n.coefficient, n.exponent, h⟩ := by
  have hsplit : n.coefficient = n.fraction.foldl (fun total c => total * 10 + digitValue c)
      (digitsValue n.whole) := by
    rw [Numeral.coefficient, digitsValue, List.foldl_append]
    rfl
  have hwhole : fillWord 0 n.whole = (digitsValue n.whole, []) :=
    fillWord_eq (Nat.lt_of_le_of_lt (le_foldl_digits n.fraction _) (hsplit ▸ h))
  have hall : fillWord (digitsValue n.whole) n.fraction = (n.coefficient, []) := by
    rw [hsplit]
    exact fillWord_eq (hsplit ▸ h)
  simp [ofNumeral, hwhole, hall, Numeral.exponent]

end WordDecimal

/-! ### The digits of a decimal -/

namespace DecimalForm

/-- Zeros in front of digits are worth nothing. -/
theorem digitsValue_zeros_append (k : Nat) (digits : List Char) :
    digitsValue (List.replicate k '0' ++ digits) = digitsValue digits := by
  induction k with
  | zero => rfl
  | succ k ih =>
    rw [List.replicate_succ, List.cons_append, ← ih, digitsValue, List.foldl_cons]
    rfl

/-- A decimal with places is written with its own digits, perhaps behind zeros, and counted in its
own power of ten. -/
theorem numeral_of_exponent_neg {d : DecimalForm} (hd : d.exponent < 0) (negative : Bool) :
    (∃ k, (d.numeral negative).whole ++ (d.numeral negative).fraction =
      List.replicate k '0' ++ d.digits) ∧
    (d.numeral negative).exponent = d.exponent ∧ (d.numeral negative).integral = false ∧
    (d.numeral negative).negative = negative := by
  have hlength : 0 < d.digits.length := List.length_pos_iff.2 d.digits_ne_nil
  unfold numeral
  rw [if_neg (by omega : ¬0 ≤ d.exponent)]
  dsimp only
  split
  · split
    · refine ⟨⟨0, List.take_append_drop _ _⟩, ?_, ?_, rfl⟩
      · simp [Numeral.exponent]
        omega
      · simp [Numeral.integral]
        omega
    · refine ⟨⟨(-d.exponent).toNat - d.digits.length + 1, ?_⟩, ?_, ?_, rfl⟩
      · rw [List.replicate_succ]
        rfl
      · simp [Numeral.exponent]
        omega
      · simp [Numeral.integral, d.digits_ne_nil]
  · refine ⟨⟨0, ?_⟩, ?_, ?_, rfl⟩
    · rw [← List.drop_one, List.take_append_drop]
      rfl
    · simp [Numeral.exponent, leading]
      omega
    · simp [Numeral.integral]

/-- **A decimal with places and few digits is read as the number nearest to it.** -/
theorem ofNumeral_numeral {d : DecimalForm} (hcoefficient : d.coefficient ≤ 2 ^ (53 : Nat))
    (hlow : -22 ≤ d.exponent) (hneg : d.exponent < 0) (negative : Bool) :
    JsonNumber.ofNumeral (d.numeral negative) =
      .float (Binary64.nearest negative d.numerator d.denominator) := by
  obtain ⟨⟨k, hdigits⟩, hexponent, hintegral, hnegative⟩ := numeral_of_exponent_neg hneg negative
  have hvalue : (d.numeral negative).coefficient = d.coefficient := by
    rw [Numeral.coefficient, hdigits, digitsValue_zeros_append, digits, digitsValue_toDigits]
  have hword : (d.numeral negative).coefficient < wordBound := by
    rw [hvalue]
    exact Nat.lt_of_le_of_lt hcoefficient (by decide)
  have hread := WordDecimal.ofNumeral_eq hword
  simp only [hvalue, hexponent] at hread
  have hsmall : d.exponent.natAbs ≤ 22 := by omega
  simp only [JsonNumber.ofNumeral, hread, hintegral, hnegative]
  rw [if_neg (fun h => Bool.false_ne_true h.1),
    WordDecimal.value_eq_nearest hcoefficient hsmall]

end DecimalForm

end CampusQuery
