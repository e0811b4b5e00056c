import CampusQuery.Proofs.RoundedResults
import CampusQuery.Proofs.RoundTrip

/-!
# Numbers that are written as integers

A number is written as an integer if it equals the 64-bit integer that it converts to. This takes
two conversions that both lose something: the first drops the places and saturates, the second
rounds to the format. An integer of up to 53 bits survives the second one, and a number of more bits
has no places to drop, so what passes is an integer indeed. Saturation does harm at one number
alone: `2 ^ 63` converts to the largest 64-bit integer, `2 ^ 63 - 1`, and that back to `2 ^ 63`
(`Binary64.toExactInt?_eq_some_iff_toRat`).

So a text that is a 64-bit integer is that of the equal number, with the one exception that the
number `2 ^ 63` is written as `2 ^ 63 - 1` (`Value.integer_text_iff`).
-/

namespace CampusQuery

namespace Binary64

variable {x y : Binary64} {i : ℤ}

/-! ### Conversion to an integer and back -/

theorem toInt64_eq (h : x.toRat = i) : x.toInt64 = saturate64 i := by
  have hunit : (unitsPerOne : Int) ≠ 0 := Int.natCast_ne_zero.2 unitsPerOne_pos.ne'
  rw [toInt64, toRat_eq_intCast_iff.1 h, Int.mul_tdiv_cancel _ hunit]

/-- The two ends of the 64-bit integers, and the first one beyond, as numbers. -/
theorem toRat_ofInt_ends :
    (ofInt (2 ^ (63 : Nat) - 1)).toRat = 2 ^ 63 ∧ (ofInt (2 ^ (63 : Nat))).toRat = 2 ^ 63 ∧
      (ofInt (-2 ^ (63 : Nat))).toRat = -2 ^ 63 := by
  decide +kernel

/-- **When a number is an exact integer.** It has the value of a 64-bit integer, or it is `2 ^ 63`,
which is taken for the largest 64-bit integer. -/
theorem toExactInt?_eq_some_iff_toRat : x.toExactInt? = some i ↔ x.isFinite = true ∧
    ((-2 ^ 63 ≤ i ∧ i < 2 ^ 63 ∧ x.toRat = i) ∨ (x.toRat = 2 ^ 63 ∧ i = 2 ^ 63 - 1)) := by
  obtain ⟨hmax, -, hmin⟩ := toRat_ofInt_ends
  have hsaturate : ∀ k : ℤ, saturate64 k = max (-2 ^ 63) (min (2 ^ 63 - 1) k) := fun k => rfl
  rw [toExactInt?_eq_some_iff]
  refine and_congr_right fun hx => ?_
  constructor
  · rintro ⟨hequal, hint⟩
    have hfinite := isFinite_of_eq hequal hx
    have hvalue := (eq_iff_toRat_eq hfinite hx).1 hequal
    obtain ⟨k, hk⟩ := (isNearest_ofInt i).exists_toRat_eq hfinite
    rw [hvalue] at hk
    have hik := toInt64_eq hk
    rw [hint, hsaturate] at hik
    -- only an integer beyond the upper end passes although it is saturated
    rcases lt_or_ge k (-2 ^ 63) with hlow | hlow
    · obtain rfl : i = -2 ^ 63 := by omega
      rw [hmin.symm.trans hvalue |>.symm] at hk
      have hk' : (-2 ^ 63 : ℤ) = k := by exact_mod_cast hk
      omega
    · rcases lt_or_ge k (2 ^ 63) with hhigh | hhigh
      · obtain rfl : i = k := by omega
        exact .inl ⟨hlow, hhigh, hk⟩
      · obtain rfl : i = 2 ^ 63 - 1 := by omega
        exact .inr ⟨hvalue.symm.trans hmax, rfl⟩
  · rintro (⟨hlow, hhigh, hvalue⟩ | ⟨hvalue, rfl⟩)
    · obtain ⟨hfinite, hround⟩ := toRat_ofInt_of_isFinite hx hvalue
      refine ⟨(eq_iff_toRat_eq hfinite hx).2 (hround.trans hvalue.symm), ?_⟩
      rw [toInt64_eq hvalue, hsaturate]
      omega
    · have hfinite : (ofInt (2 ^ 63 - 1)).isFinite = true := by decide +kernel
      refine ⟨(eq_iff_toRat_eq hfinite hx).2 (hmax.trans hvalue.symm), ?_⟩
      have hcast : x.toRat = (2 ^ 63 : ℤ) := by exact_mod_cast hvalue
      rw [toInt64_eq hcast, hsaturate]
      rfl

/-- What a 64-bit integer is rounded to is an exact integer. -/
theorem IsNearest.isSome_toExactInt? (h : IsNearest i x) (hx : x.isFinite = true)
    (hlow : -2 ^ 63 ≤ i) (hhigh : i < 2 ^ 63) : x.toExactInt?.isSome = true := by
  obtain ⟨-, hend, hmin⟩ := toRat_ofInt_ends
  obtain ⟨k, hk⟩ := h.exists_toRat_eq hx
  -- rounding does not lead beyond the ends, which are numbers
  have hfrom : (ofInt (-2 ^ (63 : Nat))).toRat ≤ x.toRat :=
    (isNearest_ofInt _).mono h (by decide +kernel) hx (Int.cast_le.2 hlow)
  have hto : x.toRat ≤ (ofInt (2 ^ (63 : Nat))).toRat :=
    h.mono (isNearest_ofInt _) hx (by decide +kernel) (Int.cast_le.2 hhigh.le)
  rw [hmin, hk] at hfrom
  rw [hend, hk] at hto
  have hfrom : -2 ^ 63 ≤ k := by exact_mod_cast hfrom
  have hto : k ≤ 2 ^ 63 := by exact_mod_cast hto
  rcases hto.lt_or_eq with hless | rfl
  · exact Option.isSome_of_eq_some
      (toExactInt?_eq_some_iff_toRat.2 ⟨hx, .inl ⟨hfrom, hless, hk⟩⟩)
  · exact Option.isSome_of_eq_some
      (toExactInt?_eq_some_iff_toRat.2 ⟨hx, .inr ⟨by exact_mod_cast hk, rfl⟩⟩)

end Binary64

/-! ### Texts of integers -/

theorem integerNumeral_toRat (i : ℤ) : (integerNumeral i).toRat = i := by
  have hdigits : (integerNumeral i).coefficient = i.natAbs := by
    rw [Numeral.coefficient, integerNumeral, List.append_nil, digitsValue_toDigits]
  have hplaces : (integerNumeral i).exponent = 0 := rfl
  rw [Numeral.toRat, hdigits, hplaces, zpow_zero, mul_one]
  exact Binary64.signFactor_mul_natAbs i

/-- The text of an integer is read as its numeral. -/
theorem readNumeral?_integerText (i : ℤ) :
    readNumeral? (splitSign (integerText i)).1 (splitSign (integerText i)).2 =
      some (integerNumeral i) := by
  have hdigits : ∀ c ∈ Nat.toDigits 10 i.natAbs, c.isDigit = true :=
    fun c => Nat.isDigit_of_mem_toDigits (by decide) (by decide)
  have hhead : ∀ c ∈ (Nat.toDigits 10 i.natAbs).head?, c.isDigit = true :=
    fun c hc => hdigits c (List.mem_of_mem_head? hc)
  have hread := readNumeral?_digits (decide (i < 0)) Nat.toDigits_ne_nil hdigits
    (List.forall_mem_nil _)
  rw [fractionText, List.append_nil] at hread
  rw [integerText, Binary64.splitSign_signText _ hhead]
  exact hread

theorem integerText_injective : Function.Injective integerText := by
  intro i j h
  have hi := readNumeral?_integerText i
  rw [h, readNumeral?_integerText j] at hi
  have hvalue := integerNumeral_toRat i
  rw [← Option.some.inj hi, integerNumeral_toRat] at hvalue
  exact (Int.cast_inj.1 hvalue).symm

/-- The text of an integer has neither a point nor an exponent. -/
theorem isDigit_of_mem_integerText {i : ℤ} {c : Char} (h : c ∈ integerText i) :
    c = '-' ∨ c.isDigit = true := by
  rcases List.mem_append.1 h with hsign | hdigit
  · refine .inl ?_
    cases hneg : decide (i < 0) <;> simp [hneg, signText] at hsign
    exact hsign
  · exact .inr (Nat.isDigit_of_mem_toDigits (by decide) (by decide) hdigit)

/-- A numeral with places or an exponent has a sign of it in its text. -/
theorem Numeral.exists_mark_of_integral {n : Numeral} (h : n.integral = false) :
    '.' ∈ n.spelling ∨ 'e' ∈ n.spelling := by
  obtain ⟨negative, whole, fraction, power⟩ := n
  cases fraction with
  | cons c fraction => exact .inl (by simp [spelling, fractionText])
  | nil =>
    cases power with
    | some p => exact .inr (by simp [spelling, powerText])
    | none => cases h

namespace Binary64

variable {x : Binary64} {i : ℤ}

/-- The number of a plain text that is an integer is the one nearest to that. -/
theorem isNearest_of_plainText (hx : x.isFinite = true) (h : x.plainText = integerText i) :
    IsNearest i x := by
  have hvalue : x.writtenValue = i := by
    rw [writtenValue, written?, h]
    dsimp only
    rw [readNumeral?_integerText, Option.map_some, Option.getD_some, integerNumeral_toRat]
  rw [← hvalue]
  exact isNearest_writtenValue hx

/-- JSON text that is not written for an exact integer has a point or an exponent. -/
theorem jsonText_ne_integerText (hx : x.isFinite = true) (i : ℤ) :
    x.jsonText ≠ integerText i := by
  intro h
  cases x with
  | nan => cases hx
  | infinite negative => cases hx
  | finite negative m =>
    have hmark := Numeral.exists_mark_of_integral
      (integral_numeral negative (m.shortest .even))
    rw [← DecimalForm.json_eq_spelling] at hmark
    have hmem : ∀ c ∈ (m.shortest .even).json, c = '-' ∨ c.isDigit = true := by
      intro c hc
      have htext : c ∈ (finite negative m).jsonText := List.mem_append_right _ hc
      exact isDigit_of_mem_integerText (h ▸ htext)
    rcases hmark with hmark | hmark <;> exact absurd (hmem _ hmark) (by decide)

end Binary64

namespace Value

open Binary64

theorem toText_of_exact {x : Binary64} {i : ℤ} (h : x.toExactInt? = some i) :
    (number x).toText = String.ofList (integerText i) := by
  rw [toText, h]

theorem toText_of_inexact {x : Binary64} (h : x.toExactInt? = none) :
    (number x).toText = String.ofList x.plainText := by
  rw [toText, h]

/-- **Integers as texts.** A finite number is taken for an exact integer if it has the value of a
64-bit integer, or if it is `2 ^ 63`, which is taken for the largest 64-bit integer; no other number
is. The JSON text of a number is the text of an integer only then and only of this one, and its
plain text is the text of a 64-bit integer only then and only of this one. -/
theorem integer_text_iff (x : Binary64) (i : ℤ) (hx : x.isFinite = true) :
    (x.toExactInt? = some i ↔
      (-2 ^ 63 ≤ i ∧ i < 2 ^ 63 ∧ x.toRat = i) ∨ (x.toRat = 2 ^ 63 ∧ i = 2 ^ 63 - 1)) ∧
    ((number x).jsonText = integerText i ↔ x.toExactInt? = some i) ∧
    (((number x).toText = String.ofList (integerText i) ∧ -2 ^ 63 ≤ i ∧ i < 2 ^ 63) ↔
      x.toExactInt? = some i) := by
  refine ⟨toExactInt?_eq_some_iff_toRat.trans (and_iff_right hx), ?_, ?_⟩
  · rw [jsonText_number]
    cases hexact : x.toExactInt? with
    | some k => exact integerText_injective.eq_iff.trans Option.some_inj.symm
    | none => exact iff_of_false (jsonText_ne_integerText hx i) (Option.some_ne_none i).symm
  · cases hexact : x.toExactInt? with
    | some k =>
      have hrange := range_of_toExactInt? hexact
      rw [toText_of_exact hexact, String.ofList_inj]
      constructor
      · rintro ⟨hsame, -, -⟩
        exact congrArg some (integerText_injective hsame)
      · rintro h
        obtain rfl := Option.some.inj h
        exact ⟨rfl, hrange⟩
    | none =>
      rw [toText_of_inexact hexact, String.ofList_inj]
      refine iff_of_false ?_ (Option.some_ne_none i).symm
      rintro ⟨hplain, hlow, hhigh⟩
      have hsome := (isNearest_of_plainText hx hplain).isSome_toExactInt? hx hlow hhigh
      rw [hexact] at hsome
      cases hsome

/-- The number five is written as that integer. -/
theorem integer_text_iff_five :
    (ofInt 5).isFinite = true ∧ (number (ofInt 5)).jsonText = integerText 5 ∧
      (number (ofInt 5)).toText = String.ofList (integerText 5) := by
  have hfinite : (ofInt 5).isFinite = true := by decide +kernel
  obtain ⟨hexact, hjson, hplain⟩ := integer_text_iff (ofInt 5) 5 hfinite
  have hfive : (ofInt 5).toExactInt? = some 5 :=
    hexact.2 (.inl ⟨by decide, by decide, by decide +kernel⟩)
  exact ⟨hfinite, hjson.2 hfive, (hplain.2 hfive).1⟩

/-- The number `2 ^ 63` is written as an integer that it is not, so a number need not be the integer
that it is taken for. -/
theorem not_forall_toExactInt?_exact :
    ¬∀ (x : Binary64) (i : ℤ), x.isFinite = true →
      (x.toExactInt? = some i ↔ -2 ^ 63 ≤ i ∧ i < 2 ^ 63 ∧ x.toRat = i) := by
  intro h
  have hbeyond : (ofInt (2 ^ (63 : Nat))).toExactInt? = some (2 ^ (63 : Nat) - 1) := by
    decide +kernel
  obtain ⟨-, -, hvalue⟩ := (h _ _ (by decide +kernel)).1 hbeyond
  exact absurd hvalue (by decide +kernel)

end Value

end CampusQuery
