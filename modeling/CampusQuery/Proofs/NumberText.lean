import CampusQuery.Proofs.WordReading
import CampusQuery.Record.Text

/-!
# Numbers read back from their text

A number of a record is written as a numeral: the digits of an integer if it is one of 64 bits, else
those of its shortest form, and a number that is not finite has no numeral at all. It comes back as
what the numeral is worth, if that is finite (`Binary64.reread?`).

An integer of 64 bits comes back as an equal number (`Binary64.reread?_of_toExactInt?`), and so does
every number that was given with at most fifteen digits and twenty-two decimal places
(`Binary64.reread?_ofDecimal`): its shortest form has hardly more digits, few enough to be read
exactly. A number whose shortest form has seventeen digits may come back as a neighbour.
-/

namespace CampusQuery

namespace Binary64

/-- The numeral that a number is written as. -/
def numeral? (x : Binary64) : Option Numeral :=
  match x.toExactInt? with
  | some i => some (integerNumeral i)
  | none =>
    match x with
    | finite negative m => some ((m.shortest .even).numeral negative)
    | _ => none

/-- The number that the numeral of a number is worth, if that is a finite number. -/
def reread? (x : Binary64) : Option Binary64 :=
  x.numeral?.bind fun n =>
    if (JsonNumber.ofNumeral n).value.isFinite then some (JsonNumber.ofNumeral n).value else none

theorem numeral?_of_toExactInt?_eq_none {x : Binary64} {negative : Bool} {m : Magnitude}
    (hx : x = finite negative m) (h : x.toExactInt? = none) :
    x.numeral? = some ((m.shortest .even).numeral negative) := by
  unfold numeral?
  split
  · next hsome => exact nomatch h.symm.trans hsome
  · rw [hx]

theorem toExactInt?_eq_some_iff {x : Binary64} {i : Int} :
    x.toExactInt? = some i ↔ x.isFinite = true ∧ eq (ofInt i) x = true ∧ x.toInt64 = i := by
  rw [toExactInt?]
  constructor
  · intro h
    split at h
    · next hexact =>
      obtain rfl := Option.some.inj h
      obtain ⟨hfinite, heq⟩ := Bool.and_eq_true_iff.1 hexact
      exact ⟨hfinite, heq, rfl⟩
    · exact nomatch h
  · rintro ⟨hfinite, heq, rfl⟩
    rw [hfinite, heq]
    rfl

/-- An exact integer is one of 64 bits. -/
theorem range_of_toExactInt? {x : Binary64} {i : Int} (h : x.toExactInt? = some i) :
    -int64Bound ≤ i ∧ i < int64Bound := by
  obtain ⟨-, -, rfl⟩ := toExactInt?_eq_some_iff.1 h
  rw [toInt64, saturate64, int64Bound]
  omega

/-- What equals a finite number is finite. -/
theorem isFinite_of_eq {x y : Binary64} (h : eq x y = true) (hy : y.isFinite = true) :
    x.isFinite = true := by
  cases y with
  | nan => exact nomatch hy
  | infinite negative => exact nomatch hy
  | finite negative m =>
    cases x with
    | nan => exact nomatch h
    | infinite negative' => cases negative' <;> exact nomatch h
    | finite negative' m' => rfl

/-- Both zeros are the integer zero. -/
theorem toExactInt?_zero (negative : Bool) {m : Magnitude} (hm : m.units = 0) :
    (finite negative m).toExactInt? = some 0 := by
  obtain rfl : m = ⟨0, Nat.dvd_zero _, by decide +kernel⟩ := by
    cases m
    cases hm
    rfl
  revert negative
  decide +kernel

/-- A finite number has a numeral, and that is its text; any other value is written as `null`. -/
theorem numeral?_jsonText (x : Binary64) :
    (∃ n, x.numeral? = some n ∧ n.Plain ∧
      (Value.number x).jsonText = signText n.negative ++ n.spelling) ∨
    (x.numeral? = none ∧ x.isFinite = false ∧
      (Value.number x).jsonText = ['n', 'u', 'l', 'l']) := by
  have htext : (Value.number x).jsonText =
      match x.toExactInt? with
      | some i => integerText i
      | none => x.jsonText := rfl
  rw [htext]
  unfold numeral?
  cases hexact : x.toExactInt? with
  | some i => exact Or.inl ⟨_, rfl, plain_integerNumeral i, integerText_eq_spelling i⟩
  | none =>
    cases x with
    | nan => exact Or.inr ⟨rfl, rfl, rfl⟩
    | infinite negative => exact Or.inr ⟨rfl, rfl, rfl⟩
    | finite negative m =>
      have hpos : 0 < m.units := by
        by_contra hzero
        exact nomatch hexact.symm.trans (toExactInt?_zero negative (by omega))
      have hsign : ((m.shortest .even).numeral negative).negative = negative := by
        unfold DecimalForm.numeral
        dsimp only
        split_ifs <;> rfl
      refine Or.inl ⟨_, rfl, DecimalForm.plain_numeral negative
        (Magnitude.shortest_coefficient_pos hpos .even), ?_⟩
      rw [hsign, ← DecimalForm.json_eq_spelling]
      rfl

/-- **A number that is a 64-bit integer comes back as an equal number.** -/
theorem reread?_of_toExactInt? {x : Binary64} {i : Int} (h : x.toExactInt? = some i) :
    ∃ y, x.reread? = some y ∧ eq y x = true := by
  obtain ⟨hfinite, heq, -⟩ := toExactInt?_eq_some_iff.1 h
  obtain ⟨hlow, hhigh⟩ := range_of_toExactInt? h
  have hnumeral : x.numeral? = some (integerNumeral i) := by
    unfold numeral?
    rw [h]
  have hvalue : (JsonNumber.ofNumeral (integerNumeral i)).value = ofInt i := by
    rw [JsonNumber.ofNumeral_integerNumeral hlow
      (Int.lt_trans hhigh (by decide +kernel)), JsonNumber.value]
  have hofInt : (ofInt i).isFinite = true := isFinite_of_eq heq hfinite
  refine ⟨ofInt i, ?_, heq⟩
  rw [reread?, hnumeral, Option.bind_some, hvalue, hofInt]
  rfl

/-! ### Numbers given with few digits -/

theorem eq_self (negative : Bool) (m : Magnitude) :
    eq (finite negative m) (finite negative m) = true := by
  simp [eq, isNaN, compare]

/-- Whole numbers up to `2 ^ 53` are integers of 64 bits. -/
theorem toExactInt?_of_units {m : Magnitude} {c : Nat} (hc : c ≤ 2 ^ (53 : Nat))
    (hm : m.units = c * unitsPerOne) (negative : Bool) :
    (finite negative m).toExactInt? = some (if negative then -(c : Int) else c) := by
  rcases Nat.eq_zero_or_pos c with rfl | hpos
  · rw [toExactInt?_zero negative (hm.trans (Nat.zero_mul _))]
    cases negative <;> rfl
  · generalize hi : (if negative then -(c : Int) else c) = i
    have hsign : decide (i < 0) = negative := by
      rw [← hi]
      cases negative with
      | false => simp
      | true => simpa using hpos
    have habs : i.natAbs = c := by
      rw [← hi]
      cases negative <;> simp
    have hunits : (finite negative m).signedUnits = i * unitsPerOne := by
      rw [← hi]
      cases negative <;>
        simp only [signedUnits, hm, Int.natCast_mul, Int.neg_mul, Bool.false_eq_true, ↓reduceIte]
    have hint : (finite negative m).toInt64 = i := by
      have hunit : (unitsPerOne : Int) ≠ 0 := Int.natCast_ne_zero.2 unitsPerOne_pos.ne'
      rw [toInt64, hunits, Int.mul_tdiv_cancel _ hunit, saturate64, int64Bound]
      omega
    have hof : eq (ofInt i) (finite negative m) = true := by
      rw [ofInt, hsign, habs, ← hm, nearest_units]
      exact eq_self negative m
    rw [← hint] at hof ⊢
    exact toExactInt?_eq_some_iff.2 ⟨rfl, hof, rfl⟩

theorem roundSignificant_le (n d : Nat) : roundSignificant n d ≤ 2 * (n / d) + 1 := by
  have hgap : spacing (n / d) ≤ n / d + 1 := by
    rcases Nat.eq_zero_or_pos (n / d) with hzero | hpos
    · rw [hzero]
      decide
    · exact Nat.le_succ_of_le (spacing_le hpos)
  calc roundSignificant n d
      ≤ (n / (d * spacing (n / d)) + 1) * spacing (n / d) :=
        Nat.mul_le_mul_right _ (roundDivEven_le _ _)
    _ = n / d / spacing (n / d) * spacing (n / d) + spacing (n / d) := by
        rw [← Nat.div_div_eq_div_mul, Nat.succ_mul]
    _ ≤ n / d + (n / d + 1) := Nat.add_le_add (Nat.div_mul_le_self _ _) hgap
    _ = 2 * (n / d) + 1 := by omega

theorem ofDecimal_neg_natCast {c k : Nat} (hk : k ≤ 22) (negative : Bool) :
    ofDecimal negative c (-k) = nearest negative (c * unitsPerOne) (10 ^ k) := by
  rw [ofDecimal]
  rcases Nat.eq_zero_or_pos c with rfl | hpos
  · have hten : 0 < 10 ^ k := Nat.pow_pos (by decide)
    rw [if_pos rfl, ← nearest_mul_mul_right hten, Nat.zero_mul, Nat.zero_mul, Nat.one_mul]
  · rw [if_neg hpos.ne', if_neg (by omega), if_neg (by omega), Int.toNat_neg_natCast, Int.neg_neg,
      Int.toNat_natCast, Nat.pow_zero, Nat.mul_one]

/-- A decimal with few digits and places is rounded to a finite number. -/
theorem exists_ofDecimal_eq {c k : Nat} (hc : c ≤ 10 ^ (15 : Nat)) (hk : k ≤ 22)
    (negative : Bool) :
    ∃ m : Magnitude, ofDecimal negative c (-k) = finite negative m ∧
      m.readsBack (c * unitsPerOne) (10 ^ k) = true := by
  have hten : 0 < 10 ^ k := Nat.pow_pos (by decide)
  have hbound : roundSignificant (c * unitsPerOne) (10 ^ k) < unitsBound := by
    obtain ⟨j, hj⟩ : ∃ j : Nat, j = 1074 := ⟨_, rfl⟩
    obtain ⟨i, hi⟩ : ∃ i : Nat, i = 2098 := ⟨_, rfl⟩
    rw [unitsPerOne_eq hj, unitsBound, ← hi]
    calc roundSignificant (c * 2 ^ j) (10 ^ k)
        ≤ 2 * (c * 2 ^ j / 10 ^ k) + 1 := roundSignificant_le _ _
      _ ≤ 2 * (c * 2 ^ j) + 1 := Nat.succ_le_succ (Nat.mul_le_mul_left 2 (Nat.div_le_self _ _))
      _ ≤ 2 * (10 ^ (15 : Nat) * 2 ^ j) + 1 :=
        Nat.succ_le_succ (Nat.mul_le_mul_left 2 (Nat.mul_le_mul_right _ hc))
      _ < 2 ^ (52 : Nat) * 2 ^ j := by
        have hone : 0 < 2 ^ j := Nat.two_pow_pos j
        omega
      _ = 2 ^ (52 + j) := (Nat.pow_add ..).symm
      _ < 2 ^ i := Nat.pow_lt_pow_right (by decide) (by omega)
  refine ⟨⟨_, representable_roundSignificant hbound⟩, ?_, ?_⟩
  · rw [ofDecimal_neg_natCast hk, nearest, dif_pos hbound]
  · exact (Magnitude.readsBack_iff_roundSignificant hten).2 rfl

/-- **A number given with at most fifteen digits and twenty-two decimal places comes back as an
equal number.** -/
theorem reread?_ofDecimal {c k : Nat} (hc : c ≤ 10 ^ (15 : Nat)) (hk : k ≤ 22)
    (negative : Bool) :
    ∃ y, (ofDecimal negative c (-k)).reread? = some y ∧
      eq y (ofDecimal negative c (-k)) = true := by
  obtain ⟨m, hm, hreads⟩ := exists_ofDecimal_eq hc hk negative
  rw [hm]
  cases hexact : (finite negative m).toExactInt? with
  | some i => exact reread?_of_toExactInt? hexact
  | none =>
    have hpos : 0 < m.units := by
      by_contra hzero
      cases hexact.symm.trans (toExactInt?_zero negative (by omega))
    obtain ⟨hplaces, hdigits⟩ := Magnitude.shortest_of_readsBack .even hpos hc hk hreads
    have hneg : (m.shortest .even).exponent < 0 := by
      by_contra hexp
      -- without places the form is a whole number, and the number is that
      have hwhole := m.readsBack_shortest .even
      have hdown : (-(m.shortest .even).exponent).toNat = 0 := by omega
      rw [DecimalForm.numerator, DecimalForm.denominator, hdown, Nat.pow_zero,
        ← Nat.mul_assoc] at hwhole
      have hshort := Nat.le_trans hdigits (by omega : 3 * c ≤ 2 ^ (53 : Nat))
      cases hexact.symm.trans
        (toExactInt?_of_units hshort (Magnitude.units_of_readsBack hshort hwhole) negative)
    have hshort : (m.shortest .even).coefficient ≤ 2 ^ (53 : Nat) := by
      have hup : (m.shortest .even).exponent.toNat = 0 := by omega
      rw [hup, Nat.pow_zero, Nat.mul_one] at hdigits
      omega
    have hread := DecimalForm.ofNumeral_numeral hshort (by omega) hneg negative
    rw [Magnitude.nearest_shortest] at hread
    refine ⟨finite negative m, ?_, eq_self negative m⟩
    rw [reread?, numeral?_of_toExactInt?_eq_none rfl hexact, Option.bind_some, hread]
    rfl

end Binary64

end CampusQuery
