import CampusQuery.Proofs.DecimalConversion
import CampusQuery.Proofs.DecimalErrors

/-!
# Means in decimal

A mean in decimal is a sum, a quotient, a rounding to two places and the conversion of that to a
number. None of these steps takes it far out of the range of its numbers:

* a sum is at most the greatest term times the length. If it has been rounded at all, and its terms
  are not very many, one term is less than half as large as another one, and this leaves more than
  what has been lost (`Decimal.sumExact_or_exists_small`);
* a quotient that is no more than a term stays so when it is fitted, since a term has few digits and
  dropping places needs many (`Decimal.IsFitted.toRat_le`);
* two places are half a hundredth, and a large term has no more than two;
* between a number and a hundredth more there is another number, unless the number is so large that
  the two places have changed nothing (`Binary64.IsNearest.le_add_hundredth`).

So the mean is no more than a hundredth above the greatest number, and by negation no more than a
hundredth below the least, as long as the conversion goes to the nearest number
(`Binary64.decimalMean?_bounds`). The conversion of a large fraction does not. Still a list of any
length has a mean near to the exact one, with an error for each number that is a part of `2 ^ 52`
(`Binary64.abs_decimalMean_sub_le`).
-/

namespace CampusQuery

/-! ### Negation -/

theorem roundPlaces_neg {rule : ℚ → ℤ} (hzero : rule 0 = 0) (places : Nat) (q : ℚ) :
    roundPlaces rule places (-q) = -roundPlaces rule places q := by
  rcases lt_trichotomy q 0 with hneg | rfl | hpos
  · simp [roundPlaces, signFactor, hneg, hneg.le]
  · simp [roundPlaces, hzero]
  · simp [roundPlaces, signFactor, hpos, hpos.le]

namespace Decimal

/-- The decimal with the other sign. -/
def neg (a : Decimal) : Decimal :=
  ⟨-a.mantissa, a.places⟩

@[simp] theorem places_neg (a : Decimal) : a.neg.places = a.places :=
  rfl

@[simp] theorem toRat_neg (a : Decimal) : a.neg.toRat = -a.toRat := by
  rw [neg, toRat, toRat, Int.cast_neg, neg_div]

theorem IsFitted.neg {exact : ℚ} {places : Nat} {q : Decimal} (h : IsFitted exact places q) :
    IsFitted (-exact) places q.neg := by
  have hzero : halfEven 0 = 0 := halfEven_intCast 0
  refine ⟨h.places_le, ?_, ?_, fun p hp hplaces => ?_⟩
  · rw [toRat_neg, abs_neg]
    exact h.room
  · rw [toRat_neg, h.value, roundPlaces_neg hzero, places_neg]
  · rw [roundPlaces_neg hzero, abs_neg]
    exact h.most p hp hplaces

end Decimal

/-! ### Quotients and the decimals of numbers -/

namespace Decimal

open Binary64

variable {a q : Decimal} {exact : ℚ} {x y : Binary64}

/-- What is known of the decimal of a finite number. -/
structure IsDecimalOf (x : Binary64) (a : Decimal) : Prop where
  /-- The number is finite. -/
  finite : x.isFinite = true
  /-- There are at most 28 places. -/
  places_le : a.places ≤ maxPlaces
  /-- There are at most nineteen digits if there are places. -/
  digits : 0 < a.places → |a.toRat| * 10 ^ a.places ≤ 2 * 10 ^ 18
  /-- A large number has no more places than are kept. -/
  places_of_large : 2 ^ 46 ≤ |x.toRat| → a.places ≤ keptPlaces
  /-- The number is the one nearest to the decimal, unless both are next to nothing. -/
  nearest : IsNearest a.toRat x ∨ |x.toRat| ≤ 1 / 10 ^ 10 ∧ |a.toRat| ≤ 1 / 10 ^ 10

theorem isDecimalOf_of_ofNumber? (h : ofNumber? x = some a) : IsDecimalOf x a := by
  have hfinite : x.isFinite = true := by
    cases x with
    | nan => cases h
    | infinite negative => cases h
    | finite negative m => rfl
  refine ⟨hfinite, places_of_ofNumber? h, digits_of_ofNumber? h, places_le_two_of_ofNumber? h, ?_⟩
  rcases toRat_of_ofNumber? h with hwritten | hsmall
  · exact .inl (hwritten ▸ isNearest_writtenValue hfinite)
  · exact .inr hsmall

theorem IsDecimalOf.neg (h : IsDecimalOf x a) : IsDecimalOf x.negate a.neg := by
  refine ⟨?_, h.places_le, fun hplaces => ?_, fun hlarge => ?_, ?_⟩
  · rw [isFinite_negate]
    exact h.finite
  · rw [toRat_neg, abs_neg]
    exact h.digits hplaces
  · rw [toRat_negate, abs_neg] at hlarge
    exact h.places_of_large hlarge
  · rw [toRat_neg, toRat_negate, abs_neg, abs_neg]
    exact h.nearest.imp_left IsNearest.negate

/-- **Fitting does not go past the decimal of a number.** -/
theorem IsFitted.toRat_le (h : IsFitted exact maxPlaces q) (ha : IsDecimalOf x a)
    (hle : exact ≤ a.toRat) : q.toRat ≤ a.toRat := by
  rcases le_or_gt a.places q.places with hfine | hcoarse
  · -- the decimal is on the grid of the result
    rw [h.value, ← roundPlaces_of_intCast halfEven_intCast (toRat_mul_pow hfine)]
    exact roundPlaces_mono (fun _ _ => halfEven_mono) (halfEven_intCast 0) _ hle
  · -- places have been dropped, so the fraction is larger than the decimal by far
    by_contra hpast
    have hsize := h.le_size_of_places_lt (hcoarse.trans_le ha.places_le)
    have hnear := h.abs_sub_mul_le
    have hdigits := ha.digits (Nat.zero_lt_of_lt hcoarse)
    have hpow : |a.toRat| * 10 ^ (q.places + 1) ≤ |a.toRat| * 10 ^ a.places :=
      mul_le_mul_of_nonneg_left (pow_le_pow_right₀ (by norm_num) hcoarse) (abs_nonneg _)
    have hexact : |exact| ≤ |a.toRat| + |q.toRat - exact| := by
      have hback := abs_sub_abs_le_abs_sub exact a.toRat
      rw [abs_of_nonpos (sub_nonpos.2 hle)] at hback
      rw [abs_of_nonneg (a := q.toRat - exact) (by linarith)]
      linarith
    have hscaled := mul_le_mul_of_nonneg_right hexact
      (by positivity : (0 : ℚ) ≤ 10 ^ (q.places + 1))
    rw [pow_succ (10 : ℚ)] at hsize hpow hscaled
    linarith

/-- With two places a quotient is at most half a hundredth more than a decimal that it was no more
than, and no more than it if the decimal has no more places. -/
theorem IsFitted.toRat_round_le (h : IsFitted exact maxPlaces q) (ha : IsDecimalOf x a)
    (hle : exact ≤ a.toRat) : (q.round keptPlaces).toRat ≤ a.toRat + 1 / 200 ∧
      (a.places ≤ keptPlaces → (q.round keptPlaces).toRat ≤ a.toRat) := by
  have hmono : (q.round keptPlaces).toRat ≤ roundPlaces halfUp keptPlaces a.toRat := by
    rw [toRat_round]
    exact roundPlaces_mono (fun _ _ => halfUp_mono) (halfUp_intCast 0) _ (h.toRat_le ha hle)
  constructor
  · have hnear := abs_roundPlaces_sub_le abs_halfUp_sub_le keptPlaces a.toRat
    have hmore := le_abs_self (roundPlaces halfUp keptPlaces a.toRat - a.toRat)
    rw [keptPlaces] at hnear hmono hmore ⊢
    linarith
  · intro hfew
    rwa [roundPlaces_of_intCast halfUp_intCast (toRat_mul_pow hfew)] at hmono

end Decimal

/-! ### Back to numbers -/

namespace Binary64

variable {t d : ℚ} {x y : Binary64}

/-- Multiples of `2 ^ -7` are numbers, as far as 53 bits go. -/
theorem exists_toRat_eq_div {i : ℤ} (hi : i.natAbs ≤ 2 ^ (53 : Nat)) :
    ∃ z : Binary64, z.isFinite = true ∧ z.toRat = i / 128 := by
  obtain ⟨z, hz, hvalue⟩ := exists_toRat_eq_mul_zpow hi (e := -7) (by decide) (by decide)
  have hpower : (2 : ℚ) ^ (-7 : ℤ) = 1 / 128 := by norm_num
  refine ⟨z, hz, ?_⟩
  rw [hvalue, hpower, mul_one_div]

/-- There is a number above any that is not large, no more than a hundredth away. -/
theorem exists_lt_le_add (h : |x.toRat| < 2 ^ 46) :
    ∃ z : Binary64, z.isFinite = true ∧ x.toRat < z.toRat ∧ z.toRat ≤ x.toRat + 1 / 100 := by
  have hbelow := Int.floor_le (x.toRat * 128)
  have habove := Int.lt_floor_add_one (x.toRat * 128)
  obtain ⟨hlow, hhigh⟩ := abs_lt.1 h
  have hbits : (⌊x.toRat * 128⌋ + 1).natAbs ≤ 2 ^ (53 : Nat) := by
    have hleast : -(2 ^ 53 : ℤ) ≤ ⌊x.toRat * 128⌋ := by
      refine Int.le_floor.2 ?_
      push_cast
      linarith
    have hmost : ⌊x.toRat * 128⌋ < (2 ^ 53 : ℤ) := by
      refine Int.floor_lt.2 ?_
      push_cast
      linarith
    omega
  -- the next multiple of `2 ^ -7`
  obtain ⟨z, hz, hvalue⟩ := exists_toRat_eq_div hbits
  refine ⟨z, hz, ?_⟩
  rw [hvalue]
  push_cast
  constructor <;> linarith

/-- **A decimal that is half a hundredth above what a number is written as** is at most a hundredth
above the number when it becomes a number itself. -/
theorem IsNearest.le_add_hundredth (hy : IsNearest d y) (hyfinite : y.isFinite = true)
    (hxfinite : x.isFinite = true) (hd : d ≤ t + 1 / 200)
    (ht : IsNearest t x ∧ (2 ^ 46 ≤ |x.toRat| → d ≤ t) ∨
      |x.toRat| ≤ 1 / 10 ^ 10 ∧ |t| ≤ 1 / 10 ^ 10) : y.toRat ≤ x.toRat + 1 / 100 := by
  rcases ht with ⟨hx, hlarge⟩ | ⟨hx, ht⟩
  · rcases le_or_gt (2 ^ 46) |x.toRat| with hmany | hfew
    · have hle := hy.mono hx hyfinite hxfinite (hlarge hmany)
      linarith
    · obtain ⟨z, hz, hlt, hle⟩ := exists_lt_le_add hfew
      -- the number is nearer to what it is written as than the next one is
      have hhalf : 2 * t ≤ x.toRat + z.toRat := by
        by_contra hmore
        have hnear := (neg_le_abs (x.toRat - t)).trans (hx.abs_sub_le hxfinite hz)
        rcases abs_cases (z.toRat - t) with ⟨heq, -⟩ | ⟨heq, -⟩ <;> linarith
      rcases le_or_gt d z.toRat with hbefore | hbehind
      · exact (hy.mono (isNearest_self hz) hyfinite hz hbefore).trans hle
      · -- nor is the mean farther from the decimal than the next number
        have hnear := hy.abs_sub_le hyfinite hz
        rw [abs_of_neg (a := z.toRat - d) (by linarith)] at hnear
        have hmost := (le_abs_self _).trans hnear
        linarith
  · -- next to zero there is one of the numbers that are well below a hundredth
    obtain ⟨z, hz, hvalue⟩ := exists_toRat_eq_div (i := 1) (by decide)
    have ht' := (abs_le.1 ht).2
    have hx' := (abs_le.1 hx).1
    rw [Int.cast_one] at hvalue
    have hle := hy.mono (isNearest_self hz) hyfinite hz (by linarith)
    linarith

end Binary64

namespace Decimal

open Binary64

variable {a d q : Decimal} {exact : ℚ} {x y : Binary64} {xs : List Binary64}

/-- **A mean that is no more than a decimal** comes to no more than a hundredth above its number. -/
theorem IsDecimalOf.mean_le (ha : IsDecimalOf x a) (hq : IsFitted exact maxPlaces q)
    (hle : exact ≤ a.toRat) (hy : IsNearest (q.round keptPlaces).toRat y)
    (hfinite : y.isFinite = true) : y.toRat ≤ x.toRat + 1 / 100 := by
  obtain ⟨hmore, hfew⟩ := hq.toRat_round_le ha hle
  refine hy.le_add_hundredth hfinite ha.finite hmore (ha.nearest.imp_left fun hnear => ?_)
  exact ⟨hnear, fun hlarge => hfew (ha.places_of_large hlarge)⟩

/-- A mean that is no less comes to no less than a hundredth below. -/
theorem IsDecimalOf.le_mean (ha : IsDecimalOf x a) (hq : IsFitted exact maxPlaces q)
    (hle : a.toRat ≤ exact) (hy : IsNearest (q.round keptPlaces).toRat y)
    (hfinite : y.isFinite = true) : x.toRat - 1 / 100 ≤ y.toRat := by
  have hround : (q.neg.round keptPlaces).toRat = -(q.round keptPlaces).toRat := by
    rw [toRat_round, toRat_round, toRat_neg, roundPlaces_neg (halfUp_intCast 0)]
  have hnegated := ha.neg.mean_le hq.neg (by rwa [toRat_neg, neg_le_neg_iff])
    (hround ▸ hy.negate) (by rwa [isFinite_negate])
  rw [toRat_negate, toRat_negate] at hnegated
  linarith

/-! ### Sums and their greatest terms -/

/-- Of terms that are no more than a bound, one that is less takes the sum further down. -/
theorem sum_map_le_sub {α : Type*} {v : α → ℚ} {l : List α} {top : ℚ} (h : ∀ x ∈ l, v x ≤ top)
    {y : α} (hy : y ∈ l) : (l.map v).sum ≤ l.length * top - (top - v y) := by
  obtain ⟨before, behind, rfl⟩ := List.append_of_mem hy
  have hbefore := sum_map_le_length_mul fun x hx => h x (List.mem_append_left _ hx)
  have hbehind := sum_map_le_length_mul fun x hx =>
    h x (List.mem_append_right _ (List.mem_cons_of_mem y hx))
  rw [List.map_append, List.sum_append, List.map_cons, List.sum_cons, List.length_append,
    List.length_cons]
  push_cast
  linarith

/-- A sum is at most the length times a bound of the terms, if it is exact, and if its error is no
more than the half of a term, and another term is no more than that half. -/
theorem le_length_mul {v : Binary64 → ℚ} {sum top : ℚ} (h : ∀ x ∈ xs, v x ≤ top)
    (hsum : sum = (xs.map v).sum ∨ ∃ x ∈ xs, ∃ y ∈ xs, 2 * |v y| ≤ |v x| ∧
      2 * |sum - (xs.map v).sum| ≤ |v x|) : sum ≤ xs.length * top := by
  rcases hsum with rfl | ⟨x, hx, y, hy, hsmall, herror⟩
  · exact sum_map_le_length_mul h
  · have hoff := le_abs_self (sum - (xs.map v).sum)
    have hother := abs_le.1 (le_refl |v y|)
    -- a large positive term leaves the small one below the bound, a large negative one is itself so
    rcases abs_cases (v x) with ⟨hvalue, -⟩ | ⟨hvalue, -⟩
    · have hless := sum_map_le_sub h hy
      linarith [h x hx]
    · have hless := sum_map_le_sub h hx
      linarith [h y hy]

/-- **A sum that is not exact** has terms of different sizes, if it does not have very many, and
then it is off by no more than half the greatest size. -/
theorem sumExact_or_exists_small (h : sum? xs = some d) (hlength : xs.length ≤ 10 ^ (10 : Nat)) :
    SumExact xs ∨ ∃ x ∈ xs, ∃ y ∈ xs, 2 * |y.decimalValue| ≤ |x.decimalValue| ∧
      2 * |d.toRat - termSum xs| ≤ |x.decimalValue| := by
  by_cases hne : xs = []
  · exact .inl (hne ▸ ⟨zero, rfl, rfl⟩)
  obtain ⟨x, hx, hmost⟩ := exists_mem_forall_le (fun x => |x.decimalValue|) hne
  by_cases hsizes : ∀ y ∈ xs, |x.decimalValue| < 2 * |y.decimalValue|
  · -- all terms are of one size, so none has many places
    exact .inl (sumExact_of_comparable h hlength fun y hy => ⟨hmost y hy, hsizes y hy⟩)
  · simp only [not_forall, not_lt] at hsizes
    obtain ⟨y, hy, hsmall⟩ := hsizes
    refine .inr ⟨x, hx, y, hy, hsmall, ?_⟩
    have hlen : (xs.length : ℚ) ≤ 10 ^ 10 := by exact_mod_cast hlength
    have hlost := (sum?_bounds h).2
    have hall : termSizes xs ≤ 10 ^ 10 * |x.decimalValue| :=
      (termSizes_le hmost).trans (mul_le_mul_of_nonneg_right hlen (abs_nonneg _))
    have hmany : xs.length * (1 / 10 ^ 28) * ((1 + 10) * termSizes xs) ≤
        10 ^ 10 * (1 / 10 ^ 28) * ((1 + 10) * (10 ^ 10 * |x.decimalValue|)) := by
      have hnonneg := termSizes_nonneg xs
      gcongr
    linarith [abs_nonneg x.decimalValue]

theorem toRat_le_length_mul (h : sum? xs = some d)
    (hsum : SumExact xs ∨ xs.length ≤ 10 ^ (10 : Nat)) {top : ℚ}
    (htop : ∀ x ∈ xs, x.decimalValue ≤ top) : d.toRat ≤ xs.length * top := by
  refine le_length_mul htop ?_
  rcases hsum with hexact | hlength
  · exact .inl ((sumExact_iff h).1 hexact)
  · exact (sumExact_or_exists_small h hlength).imp_left (sumExact_iff h).1

theorem length_mul_le_toRat (h : sum? xs = some d)
    (hsum : SumExact xs ∨ xs.length ≤ 10 ^ (10 : Nat)) {bottom : ℚ}
    (hbottom : ∀ x ∈ xs, bottom ≤ x.decimalValue) : xs.length * bottom ≤ d.toRat := by
  -- the bound from above, for the terms with the other sign
  have hnegated : (xs.map fun x => -x.decimalValue).sum = -termSum xs := by
    rw [termSum, List.sum_neg, List.map_map]
    rfl
  have hle : -d.toRat ≤ xs.length * -bottom := by
    refine le_length_mul (v := fun x => -x.decimalValue)
      (fun x hx => neg_le_neg (hbottom x hx)) ?_
    simp only [abs_neg, hnegated, neg_inj, neg_sub_neg, abs_sub_comm (termSum xs)]
    rcases hsum with hexact | hlength
    · exact .inl ((sumExact_iff h).1 hexact)
    · exact (sumExact_or_exists_small h hlength).imp_left (sumExact_iff h).1
  linarith

end Decimal

namespace Binary64

open Decimal

variable {d : Decimal} {xs : List Binary64}

/-! ### Means -/

/-- The steps of a decimal mean: it is worth a quotient of the sum, fitted in at most 28 places and
then rounded to two. -/
theorem exists_of_decimalMean?_eq (hne : xs ≠ []) (h : decimalMean? xs = some d) :
    ∃ s q, sum? xs = some s ∧ IsFitted (s.toRat / xs.length) maxPlaces q ∧
      d.places ≤ keptPlaces ∧ d.toRat = (q.round keptPlaces).toRat := by
  simp only [decimalMean?, Option.map_eq_some_iff, Option.bind_eq_some_iff] at h
  obtain ⟨r, ⟨s, hs, hr⟩, rfl⟩ := h
  obtain ⟨r', q, hr', hq, hvalue⟩ :=
    exists_divide?_eq (proper_sum? hs) (List.length_pos_iff.2 hne)
  obtain rfl := Option.some.inj (hr.symm.trans hr')
  refine ⟨s, q, hs, hq, places_round_le _ _, ?_⟩
  rw [toRat_round, toRat_round, hvalue]

/-- There is a decimal mean where there is a decimal sum. -/
theorem exists_decimalMean?_of_sum? {s : Decimal} (hne : xs ≠ []) (h : sum? xs = some s) :
    ∃ d, decimalMean? xs = some d := by
  obtain ⟨q, -, hq, -⟩ := exists_divide?_eq (proper_sum? h) (List.length_pos_iff.2 hne)
  exact ⟨q.round keptPlaces, by rw [decimalMean?, h, Option.bind_some, hq, Option.map_some]⟩

/-- **Ordinary means are taken in decimal.** -/
theorem exists_decimalMean?_of_sizes (hne : xs ≠ []) (hlength : xs.length ≤ 10 ^ (10 : Nat))
    (hfinite : ∀ x ∈ xs, x.isFinite = true) (hsizes : sizeSum xs ≤ 10 ^ 28) :
    ∃ d, decimalMean? xs = some d := by
  obtain ⟨s, hs⟩ := exists_sum?_of_sizes hlength hfinite hsizes
  exact exists_decimalMean?_of_sum? hne hs

/-- Two places are half a hundredth. -/
theorem abs_toRat_round_sub_le (q : Decimal) :
    |(q.round keptPlaces).toRat - q.toRat| ≤ 1 / 200 := by
  have hnear := abs_roundPlaces_sub_le abs_halfUp_sub_le keptPlaces q.toRat
  rw [← toRat_round] at hnear
  rw [keptPlaces] at hnear ⊢
  linarith

/-- A decimal mean is of moderate size, so the number that it is converted to is near to it. -/
theorem toNumber_decimalMean?_spec (hne : xs ≠ []) (h : decimalMean? xs = some d) :
    d.toNumber.isFinite = true ∧
      |d.toNumber.toRat - d.toRat| ≤ 8 / 2 ^ 53 * |d.toRat| + 1 / 10 ^ 4 := by
  obtain ⟨s, q, -, hq, hplaces, hvalue⟩ := exists_of_decimalMean?_eq hne h
  refine toNumber_spec hplaces ?_
  have hround := abs_sub_abs_le_abs_sub (q.round keptPlaces).toRat q.toRat
  have hnear := abs_toRat_round_sub_le q
  have hroom : |q.toRat| ≤ 2 ^ 96 := by
    have hone : (1 : ℚ) ≤ 10 ^ q.places := one_le_pow₀ (by norm_num)
    have hplaces := le_mul_of_one_le_right (abs_nonneg q.toRat) hone
    have hbound := hq.room
    rw [cast_mantissaBound] at hbound
    linarith
  have hmoderate : (2 : ℚ) ^ 97 ≤ moderateSize := by decide +kernel
  rw [hvalue]
  linarith

/-- **A decimal mean is in the range of its numbers**, up to a hundredth, if the sum is exact or its
terms are not very many, and if the mean is whole or small. -/
theorem decimalMean?_bounds (hne : xs ≠ []) (h : decimalMean? xs = some d)
    (hsum : SumExact xs ∨ xs.length ≤ 10 ^ (10 : Nat)) (hsmall : d.WholeOrSmall) :
    (∃ x ∈ xs, x.toRat - 1 / 100 ≤ d.toNumber.toRat) ∧
      ∃ x ∈ xs, d.toNumber.toRat ≤ x.toRat + 1 / 100 := by
  have hfinite := (toNumber_decimalMean?_spec hne h).1
  obtain ⟨s, q, hs, hq, hplaces, hvalue⟩ := exists_of_decimalMean?_eq hne h
  have hn : (0 : ℚ) < xs.length := Nat.cast_pos.2 (List.length_pos_iff.2 hne)
  have hnear := isNearest_toNumber hplaces hsmall
  rw [hvalue] at hnear
  constructor
  · -- the number whose decimal is the least
    obtain ⟨x, hx, hleast⟩ := exists_mem_forall_le (fun x => -x.decimalValue) hne
    obtain ⟨a, ha⟩ := exists_ofNumber?_of_sum? hs hx
    have hbelow := length_mul_le_toRat hs hsum fun y hy => neg_le_neg_iff.1 (hleast y hy)
    rw [decimalValue_eq ha, mul_comm, ← le_div_iff₀ hn] at hbelow
    exact ⟨x, hx, (isDecimalOf_of_ofNumber? ha).le_mean hq hbelow hnear hfinite⟩
  · obtain ⟨x, hx, hmost⟩ := exists_mem_forall_le decimalValue hne
    obtain ⟨a, ha⟩ := exists_ofNumber?_of_sum? hs hx
    have habove := toRat_le_length_mul hs hsum hmost
    rw [decimalValue_eq ha, mul_comm, ← div_le_iff₀ hn] at habove
    exact ⟨x, hx, (isDecimalOf_of_ofNumber? ha).mean_le hq habove hnear hfinite⟩

/-- A decimal is off from its number by a part of `2 ^ 53` of three times the number. -/
theorem abs_decimalValue_sub_le {x : Binary64} {a : Decimal} (h : ofNumber? x = some a) :
    |x.decimalValue - x.toRat| ≤ 3 / 2 ^ 53 * |x.toRat| + 1 / 10 ^ 6 := by
  have ha := isDecimalOf_of_ofNumber? h
  have hsize := abs_toRat_le_of_ofNumber? h
  rw [decimalValue_eq h]
  rcases ha.nearest with hnear | ⟨hx, hsmall⟩
  · have herror := hnear.error_le ha.finite
    rw [abs_sub_comm]
    linarith
  · have hdist := abs_sub a.toRat x.toRat
    have hx' := abs_nonneg x.toRat
    linarith

/-- The sum of the decimals is off by what the terms are off together. -/
theorem abs_termSum_sub_le {off : ℚ} (h : ∀ x ∈ xs, |x.decimalValue - x.toRat| ≤ off) :
    |termSum xs - exactSum xs| ≤ xs.length * off := by
  have hsplit : termSum xs - exactSum xs = (xs.map fun x => x.decimalValue - x.toRat).sum := by
    induction xs with
    | nil => simp [termSum, exactSum]
    | cons x xs ih =>
      have hrest := ih fun y hy => h y (List.mem_cons_of_mem x hy)
      rw [termSum, exactSum] at hrest
      rw [termSum, exactSum, List.map_cons, List.map_cons, List.map_cons, List.sum_cons,
        List.sum_cons, List.sum_cons, ← hrest]
      ring
  rw [hsplit]
  exact (abs_sum_map_le _ _).trans (sum_map_le_length_mul h)

/-- The quotient of a decimal sum, before it is fitted. -/
theorem abs_sum?_div_sub_le {s : Decimal} {bound : ℚ} (hne : xs ≠ [])
    (hbound : ∀ x ∈ xs, |x.toRat| ≤ bound) (h : sum? xs = some s) :
    |s.toRat / xs.length - exactSum xs / xs.length| ≤
      xs.length * (33 / 10 ^ 28) * bound + 3 / 2 ^ 53 * bound + 1 / 10 ^ 6 := by
  have hn : (0 : ℚ) < xs.length := Nat.cast_pos.2 (List.length_pos_iff.2 hne)
  have hdecimal : ∀ x ∈ xs, |x.decimalValue - x.toRat| ≤ 3 / 2 ^ 53 * bound + 1 / 10 ^ 6 ∧
      |x.decimalValue| ≤ 3 * bound := by
    intro x hx
    obtain ⟨a, ha⟩ := exists_ofNumber?_of_sum? h hx
    have hnear := abs_decimalValue_sub_le ha
    have hsize := abs_toRat_le_of_ofNumber? ha
    rw [decimalValue_eq ha] at hnear ⊢
    have hx' := hbound x hx
    constructor <;> linarith
  have hterms := abs_termSum_sub_le fun x hx => (hdecimal x hx).1
  have hsizes := termSizes_le fun x hx => (hdecimal x hx).2
  have hlost : |s.toRat - termSum xs| ≤ xs.length * (xs.length * (33 / 10 ^ 28) * bound) :=
    calc |s.toRat - termSum xs|
        ≤ xs.length * (1 / 10 ^ 28) * ((1 + 10) * termSizes xs) := (sum?_bounds h).2
      _ ≤ xs.length * (1 / 10 ^ 28) * ((1 + 10) * (xs.length * (3 * bound))) := by gcongr
      _ = xs.length * (xs.length * (33 / 10 ^ 28) * bound) := by ring
  rw [← sub_div, abs_div, Nat.abs_cast, div_le_iff₀ hn]
  calc |s.toRat - exactSum xs|
      = |(s.toRat - termSum xs) + (termSum xs - exactSum xs)| := by rw [sub_add_sub_cancel]
    _ ≤ |s.toRat - termSum xs| + |termSum xs - exactSum xs| := abs_add_le _ _
    _ ≤ _ := by linarith

theorem abs_exactMean_le {bound : ℚ} (hne : xs ≠ []) (hbound : ∀ x ∈ xs, |x.toRat| ≤ bound) :
    |exactSum xs / xs.length| ≤ bound := by
  have hn : (0 : ℚ) < xs.length := Nat.cast_pos.2 (List.length_pos_iff.2 hne)
  have hsizes := sizeSum_le hbound
  have hsum := abs_exactSum_le xs
  rw [abs_div, Nat.abs_cast, div_le_iff₀ hn]
  linarith

/-- **A decimal mean of any length** is near to the mean of the values. -/
theorem abs_toRat_decimalMean?_sub_le {bound : ℚ} (hne : xs ≠ [])
    (hbound : ∀ x ∈ xs, |x.toRat| ≤ bound) (h : decimalMean? xs = some d) :
    |d.toRat - exactSum xs / xs.length| ≤
      (xs.length * (34 / 10 ^ 28) + 7 / 2 / 2 ^ 53) * bound + 6 / 1000 := by
  obtain ⟨s, q, hs, hq, -, hvalue⟩ := exists_of_decimalMean?_eq hne h
  have hexact := abs_exactMean_le hne hbound
  have hquotient := abs_sum?_div_sub_le hne hbound hs
  have hfit := hq.abs_sub_le
  have hround := abs_toRat_round_sub_le q
  rw [hvalue]
  have hpos : 0 ≤ bound := (abs_nonneg _).trans hexact
  have hmany : 0 ≤ xs.length * bound := by positivity
  generalize (q.round keptPlaces).toRat = r at *
  generalize q.toRat = v at *
  generalize s.toRat / xs.length = u at *
  generalize exactSum xs / xs.length = e at *
  -- each result is hardly larger than what it is rounded from
  have hu := abs_sub_abs_le_abs_sub u e
  calc |r - e| = |(r - v) + (v - u) + (u - e)| := by ring_nf
    _ ≤ |r - v| + |v - u| + |u - e| := abs_add_three _ _ _
    _ ≤ (xs.length * (34 / 10 ^ 28) + 7 / 2 / 2 ^ 53) * bound + 6 / 1000 := by linarith

/-- So is the number that it is converted to. -/
theorem abs_decimalMean_sub_le {bound : ℚ} (hne : xs ≠ []) (hbound : ∀ x ∈ xs, |x.toRat| ≤ bound)
    (h : decimalMean? xs = some d) : |d.toNumber.toRat - exactSum xs / xs.length| ≤
      (xs.length + 5) / 2 ^ 52 * bound + 7 / 1000 := by
  have hexact := abs_exactMean_le hne hbound
  have hmean := abs_toRat_decimalMean?_sub_le hne hbound h
  have hnumber := (toNumber_decimalMean?_spec hne h).2
  have hback := abs_sub_abs_le_abs_sub d.toRat (exactSum xs / xs.length)
  have hpos : 0 ≤ bound := (abs_nonneg _).trans hexact
  -- one number at least makes up for the rounding of the conversion
  have hone : bound ≤ xs.length * bound := by
    refine le_mul_of_one_le_left hpos ?_
    exact_mod_cast List.length_pos_iff.2 hne
  refine (abs_sub_le _ d.toRat _).trans ?_
  linarith

/-- A mean of numbers of at most `35 * 10 ^ 12` is small enough for its hundredths. -/
theorem wholeOrSmall_of_decimalMean? (hne : xs ≠ []) (hlength : xs.length ≤ 10 ^ (10 : Nat))
    (hbound : ∀ x ∈ xs, |x.toRat| ≤ 35 * 10 ^ 12) (h : decimalMean? xs = some d) :
    d.WholeOrSmall := by
  have hexact := abs_exactMean_le hne hbound
  have hmean := abs_toRat_decimalMean?_sub_le hne hbound h
  have hlen : (xs.length : ℚ) ≤ 10 ^ 10 := by exact_mod_cast hlength
  have hback := abs_sub_abs_le_abs_sub d.toRat (exactSum xs / xs.length)
  exact .inr (by linarith)

end Binary64

end CampusQuery
