import CampusQuery.Proofs.BinaryMean
import CampusQuery.Proofs.DecimalDigits
import Mathlib.Data.List.MinMax

/-!
# What decimal arithmetic loses

A decimal result is the exact one rounded to some places (`Decimal.IsFitted`). It is exact at places
that hold it, and off by half a unit of the last place otherwise. Places are dropped only where one
more would not fit, so what is dropped is a part of `10 ^ -28` of the result at most
(`Decimal.IsFitted.abs_sub_le_part`).

A sum of two decimals loses no more than ten times either of them, even if one is next to nothing:
the other one has to fill all of its bits before its places are dropped
(`Decimal.abs_add?_sub_le_term`). So a decimal sum of any length is within some parts of `10 ^ -28`
of the sizes added (`Decimal.sum?_bounds`). It is exact if no term has places, and if there is room
for the length times the greatest size at the places of all terms
(`Decimal.sumExact_of_comparable`).
-/

namespace CampusQuery

/-- One of the members of a list has the greatest value. -/
theorem exists_mem_forall_le {α β : Type*} [LinearOrder β] (f : α → β) {l : List α}
    (hne : l ≠ []) : ∃ x ∈ l, ∀ y ∈ l, f y ≤ f x := by
  obtain ⟨x, hx⟩ : ∃ x, l.argmax f = some x :=
    Option.ne_none_iff_exists'.1 (mt List.argmax_eq_none.1 hne)
  exact ⟨x, List.argmax_mem hx, fun y hy => List.le_of_mem_argmax hy hx⟩

/-! ### Rounding to places -/

section Rules

variable {rule : ℚ → ℤ} {places : Nat} {q r : ℚ}

/-- Rounding to places is off by what rounding the size in units of the last place is. -/
theorem abs_roundPlaces_sub_mul_pow (rule : ℚ → ℤ) (places : Nat) (q : ℚ) :
    |roundPlaces rule places q - q| * 10 ^ places =
      |(rule (|q| * 10 ^ places) : ℚ) - |q| * 10 ^ places| := by
  have hten : (0 : ℚ) < 10 ^ places := by positivity
  have hsplit : roundPlaces rule places q - q = signFactor (decide (q < 0)) *
      ((rule (|q| * 10 ^ places) - |q| * 10 ^ places) / 10 ^ places) := by
    rw [sub_div, mul_div_cancel_right₀ _ hten.ne', mul_sub, signFactor_mul_abs, roundPlaces]
  rw [hsplit, abs_mul, abs_signFactor, one_mul, abs_div, abs_of_pos hten,
    div_mul_cancel₀ _ hten.ne']

/-- Rounding to places is off by half a unit of the last one. -/
theorem abs_roundPlaces_sub_le (hrule : ∀ v, |(rule v : ℚ) - v| ≤ 1 / 2) (places : Nat) (q : ℚ) :
    |roundPlaces rule places q - q| * 10 ^ places ≤ 1 / 2 := by
  rw [abs_roundPlaces_sub_mul_pow]
  exact hrule _

/-- No whole number of units of the last place is nearer, with a rule that goes to the nearest. -/
theorem abs_roundPlaces_sub_le_intCast (hrule : ∀ v (k : ℤ), |(rule v : ℚ) - v| ≤ |(k : ℚ) - v|)
    (places : Nat) (q : ℚ) (k : ℤ) :
    |roundPlaces rule places q - q| * 10 ^ places ≤ |(k : ℚ) - q * 10 ^ places| := by
  rw [abs_roundPlaces_sub_mul_pow]
  rcases lt_or_ge q 0 with hneg | hpos
  · have hsize := hrule (|q| * 10 ^ places) (-k)
    rw [Int.cast_neg] at hsize
    rw [abs_of_neg hneg, neg_mul] at hsize ⊢
    rwa [neg_sub_neg, abs_sub_comm _ (k : ℚ)] at hsize
  · have hsize := hrule (|q| * 10 ^ places) k
    rwa [abs_of_nonneg hpos] at hsize ⊢

/-- Larger rationals are rounded to larger ones. -/
theorem roundPlaces_mono (hrule : ∀ v w, v ≤ w → rule v ≤ rule w) (hzero : rule 0 = 0)
    (places : Nat) (h : q ≤ r) : roundPlaces rule places q ≤ roundPlaces rule places r := by
  have hnonneg : ∀ v : ℚ, 0 ≤ (rule (|v| * 10 ^ places) / 10 ^ places : ℚ) := by
    intro v
    have hleast := hrule 0 (|v| * 10 ^ places) (by positivity)
    rw [hzero] at hleast
    have hcast : (0 : ℚ) ≤ rule (|v| * 10 ^ places) := Int.cast_nonneg hleast
    positivity
  have hsize : ∀ {v w : ℚ}, |v| ≤ |w| →
      (rule (|v| * 10 ^ places) / 10 ^ places : ℚ) ≤ rule (|w| * 10 ^ places) / 10 ^ places := by
    intro v w hvw
    have hcount : (rule (|v| * 10 ^ places) : ℚ) ≤ rule (|w| * 10 ^ places) :=
      Int.cast_le.2 (hrule _ _ (mul_le_mul_of_nonneg_right hvw (by positivity)))
    gcongr
  rw [roundPlaces, roundPlaces]
  -- sizes are rounded, so the order of two negative numbers is that of their sizes turned round
  rcases lt_or_ge q 0 with hq | hq
  · rcases lt_or_ge r 0 with hr | hr
    · have hsmaller := hsize (abs_le_abs_of_nonpos hr.le h)
      simpa [signFactor, hq, hr] using hsmaller
    · have hleft := hnonneg q
      have hright := hnonneg r
      simp only [signFactor, hq, not_lt.2 hr, decide_true, decide_false, if_true,
        Bool.false_eq_true, if_false]
      linarith
  · have hr : 0 ≤ r := hq.trans h
    have hsmaller := hsize (abs_le_abs_of_nonneg hq h)
    simpa [signFactor, not_lt.2 hq, not_lt.2 hr] using hsmaller

end Rules

theorem halfUp_mono {q r : ℚ} (h : q ≤ r) : halfUp q ≤ halfUp r :=
  Int.floor_le_floor (add_le_add_left h _)

namespace Decimal

variable {a b c q : Decimal}

theorem cast_mantissaBound : (mantissaBound : ℚ) = 2 ^ 96 := by
  rw [mantissaBound]
  norm_num

/-! ### Results that are fitted -/

namespace IsFitted

variable {exact : ℚ} {places : Nat} {k : ℤ}

/-- A result is off by half a unit of its last place. -/
theorem abs_sub_mul_le (h : IsFitted exact places q) :
    |q.toRat - exact| * 10 ^ q.places ≤ 1 / 2 := by
  rw [h.value]
  exact abs_roundPlaces_sub_le abs_halfEven_sub_le_half _ _

/-- Places are dropped only where one more takes all the bits. -/
theorem le_size_of_places_lt (h : IsFitted exact places q) (hlt : q.places < places) :
    2 ^ 96 ≤ |exact| * 10 ^ (q.places + 1) + 1 / 2 := by
  have hmost := h.most _ (Nat.lt_succ_self q.places) hlt
  have hten : (10 : ℚ) ^ (q.places + 1) ≠ 0 := by positivity
  rw [Nat.succ_eq_add_one, abs_roundPlaces_halfEven, div_mul_cancel₀ _ hten,
    cast_mantissaBound] at hmost
  exact hmost.trans (halfEven_le_add_half _)

/-- A result whose places have been dropped is off by a part of `10 ^ -28`. -/
theorem abs_sub_le_of_places_lt (h : IsFitted exact places q) (hlt : q.places < places) :
    |q.toRat - exact| ≤ 1 / 10 ^ 28 * |exact| := by
  have hten : (0 : ℚ) < 10 ^ q.places := by positivity
  have hsize := h.le_size_of_places_lt hlt
  have hnear := h.abs_sub_mul_le
  rw [pow_succ (10 : ℚ)] at hsize
  refine le_of_mul_le_mul_right ?_ hten
  linarith

/-- **A result that has been fitted** is off by a part of `10 ^ -28`, if it is not too fine for the
places. -/
theorem abs_sub_le_part (h : IsFitted exact places q) (hk : exact * 10 ^ places = k) :
    |q.toRat - exact| ≤ 1 / 10 ^ 28 * |exact| := by
  rcases h.places_le.eq_or_lt with heq | hlt
  · rw [h.toRat_eq (heq ▸ hk), sub_self, abs_zero]
    positivity
  · exact h.abs_sub_le_of_places_lt hlt

/-- Otherwise it may be off by a unit of the 28th place as well. -/
theorem abs_sub_le (h : IsFitted exact maxPlaces q) :
    |q.toRat - exact| ≤ 1 / 10 ^ 28 * (|exact| + 1) := by
  have hexact := abs_nonneg exact
  rcases h.places_le.eq_or_lt with heq | hlt
  · have hnear := h.abs_sub_mul_le
    rw [heq, maxPlaces] at hnear
    linarith
  · linarith [h.abs_sub_le_of_places_lt hlt]

end IsFitted

/-! ### Sums of two -/

/-- A sum is the rational sum, fitted in the places of its terms, unless one of them is zero. -/
theorem toRat_eq_or_isFitted_of_add? (h : a.add? b = some c) :
    c.toRat = a.toRat + b.toRat ∨ IsFitted (a.toRat + b.toRat) (max a.places b.places) c := by
  rw [add?] at h
  split at h
  · next hzero =>
    obtain rfl := Option.some.inj h
    rw [toRat.eq_def a, hzero, Int.cast_zero, zero_div, zero_add]
    exact .inl rfl
  · split at h
    · next hzero =>
      obtain rfl := Option.some.inj h
      rw [toRat.eq_def b, hzero, Int.cast_zero, zero_div, add_zero]
      exact .inl rfl
    · have hten : (10 : ℚ) ^ max a.places b.places ≠ 0 := by positivity
      have hfitted := isFitted_of_fit? (ten_pow_pos _) h
      rw [Nat.cast_pow, Nat.cast_ofNat, Int.cast_add, ← toRat_mul_pow (le_max_left _ _),
        ← toRat_mul_pow (le_max_right _ _), ← add_mul, mul_div_cancel_right₀ _ hten] at hfitted
      exact .inr hfitted

theorem exists_add_mul_pow_eq (a b : Decimal) :
    ∃ k : ℤ, (a.toRat + b.toRat) * 10 ^ max a.places b.places = k := by
  rw [add_mul, toRat_mul_pow (le_max_left _ _), toRat_mul_pow (le_max_right _ _)]
  exact ⟨_, (Int.cast_add _ _).symm⟩

/-- A sum that keeps the places of its terms is exact. -/
theorem toRat_add?_eq (h : a.add? b = some c) (hplaces : max a.places b.places ≤ c.places) :
    c.toRat = a.toRat + b.toRat := by
  rcases toRat_eq_or_isFitted_of_add? h with hexact | hfitted
  · exact hexact
  · obtain ⟨k, hk⟩ := exists_add_mul_pow_eq a b
    rw [le_antisymm hplaces hfitted.places_le] at hk
    exact hfitted.toRat_eq hk

/-- **A sum of two decimals** is off by a part of `10 ^ -28`. -/
theorem abs_add?_sub_le_part (h : a.add? b = some c) :
    |c.toRat - (a.toRat + b.toRat)| ≤ 1 / 10 ^ 28 * |a.toRat + b.toRat| := by
  rcases toRat_eq_or_isFitted_of_add? h with hexact | hfitted
  · rw [hexact, sub_self, abs_zero]
    positivity
  · obtain ⟨k, hk⟩ := exists_add_mul_pow_eq a b
    exact hfitted.abs_sub_le_part hk

/-- There is a sum if it has room with no places at all. -/
theorem exists_add?_of_abs_le (h : |a.toRat + b.toRat| ≤ 2 ^ 95) : ∃ c, a.add? b = some c := by
  obtain ⟨p, hp⟩ : ∃ p, max a.places b.places = p := ⟨_, rfl⟩
  obtain ⟨n, hn⟩ : ∃ n, a.mantissa * 10 ^ (p - a.places) + b.mantissa * 10 ^ (p - b.places) = n :=
    ⟨_, rfl⟩
  have hsum : (a.toRat + b.toRat) * 10 ^ p = n := by
    rw [add_mul, toRat_mul_pow (hp ▸ le_max_left _ _), toRat_mul_pow (hp ▸ le_max_right _ _),
      ← Int.cast_add, hn]
  have hvalue : (n.natAbs : ℚ) / (10 ^ p : Nat) = |a.toRat + b.toRat| := by
    have hten : (0 : ℚ) < 10 ^ p := by positivity
    rw [Nat.cast_natAbs, Int.cast_abs, ← hsum, abs_mul, abs_of_pos hten, Nat.cast_pow,
      Nat.cast_ofNat, mul_div_cancel_right₀ _ hten.ne']
  have hroom : roundDivEven n.natAbs (10 ^ p) < mantissaBound := by
    have hround := halfEven_le_add_half |a.toRat + b.toRat|
    rw [← hvalue, halfEven_div _ (ten_pow_pos p), hvalue, Int.cast_natCast] at hround
    have hlt : ((roundDivEven n.natAbs (10 ^ p) : Nat) : ℚ) < mantissaBound := by
      rw [cast_mantissaBound]
      linarith
    exact_mod_cast hlt
  simp only [add?, hp, hn]
  split
  · exact ⟨b, rfl⟩
  · split
    · exact ⟨a, rfl⟩
    · exact Option.isSome_iff_exists.1 (isSome_fit? hroom p)

/-- **It is off by no more than ten times the second one**, which may be next to nothing. -/
theorem abs_add?_sub_le_term (ha : a.Proper) (h : a.add? b = some c) :
    |c.toRat - (a.toRat + b.toRat)| ≤ 10 * |b.toRat| := by
  rcases toRat_eq_or_isFitted_of_add? h with hexact | hfitted
  · rw [hexact, sub_self, abs_zero]
    positivity
  have hten : (0 : ℚ) < 10 ^ c.places := by positivity
  refine le_of_mul_le_mul_right ?_ hten
  rcases le_or_gt a.places c.places with hfine | hcoarse
  · -- the first term is on the grid of the result, and no point of it is nearer
    have hnear := abs_roundPlaces_sub_le_intCast abs_halfEven_sub_le c.places
      (a.toRat + b.toRat) (a.mantissa * 10 ^ (c.places - a.places))
    rw [← hfitted.value, ← toRat_mul_pow hfine, ← sub_mul, sub_add_cancel_left, abs_mul, abs_neg,
      abs_of_pos hten] at hnear
    have hterm : 0 ≤ |b.toRat| * 10 ^ c.places := by positivity
    linarith
  · -- the first term alone has room with one more place, so the second one takes the rest of it
    have hsize := hfitted.le_size_of_places_lt (hcoarse.trans_le (le_max_left _ _))
    have hroom : |a.toRat| * 10 ^ (c.places + 1) ≤ 2 ^ 96 - 1 := by
      have hdigits : (a.mantissa.natAbs : ℚ) + 1 ≤ mantissaBound := by exact_mod_cast ha.size
      rw [cast_mantissaBound, ← abs_toRat_mul_pow] at hdigits
      have hpow : |a.toRat| * 10 ^ (c.places + 1) ≤ |a.toRat| * 10 ^ a.places :=
        mul_le_mul_of_nonneg_left (pow_le_pow_right₀ (by norm_num) hcoarse) (abs_nonneg _)
      linarith
    have hnear := hfitted.abs_sub_mul_le
    have hsum := mul_le_mul_of_nonneg_right (abs_add_le a.toRat b.toRat)
      (by positivity : (0 : ℚ) ≤ 10 ^ (c.places + 1))
    rw [pow_succ (10 : ℚ)] at hsize hroom hsum
    linarith

end Decimal

namespace Binary64

/-- What the decimal of a number is worth, zero if there is none. -/
def decimalValue (x : Binary64) : ℚ :=
  Decimal.scaledOf x / 10 ^ Decimal.maxPlaces

theorem decimalValue_eq {x : Binary64} {a : Decimal} (h : Decimal.ofNumber? x = some a) :
    x.decimalValue = a.toRat := by
  have hten : (10 : ℚ) ^ Decimal.maxPlaces ≠ 0 := by positivity
  rw [decimalValue, Decimal.scaledOf, h]
  dsimp only
  rw [Decimal.cast_scaled (Decimal.places_of_ofNumber? h), mul_div_cancel_right₀ _ hten]

end Binary64

namespace Decimal

open Binary64

variable {d : Decimal} {x : Binary64} {xs : List Binary64}

/-! ### Sums of lists -/

/-- The decimals of a list, summed. -/
def termSum (xs : List Binary64) : ℚ :=
  (xs.map decimalValue).sum

/-- Their sizes, summed. -/
def termSizes (xs : List Binary64) : ℚ :=
  (xs.map fun x => |x.decimalValue|).sum

theorem termSum_concat (xs : List Binary64) (x : Binary64) :
    termSum (xs ++ [x]) = termSum xs + x.decimalValue := by
  simp [termSum]

theorem termSizes_concat (xs : List Binary64) (x : Binary64) :
    termSizes (xs ++ [x]) = termSizes xs + |x.decimalValue| := by
  simp [termSizes]

theorem termSizes_nonneg (xs : List Binary64) : 0 ≤ termSizes xs :=
  List.sum_nonneg (List.forall_mem_map.2 fun _ _ => abs_nonneg _)

theorem termSizes_le {bound : ℚ} (h : ∀ x ∈ xs, |x.decimalValue| ≤ bound) :
    termSizes xs ≤ xs.length * bound :=
  sum_map_le_length_mul h

theorem abs_termSum_le (xs : List Binary64) : |termSum xs| ≤ termSizes xs :=
  abs_sum_map_le _ _

/-- All numbers of a decimal sum have decimals. -/
theorem exists_ofNumber?_of_sum? (h : sum? xs = some d) (hx : x ∈ xs) :
    ∃ a, ofNumber? x = some a := by
  induction xs using List.reverseRecOn generalizing d with
  | nil => cases hx
  | append_singleton xs y ih =>
    obtain ⟨total, a, htotal, ha, -⟩ := sum?_concat_eq_some_iff.1 h
    rcases List.mem_append.1 hx with hbefore | hlast
    · exact ih htotal hbefore
    · exact ⟨a, List.mem_singleton.1 hlast ▸ ha⟩

/-- **The decimal sum of a list** is off by eleven parts of `10 ^ 28` of the sizes for each number,
and at most eleven times as large as they are. -/
theorem sum?_bounds (h : sum? xs = some d) : |d.toRat| ≤ (1 + 10) * termSizes xs ∧
    |d.toRat - termSum xs| ≤ xs.length * (1 / 10 ^ 28) * ((1 + 10) * termSizes xs) := by
  -- the sum is taken from the left, and a step needs both bounds of the sum before it
  induction xs using List.reverseRecOn generalizing d with
  | nil =>
    obtain rfl : zero = d := Option.some.inj h
    simp [termSum, termSizes, Decimal.toRat, zero]
  | append_singleton xs x ih =>
    obtain ⟨total, a, htotal, ha, hadd⟩ := sum?_concat_eq_some_iff.1 h
    obtain ⟨hsize, herror⟩ := ih htotal
    rw [termSum_concat, termSizes_concat, decimalValue_eq ha, List.length_append,
      List.length_singleton]
    exact runningSum_step (by positivity) (by norm_num) hsize herror (abs_add?_sub_le_part hadd)
      (abs_add?_sub_le_term (proper_sum? htotal) hadd)

theorem termSizes_le_sizeSum (h : sum? xs = some d) : termSizes xs ≤ 3 * sizeSum xs := by
  rw [sizeSum, ← List.sum_map_mul_left]
  refine List.sum_le_sum fun x hx => ?_
  obtain ⟨a, ha⟩ := exists_ofNumber?_of_sum? h hx
  rw [decimalValue_eq ha]
  exact abs_toRat_le_of_ofNumber? ha

/-- **There is a decimal sum** of numbers that are not very many and not very large together. -/
theorem exists_sum?_of_sizes (hlength : xs.length ≤ 10 ^ (10 : Nat))
    (hfinite : ∀ x ∈ xs, x.isFinite = true) (hsizes : sizeSum xs ≤ 10 ^ 28) :
    ∃ d, sum? xs = some d := by
  -- a sum of the first few is there, so that its bounds say how large it is
  induction xs using List.reverseRecOn with
  | nil => exact ⟨zero, rfl⟩
  | append_singleton xs x ih =>
    rw [List.length_append, List.length_singleton] at hlength
    rw [sizeSum_concat] at hsizes
    have hx := abs_nonneg x.toRat
    have hbefore := sizeSum_nonneg xs
    obtain ⟨total, htotal⟩ := ih (by omega)
      (fun y hy => hfinite y (List.mem_append_left _ hy)) (by linarith)
    obtain ⟨a, ha⟩ := exists_ofNumber?_of_abs_le
      (hfinite x (List.mem_append_right _ (List.mem_singleton_self x))) (by linarith)
    -- the sum so far has lost next to nothing, so there is room for one more term
    have hlost : |total.toRat - termSum xs| ≤
        10 ^ 10 * (1 / 10 ^ 28) * ((1 + 10) * termSizes xs) := by
      have hlen : (xs.length : ℚ) ≤ 10 ^ 10 := by exact_mod_cast Nat.le_of_succ_le hlength
      have hnonneg := termSizes_nonneg xs
      refine (sum?_bounds htotal).2.trans ?_
      gcongr
    have hterms := abs_termSum_le xs
    have hthree := termSizes_le_sizeSum htotal
    have hlast := abs_toRat_le_of_ofNumber? ha
    have hback := abs_sub_abs_le_abs_sub total.toRat (termSum xs)
    have hsum := abs_add_le total.toRat a.toRat
    obtain ⟨c, hc⟩ := exists_add?_of_abs_le (a := total) (b := a) (by linarith)
    exact ⟨c, sum?_concat_eq_some_iff.2 ⟨total, a, htotal, ha, hc⟩⟩

/-! ### Sums that are exact -/

theorem termSum_eq (xs : List Binary64) :
    termSum xs = ((xs.map scaledOf).sum : ℤ) / 10 ^ maxPlaces := by
  induction xs with
  | nil => simp [termSum]
  | cons x xs ih =>
    rw [termSum, List.map_cons, List.sum_cons, ← termSum, ih, decimalValue, ← add_div,
      List.map_cons, List.sum_cons, Int.cast_add]

/-- A sum is exact if it is worth what its terms are. -/
theorem sumExact_iff (h : sum? xs = some d) : SumExact xs ↔ d.toRat = termSum xs := by
  have hten : (10 : ℚ) ^ maxPlaces ≠ 0 := by positivity
  have hscaled := cast_scaled (places_of_sum? h)
  rw [termSum_eq, eq_div_iff hten, ← hscaled, Int.cast_inj]
  constructor
  · rintro ⟨d', hd', hvalue⟩
    rwa [Option.some.inj (h.symm.trans hd')]
  · intro hvalue
    exact ⟨d, h, hvalue⟩

/-- **A sum of terms without places is exact.** -/
theorem sumExact_of_places_eq_zero (h : sum? xs = some d)
    (hplaces : ∀ x ∈ xs, ∀ a, ofNumber? x = some a → a.places = 0) : SumExact xs := by
  rw [sumExact_iff h]
  -- the sum has no places either, which the next step needs
  have hsum : d.places = 0 ∧ d.toRat = termSum xs := by
    induction xs using List.reverseRecOn generalizing d with
    | nil =>
      obtain rfl : zero = d := Option.some.inj h
      exact ⟨rfl, by simp [termSum, Decimal.toRat, zero]⟩
    | append_singleton xs x ih =>
      obtain ⟨total, a, htotal, ha, hadd⟩ := sum?_concat_eq_some_iff.1 h
      obtain ⟨hwhole, hvalue⟩ := ih htotal fun y hy => hplaces y (List.mem_append_left _ hy)
      have hterm := hplaces x (List.mem_append_right _ (List.mem_singleton_self x)) a ha
      have hnone := places_of_add? hadd
      refine ⟨by omega, ?_⟩
      rw [toRat_add?_eq hadd (by omega), termSum_concat, decimalValue_eq ha, hvalue]
  exact hsum.2

/-- All partial sums have room if the length times a bound of the terms has. -/
theorem fits_of_bound {places : Nat} {bound : ℚ} (hplaces : places ≤ maxPlaces)
    (hterms : ∀ x ∈ xs, ∃ a, ofNumber? x = some a ∧ a.places ≤ places) (hpos : 0 ≤ bound)
    (hbound : ∀ x ∈ xs, |x.decimalValue| ≤ bound)
    (hroom : xs.length * (bound * 10 ^ places) < 2 ^ 96) : Fits places xs := by
  refine ⟨hplaces, hterms, fun ys hys => ?_⟩
  have hsum := (abs_termSum_le ys).trans (termSizes_le fun y hy => hbound y (hys.subset hy))
  have hlength : (ys.length : ℚ) ≤ xs.length := Nat.cast_le.2 hys.length_le
  have hcount : (((ys.map scaledOf).sum.natAbs : Nat) : ℚ) = |termSum ys| * 10 ^ maxPlaces := by
    have hten : (0 : ℚ) < 10 ^ maxPlaces := by positivity
    rw [termSum_eq, abs_div, abs_of_pos hten, div_mul_cancel₀ _ hten.ne', Nat.cast_natAbs,
      Int.cast_abs]
  have hsplit : (10 : ℚ) ^ maxPlaces = 10 ^ places * 10 ^ (maxPlaces - places) := by
    rw [← pow_add, Nat.add_sub_cancel' hplaces]
  have hpartial : |termSum ys| * 10 ^ places < 2 ^ 96 :=
    calc |termSum ys| * 10 ^ places
        ≤ ys.length * bound * 10 ^ places := mul_le_mul_of_nonneg_right hsum (by positivity)
      _ = ys.length * (bound * 10 ^ places) := mul_assoc ..
      _ ≤ xs.length * (bound * 10 ^ places) := by gcongr
      _ < 2 ^ 96 := hroom
  have hlt : (((ys.map scaledOf).sum.natAbs : Nat) : ℚ) <
      mantissaBound * 10 ^ (maxPlaces - places) := by
    rw [hcount, hsplit, ← mul_assoc, cast_mantissaBound]
    exact mul_lt_mul_of_pos_right hpartial (by positivity)
  exact_mod_cast hlt

/-- **A sum of terms of one size is exact**, up to a factor of two, if they are not too many: a term
has at most nineteen digits if it has places, and the other digits of a decimal are left to the
sum. -/
theorem sumExact_of_comparable {bound : ℚ} (h : sum? xs = some d)
    (hlength : xs.length ≤ 10 ^ (10 : Nat))
    (hsizes : ∀ x ∈ xs, |x.decimalValue| ≤ bound ∧ bound < 2 * |x.decimalValue|) :
    SumExact xs := by
  by_cases hne : xs = []
  · exact hne ▸ ⟨zero, rfl, rfl⟩
  obtain ⟨x, hx, hmost⟩ :=
    exists_mem_forall_le (fun x => (ofNumber? x).elim 0 Decimal.places) hne
  obtain ⟨a, ha⟩ := exists_ofNumber?_of_sum? h hx
  -- the number with the most places says on which grid all terms are
  have hfew : ∀ y ∈ xs, ∀ b, ofNumber? y = some b → b.places ≤ a.places := by
    intro y hy b hb
    have hle := hmost y hy
    rw [ha, hb] at hle
    exact hle
  rcases Nat.eq_zero_or_pos a.places with hzero | hpos
  · refine sumExact_of_places_eq_zero h fun y hy b hb => ?_
    have hle := hfew y hy b hb
    omega
  · have hbound : 0 ≤ bound := (abs_nonneg _).trans (hsizes x hx).1
    have hlen : (xs.length : ℚ) ≤ 10 ^ 10 := by exact_mod_cast hlength
    -- the bound has nineteen digits, the length ten, and there is room for twenty-eight
    have hgrid : bound * 10 ^ a.places ≤ 4 * 10 ^ 18 := by
      have hdigits := digits_of_ofNumber? ha hpos
      have hscaled := mul_le_mul_of_nonneg_right (hsizes x hx).2.le
        (by positivity : (0 : ℚ) ≤ 10 ^ a.places)
      rw [← decimalValue_eq ha] at hdigits
      linarith
    have hroom : xs.length * (bound * 10 ^ a.places) < 2 ^ 96 :=
      calc xs.length * (bound * 10 ^ a.places)
          ≤ 10 ^ 10 * (4 * 10 ^ 18) := mul_le_mul hlen hgrid (by positivity) (by positivity)
        _ < 2 ^ 96 := by norm_num
    refine sumExact_of_fits (fits_of_bound (places_of_ofNumber? ha) (fun y hy => ?_) hbound
      (fun y hy => (hsizes y hy).1) hroom)
    obtain ⟨b, hb⟩ := exists_ofNumber?_of_sum? h hy
    exact ⟨b, hb, hfew y hy b hb⟩

end Decimal

end CampusQuery
