import CampusQuery.Proofs.WrittenDecimal
import Mathlib.Algebra.Order.Round
import Mathlib.Data.Rat.Floor
import Mathlib.Tactic.Linarith
import Mathlib.Tactic.LinearCombination

/-!
# Rounding decimals, as rationals

A rational is rounded to some decimal places by rounding its size to a whole number of the last
place (`roundPlaces`), and there are two rules for a tie: the larger neighbour, which goes away from
zero (`halfUp`), and the even one (`halfEven`).

A decimal is rounded by the first rule (`Decimal.toRat_round`). What does not fit as it is, such as
a quotient, is rounded by the second one, to the most places that there is room for
(`Decimal.IsFitted`, `Decimal.exists_divide?_eq`). A quotient that is then rounded to fewer places
has been rounded twice. This comes to rounding it once if midpoints of the coarser grid are points
of the finer one and the first rounding has not raised the quotient to a midpoint
(`roundPlaces_roundPlaces`).
-/

namespace CampusQuery

/-! ### Rounding rationals -/

/-- The whole number nearest to a rational, at a tie the larger one. -/
def halfUp (q : ℚ) : ℤ :=
  ⌊q + 1 / 2⌋

/-- The whole number nearest to a rational, at a tie the even one. -/
def halfEven (q : ℚ) : ℤ :=
  if Int.fract q < 1 / 2 then ⌊q⌋
  else if 1 / 2 < Int.fract q then ⌊q⌋ + 1
  else ⌊q⌋ + ⌊q⌋ % 2

/-- A rational to some decimal places. The rule is for sizes, so a negative number is rounded as the
positive one. -/
def roundPlaces (rule : ℚ → ℤ) (places : Nat) (q : ℚ) : ℚ :=
  signFactor (decide (q < 0)) * (rule (|q| * 10 ^ places) / 10 ^ places)

theorem halfUp_div (n : Nat) {d : Nat} (hd : 0 < d) : halfUp (n / d) = roundDivUp n d := by
  have hne : (d : ℚ) ≠ 0 := Nat.cast_ne_zero.2 hd.ne'
  have hsum : (n : ℚ) / d + 1 / 2 = ((2 * n + d : Nat) : ℚ) / ((2 * d : Nat) : ℚ) := by
    push_cast
    field_simp
  rw [halfUp, hsum, Rat.floor_natCast_div_natCast, roundDivUp, Int.natCast_div]

theorem halfEven_div (n : Nat) {d : Nat} (hd : 0 < d) : halfEven (n / d) = roundDivEven n d := by
  have hpos : (0 : ℚ) < d := Nat.cast_pos.2 hd
  have hfloor : ⌊(n : ℚ) / d⌋ = ((n / d : Nat) : ℤ) := by
    rw [Rat.floor_natCast_div_natCast, Int.natCast_div]
  have hfract : Int.fract ((n : ℚ) / d) = ((n % d : Nat) : ℚ) / d :=
    Int.fract_div_natCast_eq_div_natCast_mod
  have hbelow : Int.fract ((n : ℚ) / d) < 1 / 2 ↔ 2 * (n % d) < d := by
    rw [hfract, div_lt_div_iff₀ hpos two_pos, one_mul, mul_comm]
    exact_mod_cast Iff.rfl
  have habove : 1 / 2 < Int.fract ((n : ℚ) / d) ↔ d < 2 * (n % d) := by
    rw [hfract, div_lt_div_iff₀ two_pos hpos, one_mul, mul_comm]
    exact_mod_cast Iff.rfl
  simp only [halfEven, roundDivEven, hbelow, habove, hfloor]
  split_ifs <;> push_cast <;> rfl

/-- Rounding does not go past a whole number. -/
theorem le_halfEven {k : ℤ} {q : ℚ} (h : k ≤ q) : k ≤ halfEven q := by
  have hfloor : k ≤ ⌊q⌋ := Int.le_floor.2 h
  rw [halfEven]
  split_ifs <;> omega

theorem halfEven_le {k : ℤ} {q : ℚ} (h : q ≤ k) : halfEven q ≤ k := by
  rcases eq_or_lt_of_le h with rfl | hlt
  · -- a whole number is its own rounding
    simp [halfEven]
  · have hfloor : ⌊q⌋ < k := Int.floor_lt.2 hlt
    rw [halfEven]
    split_ifs <;> omega

theorem halfEven_intCast (k : ℤ) : halfEven k = k :=
  le_antisymm (halfEven_le le_rfl) (le_halfEven le_rfl)

theorem halfEven_nonneg {q : ℚ} (h : 0 ≤ q) : 0 ≤ halfEven q :=
  le_halfEven (by exact_mod_cast h)

theorem halfEven_le_add_half (q : ℚ) : halfEven q ≤ q + 1 / 2 := by
  have hfract := Int.floor_add_fract q
  have hnonneg := Int.fract_nonneg q
  rw [halfEven]
  split_ifs with hbelow habove
  · linarith
  · push_cast
    linarith
  · -- a tie goes up by one at most
    have hstep : ((⌊q⌋ % 2 : ℤ) : ℚ) ≤ 1 := by exact_mod_cast (by omega : ⌊q⌋ % 2 ≤ 1)
    push_cast
    linarith

theorem halfUp_eq_iff {q : ℚ} {k : ℤ} : halfUp q = k ↔ k - 1 / 2 ≤ q ∧ q < k + 1 / 2 := by
  rw [halfUp, Int.floor_eq_iff]
  constructor <;> rintro ⟨hlow, hhigh⟩ <;> constructor <;> linarith

/-- A fraction is rounded by rounding the division of whole numbers. -/
theorem roundPlaces_div {rule : ℚ → ℤ} {round : Nat → Nat → Nat}
    (hrule : ∀ n d : Nat, 0 < d → rule (n / d) = round n d) (n : ℤ) {d : Nat} (hd : 0 < d)
    (places : Nat) : roundPlaces rule places (n / d) =
      (⟨Decimal.signed (decide (n < 0)) (round (n.natAbs * 10 ^ places) d), places⟩ :
        Decimal).toRat := by
  have hpos : (0 : ℚ) < d := Nat.cast_pos.2 hd
  have hsign : (n : ℚ) / d < 0 ↔ n < 0 := by
    rw [div_lt_iff₀ hpos, zero_mul, Int.cast_lt_zero]
  have hsize : |(n : ℚ) / d| * 10 ^ places = ((n.natAbs * 10 ^ places : Nat) : ℚ) / d := by
    rw [abs_div, abs_of_pos hpos, Nat.cast_mul, Nat.cast_natAbs, Int.cast_abs, Nat.cast_pow,
      Nat.cast_ofNat, div_mul_eq_mul_div]
  simp only [roundPlaces, hsign, hsize, hrule _ _ hd, Decimal.toRat, Decimal.cast_signed,
    Int.cast_natCast, mul_div_assoc]

theorem signFactor_mul_abs (q : ℚ) : signFactor (decide (q < 0)) * |q| = q := by
  rcases lt_or_ge q 0 with hneg | hpos
  · simp [signFactor, hneg, abs_of_neg hneg]
  · simp [signFactor, not_lt.2 hpos, abs_of_nonneg hpos]

/-- What has no more places is left as it is. -/
theorem roundPlaces_of_intCast {rule : ℚ → ℤ} {places : Nat} {q : ℚ}
    (hrule : ∀ k : ℤ, rule k = k) {k : ℤ} (hk : q * 10 ^ places = k) :
    roundPlaces rule places q = q := by
  have hten : (0 : ℚ) < 10 ^ places := by positivity
  have hsize : |q| * 10 ^ places = (|k| : ℤ) := by
    rw [Int.cast_abs, ← hk, abs_mul, abs_of_pos hten]
  rw [roundPlaces, hsize, hrule, ← hsize, mul_div_cancel_right₀ _ hten.ne', signFactor_mul_abs]

theorem abs_roundPlaces_halfEven (places : Nat) (q : ℚ) :
    |roundPlaces halfEven places q| = halfEven (|q| * 10 ^ places) / 10 ^ places := by
  have hsize : (0 : ℚ) ≤ halfEven (|q| * 10 ^ places) :=
    Int.cast_nonneg (halfEven_nonneg (by positivity))
  rw [roundPlaces, abs_mul, abs_signFactor, one_mul, abs_of_nonneg (by positivity)]

/-- What is not rounded to zero keeps its sign. -/
theorem roundPlaces_halfEven_neg_iff {places : Nat} {q : ℚ}
    (h : roundPlaces halfEven places q ≠ 0) : roundPlaces halfEven places q < 0 ↔ q < 0 := by
  have hsize : 0 < |roundPlaces halfEven places q| := abs_pos.2 h
  rw [abs_roundPlaces_halfEven] at hsize
  rw [roundPlaces]
  by_cases hq : q < 0
  · simpa [signFactor, hq] using hsize
  · simpa [signFactor, hq] using hsize.le

/-! ### Rounding twice -/

/-- A rational is half way between two neighbours with so many places. -/
def IsMidpoint (places : Nat) (q : ℚ) : Prop :=
  ∃ k : ℤ, q * 10 ^ places = k + 1 / 2

/-- Rounding to parts of a whole, an even number of them, and then to a whole number is rounding
once, unless the first rounding goes up to a midpoint. -/
theorem halfUp_halfEven_div {v : ℚ} {g : ℤ} (hg : 0 < g)
    (hraised : v < halfEven (v * (2 * g)) / (2 * g) →
      ∀ k : ℤ, (halfEven (v * (2 * g)) / (2 * g) : ℚ) ≠ k + 1 / 2) :
    halfUp (halfEven (v * (2 * g)) / (2 * g)) = halfUp v := by
  have hparts : (0 : ℚ) < 2 * g := by exact_mod_cast mul_pos two_pos hg
  obtain ⟨k, hk⟩ : ∃ k, halfUp v = k := ⟨_, rfl⟩
  obtain ⟨hlow, hhigh⟩ := halfUp_eq_iff.1 hk
  -- the two midpoints around the number are whole numbers of parts
  have hbelow : (2 * k - 1) * g ≤ halfEven (v * (2 * g)) := by
    refine le_halfEven ?_
    push_cast
    linarith [mul_le_mul_of_nonneg_right hlow hparts.le]
  have habove : halfEven (v * (2 * g)) ≤ (2 * k + 1) * g := by
    refine halfEven_le ?_
    push_cast
    linarith [mul_le_mul_of_nonneg_right hhigh.le hparts.le]
  have hbelow : ((2 * k - 1) * g : ℚ) ≤ halfEven (v * (2 * g)) := by exact_mod_cast hbelow
  have habove : (halfEven (v * (2 * g)) : ℚ) ≤ (2 * k + 1) * g := by exact_mod_cast habove
  rw [hk, halfUp_eq_iff, le_div_iff₀ hparts]
  refine ⟨by linarith, lt_of_le_of_ne ?_ fun heq => ?_⟩
  · rw [div_le_iff₀ hparts]
    linarith
  · exact hraised (heq ▸ hhigh) k heq

/-- **Rounding twice is rounding once** if there are more places at first than in the end, unless
the first rounding raises the number to a midpoint of the second one. -/
theorem roundPlaces_roundPlaces {places finer : Nat} (hplaces : places < finer) {q : ℚ}
    (hraised : |q| < |roundPlaces halfEven finer q| →
      ¬IsMidpoint places |roundPlaces halfEven finer q|) :
    roundPlaces halfUp places (roundPlaces halfEven finer q) = roundPlaces halfUp places q := by
  have hten : ∀ k : Nat, (0 : ℚ) < 10 ^ k := fun k => by positivity
  -- a place of the coarser grid has an even number of units of the finer one
  obtain ⟨g, hg, hgrid⟩ : ∃ g : ℤ, 0 < g ∧ (10 : ℚ) ^ finer = 10 ^ places * (2 * g) := by
    obtain ⟨k, rfl⟩ := Nat.exists_eq_add_of_lt hplaces
    refine ⟨5 * 10 ^ k, by positivity, ?_⟩
    push_cast
    ring
  have hscaled : |roundPlaces halfEven finer q| * 10 ^ places =
      halfEven (|q| * 10 ^ places * (2 * g)) / (2 * g) := by
    rw [abs_roundPlaces_halfEven, hgrid, ← mul_assoc]
    field_simp
  have hsize : halfUp (|roundPlaces halfEven finer q| * 10 ^ places) =
      halfUp (|q| * 10 ^ places) := by
    rw [hscaled]
    refine halfUp_halfEven_div hg fun hup k hk => ?_
    rw [← hscaled] at hup hk
    exact hraised (lt_of_mul_lt_mul_right hup (hten places).le) ⟨k, hk⟩
  by_cases hzero : roundPlaces halfEven finer q = 0
  · -- the number is so small that it comes to zero either way
    have hnone : halfUp (|q| * 10 ^ places) = 0 := by
      rw [← hsize, hzero, halfUp_eq_iff]
      norm_num
    simp only [roundPlaces.eq_def halfUp, hsize, hnone, Int.cast_zero, zero_div, mul_zero]
  · simp only [roundPlaces.eq_def halfUp, hsize, roundPlaces_halfEven_neg_iff hzero]

namespace Decimal

variable {a q : Decimal}

/-! ### Rounding decimals -/

theorem ten_pow_pos (k : Nat) : 0 < 10 ^ k :=
  Nat.pow_pos (by decide)

/-- A decimal counted in units of a place that is not coarser than its last one. -/
theorem toRat_mul_pow {p : Nat} (h : a.places ≤ p) :
    a.toRat * 10 ^ p = (a.mantissa * 10 ^ (p - a.places) : ℤ) := by
  obtain ⟨k, rfl⟩ := Nat.exists_eq_add_of_le h
  rw [Decimal.toRat, Nat.add_sub_cancel_left, pow_add]
  push_cast
  field_simp

/-- Rounding a decimal rounds its value. -/
theorem toRat_round (a : Decimal) (places : Nat) :
    (a.round places).toRat = roundPlaces halfUp places a.toRat := by
  have hvalue := roundPlaces_div halfUp_div a.mantissa (ten_pow_pos a.places) places
  rw [Nat.cast_pow, Nat.cast_ofNat] at hvalue
  rw [toRat.eq_def a, hvalue, round]
  split
  · next hfew =>
    -- there is nothing to round, only places to add
    have hsplit : 10 ^ places = 10 ^ (places - a.places) * 10 ^ a.places := by
      rw [← Nat.pow_add, Nat.sub_add_cancel hfew]
    have hround : roundDivUp (a.mantissa.natAbs * 10 ^ places) (10 ^ a.places) =
        a.mantissa.natAbs * 10 ^ (places - a.places) := by
      rw [hsplit, ← Nat.mul_assoc, roundDivUp_mul_right _ (ten_pow_pos _)]
    have hself : signFactor (decide (a.mantissa < 0)) * a.mantissa.natAbs = a.mantissa := by
      rw [← cast_signed, signed_natAbs]
    have hden : (10 : ℚ) ^ places = 10 ^ (places - a.places) * 10 ^ a.places := by
      exact_mod_cast hsplit
    rw [toRat, toRat, hround, cast_signed, Nat.cast_mul, ← mul_assoc, hself, hden]
    push_cast
    field_simp
  · next hmany =>
    have hsplit : 10 ^ a.places = 10 ^ (a.places - places) * 10 ^ places := by
      rw [← Nat.pow_add, Nat.sub_add_cancel (by omega)]
    rw [hsplit, roundDivUp_mul_mul_right (ten_pow_pos _)]

/-- A decimal is a rational rounded to the most places, up to some number of them, at which it takes
less than 96 bits. -/
structure IsFitted (exact : ℚ) (places : Nat) (q : Decimal) : Prop where
  /-- There are at most so many places. -/
  places_le : q.places ≤ places
  /-- The decimal takes less than 96 bits. -/
  room : |q.toRat| * 10 ^ q.places < mantissaBound
  /-- The rational is rounded to its places, a tie going to the even digit. -/
  value : q.toRat = roundPlaces halfEven q.places exact
  /-- More places would take more bits. -/
  most : ∀ p, q.places < p → p ≤ places →
    (mantissaBound : ℚ) ≤ |roundPlaces halfEven p exact| * 10 ^ p

/-- What fits is the fraction in the most places that there is room for. -/
theorem isFitted_of_fit? {n : Int} {d places : Nat} (hd : 0 < d) (h : fit? n d places = some q) :
    IsFitted (n / d) places q := by
  have hsize : ∀ p, |roundPlaces halfEven p ((n : ℚ) / d)| * 10 ^ p =
      (roundDivEven (n.natAbs * 10 ^ p) d : Nat) := by
    intro p
    have hpos : (10 : ℚ) ^ p ≠ 0 := by positivity
    rw [roundPlaces_div halfEven_div n hd, toRat, cast_signed, mul_div_assoc, abs_mul,
      abs_signFactor, one_mul, abs_of_nonneg (by positivity), div_mul_cancel₀ _ hpos]
  -- what fits at the first try has the most places of all
  have hfirst : ∀ p, roundDivEven (n.natAbs * 10 ^ p) d < mantissaBound →
      IsFitted (n / d) p
        ⟨signed (decide (n < 0)) (roundDivEven (n.natAbs * 10 ^ p) d), p⟩ := by
    intro p hroom
    have hvalue := (roundPlaces_div halfEven_div n hd p).symm
    refine ⟨Nat.le_refl p, ?_, hvalue, fun more hmore hle => absurd hle (Nat.not_le.2 hmore)⟩
    rw [hvalue, hsize]
    exact_mod_cast hroom
  induction places with
  | zero =>
    rw [fit?_eq] at h
    split at h
    · next hroom =>
      obtain rfl := Option.some.inj h
      exact hfirst 0 hroom
    · cases h
  | succ places ih =>
    rw [fit?_eq] at h
    split at h
    · next hroom =>
      obtain rfl := Option.some.inj h
      exact hfirst (places + 1) hroom
    · next hnone =>
      have hfitted := ih h
      refine ⟨Nat.le_succ_of_le hfitted.places_le, hfitted.room, hfitted.value,
        fun p hp hplaces => ?_⟩
      -- the most places of all have just been tried
      rcases Nat.lt_or_eq_of_le hplaces with hlt | rfl
      · exact hfitted.most p hp (Nat.le_of_lt_succ hlt)
      · rw [hsize]
        exact_mod_cast Nat.le_of_not_lt hnone

namespace IsFitted

variable {exact : ℚ} {places kept : Nat}

/-- What has no more places than the result is fitted as it is. -/
theorem toRat_eq (h : IsFitted exact places q) {k : ℤ} (hk : exact * 10 ^ q.places = k) :
    q.toRat = exact := by
  rw [h.value, roundPlaces_of_intCast halfEven_intCast hk]

/-- A rational is fitted in one way, as to its value. -/
theorem toRat_unique {r : Decimal} (hq : IsFitted exact places q) (hr : IsFitted exact places r) :
    q.toRat = r.toRat := by
  have hsame : q.places = r.places := by
    rcases Nat.lt_trichotomy q.places r.places with hlt | heq | hlt
    · exact absurd (hq.most _ hlt hr.places_le) (not_le.2 (hr.value ▸ hr.room))
    · exact heq
    · exact absurd (hr.most _ hlt hq.places_le) (not_le.2 (hq.value ▸ hq.room))
  rw [hq.value, hr.value, hsame]

/-- A decimal within its bounds is fitted as it is. -/
theorem toRat_eq_of_proper {a : Decimal} (h : IsFitted a.toRat maxPlaces q) (ha : a.Proper) :
    q.toRat = a.toRat := by
  refine h.toRat_eq (toRat_mul_pow ?_)
  by_contra hfew
  have hmost := h.most _ (not_le.1 hfew) ha.places
  rw [roundPlaces_of_intCast halfEven_intCast (toRat_mul_pow (Nat.le_refl _)), abs_toRat_mul_pow]
    at hmost
  exact absurd ha.size (not_lt.2 (by exact_mod_cast hmost))

/-- A size with room for some places and one unit more is fitted in at least so many places. -/
theorem le_places (h : IsFitted exact places q) {p : Nat} (hp : p ≤ places)
    (hroom : |exact| * 10 ^ p + 1 ≤ mantissaBound) : p ≤ q.places := by
  by_contra hfew
  have hmost := h.most p (Nat.lt_of_not_le hfew) hp
  have hpos : (10 : ℚ) ^ p ≠ 0 := by positivity
  rw [abs_roundPlaces_halfEven, div_mul_cancel₀ _ hpos] at hmost
  linarith [halfEven_le_add_half (|exact| * 10 ^ p)]

/-- What is fitted in more places than are kept is rounded to these once, unless it has been raised
to a midpoint. -/
theorem toRat_round_of_lt (h : IsFitted exact places q) (hkept : kept < q.places)
    (hraised : |exact| < |q.toRat| → ¬IsMidpoint kept |q.toRat|) :
    (q.round kept).toRat = roundPlaces halfUp kept exact := by
  rw [h.value] at hraised
  rw [toRat_round, h.value, roundPlaces_roundPlaces hkept hraised]

/-- What is fitted in no more places than are kept is not rounded any more. -/
theorem toRat_round_of_le (h : IsFitted exact places q) (hkept : q.places ≤ kept) :
    (q.round kept).toRat = roundPlaces halfEven q.places exact := by
  rw [round, if_pos hkept, h.value]

/-- A fraction with a small denominator is not raised to a midpoint: it is not as near to one as the
last place is. -/
theorem not_isMidpoint {n : ℤ} {parts : Nat} (h : IsFitted (n / parts) places q)
    (hparts : 0 < parts) (hfew : parts * 10 ^ kept < 10 ^ q.places)
    (hup : |(n / parts : ℚ)| < |q.toRat|) : ¬IsMidpoint kept |q.toRat| := by
  rintro ⟨k, hk⟩
  have hpos : (0 : ℚ) < parts := Nat.cast_pos.2 hparts
  have hten : (0 : ℚ) < 10 ^ q.places := by positivity
  obtain ⟨v, hv⟩ : ∃ v : ℚ, |(n / parts : ℚ)| = v := ⟨_, rfl⟩
  have hsize : v * parts = (|n| : ℤ) := by
    rw [← hv, abs_div, abs_of_pos hpos, div_mul_cancel₀ _ hpos.ne', Int.cast_abs]
  -- what is fitted is larger by half a unit of its last place at most
  have hnear : (|q.toRat| - v) * 10 ^ q.places ≤ 1 / 2 := by
    have hround := halfEven_le_add_half (v * 10 ^ q.places)
    rw [h.value, abs_roundPlaces_halfEven, hv, sub_mul, div_mul_cancel₀ _ hten.ne']
    linarith
  -- counted in half units of a part of the places kept, it is larger by a whole number
  obtain ⟨m, hm⟩ : ∃ m : ℤ, (m : ℚ) = 2 * ((|q.toRat| - v) * (parts * 10 ^ kept)) := by
    refine ⟨(2 * k + 1) * parts - 2 * 10 ^ kept * |n|, ?_⟩
    push_cast at hsize ⊢
    linear_combination (2 * 10 ^ kept : ℚ) * hsize - (2 * parts : ℚ) * hk
  have hlarger : 0 < |q.toRat| - v := sub_pos.2 (hv ▸ hup)
  have hone : (1 : ℚ) ≤ m := by
    refine Int.cast_one_le_of_pos (Int.cast_pos.1 (?_ : (0 : ℚ) < m))
    rw [hm]
    positivity
  have hless : (|q.toRat| - v) * (parts * 10 ^ kept) < (|q.toRat| - v) * 10 ^ q.places :=
    mul_lt_mul_of_pos_left (by exact_mod_cast hfew) hlarger
  linarith

end IsFitted

/-! ### Quotients -/

/-- Zeros at the end of the places are worth nothing. -/
theorem toRat_trim (mantissa : Int) (places : Nat) :
    (trim mantissa places).toRat = (⟨mantissa, places⟩ : Decimal).toRat := by
  induction places generalizing mantissa with
  | zero => rfl
  | succ places ih =>
    rw [trim]
    split
    · next hzero =>
      have htens : (mantissa : ℚ) = (mantissa / 10 : ℤ) * 10 := by
        exact_mod_cast (Int.ediv_mul_cancel (Int.dvd_of_emod_eq_zero hzero)).symm
      rw [ih, toRat, toRat, htens, pow_succ, mul_div_mul_right _ _ (by norm_num)]
    · rfl

/-- **A quotient** is worth the rational quotient, fitted in at most 28 places, however many of
these it keeps. -/
theorem exists_divide?_eq (ha : a.Proper) {n : Nat} (hn : 0 < n) :
    ∃ q r, a.divide? n = some q ∧ IsFitted (a.toRat / n) maxPlaces r ∧ q.toRat = r.toRat := by
  obtain ⟨r, hr⟩ := exists_fit?_eq ha hn
  have hexact : a.toRat / n = (a.mantissa : ℚ) / ((n * 10 ^ a.places : Nat) : ℚ) := by
    rw [toRat, Nat.cast_mul, Nat.cast_pow, Nat.cast_ofNat, div_div, mul_comm]
  have hfitted : IsFitted (a.toRat / n) maxPlaces r :=
    hexact ▸ isFitted_of_fit? (Nat.mul_pos hn (ten_pow_pos _)) hr
  by_cases hwhole : a.mantissa % n = 0
  · -- the quotient comes out at the places of the decimal
    have hne : (n : ℚ) ≠ 0 := Nat.cast_ne_zero.2 hn.ne'
    have hparts : (a.mantissa : ℚ) = (a.mantissa / n : ℤ) * n := by
      exact_mod_cast (Int.ediv_mul_cancel (Int.dvd_of_emod_eq_zero hwhole)).symm
    have hvalue : (⟨a.mantissa / n, a.places⟩ : Decimal).toRat = a.toRat / n := by
      rw [toRat.eq_def a, hparts, div_right_comm, mul_div_cancel_right₀ _ hne]
      rfl
    have hproper : (⟨a.mantissa / n, a.places⟩ : Decimal).Proper :=
      ⟨ha.places, (Int.natAbs_ediv_le_natAbs ..).trans_lt ha.size⟩
    refine ⟨_, r, by rw [divide?, if_pos hwhole], hfitted, ?_⟩
    exact ((hvalue ▸ hfitted).toRat_eq_of_proper hproper).symm
  · refine ⟨trim r.mantissa r.places, r, ?_, hfitted, toRat_trim _ _⟩
    rw [divide?, if_neg hwhole, hr, Option.map_some]

end Decimal

end CampusQuery
