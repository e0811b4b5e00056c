import CampusQuery.Proofs.DecimalRounding
import CampusQuery.Proofs.NumberBits
import Mathlib.Algebra.Order.Floor.Semifield
import Mathlib.Data.Nat.Cast.Order.Field
import Mathlib.Data.Nat.Log

/-!
# The number nearest to a rational

Every operation that yields a number computes exactly and rounds once. What it rounds is a rational,
and `Binary64.IsNearest` says that a number comes from one in this way: the sum of two numbers, a
number times a fraction, an integer, the text of a number. But for the sign of zero there is one
such number (`Binary64.IsNearest.eq`).

Three laws describe the rounding, whatever it is used for. No other number is nearer to the rational
(`Binary64.IsNearest.abs_sub_le`), larger rationals have larger numbers (`Binary64.IsNearest.mono`),
and the number is off by at most `2 ^ -53` of the rational, or by half of the least positive number
near zero (`Binary64.IsNearest.error`). The second law also keeps results finite that are between
finite numbers (`Binary64.IsNearest.isFinite_of_abs_le`).

The laws are proved for counts of units first. The gap of the numbers is a power of two, and where
two fractions have different gaps a power of two lies between them, which both roundings respect.
-/

namespace CampusQuery

/-! ### Whole numbers -/

theorem abs_halfEven_sub_le_half (q : ℚ) : |(halfEven q : ℚ) - q| ≤ 1 / 2 := by
  have hfloor := Int.floor_add_fract q
  have hnonneg := Int.fract_nonneg q
  have hlt := Int.fract_lt_one q
  rw [halfEven, abs_le]
  split_ifs with hbelow habove
  · constructor <;> linarith
  · push_cast
    constructor <;> linarith
  · -- both neighbours of a tie are one half away
    have hhalf : Int.fract q = 1 / 2 := le_antisymm (not_lt.1 habove) (not_lt.1 hbelow)
    rcases Int.emod_two_eq_zero_or_one ⌊q⌋ with heven | hodd
    · rw [heven]
      push_cast
      constructor <;> linarith
    · rw [hodd]
      push_cast
      constructor <;> linarith

/-- No whole number is nearer. -/
theorem abs_halfEven_sub_le (q : ℚ) (k : ℤ) : |(halfEven q : ℚ) - q| ≤ |(k : ℚ) - q| := by
  by_contra hnearer
  have hhalf := abs_halfEven_sub_le_half q
  -- two whole numbers within one half, one of them strictly, are the same
  have hapart : |((halfEven q - k : ℤ) : ℚ)| < 1 := by
    calc |((halfEven q - k : ℤ) : ℚ)|
        = |((halfEven q : ℚ) - q) - ((k : ℚ) - q)| := by
          push_cast
          congr 1
          ring
      _ ≤ |(halfEven q : ℚ) - q| + |(k : ℚ) - q| := abs_sub _ _
      _ < 1 := by linarith [not_le.1 hnearer]
  have hsame : halfEven q - k = 0 := by
    rw [← Int.cast_abs] at hapart
    exact Int.abs_lt_one_iff.1 (by exact_mod_cast hapart)
  rw [sub_eq_zero] at hsame
  exact hnearer (by rw [hsame])

theorem halfEven_mono {q r : ℚ} (h : q ≤ r) : halfEven q ≤ halfEven r := by
  by_contra hless
  have hstep : (halfEven r : ℚ) + 1 ≤ halfEven q := by exact_mod_cast not_le.1 hless
  have hq := abs_le.1 (abs_halfEven_sub_le_half q)
  have hr := abs_le.1 (abs_halfEven_sub_le_half r)
  -- otherwise both would be the same tie
  obtain rfl : q = r := by linarith
  exact hless le_rfl

/-! ### Counts of units -/

theorem spacing_dvd_spacing {n n' : Nat} (h : n ≤ n') : spacing n ∣ spacing n' := by
  rw [spacing, spacing, Nat.log2_eq_log_two, Nat.log2_eq_log_two]
  exact Nat.pow_dvd_pow 2 (Nat.sub_le_sub_right (Nat.log_mono_right h) 52)

/-- The gap is one, or a number has at least 53 bits of it. -/
theorem spacing_eq_one_or_le (n : Nat) : spacing n = 1 ∨ 2 ^ (52 : Nat) * spacing n ≤ n := by
  obtain ⟨j, hspacing, -, hlow⟩ := exists_spacing n
  rcases hlow with rfl | hlow
  · exact .inl hspacing
  · exact .inr (hspacing ▸ hlow)

/-- A power of two with 53 bits of a gap has that gap. -/
theorem spacing_pow_mul_spacing (n : Nat) :
    spacing (2 ^ (52 : Nat) * spacing n) = spacing n := by
  obtain ⟨j, hj, -, -⟩ := exists_spacing n
  rw [hj, ← Nat.pow_add, spacing, Nat.log2_two_pow, Nat.add_sub_cancel_left]

variable {n d n' d' : Nat}

/-- Rounding to significant bits is rounding to a whole number of gaps. -/
theorem cast_roundSignificant (n : Nat) (hd : 0 < d) : (roundSignificant n d : ℚ) =
    halfEven (n / d / spacing (n / d)) * spacing (n / d) := by
  have hgap : 0 < d * spacing (n / d) := Nat.mul_pos hd (spacing_pos _)
  have hround := halfEven_div n hgap
  rw [Nat.cast_mul, ← div_div] at hround
  rw [roundSignificant, hround, Nat.cast_mul, Int.cast_natCast]

theorem two_mul_abs_roundSignificant_sub_le (n : Nat) (hd : 0 < d) :
    2 * |(roundSignificant n d : ℚ) - n / d| ≤ spacing (n / d) := by
  have hgap : (0 : ℚ) < spacing (n / d) := Nat.cast_pos.2 (spacing_pos _)
  have hhalf := abs_halfEven_sub_le_half (n / d / spacing (n / d))
  have hsplit : (roundSignificant n d : ℚ) - n / d =
      (halfEven (n / d / spacing (n / d)) - n / d / spacing (n / d)) * spacing (n / d) := by
    rw [cast_roundSignificant n hd, sub_mul, div_mul_cancel₀ _ hgap.ne']
  rw [hsplit, abs_mul, abs_of_pos hgap]
  linarith [mul_le_mul_of_nonneg_right hhalf hgap.le]

/-- No whole number of gaps is nearer to the fraction. -/
theorem abs_roundSignificant_sub_le_mul (n : Nat) (hd : 0 < d) (k : Nat) :
    |(roundSignificant n d : ℚ) - n / d| ≤ |((k * spacing (n / d) : Nat) : ℚ) - n / d| := by
  have hgap : (0 : ℚ) < spacing (n / d) := Nat.cast_pos.2 (spacing_pos _)
  have hsplit : ∀ c : ℚ, c * spacing (n / d) - n / d =
      (c - n / d / spacing (n / d)) * spacing (n / d) := by
    intro c
    rw [sub_mul, div_mul_cancel₀ _ hgap.ne']
  have hnearest := abs_halfEven_sub_le (n / d / spacing (n / d)) k
  rw [cast_roundSignificant n hd, Nat.cast_mul, hsplit, hsplit, abs_mul, abs_mul]
  exact mul_le_mul_of_nonneg_right (by exact_mod_cast hnearest) (abs_nonneg _)

/-- **No number is nearer to the fraction.** -/
theorem abs_roundSignificant_sub_le {k : Nat} (hk : Representable k) (hd : 0 < d) :
    |(roundSignificant n d : ℚ) - n / d| ≤ |(k : ℚ) - n / d| := by
  by_cases hdvd : spacing (n / d) ∣ k
  · obtain ⟨c, rfl⟩ := hdvd
    rw [Nat.mul_comm]
    exact abs_roundSignificant_sub_le_mul n hd c
  · -- a number between whole gaps is below a power of two that the fraction is not below
    have habove : 2 ^ (52 : Nat) * spacing (n / d) ≤ n / d := by
      refine (spacing_eq_one_or_le (n / d)).resolve_left fun hone => hdvd ?_
      rw [hone]
      exact Nat.one_dvd k
    have hbelow : k < 2 ^ (52 : Nat) * spacing (n / d) := by
      by_contra hmore
      have hgap := spacing_dvd_spacing (not_lt.1 hmore)
      rw [spacing_pow_mul_spacing] at hgap
      exact hdvd (Nat.dvd_trans hgap hk.1)
    have hfloor : ((n / d : Nat) : ℚ) ≤ n / d := Nat.cast_div_le
    have hpower : ((2 ^ (52 : Nat) * spacing (n / d) : Nat) : ℚ) ≤ n / d :=
      le_trans (Nat.cast_le.2 habove) hfloor
    have hless : (k : ℚ) ≤ (2 ^ (52 : Nat) * spacing (n / d) : Nat) := Nat.cast_le.2 hbelow.le
    have hnearest := abs_roundSignificant_sub_le_mul n hd (2 ^ (52 : Nat))
    rw [abs_of_nonpos (sub_nonpos.2 hpower), neg_sub] at hnearest
    calc |(roundSignificant n d : ℚ) - n / d|
        ≤ n / d - (2 ^ (52 : Nat) * spacing (n / d) : Nat) := hnearest
      _ ≤ n / d - k := by linarith
      _ ≤ |(k : ℚ) - n / d| := by
        rw [abs_sub_comm]
        exact le_abs_self _

/-- **Larger fractions are rounded to larger counts.** -/
theorem roundSignificant_mono (hd : 0 < d) (hd' : 0 < d') (h : (n / d : ℚ) ≤ n' / d') :
    roundSignificant n d ≤ roundSignificant n' d' := by
  have hfloor : n / d ≤ n' / d' := by
    rw [← Nat.floor_div_eq_div (K := ℚ), ← Nat.floor_div_eq_div (K := ℚ)]
    exact Nat.floor_mono h
  obtain ⟨j, hj, hhigh, -⟩ := exists_spacing (n / d)
  obtain ⟨k, hk, -, hlow⟩ := exists_spacing (n' / d')
  have hjk : j ≤ k := by
    have hdvd := spacing_dvd_spacing hfloor
    rwa [hj, hk, Nat.pow_dvd_pow_iff_le_right (by decide)] at hdvd
  rcases Nat.eq_or_lt_of_le hjk with rfl | hless
  · -- with one gap it is rounding to whole numbers
    have hgap : (0 : ℚ) ≤ (2 ^ j : Nat) := Nat.cast_nonneg _
    rw [← Nat.cast_le (α := ℚ), cast_roundSignificant n hd, cast_roundSignificant n' hd', hj, hk]
    exact mul_le_mul_of_nonneg_right
      (Int.cast_le.2 (halfEven_mono (div_le_div_of_nonneg_right h hgap))) hgap
  · -- with different gaps there is a power of two between the fractions
    have hlow := hlow.resolve_left (by omega)
    rw [Nat.le_div_iff_mul_le hd', Nat.mul_assoc] at hlow
    rw [Nat.div_lt_iff_lt_mul hd, Nat.mul_assoc] at hhigh
    calc roundSignificant n d
        = roundDivEven n (d * 2 ^ j) * 2 ^ j := by rw [roundSignificant, hj]
      _ ≤ 2 ^ (53 : Nat) * 2 ^ j := by
        refine Nat.mul_le_mul_right _ (roundDivEven_le_of_lt ?_)
        rwa [Nat.mul_comm d]
      _ = 2 ^ (52 : Nat) * 2 ^ (j + 1) := by ring
      _ ≤ 2 ^ (52 : Nat) * 2 ^ k :=
        Nat.mul_le_mul_left _ (Nat.pow_le_pow_right (by decide) hless)
      _ ≤ roundDivEven n' (d' * 2 ^ k) * 2 ^ k := by
        refine Nat.mul_le_mul_right _ (le_roundDivEven (Nat.mul_pos hd' (Nat.two_pow_pos k)) ?_)
        rwa [Nat.mul_comm d']
      _ = roundSignificant n' d' := by rw [roundSignificant, hk]

/-- The gap is at most the fraction's part in `2 ^ 52`, unless it is one unit. -/
theorem spacing_le_div (h : spacing (n / d) ≠ 1) :
    (spacing (n / d) : ℚ) ≤ n / d / 2 ^ 52 := by
  have hmany := (spacing_eq_one_or_le (n / d)).resolve_left h
  have hfloor : ((n / d : Nat) : ℚ) ≤ n / d := Nat.cast_div_le
  have hcast : ((2 ^ (52 : Nat) * spacing (n / d) : Nat) : ℚ) ≤ (n / d : Nat) := Nat.cast_le.2 hmany
  push_cast at hcast
  rw [le_div_iff₀ (by positivity)]
  linarith

/-- **How far a fraction is from its count**: a part in `2 ^ 53`, or half a unit. -/
theorem abs_roundSignificant_sub_le_error (n : Nat) (hd : 0 < d) :
    |(roundSignificant n d : ℚ) - n / d| ≤ n / d / 2 ^ 53 + 1 / 2 := by
  have hnear := two_mul_abs_roundSignificant_sub_le n hd
  have hnonneg : (0 : ℚ) ≤ n / d := by positivity
  by_cases hone : spacing (n / d) = 1
  · rw [hone, Nat.cast_one] at hnear
    linarith [div_nonneg hnonneg (by positivity : (0 : ℚ) ≤ 2 ^ 53)]
  · have hgap := spacing_le_div hone
    linarith

/-- A whole count of units is off by a part in `2 ^ 53` at most. -/
theorem abs_roundSignificant_one_sub_le (n : Nat) :
    |(roundSignificant n 1 : ℚ) - n| ≤ n / 2 ^ 53 := by
  have hnear := two_mul_abs_roundSignificant_sub_le n (d := 1) (by decide)
  rw [Nat.cast_one, div_one] at hnear
  by_cases hone : spacing (n / 1) = 1
  · -- every count is a whole number of gaps of one unit
    have hself := roundDivEven_mul_right n (d := 1) (by decide)
    rw [Nat.mul_one] at hself
    rw [roundSignificant, hone, Nat.mul_one, Nat.mul_one, hself, sub_self, abs_zero]
    positivity
  · have hgap := spacing_le_div (n := n) (d := 1) hone
    rw [Nat.cast_one, div_one] at hgap
    linarith

/-! ### Rationals and the numbers nearest to them -/

theorem unit_pos : (0 : ℚ) < 2 ^ (-1074 : ℤ) :=
  zpow_pos two_pos _

/-- What all the units of one are worth. -/
theorem unitsPerOne_mul_unit : (unitsPerOne : ℚ) * 2 ^ (-1074 : ℤ) = 1 := by
  obtain ⟨k, hk⟩ : ∃ k : Nat, k = 1074 := ⟨_, rfl⟩
  have hexponent : (-1074 : ℤ) = -(k : ℤ) := by rw [hk]; rfl
  rw [unitsPerOne_eq hk, hexponent, zpow_neg, zpow_natCast, Nat.cast_pow, Nat.cast_ofNat,
    mul_inv_cancel₀ (by positivity)]

namespace Binary64

/-- The number is the one that a rational is rounded to. -/
def IsNearest (q : ℚ) (x : Binary64) : Prop :=
  ∃ (negative : Bool) (n d : Nat), 0 < d ∧
    q = signFactor negative * (n / d) * 2 ^ (-1074 : ℤ) ∧ x = nearest negative n d

variable {q r : ℚ} {x y z : Binary64}

theorem toRat_finite (negative : Bool) (m : Magnitude) :
    (finite negative m).toRat = signFactor negative * m.units * 2 ^ (-1074 : ℤ) := by
  cases negative <;> simp [toRat, signedUnits, signFactor]

theorem toRat_nearest {negative : Bool} {n d : Nat} (h : (nearest negative n d).isFinite = true) :
    (nearest negative n d).toRat =
      signFactor negative * roundSignificant n d * 2 ^ (-1074 : ℤ) := by
  rw [nearest] at h ⊢
  split at h
  · next hbound => rw [dif_pos hbound, toRat_finite]
  · cases h

/-- A result stays finite that is rounded from no more than a finite number. -/
theorem IsNearest.isFinite_of_abs_le (h : IsNearest q x) (hz : z.isFinite = true)
    (hq : |q| ≤ |z.toRat|) : x.isFinite = true := by
  obtain ⟨negative, n, d, hd, hvalue, hnumber⟩ := h
  cases z with
  | nan => cases hz
  | infinite negative' => cases hz
  | finite negative' m =>
    have hunit := unit_pos
    have hle : (n / d : ℚ) ≤ m.units / (1 : Nat) := by
      rw [hvalue, toRat_finite, abs_mul, abs_mul, abs_mul, abs_mul, abs_signFactor, abs_signFactor,
        one_mul, one_mul, mul_le_mul_iff_left₀ (abs_pos.2 hunit.ne'), Nat.abs_cast,
        abs_of_nonneg (by positivity)] at hq
      rwa [Nat.cast_one, div_one]
    have hself := m.representable.roundSignificant_eq (d := 1) (by decide)
    rw [Nat.mul_one] at hself
    have hbound : roundSignificant n d < unitsBound :=
      calc roundSignificant n d
          ≤ roundSignificant m.units 1 := roundSignificant_mono hd (by decide) hle
        _ = m.units := hself
        _ < unitsBound := m.representable.2
    rw [hnumber, nearest, dif_pos hbound]
    rfl

/-- **No number is nearer.** -/
theorem IsNearest.abs_sub_le (h : IsNearest q x) (hx : x.isFinite = true)
    (hz : z.isFinite = true) : |x.toRat - q| ≤ |z.toRat - q| := by
  obtain ⟨negative, n, d, hd, hvalue, hnumber⟩ := h
  rw [hnumber] at hx ⊢
  rw [hvalue, toRat_nearest hx]
  cases z with
  | nan => cases hz
  | infinite negative' => cases hz
  | finite negative' m =>
    have hfactor : ∀ (s : Bool) (a b : ℚ),
        |signFactor s * a * 2 ^ (-1074 : ℤ) - signFactor s * b * 2 ^ (-1074 : ℤ)| =
          |a - b| * 2 ^ (-1074 : ℤ) := by
      intro s a b
      rw [← sub_mul, ← mul_sub, abs_mul, abs_mul, abs_signFactor, one_mul,
        abs_of_pos unit_pos]
    have hunit := unit_pos.le
    rw [toRat_finite, hfactor]
    by_cases hsign : negative' = negative
    · rw [hsign, hfactor]
      exact mul_le_mul_of_nonneg_right (abs_roundSignificant_sub_le m.representable hd) hunit
    · -- between a number of the other sign and the rational there is zero
      have hzero : Representable 0 := by
        rw [← Nat.zero_mul unitsPerOne]
        exact representable_whole (Nat.zero_le _)
      have hopposite : signFactor negative' * (m.units : ℚ) =
          signFactor negative * -(m.units : ℚ) := by
        cases negative <;> cases negative' <;> simp [signFactor] at hsign ⊢
      rw [hopposite, hfactor]
      refine mul_le_mul_of_nonneg_right ?_ hunit
      have hnonneg : (0 : ℚ) ≤ n / d := by positivity
      have hunits : (0 : ℚ) ≤ m.units := Nat.cast_nonneg _
      calc |(roundSignificant n d : ℚ) - n / d|
          ≤ |((0 : Nat) : ℚ) - n / d| := abs_roundSignificant_sub_le hzero hd
        _ = n / d := by rw [Nat.cast_zero, zero_sub, abs_neg, abs_of_nonneg hnonneg]
        _ ≤ |-(m.units : ℚ) - n / d| := by
          rw [abs_of_nonpos (by linarith)]
          linarith

@[simp] theorem isFinite_negate (x : Binary64) : x.negate.isFinite = x.isFinite := by
  cases x <;> rfl

@[simp] theorem toRat_negate (x : Binary64) : x.negate.toRat = -x.toRat := by
  cases x with
  | nan => simp [negate, toRat, signedUnits]
  | infinite negative => simp [negate, toRat, signedUnits]
  | finite negative m => cases negative <;> simp [negate, toRat, signedUnits]

theorem negate_nearest (negative : Bool) (n d : Nat) :
    (nearest negative n d).negate = nearest (!negative) n d := by
  rw [nearest, nearest]
  split <;> rfl

/-- Rounding does not depend on the sign. -/
theorem IsNearest.negate (h : IsNearest q x) : IsNearest (-q) x.negate := by
  obtain ⟨negative, n, d, hd, hvalue, hnumber⟩ := h
  have hsign : signFactor (!negative) = -signFactor negative := by
    cases negative <;> simp [signFactor]
  refine ⟨!negative, n, d, hd, ?_, ?_⟩
  · rw [hvalue, hsign, neg_mul, neg_mul]
  · rw [hnumber, negate_nearest]

/-- What is not negative is rounded to what is not negative. -/
theorem IsNearest.toRat_nonneg (h : IsNearest q x) (hx : x.isFinite = true) (hq : 0 ≤ q) :
    0 ≤ x.toRat := by
  have hzero : (ofInt 0).isFinite = true ∧ (ofInt 0).toRat = 0 := by decide +kernel
  by_contra hneg
  -- zero would be nearer than a negative number
  have hnear := h.abs_sub_le hx hzero.1
  rw [hzero.2, zero_sub, abs_neg, abs_of_nonneg hq, abs_of_nonpos (by linarith)] at hnear
  linarith

/-- Larger sizes are rounded to larger sizes. -/
theorem IsNearest.abs_toRat_mono (hx : IsNearest q x) (hy : IsNearest r y)
    (hxfinite : x.isFinite = true) (hyfinite : y.isFinite = true) (h : |q| ≤ |r|) :
    |x.toRat| ≤ |y.toRat| := by
  obtain ⟨negative, n, d, hd, hvaluex, hnumberx⟩ := hx
  obtain ⟨negative', n', d', hd', hvaluey, hnumbery⟩ := hy
  have hunit := unit_pos
  rw [hnumberx] at hxfinite ⊢
  rw [hnumbery] at hyfinite ⊢
  have hsize : ∀ (s : Bool) (k : ℚ), 0 ≤ k →
      |signFactor s * k * 2 ^ (-1074 : ℤ)| = k * 2 ^ (-1074 : ℤ) := by
    intro s k hk
    rw [abs_mul, abs_mul, abs_signFactor, one_mul, abs_of_nonneg hk, abs_of_pos hunit]
  rw [hvaluex, hvaluey, hsize _ _ (by positivity), hsize _ _ (by positivity)] at h
  rw [toRat_nearest hxfinite, toRat_nearest hyfinite, hsize _ _ (Nat.cast_nonneg _),
    hsize _ _ (Nat.cast_nonneg _)]
  refine mul_le_mul_of_nonneg_right (Nat.cast_le.2 ?_) hunit.le
  exact roundSignificant_mono hd hd' (le_of_mul_le_mul_right h hunit)

/-- **Larger rationals have larger numbers.** -/
theorem IsNearest.mono (hx : IsNearest q x) (hy : IsNearest r y) (hxfinite : x.isFinite = true)
    (hyfinite : y.isFinite = true) (h : q ≤ r) : x.toRat ≤ y.toRat := by
  have hneg : ∀ {v : ℚ} {z : Binary64}, IsNearest v z → z.isFinite = true → v ≤ 0 →
      z.toRat ≤ 0 := by
    intro v z hz hzfinite hv
    have hnonneg := hz.negate.toRat_nonneg (by rwa [isFinite_negate]) (neg_nonneg.2 hv)
    rwa [toRat_negate, neg_nonneg] at hnonneg
  rcases le_total 0 q with hq | hq
  · have hsize := hx.abs_toRat_mono hy hxfinite hyfinite (abs_le_abs_of_nonneg hq h)
    rwa [abs_of_nonneg (hx.toRat_nonneg hxfinite hq),
      abs_of_nonneg (hy.toRat_nonneg hyfinite (hq.trans h))] at hsize
  · have hxneg := hneg hx hxfinite hq
    rcases le_total 0 r with hr | hr
    · exact hxneg.trans (hy.toRat_nonneg hyfinite hr)
    · have hsize := hy.abs_toRat_mono hx hyfinite hxfinite (abs_le_abs_of_nonpos hr h)
      rwa [abs_of_nonpos (hneg hy hyfinite hr), abs_of_nonpos hxneg, neg_le_neg_iff] at hsize

/-- A rational has one number that is nearest in this sense, but for the sign of zero. -/
theorem IsNearest.eq (hx : IsNearest q x) (hy : IsNearest q y) (hq : q ≠ 0) : x = y := by
  have hunit := unit_pos
  -- a fraction with a sign has both in one way
  have hparts : ∀ {s : Bool} {n d : Nat}, q = signFactor s * (n / d) * 2 ^ (-1074 : ℤ) →
      s = decide (q < 0) ∧ (n / d : ℚ) = |q| / 2 ^ (-1074 : ℤ) := by
    intro s n d hvalue
    have hnonneg : (0 : ℚ) ≤ n / d * 2 ^ (-1074 : ℤ) := by positivity
    have hsize : |q| = n / d * 2 ^ (-1074 : ℤ) := by
      rw [hvalue, mul_assoc, abs_mul, abs_signFactor, one_mul, abs_of_nonneg hnonneg]
    refine ⟨?_, by rw [hsize, mul_div_cancel_right₀ _ hunit.ne']⟩
    have hpos : 0 < (n / d : ℚ) * 2 ^ (-1074 : ℤ) := hsize ▸ abs_pos.2 hq
    rw [hvalue, mul_assoc]
    generalize (n / d : ℚ) * 2 ^ (-1074 : ℤ) = size at hpos
    cases s with
    | false => simpa [signFactor] using hpos.le
    | true => simpa [signFactor] using hpos
  obtain ⟨negative, n, d, hd, hvalue, hnumber⟩ := hx
  obtain ⟨negative', n', d', hd', hvalue', hnumber'⟩ := hy
  obtain ⟨hsign, hsize⟩ := hparts hvalue
  obtain ⟨hsign', hsize'⟩ := hparts hvalue'
  have hfraction : (n / d : ℚ) = n' / d' := hsize.trans hsize'.symm
  have hcount : roundSignificant n d = roundSignificant n' d' :=
    le_antisymm (roundSignificant_mono hd hd' hfraction.le)
      (roundSignificant_mono hd' hd hfraction.ge)
  rw [hnumber, hnumber', hsign, hsign']
  simp only [nearest, hcount]

/-- How far the number is from the rational, by the count of units that it is rounded from. -/
theorem IsNearest.exists_error_eq (h : IsNearest q x) (hx : x.isFinite = true) :
    ∃ n d : Nat, 0 < d ∧ |q| = n / d * 2 ^ (-1074 : ℤ) ∧
      |x.toRat - q| = |(roundSignificant n d : ℚ) - n / d| * 2 ^ (-1074 : ℤ) := by
  obtain ⟨negative, n, d, hd, hvalue, hnumber⟩ := h
  rw [hnumber] at hx
  have hunit := unit_pos
  refine ⟨n, d, hd, ?_, ?_⟩
  · rw [hvalue, abs_mul, abs_mul, abs_signFactor, one_mul, abs_of_pos hunit,
      abs_of_nonneg (by positivity)]
  · rw [hnumber, toRat_nearest hx, hvalue, ← sub_mul, ← mul_sub, abs_mul, abs_mul,
      abs_signFactor, one_mul, abs_of_pos hunit]

/-- **How far the number is from the rational**: a part in `2 ^ 53` of it at most, or half of the
least positive number near zero. -/
theorem IsNearest.error (h : IsNearest q x) (hx : x.isFinite = true) :
    |x.toRat - q| ≤ |q| / 2 ^ 53 + 2 ^ (-1075 : ℤ) := by
  obtain ⟨n, d, hd, hsize, herror⟩ := h.exists_error_eq hx
  have hunit := unit_pos
  have hhalf : (2 : ℚ) ^ (-1075 : ℤ) = 1 / 2 * 2 ^ (-1074 : ℤ) := by
    rw [show (-1075 : ℤ) = -1 + -1074 by rfl, zpow_add₀ two_ne_zero]
    norm_num
  calc |x.toRat - q|
      ≤ (n / d / 2 ^ 53 + 1 / 2) * 2 ^ (-1074 : ℤ) := by
        rw [herror]
        exact mul_le_mul_of_nonneg_right (abs_roundSignificant_sub_le_error n hd) hunit.le
    _ = |q| / 2 ^ 53 + 2 ^ (-1075 : ℤ) := by
        rw [hsize, hhalf]
        ring

/-- Half of the least positive number is next to nothing. -/
theorem IsNearest.error_le (h : IsNearest q x) (hx : x.isFinite = true) :
    |x.toRat - q| ≤ |q| / 2 ^ 53 + 1 / 10 ^ 6 := by
  have hleast : (2 : ℚ) ^ (-1075 : ℤ) ≤ 1 / 10 ^ 6 :=
    calc (2 : ℚ) ^ (-1075 : ℤ) ≤ 2 ^ (-20 : ℤ) := zpow_le_zpow_right₀ one_le_two (by norm_num)
      _ ≤ 1 / 10 ^ 6 := by norm_num
  linarith [h.error hx]

/-- A whole count of units is off by a part in `2 ^ 53` at most. -/
theorem IsNearest.error_of_units (h : IsNearest q x) (hx : x.isFinite = true) {k : ℤ}
    (hk : q = k * 2 ^ (-1074 : ℤ)) : |x.toRat - q| ≤ |q| / 2 ^ 53 := by
  obtain ⟨n, d, hd, hsize, herror⟩ := h.exists_error_eq hx
  have hunit := unit_pos
  -- the fraction is a whole number, written in one way or another
  have hwhole : (n / d : ℚ) = k.natAbs := by
    rw [hk, abs_mul, abs_of_pos hunit] at hsize
    rw [← mul_right_cancel₀ hunit.ne' hsize, Nat.cast_natAbs, Int.cast_abs]
  have hsame : roundSignificant n d = roundSignificant k.natAbs 1 := by
    have hone : (n / d : ℚ) = (k.natAbs : ℚ) / (1 : Nat) := by rw [hwhole, Nat.cast_one, div_one]
    exact le_antisymm (roundSignificant_mono hd (by decide) hone.le)
      (roundSignificant_mono (by decide) hd hone.ge)
  calc |x.toRat - q|
      = |(roundSignificant k.natAbs 1 : ℚ) - k.natAbs| * 2 ^ (-1074 : ℤ) := by
        rw [herror, hsame, hwhole]
    _ ≤ k.natAbs / 2 ^ 53 * 2 ^ (-1074 : ℤ) :=
        mul_le_mul_of_nonneg_right (abs_roundSignificant_one_sub_le _) hunit.le
    _ = |q| / 2 ^ 53 := by
        rw [hsize, hwhole]
        ring

end Binary64

end CampusQuery
