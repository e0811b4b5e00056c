import CampusQuery.Number.Shortest
import Mathlib.Tactic.Ring

/-!
# The rounding interval of a number

The fractions that round to a number form an interval around it. Its ends are half a gap away, a
quarter of a gap below a power of two, where the numbers are closer together, and the ends belong to
it when the number's last bit is even (`Magnitude.readsBack`). That this is exactly the interval of
the fractions that `Binary64.nearest` takes to the number is `Magnitude.readsBack_iff_nearest`.

The fraction and the number need not have the same gap: the fraction may lie beneath a power of two
that it is rounded to. So the gap at the fraction is found first, from the interval in one direction
and from the rounded number in the other; with the same gap on both sides the interval is that of
rounding to a whole number (`roundDivEven_eq_iff`).
-/

namespace CampusQuery

/-! ### Rounding to a whole number -/

/-- A fraction is rounded to the whole number within one half of it, at a tie to the even one. -/
theorem roundDivEven_eq_iff {n d q : Nat} (hd : 0 < d) : roundDivEven n d = q ↔
    2 * (q * d) ≤ 2 * n + d ∧ 2 * n ≤ 2 * (q * d) + d ∧
      (q % 2 = 1 → 2 * (q * d) ≠ 2 * n + d ∧ 2 * n ≠ 2 * (q * d) + d) := by
  have hn : n / d * d + n % d = n := Nat.div_add_mod' n d
  have hrest : n % d < d := Nat.mod_lt n hd
  have hlow := div_le_roundDivEven n d
  have hhigh := roundDivEven_le n d
  rcases lt_trichotomy q (n / d) with hq | rfl | hq
  · -- too small by one or more
    have hmul : (q + 1) * d ≤ n / d * d := Nat.mul_le_mul_right d hq
    rw [Nat.add_mul] at hmul
    omega
  · unfold roundDivEven
    split_ifs <;> omega
  · rcases Nat.lt_or_ge q (n / d + 2) with hq' | hq'
    · obtain rfl : q = n / d + 1 := by omega
      rw [Nat.add_mul]
      unfold roundDivEven
      split_ifs <;> omega
    · have hmul : (n / d + 2) * d ≤ q * d := Nat.mul_le_mul_right d hq'
      rw [Nat.add_mul] at hmul
      omega

theorem roundDivEven_le_of_lt {n d k : Nat} (h : n < k * d) : roundDivEven n d ≤ k := by
  have hdiv : n / d < k := Nat.div_lt_of_lt_mul (Nat.mul_comm k d ▸ h)
  exact Nat.le_trans (roundDivEven_le n d) hdiv

theorem le_roundDivEven {n d k : Nat} (hd : 0 < d) (h : k * d ≤ n) : k ≤ roundDivEven n d :=
  Nat.le_trans ((Nat.le_div_iff_mul_le hd).2 h) (div_le_roundDivEven n d)

/-- Rounding to a wider unit what lies below `2 ^ 53` units agrees with rounding to the unit at the
power of two alone, and there if the fraction is close enough. -/
theorem roundDivEven_wider {n g q k : Nat} (hg : 0 < g) (hn : n < 2 ^ (53 : Nat) * g)
    (hq : 2 ^ (52 : Nat) ≤ q) :
    (roundDivEven n (2 ^ k * g * 2) = q ∧
      (q = 2 ^ (52 : Nat) → 4 * (q * (2 ^ k * g * 2)) ≤ 4 * n + 2 ^ k * g * 2)) ↔
      roundDivEven n g = q * 2 ^ k * 2 := by
  rcases Nat.eq_zero_or_pos k with rfl | hk
  · rw [Nat.pow_zero, Nat.one_mul, Nat.mul_one]
    constructor
    · rintro ⟨hround, hnear⟩
      have hle := roundDivEven_le_of_lt (by omega : n < 2 ^ (52 : Nat) * (g * 2))
      obtain rfl : q = 2 ^ (52 : Nat) := by omega
      have hnear := hnear rfl
      rw [roundDivEven_eq_iff hg]
      omega
    · intro hround
      have hle := roundDivEven_le_of_lt hn
      obtain rfl : q = 2 ^ (52 : Nat) := by omega
      rw [roundDivEven_eq_iff hg] at hround
      rw [roundDivEven_eq_iff (by omega)]
      omega
  · -- twice as wide again, and the fraction is too far below
    have hpow : 2 ≤ 2 ^ k := Nat.pow_le_pow_right (n := 2) (by decide) hk
    have hunit : 2 * g ≤ 2 ^ k * g := Nat.mul_le_mul_right g hpow
    have hscale : q * 2 ≤ q * 2 ^ k := Nat.mul_le_mul_left q hpow
    refine iff_of_false (fun h => ?_) (fun h => ?_)
    · have hle := roundDivEven_le_of_lt (by omega : n < 2 ^ (51 : Nat) * (2 ^ k * g * 2))
      omega
    · have hle := roundDivEven_le_of_lt hn
      omega

/-! ### Gaps -/

/-- The gap at a count is a power of two, and the count has 53 bits of it unless the gap is the
smallest one. -/
theorem exists_spacing (n : Nat) : ∃ j, spacing n = 2 ^ j ∧ n < 2 ^ (53 : Nat) * 2 ^ j ∧
    (j = 0 ∨ 2 ^ (52 : Nat) * 2 ^ j ≤ n) := by
  refine ⟨n.log2 - 52, rfl, ?_, ?_⟩
  · rw [← Nat.pow_add]
    exact Nat.lt_of_lt_of_le Nat.lt_log2_self (Nat.pow_le_pow_right (by decide) (by omega))
  · rcases Nat.lt_or_ge 52 n.log2 with hlog | hlog
    · have hne : n ≠ 0 := by
        rintro rfl
        simp at hlog
      rw [← Nat.pow_add, Nat.add_sub_cancel' hlog.le]
      exact Or.inr (Nat.log2_self_le hne)
    · exact Or.inl (Nat.sub_eq_zero_of_le hlog)

namespace Magnitude

/-- A number is a whole number of its gaps, with 53 bits unless the gap is the smallest one. -/
theorem exists_scale (m : Magnitude) : ∃ q j, m.units = q * 2 ^ j ∧ spacing m.units = 2 ^ j ∧
    q < 2 ^ (53 : Nat) ∧ (j = 0 ∨ 2 ^ (52 : Nat) ≤ q) := by
  obtain ⟨j, hspacing, hhigh, hlow⟩ := exists_spacing m.units
  obtain ⟨q, hq⟩ := hspacing ▸ m.representable.1
  rw [Nat.mul_comm] at hq
  rw [hq] at hhigh hlow
  have hj : 0 < 2 ^ j := Nat.two_pow_pos j
  exact ⟨q, j, hq, hspacing, Nat.lt_of_mul_lt_mul_right hhigh,
    hlow.imp_right fun h => Nat.le_of_mul_le_mul_right h hj⟩

variable {m : Magnitude} {q j : Nat}

/-- The numbers below which the gap is half as wide. -/
theorem isPowerOfTwo_iff (hunits : m.units = q * 2 ^ j) (hspacing : spacing m.units = 2 ^ j) :
    (m.units = 2 ^ m.units.log2 ∧ 1 < spacing m.units) ↔ q = 2 ^ (52 : Nat) ∧ 0 < j := by
  have hj : 0 < 2 ^ j := Nat.two_pow_pos j
  rw [hspacing, Nat.one_lt_two_pow_iff, ← Nat.pos_iff_ne_zero]
  refine and_congr_left fun hpos => ?_
  have hlog : m.units.log2 = 52 + j := by
    have : m.units.log2 - 52 = j := Nat.pow_right_injective (Nat.le_refl 2) hspacing
    omega
  rw [hlog, hunits, Nat.pow_add, Nat.mul_left_inj hj.ne']

/-- The interval is that of rounding to whole gaps, cut off below a power of two. -/
theorem readsBack_iff_roundDivEven (hunits : m.units = q * 2 ^ j)
    (hspacing : spacing m.units = 2 ^ j) {n d g : Nat} (hg : 0 < g) (hgap : 2 ^ j * d = g) :
    m.readsBack n d = true ↔
      roundDivEven n g = q ∧ (q = 2 ^ (52 : Nat) ∧ 0 < j → 4 * (q * g) ≤ 4 * n + g) := by
  have hunits' : m.units * d = q * g := by rw [hunits, Nat.mul_assoc, hgap]
  have hincluded : m.endsIncluded = true ↔ q % 2 = 0 := by
    rw [endsIncluded, hspacing, hunits, Nat.mul_div_cancel _ (Nat.two_pow_pos j), beq_iff_eq]
  have hupper : m.upperEnd * d = 4 * (q * g) + 2 * g := by
    rw [upperEnd, hspacing, Nat.add_mul, Nat.mul_assoc, Nat.mul_assoc, hunits', hgap]
  have hlower : m.lowerEnd * d =
      if q = 2 ^ (52 : Nat) ∧ 0 < j then 4 * (q * g) - g else 4 * (q * g) - 2 * g := by
    rw [lowerEnd, if_congr (isPowerOfTwo_iff hunits hspacing) rfl rfl, hspacing, ite_mul,
      Nat.sub_mul, Nat.sub_mul, Nat.mul_assoc, Nat.mul_assoc, hunits', hgap]
  rw [roundDivEven_eq_iff hg, readsBack, hlower, hupper, if_congr hincluded rfl rfl]
  by_cases hpower : q = 2 ^ (52 : Nat) ∧ 0 < j
  · -- the last bit is even
    rw [if_pos hpower, if_pos (by omega)]
    simp only [Bool.and_eq_true, decide_eq_true_eq]
    omega
  · -- an odd number is at least one gap, so nothing is cut off at zero
    have hodd : q = 0 ∨ g ≤ q * g := (Nat.eq_zero_or_pos q).imp_right (Nat.le_mul_of_pos_left g)
    rw [if_neg hpower]
    split <;> simp only [Bool.and_eq_true, decide_eq_true_eq] <;> omega

/-- **The rounding interval.** A fraction is rounded to the number exactly if it lies in the
number's interval. -/
theorem readsBack_iff_roundSignificant {n d : Nat} (hd : 0 < d) :
    m.readsBack n d = true ↔ roundSignificant n d = m.units := by
  obtain ⟨q, j, hunits, hspacing, hq, hfull⟩ := m.exists_scale
  obtain ⟨i, hspacing', hhigh, hlow⟩ := exists_spacing (n / d)
  have hi : 0 < 2 ^ i * d := Nat.mul_pos (Nat.two_pow_pos i) hd
  have hj : 0 < 2 ^ j * d := Nat.mul_pos (Nat.two_pow_pos j) hd
  rw [Nat.div_lt_iff_lt_mul hd, Nat.mul_assoc] at hhigh
  rw [Nat.le_div_iff_mul_le hd, Nat.mul_assoc] at hlow
  rw [readsBack_iff_roundDivEven hunits hspacing hj rfl, roundSignificant, hspacing', hunits,
    Nat.mul_comm d]
  rcases lt_trichotomy i j with hij | rfl | hij
  · obtain ⟨k, rfl⟩ := Nat.exists_eq_add_of_lt hij
    have hgap : 2 ^ (i + k + 1) * d = 2 ^ k * (2 ^ i * d) * 2 := by ring
    have hscale : q * 2 ^ (i + k + 1) = q * 2 ^ k * 2 * 2 ^ i := by ring
    rw [hgap, hscale, Nat.mul_left_inj (Nat.two_pow_pos i).ne', and_iff_left (Nat.succ_pos _)]
    exact roundDivEven_wider hi hhigh (hfull.resolve_left (Nat.succ_ne_zero _))
  · rw [Nat.mul_left_inj (Nat.two_pow_pos i).ne', and_iff_left]
    rintro ⟨rfl, hpos⟩
    omega
  · -- a count as large as the fraction is has a wider gap than the number
    have hlow := hlow.resolve_left (by omega)
    have hround := le_roundDivEven hi hlow
    obtain ⟨k, rfl⟩ := Nat.exists_eq_add_of_lt hij
    have hscale : ∀ r, r * 2 ^ (j + k + 1) = r * 2 ^ k * 2 * 2 ^ j := fun r => by ring
    rw [hscale, Nat.mul_left_inj (Nat.two_pow_pos j).ne']
    have hgap : 2 ^ (j + k + 1) * d = 2 ^ k * (2 ^ j * d) * 2 := by ring
    refine iff_of_false (fun h => ?_) (fun h => ?_)
    · have hwide := Nat.le_mul_of_pos_left (2 ^ j * d) (Nat.two_pow_pos k)
      have hround' := le_roundDivEven hj (by omega : 2 ^ (53 : Nat) * (2 ^ j * d) ≤ n)
      omega
    · have hgrow := Nat.le_mul_of_pos_right (roundDivEven n (2 ^ (j + k + 1) * d))
        (Nat.two_pow_pos k)
      omega

/-- So it is the interval of the fractions that are taken to the number. -/
theorem readsBack_iff_nearest {n d : Nat} (hd : 0 < d) (negative : Bool) :
    m.readsBack n d = true ↔ Binary64.nearest negative n d = .finite negative m := by
  rw [readsBack_iff_roundSignificant hd]
  constructor
  · intro h
    have hbound : roundSignificant n d < unitsBound := h ▸ m.representable.2
    rw [Binary64.nearest, dif_pos hbound]
    cases m
    congr
  · intro h
    rw [Binary64.nearest] at h
    split at h
    · injection h with _ h
      rw [← h]
    · exact nomatch h

end Magnitude

end CampusQuery
