import CampusQuery.Execution.Aggregate
import CampusQuery.Proofs.WordReading
import Mathlib.Algebra.BigOperators.Group.List.Basic
import Mathlib.Data.List.Induction

/-!
# Sums in decimal

A decimal has at most 28 places, so all decimals are whole numbers of `10 ^ -28`
(`Decimal.scaled`). The same decimal can be kept with more or fewer places. A sum has those of the
term that has more of them, or fewer if it needs more than 96 bits, or those of the other term if
one is zero.

A sum may have to be rounded when it needs more than 96 bits at the places of its terms. The sum of
a list is exact if it comes out as the sum of whole numbers (`Decimal.SumExact`); then its value
does not depend on the order of the list. All sums are exact in which every partial sum has room at
the most places of a term (`Decimal.sumExact_of_fits`).
-/

namespace CampusQuery

/-! ### Rounding up at a tie -/

theorem roundDivUp_mul_mul_right {n d k : Nat} (hk : 0 < k) :
    roundDivUp (n * k) (d * k) = roundDivUp n d := by
  have hup : 2 * (n * k) + d * k = (2 * n + d) * k := by
    rw [Nat.add_mul, Nat.mul_assoc]
  have hdown : 2 * (d * k) = 2 * d * k := (Nat.mul_assoc ..).symm
  rw [roundDivUp, roundDivUp, hup, hdown, Nat.mul_div_mul_right _ _ hk]

/-- A fraction that is whole is its own rounding. -/
theorem roundDivUp_mul_right (n : Nat) {d : Nat} (hd : 0 < d) : roundDivUp (n * d) d = n := by
  have hone := roundDivUp_mul_mul_right (n := n) (d := 1) hd
  rw [Nat.one_mul] at hone
  rw [hone, roundDivUp]
  omega

namespace Decimal

variable {a b r : Decimal}

@[simp] theorem natAbs_signed (negative : Bool) (size : Nat) :
    (signed negative size).natAbs = size := by
  cases negative <;> simp [signed]

@[simp] theorem signed_natAbs (i : Int) : signed (decide (i < 0)) i.natAbs = i := by
  unfold signed
  split <;> simp only [decide_eq_true_eq] at * <;> omega

/-! ### Fitting -/

/-- The first try is at the most places. -/
theorem fit?_eq (n : Int) (d places : Nat) : fit? n d places =
    if roundDivEven (n.natAbs * 10 ^ places) d < mantissaBound then
      some ⟨signed (decide (n < 0)) (roundDivEven (n.natAbs * 10 ^ places) d), places⟩
    else match places with
      | 0 => none
      | places + 1 => fit? n d places := by
  cases places with
  | zero => rw [fit?, Nat.pow_zero, Nat.mul_one]
  | succ places => rw [fit?]

/-- A decimal within its bounds. -/
structure Proper (a : Decimal) : Prop where
  /-- It has at most 28 places. -/
  places : a.places ≤ maxPlaces
  /-- Its digits take less than 96 bits. -/
  size : a.mantissa.natAbs < mantissaBound

/-- What fits has no more places than are tried, and its digits take less than 96 bits. -/
theorem bounds_of_fit? {n : Int} {d places : Nat} (h : fit? n d places = some r) :
    r.places ≤ places ∧ r.mantissa.natAbs < mantissaBound := by
  induction places with
  | zero =>
    rw [fit?] at h
    split at h
    · next hfits =>
      obtain rfl := Option.some.inj h
      exact ⟨Nat.le_refl _, (natAbs_signed _ _).symm ▸ hfits⟩
    · exact nomatch h
  | succ places ih =>
    rw [fit?] at h
    split at h
    · next hfits =>
      obtain rfl := Option.some.inj h
      exact ⟨Nat.le_refl _, (natAbs_signed _ _).symm ▸ hfits⟩
    · obtain ⟨hplaces, hsize⟩ := ih h
      exact ⟨Nat.le_succ_of_le hplaces, hsize⟩

/-- A fraction that is a decimal within bounds fits as itself. -/
theorem fit?_pow {n : Int} (h : n.natAbs < mantissaBound) (places : Nat) :
    fit? n (10 ^ places) places = some ⟨n, places⟩ := by
  have hround : roundDivEven (n.natAbs * 10 ^ places) (10 ^ places) = n.natAbs :=
    roundDivEven_mul_right _ (Nat.pow_pos (by decide))
  rw [fit?_eq, hround, if_pos h, signed_natAbs]

/-- A fraction whose integer part is within bounds fits in some way. -/
theorem isSome_fit? {n : Int} {d : Nat} (h : roundDivEven n.natAbs d < mantissaBound)
    (places : Nat) : (fit? n d places).isSome = true := by
  induction places with
  | zero =>
    rw [fit?, if_pos h]
    rfl
  | succ places ih =>
    rw [fit?]
    split
    · rfl
    · exact ih

/-! ### Decimals as whole numbers -/

/-- The decimal times `10 ^ 28`. -/
def scaled (a : Decimal) : Int :=
  a.mantissa * 10 ^ (maxPlaces - a.places)

/-- A decimal divided by a positive whole number fits. -/
theorem exists_fit?_eq (h : a.Proper) {n : Nat} (hn : 0 < n) :
    ∃ q, fit? a.mantissa (n * 10 ^ a.places) maxPlaces = some q := by
  have hfits : roundDivEven a.mantissa.natAbs (n * 10 ^ a.places) < mantissaBound := by
    have hpos : 0 < n * 10 ^ a.places := Nat.mul_pos hn (Nat.pow_pos (by decide))
    -- a divisor of two or more leaves so much room that rounding up does no harm
    rcases Nat.lt_or_ge 1 (n * 10 ^ a.places) with hmore | hone
    · have hhalf : a.mantissa.natAbs / (n * 10 ^ a.places) ≤ a.mantissa.natAbs / 2 :=
        Nat.div_le_div_left hmore (by decide)
      have hround := roundDivEven_le a.mantissa.natAbs (n * 10 ^ a.places)
      have hsize := h.size
      rw [mantissaBound] at hsize ⊢
      omega
    · have heq : n * 10 ^ a.places = 1 := by omega
      have hself := roundDivEven_mul_right a.mantissa.natAbs (d := 1) (by decide)
      rw [Nat.mul_one] at hself
      rw [heq, hself]
      exact h.size
  exact Option.isSome_iff_exists.1 (isSome_fit? hfits maxPlaces)

theorem places_round_le (a : Decimal) (places : Nat) : (a.round places).places ≤ places := by
  rw [round]
  split
  · next hfew => exact hfew
  · exact Nat.le_refl _

/-- The places of a rounding are a matter of the places alone. -/
theorem places_round_congr (h : a.places = b.places) (places : Nat) :
    (a.round places).places = (b.round places).places := by
  rw [round, round, h]
  split
  · exact h
  · rfl

/-! ### Exact sums -/

theorem places_of_ofNumber? {x : Binary64} (h : ofNumber? x = some a) : a.places ≤ maxPlaces := by
  cases x with
  | nan => exact nomatch h
  | infinite negative => exact nomatch h
  | finite negative m =>
    simp only [ofNumber?] at h
    split at h
    · next hplaces =>
      split at h
      · obtain rfl := Option.some.inj h
        exact hplaces
      · exact nomatch h
    · obtain rfl := Option.some.inj h
      exact Nat.le_refl _

/-- The decimal of a number times `10 ^ 28`, zero if there is none. -/
def scaledOf (x : Binary64) : Int :=
  match ofNumber? x with
  | some d => d.scaled
  | none => 0

/-- The decimal sum of the numbers is their sum, without any rounding. -/
def SumExact (xs : List Binary64) : Prop :=
  ∃ d, sum? xs = some d ∧ d.scaled = (xs.map scaledOf).sum

/-- Every partial sum has room at the most places of a term. -/
structure Fits (places : Nat) (xs : List Binary64) : Prop where
  /-- There can be so many places. -/
  bound : places ≤ maxPlaces
  /-- All numbers have decimals with at most as many. -/
  terms : ∀ x ∈ xs, ∃ d, ofNumber? x = some d ∧ d.places ≤ places
  /-- Counted in the last place, every partial sum takes less than 96 bits. -/
  sums : ∀ ys, ys <+: xs →
    (ys.map scaledOf).sum.natAbs < mantissaBound * 10 ^ (maxPlaces - places)

theorem proper_zero : zero.Proper :=
  ⟨by decide, by decide⟩

theorem sum?_concat (xs : List Binary64) (x : Binary64) :
    sum? (xs ++ [x]) = (sum? xs).bind fun total => (ofNumber? x).bind total.add? := by
  rw [sum?, List.foldlM_append]
  simp only [List.foldlM_cons, List.foldlM_nil, bind_pure]
  rfl

theorem places_of_add? (h : a.add? b = some r) : r.places ≤ max a.places b.places := by
  rw [add?] at h
  split at h
  · obtain rfl := Option.some.inj h
    exact le_max_right _ _
  · split at h
    · obtain rfl := Option.some.inj h
      exact le_max_left _ _
    · exact (bounds_of_fit? h).1

/-- The last step of a sum. -/
theorem sum?_concat_eq_some_iff {xs : List Binary64} {x : Binary64} : sum? (xs ++ [x]) = some r ↔
    ∃ total d, sum? xs = some total ∧ ofNumber? x = some d ∧ total.add? d = some r := by
  simp only [sum?_concat, Option.bind_eq_some_iff]
  constructor
  · rintro ⟨total, htotal, d, hd, hr⟩
    exact ⟨total, d, htotal, hd, hr⟩
  · rintro ⟨total, d, htotal, hd, hr⟩
    exact ⟨total, htotal, d, hd, hr⟩

theorem places_of_sum? {xs : List Binary64} (h : sum? xs = some a) : a.places ≤ maxPlaces := by
  -- the sum is taken from the left, so the induction adds one more number at the end
  induction xs using List.reverseRecOn generalizing a with
  | nil =>
    obtain rfl : zero = a := Option.some.inj h
    exact proper_zero.places
  | append_singleton xs x ih =>
    obtain ⟨total, d, htotal, hd, h⟩ := sum?_concat_eq_some_iff.1 h
    exact (places_of_add? h).trans (max_le (ih htotal) (places_of_ofNumber? hd))

/-- A sum with room at its places is exact, and has those of both terms if none of them is zero. -/
theorem exists_add?_eq {places : Nat} (ha : a.places ≤ places) (hb : b.places ≤ places)
    (hplaces : places ≤ maxPlaces)
    (h : (a.scaled + b.scaled).natAbs < mantissaBound * 10 ^ (maxPlaces - places)) :
    ∃ c, a.add? b = some c ∧ c.places ≤ places ∧ c.scaled = a.scaled + b.scaled ∧
      (a.mantissa ≠ 0 → b.mantissa ≠ 0 → c.places = max a.places b.places) := by
  by_cases hazero : a.mantissa = 0
  · refine ⟨b, by rw [add?, if_pos hazero], hb, ?_, fun hne => absurd hazero hne⟩
    rw [scaled.eq_def a, hazero, Int.zero_mul, Int.zero_add]
  by_cases hbzero : b.mantissa = 0
  · refine ⟨a, by rw [add?, if_neg hazero, if_pos hbzero], ha, ?_, fun _ hne => absurd hbzero hne⟩
    rw [scaled.eq_def b, hbzero, Int.zero_mul, Int.add_zero]
  -- the sum is first tried at the places of that term which has more of them
  obtain ⟨p, hp⟩ : ∃ p, max a.places b.places = p := ⟨_, rfl⟩
  have hmax : p ≤ places := hp ▸ max_le ha hb
  -- both terms at the places of the sum
  have hterm : ∀ d : Decimal, d.places ≤ p →
      d.mantissa * 10 ^ (p - d.places) * 10 ^ (maxPlaces - p) = d.scaled := by
    intro d hd
    have hsplit : maxPlaces - d.places = (p - d.places) + (maxPlaces - p) := by omega
    rw [scaled, hsplit, Int.pow_add, Int.mul_assoc]
  have hsum := congrArg₂ (· + ·) (hterm a (hp ▸ le_max_left _ _)) (hterm b (hp ▸ le_max_right _ _))
  simp only [← Int.add_mul] at hsum
  obtain ⟨n, hn⟩ : ∃ n, a.mantissa * 10 ^ (p - a.places) + b.mantissa * 10 ^ (p - b.places) = n :=
    ⟨_, rfl⟩
  rw [hn] at hsum
  have hfits : n.natAbs < mantissaBound := by
    have hdown : 0 < 10 ^ (maxPlaces - p) := Nat.pow_pos (by decide)
    refine Nat.lt_of_mul_lt_mul_right (a := 10 ^ (maxPlaces - p)) ?_
    calc n.natAbs * 10 ^ (maxPlaces - p)
        = (a.scaled + b.scaled).natAbs := by
          rw [← hsum, Int.natAbs_mul, Int.natAbs_pow]
          rfl
      _ < mantissaBound * 10 ^ (maxPlaces - places) := h
      _ ≤ mantissaBound * 10 ^ (maxPlaces - p) :=
        Nat.mul_le_mul_left _ (Nat.pow_le_pow_right (by decide) (by omega))
  refine ⟨⟨n, p⟩, ?_, hmax, hsum, fun _ _ => hp.symm⟩
  simp only [add?, if_neg hazero, if_neg hbzero, hp, hn]
  exact fit?_pow hfits p

theorem Fits.of_prefix {places : Nat} {xs ys : List Binary64} (h : Fits places xs)
    (hys : ys <+: xs) : Fits places ys :=
  ⟨h.bound, fun y hy => h.terms y (hys.subset hy), fun zs hzs => h.sums zs (hzs.trans hys)⟩

/-- **A sum with room for every partial sum is exact**, and has no more places than its terms. -/
theorem exists_sum?_of_fits {places : Nat} {xs : List Binary64} (h : Fits places xs) :
    ∃ d, sum? xs = some d ∧ d.places ≤ places ∧ d.scaled = (xs.map scaledOf).sum := by
  induction xs using List.reverseRecOn with
  | nil => exact ⟨zero, rfl, Nat.zero_le _, rfl⟩
  | append_singleton xs x ih =>
    obtain ⟨total, htotal, hfew, hscaled⟩ := ih (h.of_prefix (List.prefix_append _ _))
    obtain ⟨d, hd, hterm⟩ := h.terms x (List.mem_append_right _ (List.mem_singleton_self x))
    have hof : scaledOf x = d.scaled := by rw [scaledOf, hd]
    have hall := h.sums _ List.prefix_rfl
    rw [List.map_append, List.sum_append, List.map_singleton, List.sum_singleton, hof,
      ← hscaled] at hall ⊢
    obtain ⟨c, hc, hplaces, hvalue, -⟩ := exists_add?_eq hfew hterm h.bound hall
    exact ⟨c, sum?_concat_eq_some_iff.2 ⟨total, d, htotal, hd, hc⟩, hplaces, hvalue⟩

theorem sumExact_of_fits {places : Nat} {xs : List Binary64} (h : Fits places xs) :
    SumExact xs := by
  obtain ⟨d, hd, -, hscaled⟩ := exists_sum?_of_fits h
  exact ⟨d, hd, hscaled⟩

end Decimal

end CampusQuery
