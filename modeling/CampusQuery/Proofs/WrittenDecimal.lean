import CampusQuery.Proofs.DecimalSum
import CampusQuery.Proofs.NumeralText
import Mathlib.Algebra.BigOperators.Ring.Finset
import Mathlib.Algebra.BigOperators.Ring.List
import Mathlib.Algebra.Order.BigOperators.Group.List
import Mathlib.Algebra.Order.Field.Power
import Mathlib.Algebra.Order.Field.Rat
import Mathlib.Tactic.FieldSimp
import Mathlib.Tactic.Positivity
import Mathlib.Tactic.Ring

/-!
# The decimals that numbers are written as

The plain text of a finite number is a decimal without an exponent. What it is worth as a rational
(`Binary64.writtenValue`) and how many digits follow its point (`Binary64.writtenPlaces`) are read
off the text, and they are what the number enters decimal arithmetic with
(`Binary64.exists_ofNumber?_eq`), if it has at most 28 places and its digits take less than 96 bits.

A list of numbers has room for its sum if that is so for all of them and for all sums of the first
few of them, counted in the last place of any number (`Binary64.HasRoom`). The decimal sum of such a
list is the sum of what its numbers are written as (`Binary64.HasRoom.exists_sum?_eq`). Its places
are the most that a number is written with, unless a sum of the first few numbers cancels: after
that only the places of the numbers that follow count (`Binary64.HasRoom.places_sum?`).
-/

namespace CampusQuery

/-! ### Decimals as rationals -/

/-- The sign of a decimal text as a factor. -/
def signFactor (negative : Bool) : ℚ :=
  if negative then -1 else 1

@[simp] theorem abs_signFactor (negative : Bool) : |signFactor negative| = 1 := by
  cases negative <;> simp [signFactor]

/-- What a numeral is worth. -/
def Numeral.toRat (n : Numeral) : ℚ :=
  signFactor n.negative * (n.coefficient * 10 ^ n.exponent)

/-- What a decimal form is worth. -/
def DecimalForm.toRat (d : DecimalForm) : ℚ :=
  d.coefficient * 10 ^ d.exponent

/-- What a decimal is worth. -/
def Decimal.toRat (d : Decimal) : ℚ :=
  d.mantissa / 10 ^ d.places

theorem DecimalForm.toRat_nonneg (d : DecimalForm) : 0 ≤ d.toRat := by
  unfold toRat
  positivity

/-- Counted in its last place a decimal form is a whole number. -/
theorem DecimalForm.toRat_eq_div (d : DecimalForm) :
    d.toRat = (d.coefficient * 10 ^ d.exponent.toNat : Nat) / 10 ^ (-d.exponent).toNat := by
  have hten : (10 : ℚ) ≠ 0 := by norm_num
  have hexponent : d.exponent = (d.exponent.toNat : ℤ) - ((-d.exponent).toNat : ℤ) := by omega
  rw [toRat]
  conv_lhs => rw [hexponent]
  rw [zpow_sub₀ hten, zpow_natCast, zpow_natCast]
  push_cast
  ring

/-! ### Reading plain text -/

theorem digitsValue_append_zeros (digits : List Char) (k : Nat) :
    digitsValue (digits ++ List.replicate k '0') = digitsValue digits * 10 ^ k := by
  induction k with
  | zero => simp
  | succ k ih =>
    rw [List.replicate_succ', ← List.append_assoc, digitsValue, List.foldl_concat, ← digitsValue,
      ih, Nat.pow_succ, ← Nat.mul_assoc]
    rfl

/-- Digits with a point among them are read as they stand. -/
theorem readNumeral?_digits {whole fraction : List Char} (negative : Bool) (hne : whole ≠ [])
    (hwhole : ∀ c ∈ whole, c.isDigit = true) (hfraction : ∀ c ∈ fraction, c.isDigit = true) :
    readNumeral? negative (whole ++ fractionText fraction) =
      some ⟨negative, whole, fraction, none⟩ := by
  have hpoint : ∀ c ∈ (fractionText fraction).head?, c.isDigit = false := by
    intro c hc
    cases fraction with
    | nil => exact nomatch hc
    | cons d fraction =>
      obtain rfl : '.' = c := Option.some.inj hc
      rfl
  obtain ⟨hfront, hback⟩ := Prod.mk.inj (Token.splitDigits_append hwhole hpoint)
  have hnone : ¬(whole = [] ∧ fraction = []) := fun h => hne h.1
  rw [readNumeral?, hfront, hback]
  cases fraction with
  | nil => simp [fractionText, readExponent?, hne]
  | cons d fraction =>
    have hend : ∀ c ∈ ([] : List Char).head?, c.isDigit = false := by simp
    obtain ⟨htake, hdrop⟩ := Prod.mk.inj (Token.splitDigits_append hfraction hend)
    rw [List.append_nil] at htake hdrop
    simp [fractionText, readExponent?, hne, htake, hdrop]

namespace DecimalForm

/-- The plain text of a decimal has as many digits behind its point as the decimal has places, and
all digits together are the decimal counted in the last place. -/
theorem exists_plain_eq (d : DecimalForm) : ∃ whole fraction,
    d.plain = whole ++ fractionText fraction ∧ whole ≠ [] ∧
    (∀ c ∈ whole, c.isDigit = true) ∧ (∀ c ∈ fraction, c.isDigit = true) ∧
    fraction.length = (-d.exponent).toNat ∧
    digitsValue (whole ++ fraction) = d.coefficient * 10 ^ d.exponent.toNat := by
  have hdigits := d.digits_ne_nil
  have hdigit : ∀ c ∈ d.digits, c.isDigit = true := fun c => isDigit_of_mem_digits
  have hvalue : digitsValue d.digits = d.coefficient := digitsValue_toDigits _
  have hzero : ∀ k, ∀ c ∈ List.replicate k '0', c.isDigit = true := fun k c hc => by
    rw [List.eq_of_mem_replicate hc]
    rfl
  rw [plain]
  split
  · next hexp =>
    refine ⟨d.digits ++ List.replicate d.exponent.toNat '0', [], by simp [fractionText],
      by simp [hdigits], ?_, List.forall_mem_nil _, ?_, ?_⟩
    · exact fun c hc => (List.mem_append.1 hc).elim (hdigit c) (hzero _ c)
    · rw [List.length_nil]
      omega
    · rw [List.append_nil, digitsValue_append_zeros, hvalue]
  · next hexp =>
    have hpow : d.coefficient * 10 ^ d.exponent.toNat = d.coefficient := by
      have hup : d.exponent.toNat = 0 := by omega
      rw [hup, Nat.pow_zero, Nat.mul_one]
    dsimp only
    split
    · next hplaces =>
      have hdrop : d.digits.drop (d.digits.length - (-d.exponent).toNat) ≠ [] := by
        rw [Ne, List.drop_eq_nil_iff]
        omega
      refine ⟨_, _, by rw [fractionText_of_ne_nil hdrop], ?_,
        fun c hc => hdigit c (List.mem_of_mem_take hc),
        fun c hc => hdigit c (List.mem_of_mem_drop hc), ?_, ?_⟩
      · rw [Ne, List.take_eq_nil_iff]
        rintro (h | h)
        · omega
        · exact hdigits h
      · rw [List.length_drop]
        omega
      · rw [List.take_append_drop, hvalue, hpow]
    · -- the digits all stand behind the point, and behind zeros
      have hfraction :
          List.replicate ((-d.exponent).toNat - d.digits.length) '0' ++ d.digits ≠ [] :=
        fun h => hdigits (List.append_eq_nil_iff.1 h).2
      refine ⟨['0'], _, by rw [fractionText_of_ne_nil hfraction]; rfl, List.cons_ne_nil _ _,
        hzero 1, ?_, ?_, ?_⟩
      · exact fun c hc => (List.mem_append.1 hc).elim (hzero _ c) (hdigit c)
      · rw [List.length_append, List.length_replicate]
        omega
      · rw [← List.append_assoc, ← List.replicate_one, ← List.replicate_add,
          digitsValue_zeros_append, hvalue, hpow]

end DecimalForm

namespace Binary64

/-- The numeral that the plain text of a number is, none for a number that is not finite. -/
def written? (x : Binary64) : Option Numeral :=
  let (negative, body) := splitSign x.plainText
  readNumeral? negative body

/-- The rational that the plain text of a number writes. -/
def writtenValue (x : Binary64) : ℚ :=
  (x.written?.map Numeral.toRat).getD 0

/-- How many digits follow the point in the plain text of a number. -/
def writtenPlaces (x : Binary64) : Nat :=
  (x.written?.map fun n => n.fraction.length).getD 0

/-- A sign in front of a digit is read back. -/
theorem splitSign_signText (negative : Bool) {text : List Char}
    (h : ∀ c ∈ text.head?, c.isDigit = true) :
    splitSign (signText negative ++ text) = (negative, text) := by
  cases negative with
  | true => rfl
  | false =>
    change splitSign text = _
    unfold splitSign
    split
    · exact nomatch h '-' rfl
    · exact nomatch h '+' rfl
    · rfl

/-- The plain text of a number is read as its shortest form. -/
theorem exists_written?_eq (negative : Bool) (m : Magnitude) :
    ∃ n, (finite negative m).written? = some n ∧
      n.fraction.length = (-(m.shortest .up).exponent).toNat ∧
      n.toRat = signFactor negative * (m.shortest .up).toRat := by
  obtain ⟨whole, fraction, hplain, hne, hwhole, hfraction, hlength, hvalue⟩ :=
    (m.shortest .up).exists_plain_eq
  refine ⟨⟨negative, whole, fraction, none⟩, ?_, hlength, ?_⟩
  · have hhead : ∀ c ∈ (whole ++ fractionText fraction).head?, c.isDigit = true := by
      obtain ⟨d, rest, rfl⟩ := List.exists_cons_of_ne_nil hne
      intro c hc
      obtain rfl : d = c := Option.some.inj hc
      exact hwhole d (List.mem_cons_self ..)
    rw [written?, plainText, hplain, splitSign_signText negative hhead]
    exact readNumeral?_digits negative hne hwhole hfraction
  · rw [DecimalForm.toRat_eq_div, Numeral.toRat, Numeral.coefficient, Numeral.exponent, hvalue,
      hlength, Option.getD_none, zero_sub, zpow_neg, zpow_natCast, div_eq_mul_inv]

/-- What a finite number is written as, by its shortest form. -/
theorem written_finite (negative : Bool) (m : Magnitude) :
    (finite negative m).writtenPlaces = (-(m.shortest .up).exponent).toNat ∧
      (finite negative m).writtenValue = signFactor negative * (m.shortest .up).toRat := by
  obtain ⟨n, hn, hplaces, hvalue⟩ := exists_written?_eq negative m
  rw [writtenPlaces, writtenValue, hn]
  exact ⟨hplaces, hvalue⟩

end Binary64

/-! ### Entering decimal arithmetic -/

namespace Decimal

theorem cast_signed (negative : Bool) (size : Nat) :
    (signed negative size : ℚ) = signFactor negative * size := by
  cases negative <;> simp [signed, signFactor]

/-- Counted in its last place a decimal is its digits. -/
theorem abs_toRat_mul_pow (a : Decimal) : |a.toRat| * 10 ^ a.places = a.mantissa.natAbs := by
  have hten : (0 : ℚ) < 10 ^ a.places := by positivity
  rw [toRat, abs_div, abs_of_pos hten, div_mul_cancel₀ _ hten.ne', Nat.cast_natAbs, Int.cast_abs]

/-- The whole number that a decimal is on the finest grid. -/
theorem cast_scaled {d : Decimal} (h : d.places ≤ maxPlaces) :
    (d.scaled : ℚ) = d.toRat * 10 ^ maxPlaces := by
  have hsplit : (10 : ℚ) ^ maxPlaces = 10 ^ d.places * 10 ^ (maxPlaces - d.places) := by
    rw [← pow_add, Nat.add_sub_cancel' h]
  have hpos : (10 : ℚ) ^ d.places ≠ 0 := by positivity
  rw [scaled, toRat, hsplit]
  push_cast
  field_simp

end Decimal

namespace Binary64

open Decimal

variable {x : Binary64} {xs : List Binary64}

/-- A finite number with few places and digits has the decimal that it is written as. -/
theorem exists_ofNumber?_eq (hfinite : x.isFinite = true) (hplaces : x.writtenPlaces ≤ maxPlaces)
    (hsize : |x.writtenValue| * 10 ^ x.writtenPlaces < mantissaBound) :
    ∃ d, ofNumber? x = some d ∧ d.places = x.writtenPlaces ∧ d.toRat = x.writtenValue := by
  cases x with
  | nan => exact nomatch hfinite
  | infinite negative => exact nomatch hfinite
  | finite negative m =>
    obtain ⟨hwrittenPlaces, hwrittenValue⟩ := written_finite negative m
    rw [hwrittenPlaces] at hplaces hsize ⊢
    rw [hwrittenValue] at hsize ⊢
    generalize hform : m.shortest .up = form at *
    have hpos : (10 : ℚ) ^ (-form.exponent).toNat ≠ 0 := by positivity
    have hdigits : form.coefficient * 10 ^ form.exponent.toNat < mantissaBound := by
      rw [abs_mul, abs_signFactor, one_mul, abs_of_nonneg form.toRat_nonneg, form.toRat_eq_div,
        div_mul_cancel₀ _ hpos] at hsize
      exact_mod_cast hsize
    obtain ⟨d, hd, hdplaces, hmantissa⟩ : ∃ d, ofNumber? (finite negative m) = some d ∧
        d.places = (-form.exponent).toNat ∧
        d.mantissa = signed negative (form.coefficient * 10 ^ form.exponent.toNat) := by
      simp only [ofNumber?, hform, if_pos hplaces, if_pos hdigits]
      exact ⟨_, rfl, rfl, rfl⟩
    refine ⟨d, hd, hdplaces, ?_⟩
    rw [Decimal.toRat, hdplaces, hmantissa, cast_signed, form.toRat_eq_div, mul_div_assoc]

/-- The sum of decimals on the finest grid is that of what is written. -/
theorem cast_sum_scaledOf (h : ∀ x ∈ xs, ∃ d, ofNumber? x = some d ∧ d.places = x.writtenPlaces ∧
    d.toRat = x.writtenValue) :
    ((xs.map scaledOf).sum : ℚ) = (xs.map writtenValue).sum * 10 ^ maxPlaces := by
  have hterm : ∀ x ∈ xs, ((scaledOf x : Int) : ℚ) = x.writtenValue * 10 ^ maxPlaces := by
    intro x hx
    obtain ⟨d, hd, -, hvalue⟩ := h x hx
    rw [scaledOf, hd, ← hvalue]
    exact cast_scaled (places_of_ofNumber? hd)
  rw [← List.sum_map_mul_right, Int.cast_list_sum, List.map_map]
  exact congrArg List.sum (List.map_congr_left hterm)

/-! ### Lists with room for their sum -/

/-- The most places that a number of a list is written with. -/
def mostPlaces (xs : List Binary64) : Nat :=
  (xs.map writtenPlaces).foldr max 0

theorem writtenPlaces_le_mostPlaces (hx : x ∈ xs) : x.writtenPlaces ≤ mostPlaces xs :=
  List.le_max_of_le (List.mem_map_of_mem hx) (Nat.le_refl _)

theorem mostPlaces_le {places : Nat} (h : ∀ x ∈ xs, x.writtenPlaces ≤ places) :
    mostPlaces xs ≤ places :=
  List.max_le_of_forall_le _ _ (List.forall_mem_map.2 h)

theorem mostPlaces_of_perm {ys : List Binary64} (h : xs.Perm ys) :
    mostPlaces xs = mostPlaces ys :=
  le_antisymm (mostPlaces_le fun _ hx => writtenPlaces_le_mostPlaces (h.mem_iff.1 hx))
    (mostPlaces_le fun _ hx => writtenPlaces_le_mostPlaces (h.mem_iff.2 hx))

/-- There is room in decimals for the numbers of a list and for the sums of the first few of them,
all counted in the last place of any number. -/
structure HasRoom (xs : List Binary64) : Prop where
  /-- Every number is written as a decimal. -/
  finite : ∀ x ∈ xs, x.isFinite = true
  /-- No decimal has more than 28 places. -/
  places : ∀ x ∈ xs, x.writtenPlaces ≤ maxPlaces
  /-- Every decimal takes less than 96 bits. -/
  values : ∀ x ∈ xs, |x.writtenValue| * 10 ^ mostPlaces xs < mantissaBound
  /-- So does every partial sum. -/
  sums : ∀ ys, ys <+: xs → |(ys.map writtenValue).sum| * 10 ^ mostPlaces xs < mantissaBound

theorem HasRoom.ofNumber? (h : HasRoom xs) (hx : x ∈ xs) :
    ∃ d, Decimal.ofNumber? x = some d ∧ d.places = x.writtenPlaces ∧ d.toRat = x.writtenValue := by
  refine exists_ofNumber?_eq (h.finite x hx) (h.places x hx) (lt_of_le_of_lt ?_ (h.values x hx))
  have hpow : (10 : ℚ) ^ x.writtenPlaces ≤ 10 ^ mostPlaces xs :=
    pow_le_pow_right₀ (by norm_num) (writtenPlaces_le_mostPlaces hx)
  exact mul_le_mul_of_nonneg_left hpow (abs_nonneg _)

theorem HasRoom.fits (h : HasRoom xs) : Fits (mostPlaces xs) xs := by
  have hbound : mostPlaces xs ≤ maxPlaces := mostPlaces_le h.places
  refine ⟨hbound, fun x hx => ?_, fun ys hys => ?_⟩
  · obtain ⟨d, hd, hplaces, -⟩ := h.ofNumber? hx
    exact ⟨d, hd, hplaces ▸ writtenPlaces_le_mostPlaces hx⟩
  · -- both sides are counted on the finest grid, where the sum is a whole number
    have hsum := cast_sum_scaledOf fun y hy => h.ofNumber? (hys.subset hy)
    have hsplit : (10 : ℚ) ^ maxPlaces =
        10 ^ mostPlaces xs * 10 ^ (maxPlaces - mostPlaces xs) := by
      rw [← pow_add, Nat.add_sub_cancel' hbound]
    have hpos : (0 : ℚ) < 10 ^ (maxPlaces - mostPlaces xs) := by positivity
    have hgrid : (((ys.map scaledOf).sum.natAbs : Nat) : ℚ) <
        mantissaBound * 10 ^ (maxPlaces - mostPlaces xs) := by
      calc (((ys.map scaledOf).sum.natAbs : Nat) : ℚ)
          = |((ys.map scaledOf).sum : ℚ)| := by rw [Nat.cast_natAbs, Int.cast_abs]
        _ = |(ys.map writtenValue).sum| * 10 ^ mostPlaces xs *
              10 ^ (maxPlaces - mostPlaces xs) := by
            rw [hsum, abs_mul, abs_of_nonneg (by positivity : (0 : ℚ) ≤ 10 ^ maxPlaces), hsplit,
              mul_assoc]
        _ < mantissaBound * 10 ^ (maxPlaces - mostPlaces xs) :=
            mul_lt_mul_of_pos_right (h.sums ys hys) hpos
    exact_mod_cast hgrid

/-- The decimal sum of the first few numbers is that of what they are written as. -/
theorem HasRoom.exists_sum?_of_prefix (h : HasRoom xs) {ys : List Binary64} (hys : ys <+: xs) :
    ∃ d, sum? ys = some d ∧ d.places ≤ mostPlaces xs ∧ d.toRat = (ys.map writtenValue).sum := by
  obtain ⟨d, hd, hplaces, hscaled⟩ := exists_sum?_of_fits (h.fits.of_prefix hys)
  have hpos : (10 : ℚ) ^ maxPlaces ≠ 0 := by positivity
  refine ⟨d, hd, hplaces, mul_right_cancel₀ hpos ?_⟩
  rw [← cast_scaled (hplaces.trans (mostPlaces_le h.places)), hscaled]
  exact cast_sum_scaledOf fun x hx => h.ofNumber? (hys.subset hx)

/-- **The decimal sum of a list with room for it** is the sum of what the numbers are written
as. -/
theorem HasRoom.exists_sum?_eq (h : HasRoom xs) :
    ∃ d, sum? xs = some d ∧ d.Proper ∧ d.toRat = (xs.map writtenValue).sum := by
  obtain ⟨d, hd, hplaces, hvalue⟩ := h.exists_sum?_of_prefix List.prefix_rfl
  refine ⟨d, hd, ⟨hplaces.trans (mostPlaces_le h.places), ?_⟩, hvalue⟩
  have hsize : (d.mantissa.natAbs : ℚ) < mantissaBound :=
    calc (d.mantissa.natAbs : ℚ)
        = |(xs.map writtenValue).sum| * 10 ^ d.places := by rw [← abs_toRat_mul_pow, hvalue]
      _ ≤ |(xs.map writtenValue).sum| * 10 ^ mostPlaces xs :=
          mul_le_mul_of_nonneg_left (pow_le_pow_right₀ (by norm_num) hplaces) (abs_nonneg _)
      _ < mantissaBound := h.sums xs List.prefix_rfl
  exact_mod_cast hsize

/-! ### The places of a sum -/

/-- No sum of the first few numbers of a list cancels: if it is zero, all of them are. -/
def NeverCancels (xs : List Binary64) : Prop :=
  ∀ ys, ys <+: xs → (ys.map writtenValue).sum = 0 → ∀ y ∈ ys, y.writtenValue = 0

/-- Numbers that are not negative never cancel. -/
theorem neverCancels_of_nonneg (h : ∀ x ∈ xs, 0 ≤ x.writtenValue) : NeverCancels xs := by
  intro ys hys hsum y hy
  have hnonneg : ∀ v ∈ ys.map writtenValue, 0 ≤ v :=
    List.forall_mem_map.2 fun z hz => h z (hys.subset hz)
  exact List.all_zero_of_le_zero_le_of_sum_eq_zero hnonneg hsum (List.mem_map_of_mem hy)

/-- Zero is written without places. -/
theorem writtenPlaces_of_writtenValue_eq_zero (hfinite : x.isFinite = true)
    (h : x.writtenValue = 0) : x.writtenPlaces = 0 := by
  cases x with
  | nan => exact nomatch hfinite
  | infinite negative => exact nomatch hfinite
  | finite negative m =>
    obtain ⟨hplaces, hvalue⟩ := written_finite negative m
    have hform : (m.shortest .up).toRat = 0 := by
      rwa [hvalue, ← abs_eq_zero, abs_mul, abs_signFactor, one_mul, abs_eq_zero] at h
    have hzero : m.units = 0 := by
      by_contra hne
      have hpos := Magnitude.shortest_coefficient_pos (Nat.pos_of_ne_zero hne) .up
      rw [DecimalForm.toRat] at hform
      have hcoefficient := (mul_eq_zero.1 hform).resolve_right (zpow_ne_zero _ (by norm_num))
      exact hpos.ne' (by exact_mod_cast hcoefficient)
    rw [hplaces, Magnitude.shortest, if_pos hzero]
    rfl

theorem mostPlaces_concat (xs : List Binary64) (x : Binary64) :
    mostPlaces (xs ++ [x]) = max (mostPlaces xs) x.writtenPlaces := by
  refine le_antisymm (mostPlaces_le fun y hy => ?_) (max_le (mostPlaces_le fun y hy => ?_) ?_)
  · rcases List.mem_append.1 hy with hbefore | hlast
    · exact (writtenPlaces_le_mostPlaces hbefore).trans (le_max_left _ _)
    · rw [List.mem_singleton.1 hlast]
      exact le_max_right _ _
  · exact writtenPlaces_le_mostPlaces (List.mem_append_left _ hy)
  · exact writtenPlaces_le_mostPlaces (List.mem_append_right _ (List.mem_singleton_self x))

/-- The next sum has the places of both terms: if one of them is zero it has none. -/
theorem HasRoom.places_add? (h : HasRoom xs) {ys : List Binary64} (hys : ys ++ [x] <+: xs)
    {total d r : Decimal} (htotal : sum? ys = some total) (hd : Decimal.ofNumber? x = some d)
    (hr : total.add? d = some r) (hzero : total.mantissa = 0 → total.places = 0) :
    r.places = max total.places d.places := by
  have hbefore : ys <+: xs := (List.prefix_append _ _).trans hys
  have hx : x ∈ xs := hys.subset (List.mem_append_right _ (List.mem_singleton_self x))
  obtain ⟨d', hd', hplaces, hvalue⟩ := h.ofNumber? hx
  obtain rfl := Option.some.inj (hd.symm.trans hd')
  by_cases htotalzero : total.mantissa = 0
  · rw [add?, if_pos htotalzero] at hr
    rw [← Option.some.inj hr, hzero htotalzero, Nat.zero_max]
  by_cases hdzero : d.mantissa = 0
  · have hnone : x.writtenValue = 0 := by
      rw [← hvalue, Decimal.toRat, hdzero, Int.cast_zero, zero_div]
    rw [add?, if_neg htotalzero, if_pos hdzero] at hr
    rw [← Option.some.inj hr, hplaces,
      writtenPlaces_of_writtenValue_eq_zero (h.finite x hx) hnone, Nat.max_zero]
  · have hfits := h.fits.of_prefix hys
    obtain ⟨total', htotal', hfew, hscaled⟩ := exists_sum?_of_fits (h.fits.of_prefix hbefore)
    obtain rfl := Option.some.inj (htotal.symm.trans htotal')
    have hall := hfits.sums _ List.prefix_rfl
    have hof : scaledOf x = d.scaled := by rw [scaledOf, hd]
    rw [List.map_append, List.sum_append, List.map_singleton, List.sum_singleton, hof,
      ← hscaled] at hall
    obtain ⟨c, hc, -, -, hmost⟩ :=
      exists_add?_eq hfew (hplaces ▸ writtenPlaces_le_mostPlaces hx) hfits.bound hall
    obtain rfl := Option.some.inj (hr.symm.trans hc)
    exact hmost htotalzero hdzero

/-- **The places of a sum that never cancels** are the most that a number is written with. -/
theorem HasRoom.places_sum? (h : HasRoom xs) (hcancel : NeverCancels xs) {d : Decimal}
    (hd : sum? xs = some d) : d.places = mostPlaces xs := by
  -- the room is that for the whole list, of which the induction takes one more number each time
  have hprefix : ∀ ys, ys <+: xs → ∀ d, sum? ys = some d → d.places = mostPlaces ys := by
    intro ys
    induction ys using List.reverseRecOn with
    | nil =>
      intro _ d hd
      obtain rfl : zero = d := Option.some.inj hd
      rfl
    | append_singleton ys y ih =>
      intro hys d hd
      have hbefore : ys <+: xs := (List.prefix_append _ _).trans hys
      obtain ⟨total, a, htotal, ha, hadd⟩ := sum?_concat_eq_some_iff.1 hd
      have hplaces := ih hbefore total htotal
      have hzero : total.mantissa = 0 → total.places = 0 := by
        intro htotalzero
        obtain ⟨total', htotal', -, hvalue⟩ := h.exists_sum?_of_prefix hbefore
        obtain rfl := Option.some.inj (htotal.symm.trans htotal')
        rw [Decimal.toRat, htotalzero, Int.cast_zero, zero_div] at hvalue
        -- if nothing has been added so far, nothing with places has
        rw [hplaces, ← Nat.le_zero]
        exact mostPlaces_le fun z hz => (writtenPlaces_of_writtenValue_eq_zero
          (h.finite z (hbefore.subset hz)) (hcancel ys hbefore hvalue.symm z hz)).le
      obtain ⟨a', ha', haplaces, -⟩ := h.ofNumber?
        (hys.subset (List.mem_append_right _ (List.mem_singleton_self y)))
      obtain rfl := Option.some.inj (ha.symm.trans ha')
      rw [h.places_add? hys htotal ha hadd hzero, hplaces, haplaces, mostPlaces_concat]
  exact hprefix xs List.prefix_rfl d hd

end Binary64

end CampusQuery
