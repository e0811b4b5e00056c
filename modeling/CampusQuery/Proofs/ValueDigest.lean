import CampusQuery.Proofs.NumberBits
import CampusQuery.Proofs.ValueOrder
import CampusQuery.Value.Digest

/-!
# Order, equality and digest of values

Equality of values is the equality of their order, and digests follow it. Both are read here from
the words that numbers are held in (`EncodedValue`). Two values are equal if both are `nan`, in
whichever of its words, or infinities of one sign, or finite numbers of one value, such as the two
zeros, or the same string (`EncodedValue.beq_decode_iff`). Apart from `nan` and the zeros, equal
numbers have the same word (`Binary64.toWord_ofWord`), and for these two the digest has a word of
its own. So equal values have the same digest (`EncodedValue.digest_eq`), which is what a table of
values has to rely on (the instance of `LawfulHashable`).

`Value.order_laws` puts this beside the laws of the order.
-/

namespace CampusQuery

namespace Binary64

variable {b : BitFields}

theorem rank_of_isNaN (h : b.IsNaN) : (ofFields b).rank = 3 := by
  rw [ofFields_of_isNaN h]
  rfl

theorem rank_of_isInfinite (h : b.IsInfinite) :
    (ofFields b).rank = if b.negative then 0 else 2 := by
  rw [ofFields_of_isInfinite h]
  cases b.negative <;> rfl

theorem rank_of_isFinite (h : b.IsFinite) : (ofFields b).rank = 1 := by
  rw [ofFields_of_isFinite h]
  rfl

/-- Finite numbers have the same units if they have the same value. -/
theorem toRat_eq_iff {x y : Binary64} : x.toRat = y.toRat ↔ x.signedUnits = y.signedUnits := by
  have hunit : (2 : ℚ) ^ (-1074 : ℤ) ≠ 0 := zpow_ne_zero _ two_ne_zero
  rw [toRat, toRat, mul_left_inj' hunit, Int.cast_inj]

/-- Finite numbers stand in the order of their values. -/
theorem compare_ofFields_eq_lt_iff {c : BitFields} (hb : b.IsFinite) (hc : c.IsFinite) :
    (ofFields b).compare (ofFields c) = .lt ↔ b.toRat < c.toRat := by
  have hunit : (0 : ℚ) < 2 ^ (-1074 : ℤ) := zpow_pos two_pos _
  rw [compare, rank_of_isFinite hb, rank_of_isFinite hc, ← toRat_ofFields hb, ← toRat_ofFields hc,
    toRat, toRat, mul_lt_mul_iff_left₀ hunit, Int.cast_lt]
  exact Int.compare_eq_lt

/-- A number is arithmetically zero if it is finite and has no units. -/
theorem eq_zero_iff {x : Binary64} :
    x.eq (ofInt 0) = true ↔ x.isFinite = true ∧ x.signedUnits = 0 := by
  have hrank : (ofInt 0).rank = 1 := by decide +kernel
  have hunits : (ofInt 0).signedUnits = 0 := by decide +kernel
  rw [eq, isNaN_eq_rank, isNaN_eq_rank, isFinite_eq_rank]
  simp only [Bool.and_eq_true, beq_iff_eq, compare_eq_iff, hrank, hunits]
  simp
  omega

end Binary64

namespace EncodedValue

open Binary64

/-- Values that count as the same, said of what they are held in. -/
inductive Same : EncodedValue → EncodedValue → Prop where
  /-- Both are `nan`, of any sign and with any fraction. -/
  | nan {v w : UInt64} (hv : (BitFields.ofWord v).IsNaN) (hw : (BitFields.ofWord w).IsNaN) :
    Same (number v) (number w)
  /-- Both are the same infinity. -/
  | infinite {v w : UInt64} (hv : (BitFields.ofWord v).IsInfinite)
    (hw : (BitFields.ofWord w).IsInfinite)
    (hsign : (BitFields.ofWord v).negative = (BitFields.ofWord w).negative) :
    Same (number v) (number w)
  /-- Both are finite numbers of one value. -/
  | finite {v w : UInt64} (hv : (BitFields.ofWord v).IsFinite) (hw : (BitFields.ofWord w).IsFinite)
    (hvalue : (BitFields.ofWord v).toRat = (BitFields.ofWord w).toRat) :
    Same (number v) (number w)
  /-- Both are the same string. -/
  | text (s : String) : Same (text s) (text s)

/-- Numbers are equal if their words stand for the same. -/
theorem compare_ofWord_iff {v w : UInt64} :
    (Binary64.ofWord v).compare (Binary64.ofWord w) = .eq ↔ Same (number v) (number w) := by
  rw [compare_eq_iff, Binary64.ofWord, Binary64.ofWord]
  constructor
  · rintro ⟨hrank, hunits⟩
    -- the rank tells the kinds of words apart, and the signs of the infinities
    rcases (BitFields.ofWord v).kinds with hv | hv | hv <;>
      rcases (BitFields.ofWord w).kinds with hw | hw | hw
    case inl.inl => exact .nan hv hw
    case inr.inl.inr.inl =>
      rw [rank_of_isInfinite hv, rank_of_isInfinite hw] at hrank
      refine .infinite hv hw ?_
      cases hsign : (BitFields.ofWord v).negative <;>
        cases hsign' : (BitFields.ofWord w).negative <;> simp_all
    case inr.inr.inr.inr =>
      refine .finite hv hw ?_
      rw [← toRat_ofFields hv, ← toRat_ofFields hw, toRat_eq_iff, hunits]
    all_goals
      simp only [hv, hw, rank_of_isNaN, rank_of_isInfinite, rank_of_isFinite] at hrank
      grind
  · intro h
    cases h with
    | nan hv hw =>
      rw [ofFields_of_isNaN hv, ofFields_of_isNaN hw]
      exact ⟨rfl, rfl⟩
    | infinite hv hw hsign =>
      rw [ofFields_of_isInfinite hv, ofFields_of_isInfinite hw, hsign]
      exact ⟨rfl, rfl⟩
    | finite hv hw hvalue =>
      rw [← toRat_ofFields hv, ← toRat_ofFields hw, toRat_eq_iff] at hvalue
      rw [rank_of_isFinite hv, rank_of_isFinite hw]
      exact ⟨rfl, hvalue⟩

/-- **When values are equal.** -/
theorem beq_decode_iff {a b : EncodedValue} : (a.decode == b.decode) = true ↔ a.Same b := by
  cases a with
  | number v =>
    cases b with
    | number w =>
      change ((Binary64.ofWord v).compare (Binary64.ofWord w) == .eq) = true ↔ _
      rw [beq_iff_eq, compare_ofWord_iff]
    | text t => exact iff_of_false Bool.false_ne_true nofun
  | text s =>
    cases b with
    | number w => exact iff_of_false Bool.false_ne_true nofun
    | text t =>
      change (Ord.compare s t == .eq) = true ↔ _
      rw [beq_iff_eq, Std.LawfulEqOrd.compare_eq_iff_eq]
      constructor
      · rintro rfl
        exact .text s
      · rintro ⟨⟩
        rfl

/-- Equal numbers put the same word into a digest. -/
theorem digestWord_eq {v w : UInt64}
    (h : (Binary64.ofWord v).compare (Binary64.ofWord w) = .eq) :
    digestWord v = digestWord w := by
  obtain ⟨hrank, hunits⟩ := compare_eq_iff.1 h
  have hzero : (Binary64.ofWord v).eq (.ofInt 0) = (Binary64.ofWord w).eq (.ofInt 0) := by
    rw [Bool.eq_iff_iff, eq_zero_iff, eq_zero_iff, isFinite_eq_rank, isFinite_eq_rank, hrank,
      hunits]
  have hnan : (Binary64.ofWord v).isNaN = (Binary64.ofWord w).isNaN := by
    rw [isNaN_eq_rank, isNaN_eq_rank, hrank]
  rw [digestWord, digestWord, hzero, hnan]
  split
  · rfl
  · next hw =>
    split
    · rfl
    · next hnumber =>
      -- neither zero nor `nan`, so the number has one word
      have hnumber := Bool.eq_false_iff.2 hnumber
      have hsame : Binary64.ofWord v = Binary64.ofWord w :=
        eq_of_compare_of_ne_zero h fun hfinite hunits => hw (eq_zero_iff.2 ⟨hfinite, hunits⟩)
      rw [← Binary64.toWord_ofWord hnumber, ← hsame, Binary64.toWord_ofWord (hnan ▸ hnumber)]

/-- **Equal values have the same digest.** -/
theorem digest_eq {a b : EncodedValue} (h : (a.decode == b.decode) = true) :
    a.digest = b.digest := by
  cases a with
  | number v =>
    cases b with
    | number w => rw [digest, digest, digestWord_eq (beq_iff_eq.1 h)]
    | text t => exact nomatch h
  | text s =>
    cases b with
    | number w => exact nomatch h
    | text t =>
      obtain ⟨⟩ := beq_decode_iff.1 h
      rfl

end EncodedValue

/-- Just one of three things is the case. -/
def ExactlyOne (p q r : Prop) : Prop :=
  p ∧ ¬q ∧ ¬r ∨ ¬p ∧ q ∧ ¬r ∨ ¬p ∧ ¬q ∧ r

namespace Value

theorem decode_encode (v : Value) : v.encode.decode = v := by
  cases v with
  | number x => exact congrArg number x.ofWord_toWord
  | text s => rfl

instance : LawfulHashable Value where
  hash_eq a b h := by
    rw [← decode_encode a, ← decode_encode b] at h
    exact congrArg (hash : List DigestPart → UInt64) (EncodedValue.digest_eq h)

theorem compare_swap (a b : Value) : b.compare a = (a.compare b).swap :=
  Std.OrientedOrd.eq_swap (α := Value)

/-- Of two values one is less, or they are equal. -/
theorem compare_exactlyOne (a b : Value) :
    ExactlyOne (a.compare b = .lt) ((a == b) = true) (b.compare a = .lt) := by
  have hbeq : (a == b) = (a.compare b == .eq) := rfl
  rw [compare_swap a b, hbeq]
  cases a.compare b with
  | lt => exact .inl ⟨rfl, nofun, nofun⟩
  | eq => exact .inr (.inl ⟨nofun, rfl, nofun⟩)
  | gt => exact .inr (.inr ⟨nofun, nofun, rfl⟩)

theorem compare_nan_eq_lt {x : Binary64} (hx : x ≠ .nan) :
    (number x).compare (number .nan) = .lt := by
  cases x with
  | nan => exact absurd rfl hx
  | infinite negative => cases negative <;> rfl
  | finite negative m => rfl

/-- **The order of values.** It is total and transitive, with numbers by value before `nan` and
strings after all numbers, and the values that it makes equal are the same and share a digest. -/
theorem order_laws :
    (∀ a b : Value, ExactlyOne (a.compare b = .lt) ((a == b) = true) (b.compare a = .lt)) ∧
    (∀ a b : Value, b.compare a = (a.compare b).swap) ∧
    (∀ a b c : Value, a.compare b = .lt → b.compare c = .lt → a.compare c = .lt) ∧
    (∀ a b c : Value, a.compare b ≠ .gt → b.compare c ≠ .gt → a.compare c ≠ .gt) ∧
    (∀ (x : Binary64) (s : String), (number x).compare (text s) = .lt) ∧
    (∀ x : Binary64, x ≠ .nan → (number x).compare (number .nan) = .lt) ∧
    (∀ v w : UInt64, (BitFields.ofWord v).IsFinite → (BitFields.ofWord w).IsFinite →
      ((number (.ofWord v)).compare (number (.ofWord w)) = .lt ↔
        (BitFields.ofWord v).toRat < (BitFields.ofWord w).toRat)) ∧
    (∀ v : Value, ∃ e : EncodedValue, e.decode = v) ∧
    (∀ a b : EncodedValue, (a.decode == b.decode) = true ↔ a.Same b) ∧
    ∀ a b : EncodedValue, (a.decode == b.decode) = true → a.digest = b.digest := by
  refine ⟨compare_exactlyOne, compare_swap, fun a b c hab hbc => ?_, fun a b c hab hbc => ?_,
    fun x s => rfl, fun x hx => compare_nan_eq_lt hx,
    fun v w hv hw => Binary64.compare_ofFields_eq_lt_iff hv hw,
    fun v => ⟨v.encode, v.decode_encode⟩, fun a b => EncodedValue.beq_decode_iff,
    fun a b => EncodedValue.digest_eq⟩
  · exact @Std.TransCmp.lt_trans Value Ord.compare _ a b c hab hbc
  · have hac := Std.TransOrd.isLE_trans (α := Value) (Ordering.isLE_iff_ne_gt.2 hab)
      (Ordering.isLE_iff_ne_gt.2 hbc)
    exact Ordering.isLE_iff_ne_gt.1 hac

/-- The zeros are equal, though their words are not. -/
example : (EncodedValue.number 0).decode == (EncodedValue.number ((1 : UInt64) <<< 63)).decode := by
  decide +kernel

end Value

end CampusQuery
