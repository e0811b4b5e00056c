import CampusQuery.Number.Binary64

/-!
# The 64 bits of a number

A number is held in a word of 64 bits. From the top these are one for the sign, 11 for the exponent
and 52 for the fraction (`BitFields`). The largest exponent belongs to the values that are not
finite: an infinity has the fraction zero, and every other fraction stands for `nan`. So there are
many words for `nan` and one for each other number, the two zeros being different words.
-/

namespace CampusQuery

/-- The parts of the 64 bits of a number. -/
structure BitFields where
  /-- Whether the number has a negative sign. -/
  negative : Bool
  /-- The exponent, from zero. -/
  exponent : Nat
  /-- The bits below the leading one. -/
  fraction : Nat
  /-- The exponent has 11 bits. -/
  exponent_lt : exponent < 2 ^ (11 : Nat)
  /-- The fraction has 52 bits. -/
  fraction_lt : fraction < 2 ^ (52 : Nat)
deriving DecidableEq

/-- The bound is a power of two, with an exponent that is named so that no one computes it. -/
theorem exists_unitsBound_eq : ∃ k : Nat, k = 2098 ∧ unitsBound = 2 ^ k :=
  ⟨2098, rfl, by rw [unitsBound]⟩

namespace BitFields

/-- The parts of a word. -/
def ofWord (w : UInt64) : BitFields where
  negative := decide (2 ^ (63 : Nat) ≤ w.toNat)
  exponent := w.toNat / 2 ^ (52 : Nat) % 2 ^ (11 : Nat)
  fraction := w.toNat % 2 ^ (52 : Nat)
  exponent_lt := Nat.mod_lt _ (by decide)
  fraction_lt := Nat.mod_lt _ (by decide)

/-- The word with the given parts. -/
def toWord (b : BitFields) : UInt64 :=
  UInt64.ofNat (b.negative.toNat * 2 ^ (63 : Nat) + b.exponent * 2 ^ (52 : Nat) + b.fraction)

/-- The exponent of the values that are not finite. -/
def topExponent : Nat := 2047

/-- The units of a finite number with a given exponent and fraction. The exponent zero is that of
the numbers without a leading bit, which have the same gap as those of exponent one. -/
def units : Nat → Nat → Nat
  | 0, fraction => fraction
  | shift + 1, fraction => (2 ^ (52 : Nat) + fraction) * 2 ^ shift

theorem representable_units {exponent fraction : Nat} (hexponent : exponent < topExponent)
    (hfraction : fraction < 2 ^ (52 : Nat)) : Representable (units exponent fraction) := by
  obtain ⟨k, hk, hbound⟩ := exists_unitsBound_eq
  rw [Representable, hbound]
  unfold topExponent at hexponent
  cases exponent with
  | zero =>
    have hdvd := spacing_dvd_shift (m := fraction) (k := 0) (by omega)
    rw [Nat.pow_zero, Nat.mul_one] at hdvd
    refine ⟨hdvd, Nat.lt_of_lt_of_le hfraction ?_⟩
    exact Nat.pow_le_pow_right (by decide) (by omega)
  | succ shift =>
    refine ⟨spacing_dvd_shift (by omega), ?_⟩
    -- there are 53 bits before the shift, and the largest shift leaves them below the bound
    calc (2 ^ (52 : Nat) + fraction) * 2 ^ shift
      _ < 2 ^ (53 : Nat) * 2 ^ shift :=
        Nat.mul_lt_mul_of_pos_right (by omega) (Nat.two_pow_pos shift)
      _ = 2 ^ (53 + shift) := (Nat.pow_add 2 53 shift).symm
      _ ≤ 2 ^ k := Nat.pow_le_pow_right (by decide) (by omega)

end BitFields

/-- A count of units that is a number has at most 2098 bits. -/
theorem Representable.log2_lt {n : Nat} (h : Representable n) : n.log2 < 2098 := by
  rcases Nat.eq_zero_or_pos n with rfl | hn
  · decide
  · obtain ⟨k, hk, hbound⟩ := exists_unitsBound_eq
    rw [← hk]
    exact (Nat.log2_lt (Nat.ne_of_gt hn)).2 (hbound ▸ h.2)

/-- The exponent of a finite number has 11 bits. -/
theorem Magnitude.exponent_lt (m : Magnitude) : m.units.log2 - 51 < 2 ^ (11 : Nat) := by
  have hlog := m.representable.log2_lt
  omega

namespace Binary64

/-- The number with the given parts. -/
def ofFields (b : BitFields) : Binary64 :=
  if h : b.exponent < BitFields.topExponent then
    .finite b.negative
      ⟨BitFields.units b.exponent b.fraction, BitFields.representable_units h b.fraction_lt⟩
  else if b.fraction = 0 then .infinite b.negative
  else .nan

/-- The parts of a number; of those for `nan` the ones with the first bit of the fraction. A finite
number has its bits above the gap as the fraction, the leading one taken off, and the exponent zero
if it has at most 52 bits. -/
def fields : Binary64 → BitFields
  | nan => ⟨false, BitFields.topExponent, 2 ^ (51 : Nat), by decide, by decide⟩
  | infinite s => ⟨s, BitFields.topExponent, 0, by decide, by decide⟩
  | finite s m =>
    ⟨s, m.units.log2 - 51, m.units / spacing m.units % 2 ^ (52 : Nat), m.exponent_lt,
      Nat.mod_lt _ (Nat.two_pow_pos 52)⟩

/-- The number that a word stands for. -/
def ofWord (w : UInt64) : Binary64 := ofFields (.ofWord w)

/-- The word of a number. -/
def toWord (x : Binary64) : UInt64 := x.fields.toWord

end Binary64

end CampusQuery
