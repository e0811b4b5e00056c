import CampusQuery.Number.Rounding

/-!
# Binary64 numbers

The numbers that fields hold are the 64-bit binary floating-point numbers. Every finite one is a
whole count of *units* of `2 ^ -1074`, the least positive number, so a finite number is kept as a
sign and that count: comparisons and sums are then comparisons and sums of whole numbers, with
nothing lost. `Representable` says which counts are numbers of the format: those with at most 53
significant bits, below `2 ^ 1024`.

`Binary64.nearest` is the one way into the format. It takes a fraction of units to the nearest
number, a tie to the one with an even last bit, and an overflow to infinity; every other function
that yields a number computes exactly and rounds once through it.

The order `Binary64.compare` is total: the two zeros are equal, and the one value that is not a
number stands after all others. The comparisons `lt`, `gt` and `eq` are those of arithmetic, in
which nothing compares with `nan`.
-/

namespace CampusQuery

/-- Powers are the built-in ones, whatever more general power is also at hand. -/
instance (priority := 2000) builtinPow {α : Type} [NatPow α] : Pow α Nat := instPowNat

/-- How many units of `2 ^ -1074` make one. -/
def unitsPerOne : Nat := 2 ^ (1074 : Nat)

/-- The first count of units that is too large: that of `2 ^ 1024`. -/
def unitsBound : Nat := 2 ^ (2098 : Nat)

/-- The gap between neighbouring numbers at `n` units, as a count of units: `1` below `2 ^ 53`, and
twice as much with every further bit. -/
def spacing (n : Nat) : Nat := 2 ^ (n.log2 - 52)

/-- `n` units form a number: at most 53 significant bits, and less than `2 ^ 1024`. -/
def Representable (n : Nat) : Prop :=
  spacing n ∣ n ∧ n < unitsBound

/-- The size of a finite number, as a count of units. -/
structure Magnitude where
  /-- The number of units of `2 ^ -1074`. -/
  units : Nat
  /-- The count has at most 53 significant bits. -/
  representable : Representable units
deriving DecidableEq

/-- A 64-bit binary floating-point number. -/
inductive Binary64 where
  /-- The result of an operation that has none. -/
  | nan
  /-- One of the two infinities. -/
  | infinite (negative : Bool)
  /-- A finite number; zero has either sign. -/
  | finite (negative : Bool) (magnitude : Magnitude)
deriving DecidableEq

/-! ### Rounding into the format -/

/-- The fraction `n / d` rounded to 53 significant bits, a tie to the even last bit. Counts below
`2 ^ 53` keep all their bits, which is how the format loses precision near zero. -/
def roundSignificant (n d : Nat) : Nat :=
  roundDivEven n (d * spacing (n / d)) * spacing (n / d)

/-- A count of at most `2 ^ 53` shifted left has at most 53 significant bits. -/
theorem spacing_dvd_shift {m k : Nat} (hm : m ≤ 2 ^ (53 : Nat)) :
    spacing (m * 2 ^ k) ∣ m * 2 ^ k := by
  unfold spacing
  rcases Nat.eq_zero_or_pos m with rfl | hpos
  · simp
  have hne : m * 2 ^ k ≠ 0 := Nat.mul_ne_zero (by omega) (by simp)
  rcases Nat.lt_or_eq_of_le hm with hlt | rfl
  · have hlog : (m * 2 ^ k).log2 < 53 + k := by
      rw [Nat.log2_lt hne, Nat.pow_add]
      exact Nat.mul_lt_mul_of_pos_right hlt (Nat.two_pow_pos k)
    refine Nat.dvd_trans (Nat.pow_dvd_pow 2 (by omega : _ ≤ k)) ?_
    exact Nat.dvd_mul_left _ _
  · rw [← Nat.pow_add, Nat.log2_two_pow]
    exact Nat.pow_dvd_pow 2 (by omega)

/-- What rounding yields is a number of the format as long as it does not overflow. -/
theorem representable_roundSignificant {n d : Nat} (h : roundSignificant n d < unitsBound) :
    Representable (roundSignificant n d) := by
  refine ⟨?_, h⟩
  have hdiv : n / (d * spacing (n / d)) = n / d / spacing (n / d) := by
    rw [Nat.div_div_eq_div_mul]
  apply spacing_dvd_shift
  refine Nat.le_trans (roundDivEven_le _ _) (Nat.succ_le_of_lt ?_)
  rw [hdiv, spacing, Nat.div_lt_iff_lt_mul (Nat.two_pow_pos _), ← Nat.pow_add]
  refine Nat.lt_of_lt_of_le Nat.lt_log2_self ?_
  exact Nat.pow_le_pow_right (by decide) (by omega)

namespace Binary64

/-- The number nearest to `n / d` units with the given sign, infinite beyond the format. -/
def nearest (negative : Bool) (n d : Nat) : Binary64 :=
  if h : roundSignificant n d < unitsBound then
    .finite negative ⟨roundSignificant n d, representable_roundSignificant h⟩
  else
    .infinite negative

/-- The number nearest to an integer. -/
def ofInt (i : Int) : Binary64 :=
  nearest (decide (i < 0)) (i.natAbs * unitsPerOne) 1

/-- The number nearest to `coefficient * 10 ^ exponent`. A power of ten far outside the format is
not computed: beyond `10 ^ 400` every coefficient but zero overflows, and below `10 ^ -400` the
value is nearest to zero. -/
def ofDecimal (negative : Bool) (coefficient : Nat) (exponent : Int) : Binary64 :=
  if coefficient = 0 then nearest negative 0 1
  else if 400 < exponent then .infinite negative
  else if exponent + coefficient.log2 / 3 + 1 < -400 then nearest negative 0 1
  else nearest negative (coefficient * unitsPerOne * 10 ^ exponent.toNat) (10 ^ (-exponent).toNat)

/-! ### Parts -/

/-- Whether this is the value that is not a number. -/
def isNaN : Binary64 → Bool
  | nan => true
  | _ => false

/-- Whether the number is finite. -/
def isFinite : Binary64 → Bool
  | finite .. => true
  | _ => false

/-- A finite number as a signed count of units, in which both zeros are `0`; `0` also for the
values that are not finite. -/
def signedUnits : Binary64 → Int
  | finite true m => -(m.units : Int)
  | finite false m => m.units
  | _ => 0

/-- The number with the other sign. -/
def negate : Binary64 → Binary64
  | nan => nan
  | infinite negative => infinite (!negative)
  | finite negative m => finite (!negative) m

/-! ### Order -/

/-- The place of each kind of number in the order. -/
def rank : Binary64 → Nat
  | infinite true => 0
  | finite .. => 1
  | infinite false => 2
  | nan => 3

/-- The total order of numbers: by value, with `nan` equal to itself and after all others. -/
def compare (x y : Binary64) : Ordering :=
  (Ord.compare x.rank y.rank).then (Ord.compare x.signedUnits y.signedUnits)

instance : Ord Binary64 := ⟨compare⟩

/-- Arithmetic less-than, false when either side is not a number. -/
def lt (x y : Binary64) : Bool :=
  !x.isNaN && !y.isNaN && compare x y == .lt

/-- Arithmetic greater-than, false when either side is not a number. -/
def gt (x y : Binary64) : Bool :=
  !x.isNaN && !y.isNaN && compare x y == .gt

/-- Arithmetic equality: the zeros are equal and `nan` equals nothing. -/
def eq (x y : Binary64) : Bool :=
  !x.isNaN && !y.isNaN && compare x y == .eq

/-- The larger of two numbers, ignoring one that is not a number. -/
def maximum (x y : Binary64) : Binary64 :=
  if x.isNaN then y
  else if y.isNaN then x
  else if compare x y == .lt then y else x

/-- The smaller of two numbers, ignoring one that is not a number. -/
def minimum (x y : Binary64) : Binary64 :=
  if x.isNaN then y
  else if y.isNaN then x
  else if compare x y == .gt then y else x

/-! ### Arithmetic, each result rounded once -/

/-- The sum of two numbers. A sum of finite numbers that cancels is positive zero. -/
def add : Binary64 → Binary64 → Binary64
  | nan, _ => nan
  | _, nan => nan
  | infinite s, infinite t => if s = t then infinite s else nan
  | infinite s, finite .. => infinite s
  | finite .., infinite t => infinite t
  | finite s m, finite t n =>
    let total := (finite s m).signedUnits + (finite t n).signedUnits
    nearest (if total = 0 then s && t else decide (total < 0)) total.natAbs 1

/-- The number times the fraction `n / d` of positive numbers. -/
def scale (x : Binary64) (n d : Nat) : Binary64 :=
  match x with
  | nan => nan
  | infinite s => infinite s
  | finite s m => nearest s (m.units * n) d

/-- The nearest integer, a tie going away from zero. -/
def roundToInt : Binary64 → Binary64
  | nan => nan
  | infinite s => infinite s
  | finite s m => nearest s (roundDivUp m.units unitsPerOne * unitsPerOne) 1

/-! ### Integers -/

/-- The first integer beyond the 64-bit signed ones. -/
def int64Bound : Int := 2 ^ (63 : Nat)

/-- The 64-bit signed integer nearest to an integer. -/
def saturate64 (i : Int) : Int :=
  max (-int64Bound) (min (int64Bound - 1) i)

/-- The integer part of a finite number, saturated to 64 bits. -/
def toInt64 (x : Binary64) : Int :=
  saturate64 (x.signedUnits.tdiv unitsPerOne)

/-- The 64-bit integer that the number converts to, if that integer converts back to an equal
number. At the upper end `2 ^ 63` saturates to `2 ^ 63 - 1`, which converts back to `2 ^ 63`. -/
def toExactInt? (x : Binary64) : Option Int :=
  if x.isFinite && eq (ofInt x.toInt64) x then some x.toInt64 else none

end Binary64

end CampusQuery
