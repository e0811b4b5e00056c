import CampusQuery.Number.Shortest

/-!
# Decimal arithmetic

Sums and means are taken in decimal, so that `1.1 + 2.2 + 3.3` is `6.6`. A `Decimal` is an integer
of less than 96 bits counted in units of `10 ^ -places`, with at most 28 places.

A result keeps as many places as fit, and where places have to be dropped it is rounded to the
nearest decimal, a tie to the even digit (`Decimal.fit?`); it fails when not even its integer part
fits. How many places a result has is not a matter of its value alone: a sum with zero has those of
its other term, and a quotient loses the zeros at its end only where it has been given new places.

A number enters by its shortest decimal form. It leaves through binary arithmetic, in which its
whole part and its fraction are added and the sum is rounded at the last place
(`Decimal.toNumber`). A large decimal with a fraction may miss the number nearest to it in this
way, and it may do so with some places and not with others.

A zero has no sign here. It could only come out as the negative zero of binary numbers, which equals
the other one and is written like it.
-/

namespace CampusQuery

/-- A decimal: `mantissa * 10 ^ -places`. -/
structure Decimal where
  /-- The digits, with a sign. -/
  mantissa : Int
  /-- How many of them follow the point. -/
  places : Nat
deriving DecidableEq

namespace Decimal

/-- The first mantissa size that is too large. -/
def mantissaBound : Nat := 2 ^ (96 : Nat)

/-- The most places a decimal has. -/
def maxPlaces : Nat := 28

/-- No digits at all. -/
def zero : Decimal := ⟨0, 0⟩

/-- A sign put on a size. -/
def signed (negative : Bool) (size : Nat) : Int :=
  if negative then -(size : Int) else size

/-- The decimal nearest to `n / d` with the most places, up to `places`, that leave it within
bounds. -/
def fit? (n : Int) (d : Nat) : (places : Nat) → Option Decimal
  | 0 =>
    if roundDivEven n.natAbs d < mantissaBound then
      some ⟨signed (decide (n < 0)) (roundDivEven n.natAbs d), 0⟩
    else none
  | places + 1 =>
    if roundDivEven (n.natAbs * 10 ^ (places + 1)) d < mantissaBound then
      some ⟨signed (decide (n < 0)) (roundDivEven (n.natAbs * 10 ^ (places + 1)) d), places + 1⟩
    else fit? n d places

/-- The decimal that a number's shortest form writes, digits after the 28th place rounded half
up. There is none for a value that is not finite or has too many digits. -/
def ofNumber? : Binary64 → Option Decimal
  | .finite negative m =>
    let form := m.shortest .up
    let places := (-form.exponent).toNat
    if places ≤ maxPlaces then
      if form.coefficient * 10 ^ form.exponent.toNat < mantissaBound then
        some ⟨signed negative (form.coefficient * 10 ^ form.exponent.toNat), places⟩
      else none
    else
      some ⟨signed negative (roundDivUp form.coefficient (10 ^ (places - maxPlaces))), maxPlaces⟩
  | _ => none

/-- The sum, exact where it fits. Zero leaves the other term as it is, with its places. -/
def add? (a b : Decimal) : Option Decimal :=
  if a.mantissa = 0 then some b
  else if b.mantissa = 0 then some a
  else
    let places := max a.places b.places
    fit? (a.mantissa * 10 ^ (places - a.places) + b.mantissa * 10 ^ (places - b.places))
      (10 ^ places) places

/-- A decimal without the zeros at the end of its places. -/
def trim (mantissa : Int) : (places : Nat) → Decimal
  | 0 => ⟨mantissa, 0⟩
  | places + 1 =>
    if mantissa % 10 = 0 then trim (mantissa / 10) places else ⟨mantissa, places + 1⟩

/-- The quotient by a positive whole number. If it comes out at the places of the decimal, it has
those; otherwise it has all places that fit, but for the zeros at their end. -/
def divide? (a : Decimal) (n : Nat) : Option Decimal :=
  if a.mantissa % n = 0 then some ⟨a.mantissa / n, a.places⟩
  else (fit? a.mantissa (n * 10 ^ a.places) maxPlaces).map fun q => trim q.mantissa q.places

/-- The decimal with at most `places` places, half a unit of the last place going away from
zero. -/
def round (a : Decimal) (places : Nat) : Decimal :=
  if a.places ≤ places then a
  else
    ⟨signed (decide (a.mantissa < 0))
      (roundDivUp a.mantissa.natAbs (10 ^ (a.places - places))), places⟩

/-- A power of ten as it is in binary. Those beyond `10 ^ 22` are not numbers themselves. -/
def binaryPower (places : Nat) : Nat :=
  roundSignificant (10 ^ places) 1

/-- The size of a decimal as a number. A fraction is converted and added by itself, and what the
addition has lost is made up for by rounding at the last place. -/
def toSize (digits places : Nat) : Binary64 :=
  let whole := Binary64.ofInt (digits / 10 ^ places : Nat)
  let part := digits % 10 ^ places
  if part = 0 then whole
  else
    let sum := whole.add ((Binary64.ofInt part).scale 1 (binaryPower places))
    (sum.scale (binaryPower places) 1).roundToInt.scale 1 (binaryPower places)

/-- The number that a decimal is converted to. -/
def toNumber (a : Decimal) : Binary64 :=
  if a.mantissa < 0 then (toSize a.mantissa.natAbs a.places).negate
  else toSize a.mantissa.natAbs a.places

/-- The sum of a list of numbers in decimal, none if one of them has no decimal or a partial sum
does not fit. -/
def sum? (xs : List Binary64) : Option Decimal :=
  xs.foldlM (fun total x => (ofNumber? x).bind total.add?) zero

end Decimal

end CampusQuery
