import CampusQuery.Number.Text

/-!
# Decimals in a machine word

The numbers of a JSON text are read with words of 64 bits. A `WordDecimal` is a whole number that
fits a word, counted in a power of ten. `WordDecimal.ofNumeral` takes the digits of a numeral for as
long as they fit and lets the others go, and `WordDecimal.value` rounds three times: the word, the
power of ten, and their product or quotient.

Where the word and the power are numbers of the format themselves, which words up to `2 ^ 53` and
powers up to `10 ^ 22` are, only the last of these counts, and the value is the one nearest to the
numeral. Elsewhere it may be a neighbour of that one: the word of `2251799813685247.8` is beyond
`2 ^ 53`, and the value is `2251799813685248`, although `2251799813685247.75` is nearer.
-/

namespace CampusQuery

/-- The first whole number that does not fit a word of 64 bits. -/
def wordBound : Nat := 2 ^ (64 : Nat)

/-- A whole number that fits a word, counted in a power of ten. -/
structure WordDecimal where
  /-- The whole number. -/
  word : Nat
  /-- The power of ten in which it counts. -/
  exponent : Int
  /-- The whole number fits a word. -/
  word_lt : word < wordBound
deriving DecidableEq

/-! ### Taking digits -/

/-- The word with digits put behind it for as long as the result is a word, and the digits that are
left over. The first digit without room ends it, even if a smaller one follows. -/
def fillWord (word : Nat) : List Char → Nat × List Char
  | [] => (word, [])
  | c :: rest =>
    if word * 10 + digitValue c < wordBound then fillWord (word * 10 + digitValue c) rest
    else (word, c :: rest)

/-- What digits are put behind stays a word. -/
theorem fillWord_lt {word : Nat} (h : word < wordBound) (digits : List Char) :
    (fillWord word digits).1 < wordBound := by
  fun_induction fillWord word digits with
  | case1 => exact h
  | case2 _ _ _ hnext ih => exact ih hnext
  | case3 => exact h

namespace WordDecimal

/-- The digits of a numeral that fit a word. Every digit left over before the point is a factor of
ten; the digits behind the point are tried anew, and those left over have no effect. -/
def ofNumeral (n : Numeral) : WordDecimal :=
  let whole := fillWord 0 n.whole
  let all := fillWord whole.1 n.fraction
  ⟨all.1, n.power.getD 0 + whole.2.length - (n.fraction.length - all.2.length : Nat),
    fillWord_lt (fillWord_lt (by decide) _) _⟩

/-! ### Rounding -/

/-- The largest power of ten in the range of the format. -/
def maxTenPower : Nat := 308

/-- The number nearest to a power of ten, as a count of units. -/
def tenPowerUnits (power : Nat) : Nat :=
  roundSignificant (10 ^ power * unitsPerOne) 1

/-- A number times a power of ten. -/
def timesTenPower (x : Binary64) (power : Nat) : Binary64 :=
  x.scale (tenPowerUnits power) unitsPerOne

/-- A number divided by a power of ten. -/
def overTenPower (x : Binary64) (power : Nat) : Binary64 :=
  x.scale unitsPerOne (tenPowerUnits power)

/-- The value with a sign, computed in the format. A power of ten that is out of range is divided
by in two steps; after two full ones nothing is left of a word. -/
def value (negative : Bool) (d : WordDecimal) : Binary64 :=
  let start := Binary64.nearest negative (d.word * unitsPerOne) 1
  let power := d.exponent.natAbs
  if d.word = 0 then start
  else if 0 ≤ d.exponent then
    if power ≤ maxTenPower then timesTenPower start power else .infinite negative
  else if power ≤ maxTenPower then overTenPower start power
  else if power ≤ 2 * maxTenPower then
    overTenPower (overTenPower start maxTenPower) (power - maxTenPower)
  else .nearest negative 0 1

end WordDecimal

end CampusQuery
