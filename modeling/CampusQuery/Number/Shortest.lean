import CampusQuery.Number.Binary64

/-!
# The shortest decimal form of a number

A finite number is read back from any decimal inside its *rounding interval*, the fractions that
`Binary64.nearest` takes to it: half a gap to either neighbour, the ends included when the number's
last bit is even. Of the decimals in that interval `Magnitude.shortest` takes one on the coarsest
grid of powers of ten, which is the one with the fewest digits, and on that grid the one nearest to
the number. Only the two grid points around the number need a test, since the interval contains
the number.

When a number lies exactly half way between two grid points that both read back, a `TieRule` says
which of them is taken.
-/

namespace CampusQuery

/-- The decimal `coefficient * 10 ^ exponent`. -/
structure DecimalForm where
  /-- The digits, as a whole number. -/
  coefficient : Nat
  /-- The power of ten that the digits are counted in. -/
  exponent : Int
deriving DecidableEq

/-- What becomes of a number half way between two decimals. -/
inductive TieRule where
  /-- The decimal with the even last digit. -/
  | even
  /-- The larger decimal. -/
  | up
deriving DecidableEq

namespace Magnitude

/-- The lower end of the rounding interval, in quarters of a unit. Below a power of two the gap is
half as wide as above it. -/
def lowerEnd (m : Magnitude) : Nat :=
  if m.units = 2 ^ m.units.log2 ∧ 1 < spacing m.units then 4 * m.units - spacing m.units
  else 4 * m.units - 2 * spacing m.units

/-- The upper end of the rounding interval, in quarters of a unit. -/
def upperEnd (m : Magnitude) : Nat :=
  4 * m.units + 2 * spacing m.units

/-- Whether the ends of the rounding interval belong to it: the last bit kept is even. -/
def endsIncluded (m : Magnitude) : Bool :=
  m.units / spacing m.units % 2 == 0

/-- Whether `n / d` units lie in the rounding interval. -/
def readsBack (m : Magnitude) (n d : Nat) : Bool :=
  if m.endsIncluded then m.lowerEnd * d ≤ 4 * n && 4 * n ≤ m.upperEnd * d
  else m.lowerEnd * d < 4 * n && 4 * n < m.upperEnd * d

/-- The multiple of `10 ^ e` nearest to the number among those that read back, if there is one. -/
def gridPoint? (m : Magnitude) (tie : TieRule) (e : Int) : Option Nat :=
  let up := 10 ^ e.toNat * unitsPerOne
  let down := 10 ^ (-e).toNat
  let below := m.units * down / up
  let rest := m.units * down % up
  let lowFits := m.readsBack (below * up) down
  let highFits := m.readsBack ((below + 1) * up) down
  let takeHigh := decide (up < 2 * rest) || (2 * rest == up && (tie == .up || below % 2 == 1))
  if lowFits && highFits then some (if takeHigh then below + 1 else below)
  else if lowFits then some below
  else if highFits then some (below + 1)
  else none

/-- An exponent of ten such that no coarser grid has a point in the rounding interval:
`30103 / 100000` is just above the logarithm of two. -/
def coarsestExponent (m : Magnitude) : Int :=
  ((m.units.log2 : Int) - 1073) * 30103 / 100000 + 1

/-- The exact decimal expansion of the number, by `2 ^ -1074 = 5 ^ 1074 * 10 ^ -1074`. -/
def exactForm (m : Magnitude) : DecimalForm :=
  ⟨m.units * 5 ^ (1074 : Nat), -1074⟩

/-- The first grid with a point that reads back, going down from exponent `e` by `steps` grids. -/
def searchGrid (m : Magnitude) (tie : TieRule) : (steps : Nat) → (e : Int) → DecimalForm
  | 0, _ => m.exactForm
  | steps + 1, e =>
    match m.gridPoint? tie e with
    | some c => ⟨c, e⟩
    | none => m.searchGrid tie steps (e - 1)

/-- The decimal with the fewest digits that reads back as the number, and of those the nearest.
Seventeen digits always suffice, so the search ends within the steps given. -/
def shortest (m : Magnitude) (tie : TieRule) : DecimalForm :=
  if m.units = 0 then ⟨0, 0⟩ else m.searchGrid tie 24 m.coarsestExponent

end Magnitude

end CampusQuery
