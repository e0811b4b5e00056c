import CampusQuery.Execution.Error
import CampusQuery.Number.Decimal
import CampusQuery.Query.Basic
import CampusQuery.Record

/-!
# Aggregates of numbers

The greatest and the least of a list of numbers ignore `nan`. Sums and means are taken in decimal
and rounded to two places, half a hundredth going away from zero. A list that has no decimal sum,
because a number in it is not finite or is too large, is summed in binary in the order of the list
instead, and rounded to hundredths there.
-/

namespace CampusQuery

/-- The places that sums and means keep. -/
def keptPlaces : Nat := 2

namespace Binary64

/-- The greatest number of a list. -/
def greatest (xs : List Binary64) : Binary64 :=
  xs.foldl maximum (.infinite true)

/-- The least number of a list. -/
def least (xs : List Binary64) : Binary64 :=
  xs.foldl minimum (.infinite false)

/-- The sum of a list in binary, rounded after each step. -/
def binarySum (xs : List Binary64) : Binary64 :=
  xs.foldl add (ofInt 0)

/-- The number to hundredths, in binary. -/
def roundToHundredths (x : Binary64) : Binary64 :=
  ((x.scale 100 1).roundToInt).scale 1 100

/-- The decimal sum to two places, where there is one. -/
def decimalTotal? (xs : List Binary64) : Option Decimal :=
  (Decimal.sum? xs).map (·.round keptPlaces)

/-- The decimal mean to two places, where there is one. -/
def decimalMean? (xs : List Binary64) : Option Decimal :=
  ((Decimal.sum? xs).bind (·.divide? xs.length)).map (·.round keptPlaces)

/-- The sum of a list, to two places. -/
def total (xs : List Binary64) : Binary64 :=
  match decimalTotal? xs with
  | some d => d.toNumber
  | none => (binarySum xs).roundToHundredths

/-- The mean of a list that is not empty, to two places. -/
def mean (xs : List Binary64) : Binary64 :=
  match decimalMean? xs with
  | some d => d.toNumber
  | none => ((binarySum xs).scale 1 xs.length).roundToHundredths

end Binary64

/-- The value of a field that a query reads. -/
def Record.read (f : Field) (r : Record) : Except ExecutionError Value :=
  match r.get? f with
  | some v => .ok v
  | none => .error (.missingValue f)

/-- The number of a field that a query aggregates. -/
def Record.readNumber (f : Field) (r : Record) : Except ExecutionError Binary64 :=
  match r.get? f with
  | some (.number x) => .ok x
  | some (.text _) => .error (.notNumeric f)
  | none => .error (.missingValue f)

namespace Aggregation

/-- How numbers are aggregated; there is no such way for counting, which works on values of either
type. -/
def ofNumbers? : Aggregation → Option (List Binary64 → Binary64)
  | max => some Binary64.greatest
  | min => some Binary64.least
  | avg => some Binary64.mean
  | sum => some Binary64.total
  | count => none

/-- What the values of a field in the records of a group aggregate to; a count is that of
different values. -/
def apply (a : Aggregation) (f : Field) (members : List Record) :
    Except ExecutionError Value :=
  match a.ofNumbers? with
  | some aggregate => do
    let xs ← members.mapM (Record.readNumber f)
    return .number (aggregate xs)
  | none => do
    let values ← members.mapM (Record.read f)
    return .number (.ofInt (Value.distinct values).length)

end Aggregation

end CampusQuery
