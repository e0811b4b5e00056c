import CampusQuery.Number.Text

/-!
# Field values

A field of a record holds a number or a string. `Value.compare` is the one order on values: every
number stands before every string, numbers follow `Binary64.compare` (so `nan` is last among them
and the two zeros are equal), and strings follow their code points. Equality `==` is that order's
equality, and grouping, counting and sorting all use it.

A number that is exactly a 64-bit integer is written as that integer, wherever a value is written.
-/

namespace CampusQuery

/-- What a field can hold. -/
inductive FieldType where
  /-- Numbers, which can be compared and aggregated. -/
  | numeric
  /-- Strings, which can be matched with a pattern. -/
  | text
deriving DecidableEq

/-- The name of a field type. -/
def FieldType.name : FieldType → String
  | numeric => "Numeric"
  | text => "String"

/-- A value of a field, or of an aggregation. -/
inductive Value where
  /-- A number. -/
  | number (x : Binary64)
  /-- A string. -/
  | text (s : String)

namespace Value

/-- The type of field that can hold the value. -/
def type : Value → FieldType
  | number _ => .numeric
  | text _ => .text

/-- The number, if the value is one. -/
def number? : Value → Option Binary64
  | number x => some x
  | text _ => none

/-- The string, if the value is one. -/
def text? : Value → Option String
  | number _ => none
  | text s => some s

/-! ### Order -/

/-- The total order of values. -/
def compare : Value → Value → Ordering
  | number x, number y => x.compare y
  | number _, text _ => .lt
  | text _, number _ => .gt
  | text s, text t => Ord.compare s t

instance : Ord Value := ⟨compare⟩

/-- Equality of values is equality in their order, which is coarser than identity: the two zeros
are equal values. -/
instance : BEq Value := ⟨fun a b => a.compare b == .eq⟩

/-- The values of a list without repetitions, each at its first place. -/
def distinct (values : List Value) : List Value :=
  values.foldl (fun kept v => if kept.any (· == v) then kept else kept ++ [v]) []

/-! ### Text -/

/-- The value as people read it: an exact integer as such, any other number with all its places,
and a string as it is. -/
def toText : Value → String
  | number x => String.ofList <|
    match x.toExactInt? with
    | some i => integerText i
    | none => x.plainText
  | text s => s

end Value

end CampusQuery
