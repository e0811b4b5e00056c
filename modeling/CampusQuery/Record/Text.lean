import CampusQuery.Json.Decode
import CampusQuery.Record

/-!
# Records as JSON text

A record is written as an object from the names of its fields to their values, in field order. A
number that is exactly a 64-bit integer is written as one, any other finite number in its shortest
form, and a value that is not finite as `null`, which no record can be read from.

Reading takes a later member in place of an earlier one of its field, and refuses names that are no
field and values that are neither number nor string. Numbers are read as every `WordDecimal` is, so
one whose shortest form has many digits may come back as a neighbour of itself.
-/

namespace CampusQuery

/-- A value as JSON text. -/
def Value.jsonText : Value → List Char
  | number x =>
    match x.toExactInt? with
    | some i => integerText i
    | none => x.jsonText
  | text s => Json.stringText s

/-- A value as a JSON value. -/
def Value.toJson : Value → Json
  | number x =>
    match x.toExactInt? with
    | some i => .number (.integer i)
    | none => if x.isFinite then .number (.float x) else .null
  | text s => .string s

/-- Reads a value. -/
def Value.ofTree : Tree → Except Fault Value
  | .number n => (Tree.numberOf n).map fun m => .number m.value
  | .string (some s) => .ok (.text s)
  | t => .error t.unfit

namespace Record

/-- A record as JSON text. -/
def jsonText (r : Record) : List Char :=
  Json.objectText (r.entries.map fun e => (e.1.label, e.2.jsonText))

/-- Records as a JSON array. -/
def listText (records : List Record) : List Char :=
  Json.arrayText (records.map jsonText)

/-- Adds the members of an object to a record. -/
def ofMembers (r : Record) : Members → Except Fault Record
  | .done => .ok r
  | .cut => .error .malformed
  | .cons name value rest => do
    let name ← Tree.textOf name
    match Field.ofLabel? name with
    | none => throw .mismatch
    | some field => ofMembers (r.set field (← Value.ofTree value)) rest

/-- Reads a record. -/
def ofTree : Tree → Except Fault Record
  | .object members => ofMembers empty members
  | t => .error t.unfit

/-- Reads a text as a record. -/
def parse (text : String) : Except Fault Record :=
  Json.decode ofTree text

/-- Reads a text as an array of records. -/
def parseList (text : String) : Except Fault (List Record) :=
  Json.decode (Tree.toListOf ofTree) text

end Record

end CampusQuery
