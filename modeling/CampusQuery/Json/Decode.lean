import CampusQuery.Json.Basic
import CampusQuery.Json.Tree

/-!
# Decoding JSON text

A decoder walks a tree from left to right and stops at the first fault: either the text is
malformed there, or it is well formed and does not fit. A value that is used is held to more than a
value that is passed over: its numbers are within range, its strings have a text, and containers
are nested no deeper than `maxDepth`. `Tree.skip` is the check of a value that is passed over.

`Json.decode` runs a decoder on a text. Text behind the value is a fault of form, met last.
-/

namespace CampusQuery

/-- Why a text cannot be decoded. -/
inductive Fault where
  /-- The text is no JSON text from some place on. -/
  | malformed
  /-- The text is well formed so far and does not fit what is asked for. -/
  | mismatch
deriving DecidableEq

/-- The category of a fault. -/
def Fault.category : Fault → String
  | malformed => "syntax"
  | mismatch => "data"

/-- How deep arrays and objects may be nested in a value that is used. -/
def maxDepth : Nat := 127

namespace Tree

/-! ### Scalars -/

/-- The fault of meeting a value that does not fit: one of form if the value itself is malformed,
or is a scalar beyond what a value may be. -/
def unfit : Tree → Fault
  | cut => .malformed
  | number n => if (JsonNumber.ofNumeral n).value.isFinite then .mismatch else .malformed
  | string none => .malformed
  | _ => .mismatch

/-- A string. -/
def toString : Tree → Except Fault String
  | string (some s) => .ok s
  | t => .error t.unfit

/-- The text of a name or string. -/
def textOf : Option String → Except Fault String
  | some s => .ok s
  | none => .error .malformed

/-- The number of a numeral, unless it is beyond every number. -/
def numberOf (n : Numeral) : Except Fault JsonNumber :=
  let x := JsonNumber.ofNumeral n
  if x.value.isFinite then .ok x else .error .malformed

/-- An unsigned integer of 64 bits, written as an integer. -/
def toUnsigned : Tree → Except Fault Nat
  | number n =>
    match numberOf n with
    | .ok (.integer i) => if 0 ≤ i then .ok i.toNat else .error .mismatch
    | .ok (.float _) => .error .mismatch
    | .error fault => .error fault
  | t => .error t.unfit

/-! ### Values that are passed over -/

mutual

/-- A value that only has to be well formed. -/
def skip : Tree → Except Fault Unit
  | cut => .error .malformed
  | array items => skipItems items
  | object members => skipMembers members
  | _ => .ok ()

/-- The items of an array that is passed over. -/
def skipItems : Items → Except Fault Unit
  | .done => .ok ()
  | .cut => .error .malformed
  | .cons item rest => do
    skip item
    skipItems rest

/-- The members of an object that is passed over. -/
def skipMembers : Members → Except Fault Unit
  | .done => .ok ()
  | .cut => .error .malformed
  | .cons _ value rest => do
    skip value
    skipMembers rest

end

/-! ### Arbitrary values -/

mutual

/-- Any value, with room for `depth` more levels of containers. -/
def toJson (depth : Nat) : Tree → Except Fault Json
  | cut => .error .malformed
  | null => .ok .null
  | bool b => .ok (.bool b)
  | number n => (numberOf n).map .number
  | string s => (textOf s).map .string
  | array items =>
    if depth = 0 then .error .malformed
    else (toItems (depth - 1) items).map .array
  | object members =>
    if depth = 0 then .error .malformed
    else (toMembers (depth - 1) members []).map .object

/-- The items of an array, with room for `depth` more levels in each. -/
def toItems (depth : Nat) : Items → Except Fault (List Json)
  | .done => .ok []
  | .cut => .error .malformed
  | .cons item rest => do
    let value ← toJson depth item
    let values ← toItems depth rest
    return value :: values

/-- The members of an object added to those before, with room for `depth` more levels in each. -/
def toMembers (depth : Nat) : Members → List (String × Json) → Except Fault (List (String × Json))
  | .done, before => .ok before
  | .cut, _ => .error .malformed
  | .cons name value rest, before => do
    let name ← textOf name
    let value ← toJson depth value
    toMembers depth rest (Json.insertMember name value before)

end

/-! ### Arrays of one type -/

/-- The items of an array, each decoded by the same decoder. -/
def decodeItems {α : Type} (decoder : Tree → Except Fault α) : Items → Except Fault (List α)
  | .done => .ok []
  | .cut => .error .malformed
  | .cons item rest => do
    let value ← decoder item
    let values ← decodeItems decoder rest
    return value :: values

/-- An array of values of one type. -/
def toListOf {α : Type} (decoder : Tree → Except Fault α) : Tree → Except Fault (List α)
  | array items => decodeItems decoder items
  | t => .error t.unfit

/-- The end of an array in which nothing more is expected. -/
def endItems : Items → Except Fault Unit
  | .done => .ok ()
  | _ => .error .malformed

end Tree

namespace Json

/-- Decodes a whole text. -/
def decode {α : Type} (decoder : Tree → Except Fault α) (text : String) : Except Fault α := do
  let document := Document.ofText text
  let value ← decoder document.root
  if document.ended then return value else throw .malformed

/-- Reads a text as any JSON value. -/
def parse (text : String) : Except Fault Json :=
  decode (Tree.toJson maxDepth) text

end Json

end CampusQuery
