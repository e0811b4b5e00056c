import CampusQuery.Number.WordDecimal

/-!
# JSON values and their text

A JSON value keeps the two kinds of number apart that JSON texts distinguish: integers that fit 64
bits, signed or unsigned, and all other numbers as binary64, which a text gives through a
`WordDecimal`. The members of an object are kept in the order of their names, each name once
(`Json.insertMember`).

JSON text has no blanks. Strings escape the quotation mark, the backslash and the control
characters below U+0020 and nothing else.
-/

namespace CampusQuery

/-- A number of a JSON text. -/
inductive JsonNumber where
  /-- An integer of 64 bits, signed or unsigned. -/
  | integer (i : Int)
  /-- Any other number. -/
  | float (x : Binary64)
deriving DecidableEq

/-- A JSON value. -/
inductive Json where
  | null
  | bool (b : Bool)
  | number (n : JsonNumber)
  | string (s : String)
  | array (items : List Json)
  /-- The members in the order of their names. -/
  | object (members : List (String × Json))
deriving Inhabited

/-! ### Numbers -/

namespace JsonNumber

/-- The number of a numeral: an integer if it is written as one and fits 64 bits, which it does if
no digit is left over. Minus zero is not an integer, since it has a sign. -/
def ofNumeral (n : Numeral) : JsonNumber :=
  let decimal := WordDecimal.ofNumeral n
  let i : Int := if n.negative then -decimal.word else decimal.word
  if n.integral ∧ decimal.exponent = 0 ∧ -Binary64.int64Bound ≤ i ∧ ¬(n.negative ∧ i = 0) then
    .integer i
  else
    .float (decimal.value n.negative)

/-- The binary64 number nearest to a JSON number. -/
def value : JsonNumber → Binary64
  | integer i => .ofInt i
  | float x => x

/-- The text of a number. -/
def text : JsonNumber → List Char
  | integer i => integerText i
  | float x => x.jsonText

end JsonNumber

/-! ### Text -/

namespace Json

/-- A lower-case hexadecimal digit. -/
def hexDigit (n : Nat) : Char :=
  Nat.digitChar n

/-- A character inside a string. -/
def escape (c : Char) : List Char :=
  if c = '"' then ['\\', '"']
  else if c = '\\' then ['\\', '\\']
  else if c.toNat = 8 then ['\\', 'b']
  else if c.toNat = 9 then ['\\', 't']
  else if c.toNat = 10 then ['\\', 'n']
  else if c.toNat = 12 then ['\\', 'f']
  else if c.toNat = 13 then ['\\', 'r']
  else if c.toNat < 32 then ['\\', 'u', '0', '0', hexDigit (c.toNat / 16), hexDigit (c.toNat % 16)]
  else [c]

/-- A string with its quotation marks. -/
def stringText (s : String) : List Char :=
  '"' :: s.toList.flatMap escape ++ ['"']

/-- Texts with commas between them. -/
def commaSeparated : List (List Char) → List Char
  | [] => []
  | [item] => item
  | item :: rest => item ++ ',' :: commaSeparated rest

/-- An array of items given by their texts. -/
def arrayText (items : List (List Char)) : List Char :=
  '[' :: commaSeparated items ++ [']']

/-- A member of an object. -/
def memberText (name : String) (value : List Char) : List Char :=
  stringText name ++ ':' :: value

/-- An object of members given by their texts. -/
def objectText (members : List (String × List Char)) : List Char :=
  '{' :: commaSeparated (members.map fun m => memberText m.1 m.2) ++ ['}']

mutual

/-- The text of a JSON value. -/
def text : Json → List Char
  | null => ['n', 'u', 'l', 'l']
  | bool true => ['t', 'r', 'u', 'e']
  | bool false => ['f', 'a', 'l', 's', 'e']
  | number n => n.text
  | string s => stringText s
  | array items => arrayText (itemTexts items)
  | object members => '{' :: commaSeparated (memberTexts members) ++ ['}']

/-- The texts of the items of an array. -/
def itemTexts : List Json → List (List Char)
  | [] => []
  | item :: rest => item.text :: itemTexts rest

/-- The texts of the members of an object. -/
def memberTexts : List (String × Json) → List (List Char)
  | [] => []
  | (name, value) :: rest => memberText name value.text :: memberTexts rest

end

/-! ### Members -/

/-- The members with one more, which replaces a member of its name. -/
def insertMember (name : String) (value : Json) : List (String × Json) → List (String × Json)
  | [] => [(name, value)]
  | (n, v) :: rest =>
    if name < n then (name, value) :: (n, v) :: rest
    else if name = n then (name, value) :: rest
    else (n, v) :: insertMember name value rest

/-- The object with the given members, a later one replacing an earlier one of its name. -/
def ofMembers (members : List (String × Json)) : Json :=
  .object (members.foldl (fun ms m => insertMember m.1 m.2 ms) [])

/-- The value of the member of a given name. -/
def findMember? (name : String) (members : List (String × Json)) : Option Json :=
  (members.find? fun m => m.1 == name).map (·.2)

end Json

end CampusQuery
