import CampusQuery.FieldKey

/-!
# Wildcard patterns

A pattern is a literal text with an optional asterisk at either end, and an asterisk stands for any
text. `Pattern.parse` takes off a leading asterisk and then a trailing one, so that the single
asterisk of `*` is a leading one; an asterisk left over inside the literal is refused.
`Pattern.toText` puts the asterisks back.
-/

namespace CampusQuery

/-- A literal with the asterisks around it. -/
inductive Pattern where
  /-- The literal alone. -/
  | exact (literal : String)
  /-- The literal with an asterisk behind it. -/
  | startsWith (literal : String)
  /-- The literal with an asterisk in front of it. -/
  | endsWith (literal : String)
  /-- The literal between two asterisks. -/
  | contains (literal : String)
deriving DecidableEq

/-- Whether the first list occurs in the second as a run of neighbours. -/
def occursIn (literal : List Char) : List Char → Bool
  | [] => literal.isEmpty
  | c :: rest => literal.isPrefixOf (c :: rest) || occursIn literal rest

namespace Pattern

/-- A text without its leading asterisk, and whether it had one. -/
def takeLeading : List Char → Bool × List Char
  | '*' :: rest => (true, rest)
  | text => (false, text)

/-- A text without its trailing asterisk, and whether it had one. -/
def takeTrailing (text : List Char) : Bool × List Char :=
  if text.getLast? = some '*' then (true, text.dropLast) else (false, text)

/-- Reads a pattern, unless an asterisk stands inside it. -/
def parse (text : String) : Except NameError Pattern :=
  let (leading, rest) := takeLeading text.toList
  let (trailing, literal) := takeTrailing rest
  if literal.contains '*' then .error (.badPattern text)
  else
    match leading, trailing with
    | false, false => .ok (.exact (String.ofList literal))
    | false, true => .ok (.startsWith (String.ofList literal))
    | true, false => .ok (.endsWith (String.ofList literal))
    | true, true => .ok (.contains (String.ofList literal))

/-- The pattern with its asterisks. -/
def toText : Pattern → String
  | exact literal => literal
  | startsWith literal => literal ++ "*"
  | endsWith literal => "*" ++ literal
  | contains literal => "*" ++ literal ++ "*"

/-- Whether a text matches the pattern. -/
def matchesText (p : Pattern) (text : String) : Bool :=
  match p with
  | exact literal => text == literal
  | startsWith literal => literal.toList.isPrefixOf text.toList
  | endsWith literal => literal.toList.isSuffixOf text.toList
  | contains literal => occursIn literal.toList text.toList

end Pattern

end CampusQuery
