import CampusQuery.Number.Shortest

/-!
# Numbers as text

A finite number is written through its shortest decimal form, and two ways of laying the digits
out are in use. *Plain* text never has an exponent. *JSON* text is plain between `0.00001` and
`10 ^ 16`, always with a point, and scientific with a signed exponent elsewhere.

In the other direction a `Numeral` is what a decimal text says before any rounding: a sign, the
digits on both sides of the point, and a power of ten. `Numeral.value` rounds it once. `readNumber?`
reads the texts that are accepted where a number is given as text, among them `inf` and `nan` in any
case.
-/

namespace CampusQuery

/-! ### Laying out digits -/

namespace DecimalForm

/-- The digits, most significant first. -/
def digits (d : DecimalForm) : List Char :=
  Nat.toDigits 10 d.coefficient

/-- The power of ten of the first digit. -/
def leading (d : DecimalForm) : Int :=
  d.digits.length - 1 + d.exponent

/-- The digits with a decimal point where it falls and no exponent. -/
def plain (d : DecimalForm) : List Char :=
  if 0 ≤ d.exponent then
    d.digits ++ List.replicate d.exponent.toNat '0'
  else
    let places := (-d.exponent).toNat
    if places < d.digits.length then
      d.digits.take (d.digits.length - places) ++ '.' :: d.digits.drop (d.digits.length - places)
    else
      '0' :: '.' :: List.replicate (places - d.digits.length) '0' ++ d.digits

/-- One digit before the point and a signed exponent. -/
def scientific (d : DecimalForm) : List Char :=
  let mark := if d.leading < 0 then ['e', '-'] else ['e', '+']
  let fraction := match d.digits.tail with
    | [] => []
    | rest => '.' :: rest
  d.digits.take 1 ++ fraction ++ mark ++ Nat.toDigits 10 d.leading.natAbs

/-- Plain with at least one decimal place near one, scientific elsewhere. -/
def json (d : DecimalForm) : List Char :=
  if -5 ≤ d.leading ∧ d.leading ≤ 15 then
    if 0 ≤ d.exponent then d.plain ++ ['.', '0'] else d.plain
  else
    d.scientific

end DecimalForm

/-- A minus sign where one is due. -/
def signText (negative : Bool) : List Char :=
  if negative then ['-'] else []

/-- An integer in decimal. -/
def integerText (i : Int) : List Char :=
  signText (decide (i < 0)) ++ Nat.toDigits 10 i.natAbs

namespace Binary64

/-- The number with all its places and no exponent, as people read it; of two equally short forms
the larger. -/
def plainText : Binary64 → List Char
  | nan => ['N', 'a', 'N']
  | infinite negative => signText negative ++ ['i', 'n', 'f']
  | finite negative m => signText negative ++ (m.shortest .up).plain

/-- The number as JSON text, which has no form for the values that are not finite; of two equally
short forms the even one. -/
def jsonText : Binary64 → List Char
  | finite negative m => signText negative ++ (m.shortest .even).json
  | _ => ['n', 'u', 'l', 'l']

end Binary64

/-! ### Reading numerals -/

/-- What a decimal text says: a sign, digits and a power of ten. -/
structure Numeral where
  /-- Whether a minus sign stands in front. -/
  negative : Bool
  /-- The digits before the point. -/
  whole : List Char
  /-- The digits behind the point, none if there is no point. -/
  fraction : List Char
  /-- The exponent, if there is one. -/
  power : Option Int
deriving DecidableEq

/-- The value of a decimal digit. -/
def digitValue (c : Char) : Nat :=
  c.toNat - '0'.toNat

/-- A run of digits as a whole number. -/
def digitsValue (digits : List Char) : Nat :=
  digits.foldl (fun total c => total * 10 + digitValue c) 0

namespace Numeral

/-- Whether the numeral has neither places behind the point nor an exponent. -/
def integral (n : Numeral) : Bool :=
  n.fraction.isEmpty && n.power.isNone

/-- All digits as a whole number. -/
def coefficient (n : Numeral) : Nat :=
  digitsValue (n.whole ++ n.fraction)

/-- The power of ten in which the coefficient counts. -/
def exponent (n : Numeral) : Int :=
  n.power.getD 0 - n.fraction.length

/-- The number nearest to what the numeral says. -/
def value (n : Numeral) : Binary64 :=
  Binary64.ofDecimal n.negative n.coefficient n.exponent

end Numeral

/-- The optional sign at the front of a text, and the rest. -/
def splitSign : List Char → Bool × List Char
  | '-' :: rest => (true, rest)
  | '+' :: rest => (false, rest)
  | rest => (false, rest)

/-- The optional exponent that is all of a text. -/
def readExponent? : List Char → Option (Option Int)
  | [] => some none
  | e :: rest =>
    let (negative, digits) := splitSign rest
    if (e = 'e' ∨ e = 'E') ∧ digits ≠ [] ∧ digits.all Char.isDigit then
      some (some (if negative then -(digitsValue digits : Int) else digitsValue digits))
    else
      none

/-- A text that is a decimal numeral throughout: digits with at most one point among or around
them, at least one digit, and an optional exponent. -/
def readNumeral? (negative : Bool) (text : List Char) : Option Numeral :=
  let whole := text.takeWhile Char.isDigit
  let rest := text.dropWhile Char.isDigit
  let (fraction, tail) := match rest with
    | '.' :: more => (more.takeWhile Char.isDigit, more.dropWhile Char.isDigit)
    | _ => ([], rest)
  if whole = [] ∧ fraction = [] then none
  else (readExponent? tail).map fun power => ⟨negative, whole, fraction, power⟩

/-- The number that a whole text gives: a signed decimal numeral, or the name of an infinity or of
`nan` in any case. -/
def readNumber? (text : List Char) : Option Binary64 :=
  let (negative, body) := splitSign text
  let name := String.ofList (body.map Char.toLower)
  if name = "inf" ∨ name = "infinity" then some (.infinite negative)
  else if name = "nan" then some .nan
  else (readNumeral? negative body).map Numeral.value

end CampusQuery
