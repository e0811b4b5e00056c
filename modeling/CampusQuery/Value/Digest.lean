import CampusQuery.Number.Bits
import CampusQuery.Value

/-!
# Digests of values

Values are held with their numbers as words of 64 bits (`EncodedValue`). A table of values finds its
entries by digests, which are made of the type of a value and then of its word or its string. Since
equal values have to share a digest, both zeros put the word of positive zero into it, and every
word for `nan` the same one.
-/

namespace CampusQuery

/-- A value with its number as a word. -/
inductive EncodedValue where
  /-- A number, which may be `nan` in many ways. -/
  | number (word : UInt64)
  /-- A string. -/
  | text (s : String)
deriving DecidableEq

/-- What goes into a digest, one thing after the other. -/
inductive DigestPart where
  /-- A word. -/
  | word (w : UInt64)
  /-- A string. -/
  | text (s : String)
deriving DecidableEq, Hashable

namespace EncodedValue

/-- The value that is held. -/
def decode : EncodedValue → Value
  | number word => .number (.ofWord word)
  | text s => .text s

/-- What goes into the digest for the word of a number. -/
def digestWord (word : UInt64) : UInt64 :=
  if (Binary64.ofWord word).eq (.ofInt 0) then 0
  else if (Binary64.ofWord word).isNaN then UInt64.ofNat (2 ^ (64 : Nat) - 1)
  else word

/-- What goes into the digest of a value: its type and then the value. -/
def digest : EncodedValue → List DigestPart
  | number word => [.word 0, .word (digestWord word)]
  | text s => [.word 1, .text s]

end EncodedValue

namespace Value

/-- The value as it is held. -/
def encode : Value → EncodedValue
  | number x => .number x.toWord
  | text s => .text s

/-- A digest that equal values share. -/
instance : Hashable Value := ⟨fun v => hash v.encode.digest⟩

end Value

end CampusQuery
