import CampusQuery.Pattern
import CampusQuery.Record

/-!
# Filters

A filter is a tree of conditions on a record. Its meaning is `Filter.holds`: a comparison holds of
a record whose field has a number in that relation to the given one, a match holds of a record
whose field has a string of the given pattern, and the connectives and negation are those of
Boolean logic. A field that is absent or of the other type makes a condition false, so its negation
true.
-/

namespace CampusQuery

/-- How the conditions of a list are joined. -/
inductive Connective where
  /-- All of them hold. -/
  | and
  /-- At least one of them holds. -/
  | or
deriving DecidableEq

/-- The keyword of a connective. -/
def Connective.keyword : Connective → String
  | and => "AND"
  | or => "OR"

/-- A comparison with a number. -/
inductive Comparison where
  | lt
  | gt
  | eq
deriving DecidableEq

namespace Comparison

/-- The keyword of a comparison. -/
def keyword : Comparison → String
  | lt => "LT"
  | gt => "GT"
  | eq => "EQ"

/-- Whether the comparison holds between two numbers. -/
def compares : Comparison → Binary64 → Binary64 → Bool
  | lt => Binary64.lt
  | gt => Binary64.gt
  | eq => Binary64.eq

end Comparison

/-- A condition on records. -/
inductive Filter where
  /-- Several conditions, joined by a connective. -/
  | logic (connective : Connective) (children : List Filter)
  /-- The opposite of a condition. -/
  | not (child : Filter)
  /-- A numeric field in relation to a number. -/
  | compare (comparison : Comparison) (key : FieldKey) (bound : Binary64)
  /-- A string field of a pattern. -/
  | like (key : FieldKey) (pattern : Pattern)

namespace Filter

/-- Whether a record satisfies a comparison. -/
def compareHolds (c : Comparison) (key : FieldKey) (bound : Binary64) (r : Record) : Bool :=
  match r.get? key.field with
  | some (.number x) => c.compares x bound
  | _ => false

/-- Whether a record satisfies a match. -/
def likeHolds (key : FieldKey) (pattern : Pattern) (r : Record) : Bool :=
  match r.get? key.field with
  | some (.text s) => pattern.matchesText s
  | _ => false

mutual

/-- Whether a record satisfies the filter. -/
def holds (r : Record) : Filter → Bool
  | logic .and children => allHold r children
  | logic .or children => anyHolds r children
  | not child => !holds r child
  | compare c key bound => compareHolds c key bound r
  | like key pattern => likeHolds key pattern r

/-- Whether a record satisfies all filters of a list. -/
def allHold (r : Record) : List Filter → Bool
  | [] => true
  | f :: rest => holds r f && allHold r rest

/-- Whether a record satisfies one filter of a list. -/
def anyHolds (r : Record) : List Filter → Bool
  | [] => false
  | f :: rest => holds r f || anyHolds r rest

end

mutual

/-- The field keys of the filter, from left to right. -/
def keys : Filter → List FieldKey
  | logic _ children => keysOf children
  | not child => child.keys
  | compare _ key _ => [key]
  | like key _ => [key]

/-- The field keys of a list of filters. -/
def keysOf : List Filter → List FieldKey
  | [] => []
  | f :: rest => f.keys ++ keysOf rest

end

mutual

/-- How many conditions stand inside each other. -/
def depth : Filter → Nat
  | logic _ children => 1 + depthOf children
  | not child => 1 + child.depth
  | compare .. => 1
  | like .. => 1

/-- The greatest depth in a list of filters. -/
def depthOf : List Filter → Nat
  | [] => 0
  | f :: rest => max f.depth (depthOf rest)

end

mutual

/-- The filter as people read it. -/
def toText : Filter → String
  | logic c children => c.keyword ++ "(" ++ ", ".intercalate (textsOf children) ++ ")"
  | not child => "NOT(" ++ child.toText ++ ")"
  | compare c key bound =>
    c.keyword ++ "(" ++ key.toText ++ ", " ++ String.ofList bound.plainText ++ ")"
  | like key pattern => "IS(" ++ key.toText ++ ", \"" ++ pattern.toText ++ "\")"

/-- The filters of a list as people read them. -/
def textsOf : List Filter → List String
  | [] => []
  | f :: rest => f.toText :: textsOf rest

end

end Filter

end CampusQuery
