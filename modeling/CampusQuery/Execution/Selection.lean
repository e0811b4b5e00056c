import CampusQuery.Query.Filter

/-!
# Selecting records

`Filter.select` finds the positions of the records that satisfy a filter, in ascending order. It
does not test one record after the other but narrows a list of candidates. Negations are carried
down to the single conditions, so a negated connective acts as the other one: where all conditions
are asked for, each narrows what the ones before it left, until nothing is left, and where one is
enough, each narrows all candidates and what they leave is brought into order.

What it finds is what `Filter.holds` says of each record.
-/

namespace CampusQuery

/-- Positions in ascending order, each once. -/
def sortPositions (positions : List Nat) : List Nat :=
  (positions.mergeSort fun i j => decide (i ≤ j)).eraseReps

namespace Filter

/-- Whether the record at a position satisfies a single condition. -/
def holdsAt (records : Array Record) (i : Nat) (condition : Record → Bool) : Bool :=
  match records[i]? with
  | some r => condition r
  | none => false

/-- Whether a connective under a number of negations asks for all its conditions. -/
def asksForAll (c : Connective) (negated : Bool) : Bool :=
  match c with
  | .and => !negated
  | .or => negated

mutual

/-- The candidates whose records satisfy the filter, or do not satisfy it when it is negated. -/
def narrow (records : Array Record) (negated : Bool) : Filter → List Nat → List Nat
  | logic c children, candidates =>
    if asksForAll c negated then narrowByAll records negated children candidates
    else sortPositions (narrowByEach records negated children candidates)
  | not child, candidates => narrow records (!negated) child candidates
  | compare c key bound, candidates =>
    candidates.filter fun i => holdsAt records i (compareHolds c key bound) != negated
  | like key pattern, candidates =>
    candidates.filter fun i => holdsAt records i (likeHolds key pattern) != negated

/-- The candidates that the filters of a list leave in turn. -/
def narrowByAll (records : Array Record) (negated : Bool) : List Filter → List Nat → List Nat
  | [], candidates => candidates
  | f :: rest, candidates =>
    if candidates.isEmpty then candidates
    else narrowByAll records negated rest (narrow records negated f candidates)

/-- The candidates that each filter of a list leaves by itself, one filter after the other. -/
def narrowByEach (records : Array Record) (negated : Bool) : List Filter → List Nat → List Nat
  | [], _ => []
  | f :: rest, candidates =>
    narrow records negated f candidates ++ narrowByEach records negated rest candidates

end

/-- The positions of the records that satisfy the filter. -/
def select (f : Filter) (records : Array Record) : List Nat :=
  f.narrow records false (List.range records.size)

end Filter

end CampusQuery
