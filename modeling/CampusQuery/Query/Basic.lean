import CampusQuery.Query.Filter

/-!
# Queries

A query selects the records of one dataset that satisfy a filter, optionally groups them and
computes a value per group, and lists columns of the outcome in an optional order.

A column is a field of the dataset or a value computed per group, called by the name that the query
gives it.
-/

namespace CampusQuery

/-- A column of the result. -/
inductive Column where
  /-- A field of the dataset. -/
  | field (key : FieldKey)
  /-- A value computed per group. -/
  | computed (name : String)
deriving DecidableEq

namespace Column

/-- The name of the column in a row. -/
def name : Column → String
  | field key => key.toText
  | computed name => name

/-- The field key of a column that is a field. -/
def key? : Column → Option FieldKey
  | field key => some key
  | computed _ => none

end Column

/-- The direction of a sort. -/
inductive Direction where
  /-- Smallest first. -/
  | up
  /-- Largest first. -/
  | down
deriving DecidableEq

/-- The keyword of a direction. -/
def Direction.keyword : Direction → String
  | up => "UP"
  | down => "DOWN"

/-- How the rows of the result are ordered. -/
inductive SortOrder where
  /-- By one column, upwards. -/
  | single (column : Column)
  /-- By several columns, the first one being most significant. -/
  | directional (direction : Direction) (columns : List Column)
deriving DecidableEq

namespace SortOrder

/-- The columns that are compared, most significant first. -/
def columns : SortOrder → List Column
  | single column => [column]
  | directional _ columns => columns

/-- The direction of the order. -/
def direction : SortOrder → Direction
  | single _ => .up
  | directional direction _ => direction

end SortOrder

/-- How the values of a group become one. -/
inductive Aggregation where
  | max
  | min
  | avg
  | count
  | sum
deriving DecidableEq

namespace Aggregation

/-- All aggregations. -/
def all : List Aggregation := [max, min, avg, count, sum]

/-- The keyword of an aggregation. -/
def keyword : Aggregation → String
  | max => "MAX"
  | min => "MIN"
  | avg => "AVG"
  | count => "COUNT"
  | sum => "SUM"

/-- The aggregation of a given keyword. -/
def ofKeyword? (keyword : String) : Option Aggregation :=
  all.find? (·.keyword == keyword)

/-- Whether the aggregation is one of numbers; counting works on values of either type. -/
def needsNumbers : Aggregation → Bool
  | count => false
  | _ => true

end Aggregation

/-- A value computed per group. -/
structure Rule where
  /-- The name of the computed value. -/
  name : String
  /-- How it is computed. -/
  aggregation : Aggregation
  /-- The field whose values it is computed from. -/
  target : FieldKey
deriving DecidableEq

/-- How records are grouped and what is computed per group. -/
structure Grouping where
  /-- The fields that the records of a group agree on. -/
  keys : List FieldKey
  /-- The computed values. -/
  rules : List Rule
deriving DecidableEq

/-- The first rule of a given name. -/
def Grouping.rule? (g : Grouping) (name : String) : Option Rule :=
  g.rules.find? (·.name == name)

/-- A query. -/
structure Query where
  /-- The condition on records; all records are selected without one. -/
  filter : Option Filter
  /-- The columns of the result, from left to right. -/
  columns : List Column
  /-- The order of the rows. -/
  order : Option SortOrder
  /-- The grouping of the records. -/
  grouping : Option Grouping

/-- Every field key of the query: those of the filter, the columns, the order, the group and the
rules. -/
def Query.fieldKeys (q : Query) : List FieldKey :=
  (q.filter.map Filter.keys).getD [] ++
    q.columns.filterMap Column.key? ++
    ((q.order.map SortOrder.columns).getD []).filterMap Column.key? ++
    (q.grouping.map fun g => g.keys ++ g.rules.map Rule.target).getD []

end CampusQuery
