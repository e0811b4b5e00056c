import CampusQuery.Execution.Aggregate

/-!
# Grouping records

The records that a query selects fall into groups by their values in the fields of the grouping,
where equal values count as the same. Groups stand in the order in which their first records were
met (`Group.collect`), and each yields one row: the values of its first record in those fields, and
the values computed from all its records.

A record without a value in a field of the grouping is an error, found before anything is computed.
-/

namespace CampusQuery

/-- Records that agree in the fields of a grouping. -/
structure Group where
  /-- The values of the first record in the fields of the grouping. -/
  key : List Value
  /-- The records, in the order in which they were met. -/
  members : Array Record

/-- The row that a group yields. -/
structure GroupRow where
  /-- The fields of the grouping with the values of the group. -/
  keys : List (Field × Value)
  /-- The names of the computed values with those values. -/
  computed : List (String × Value)

namespace GroupRow

/-- The value of a field of the grouping. -/
def key? (row : GroupRow) (f : Field) : Option Value :=
  (row.keys.find? fun k => k.1 == f).map (·.2)

/-- The computed value of a given name. -/
def computed? (row : GroupRow) (name : String) : Option Value :=
  (row.computed.find? fun c => c.1 == name).map (·.2)

end GroupRow

namespace Group

/-- Puts a record into the group of its key, a new one at the end if there is none. -/
def place (key : List Value) (r : Record) : List Group → List Group
  | [] => [⟨key, #[r]⟩]
  | g :: rest =>
    if g.key == key then { g with members := g.members.push r } :: rest
    else g :: place key r rest

/-- The key of a record in a grouping. -/
def keyOf (fields : List Field) (r : Record) : Except ExecutionError (List Value) :=
  fields.mapM fun f => r.read f

/-- The groups of a list of records. -/
def collect (fields : List Field) (records : List Record) : Except ExecutionError (List Group) :=
  records.foldlM (fun groups r => do return place (← keyOf fields r) r groups) []

/-- The row of a group. -/
def row (grouping : Grouping) (g : Group) : Except ExecutionError GroupRow := do
  let computed ← grouping.rules.mapM fun rule => do
    return (rule.name, ← rule.aggregation.apply rule.target.field g.members.toList)
  return ⟨(grouping.keys.map FieldKey.field).zip g.key, computed⟩

end Group

/-- The records at the given positions; a position beyond the last record is none. -/
def recordsAt (records : Array Record) (positions : List Nat) : List Record :=
  positions.filterMap fun i => records[i]?

/-- The rows of the groups of the records at the given positions. -/
def Grouping.rows (g : Grouping) (records : Array Record) (positions : List Nat) :
    Except ExecutionError (List GroupRow) := do
  let groups ← Group.collect (g.keys.map FieldKey.field) (recordsAt records positions)
  groups.mapM (Group.row g)

end CampusQuery
