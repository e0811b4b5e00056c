import CampusQuery.Execution.Group
import CampusQuery.Record.Text

/-!
# Rows of a result

What a query lists is either its selected records or the rows of its groups; both are an `Entry`,
from which a column reads its value. A `Row` of the result holds the columns of the query with
their values, under the names of the columns.

`Row.sort` orders rows by the columns of an order, most significant first. A row without a column
stands before every row that has it, `down` reverses every comparison, and rows that compare equal
keep their order in both directions.
-/

namespace CampusQuery

/-- What a row of the result is read from. -/
inductive Entry where
  /-- A selected record. -/
  | record (r : Record)
  /-- A row of a group. -/
  | group (row : GroupRow)

/-- The value of a column. -/
def Entry.get? : Entry → Column → Option Value
  | record r, .field key => r.get? key.field
  | record _, .computed _ => none
  | group row, .field key => row.key? key.field
  | group row, .computed name => row.computed? name

/-- The columns of a result with their values, from left to right. -/
structure Row where
  /-- The names of the columns with their values. -/
  cells : List (String × Value)

/-- The error of a column without a value. -/
def Column.missing : Column → ExecutionError
  | field key => .missingValue key.field
  | computed name => .notComputed name

/-- The row of an entry. -/
def Entry.project (columns : List Column) (e : Entry) : Except ExecutionError Row := do
  let cells ← columns.mapM fun c =>
    match e.get? c with
    | some v => return (c.name, v)
    | none => throw c.missing
  return ⟨cells⟩

namespace Row

/-- The value of the first column of a given name. -/
def get? (r : Row) (name : String) : Option Value :=
  (r.cells.find? fun c => c.1 == name).map (·.2)

/-- The row as JSON text, an object with the columns in order. -/
def jsonText (r : Row) : List Char :=
  Json.objectText (r.cells.map fun c => (c.1, c.2.jsonText))

/-- The row as a JSON value. -/
def toJson (r : Row) : Json :=
  Json.ofMembers (r.cells.map fun c => (c.1, c.2.toJson))

/-- Rows as a JSON array. -/
def listText (rows : List Row) : List Char :=
  Json.arrayText (rows.map jsonText)

/-! ### Order -/

/-- The order of values that may be absent: an absent one comes first. -/
def compareCells : Option Value → Option Value → Ordering
  | none, none => .eq
  | none, some _ => .lt
  | some _, none => .gt
  | some v, some w => v.compare w

/-- The order of rows by the columns of given names, the first one being most significant. -/
def compareBy (direction : Direction) : List String → Row → Row → Ordering
  | [], _, _ => .eq
  | name :: rest, a, b =>
    match compareCells (a.get? name) (b.get? name), direction with
    | .eq, _ => compareBy direction rest a b
    | o, .up => o
    | o, .down => o.swap

/-- Rows in the given order; rows that compare equal stay as they are. -/
def sort (order : SortOrder) (rows : List Row) : List Row :=
  rows.mergeSort fun a b =>
    (compareBy order.direction (order.columns.map Column.name) a b).isLE

end Row

end CampusQuery
