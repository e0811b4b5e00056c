import CampusQuery.Catalog.Basic
import CampusQuery.Execution.Row
import CampusQuery.Execution.Selection
import CampusQuery.Query.Agreement
import CampusQuery.Query.Reading

/-!
# Running queries

`Query.execute` runs a query on a dataset of a catalog: it selects records, groups them if the
query asks for it, refuses a result of more rows than allowed, reads the columns, and orders the
rows. `Query.run` first finds the dataset by the rules of agreement, and is the whole way from a
query to its answer; `Query.runJson` and `Query.runText` also read the query.

A `QueryError` reports a failure by the stage at which it occurred.
-/

namespace CampusQuery

/-- How many rows a result may have unless told otherwise. -/
def defaultMaxResults : Nat := 5000

/-- The failure of a query. -/
inductive QueryError where
  /-- The query is not of the prescribed form. -/
  | grammar (reason : String)
  /-- The query does not agree with itself or the catalog. -/
  | semantic (reason : String)
  /-- The result has more rows than allowed. -/
  | tooManyRows (limit : Nat) (actual : Nat)
deriving DecidableEq

namespace QueryError

/-- The wording of the error. -/
def message : QueryError → String
  | grammar reason => "Invalid query: " ++ reason
  | semantic reason => "Invalid query: " ++ reason
  | tooManyRows limit actual =>
    s!"More than {limit} results found ({actual}). Try to narrow your search."

/-- The failure of a query of the wrong form. -/
def ofForm (e : FormError) : QueryError := grammar e.message

/-- The failure of a query that breaks a rule. -/
def ofRule (e : RuleError) : QueryError := semantic e.message

/-- The failure of a query in execution. -/
def ofExecution : ExecutionError → QueryError
  | .tooManyRows limit actual => tooManyRows limit actual
  | e => semantic e.message

end QueryError

namespace Query

/-- The positions of the records that the query selects. -/
def selected (q : Query) (records : Array Record) : List Nat :=
  match q.filter with
  | some filter => filter.select records
  | none => List.range records.size

/-- What the rows of the result are read from. -/
def entries (q : Query) (records : Array Record) (positions : List Nat) :
    Except ExecutionError (List Entry) :=
  match q.grouping with
  | some grouping => (grouping.rows records positions).map fun rows => rows.map .group
  | none => .ok ((recordsAt records positions).map .record)

/-- The rows in the order that the query asks for. -/
def arrange (q : Query) (rows : List Row) : List Row :=
  match q.order with
  | some order => Row.sort order rows
  | none => rows

/-- The rows of the query on a list of records. -/
def rowsOf (q : Query) (maxResults : Nat) (records : Array Record) :
    Except ExecutionError (List Row) := do
  let entries ← q.entries records (q.selected records)
  if maxResults < entries.length then throw (.tooManyRows maxResults entries.length)
  let rows ← entries.mapM (Entry.project q.columns)
  return q.arrange rows

/-- The rows of the query on a dataset of a catalog. -/
def execute (q : Query) (catalog : Catalog) (maxResults : Nat) (dataset : String) :
    Except ExecutionError (List Row) :=
  match catalog.find? dataset with
  | some d => q.rowsOf maxResults d.records
  | none => .error (.unknownDataset dataset)

/-- The rows of the query on the dataset that it names. -/
def run (q : Query) (catalog : Catalog) (maxResults : Nat) : Except QueryError (List Row) :=
  match q.resolve catalog with
  | .ok dataset => (q.execute catalog maxResults dataset).mapError .ofExecution
  | .error e => .error (.ofRule e)

/-- The rows of a query given as a JSON value. -/
def runJson (raw : Json) (catalog : Catalog) (maxResults : Nat) :
    Except QueryError (List Row) :=
  match ofJson raw with
  | .ok q => q.run catalog maxResults
  | .error e => .error (.ofForm e)

/-- The rows of a query given as JSON text. -/
def runText (text : String) (catalog : Catalog) (maxResults : Nat) :
    Except QueryError (List Row) :=
  match parse text with
  | .ok q => q.run catalog maxResults
  | .error e => .error (.ofForm e)

end Query

end CampusQuery
