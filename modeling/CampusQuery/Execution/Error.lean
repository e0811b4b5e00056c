import CampusQuery.Field

/-!
# Errors of execution

A query that keeps all rules on a catalog fails in execution only by its number of rows. The other
errors arise where a query is executed without the rules having been checked.
-/

namespace CampusQuery

/-- Why the execution of a query fails. -/
inductive ExecutionError where
  | unknownDataset (id : String)
  /-- A record has no value for a field that the query reads. -/
  | missingValue (field : Field)
  /-- A column is not computed by the grouping. -/
  | notComputed (name : String)
  /-- A field that is aggregated as a number holds a string. -/
  | notNumeric (field : Field)
  /-- The result has more rows than allowed. -/
  | tooManyRows (limit : Nat) (actual : Nat)
deriving DecidableEq

/-- The wording of the error. -/
def ExecutionError.message : ExecutionError → String
  | unknownDataset id => s!"dataset {id} does not exist"
  | missingValue field => "record has no value for field " ++ field.label
  | notComputed name => s!"apply key {name} is not computed"
  | notNumeric field => "Type mismatch: " ++ field.label ++ " holds a non-numeric value"
  | tooManyRows limit actual => s!"{actual} rows exceed the limit of {limit}"

end CampusQuery
