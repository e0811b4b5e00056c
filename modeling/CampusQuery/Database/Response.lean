import CampusQuery.Catalog.Basic
import CampusQuery.Execution.Run

/-!
# Responses

The outcome of an operation is answered by a status and a body. Success is status 200 with a
`result`; a failure carries the wording of its `error` under status 404 if a dataset is missing or
a result is too large, and under 400 otherwise.
-/

namespace CampusQuery

/-- Why an operation of a database fails. -/
inductive DatabaseError where
  /-- A query failed. -/
  | query (error : QueryError)
  /-- An operation on the stored datasets failed. -/
  | store (error : StoreError)
deriving DecidableEq

namespace DatabaseError

/-- The wording of the error. -/
def message : DatabaseError → String
  | query e => e.message
  | store e => e.message

/-- The status under which the error is answered. -/
def status : DatabaseError → Nat
  | query (.grammar _) => 400
  | query (.semantic _) => 400
  | query (.tooManyRows ..) => 404
  | store (.notFound _) => 404
  | store _ => 400

end DatabaseError

/-- The body of a response. -/
inductive Body where
  /-- What the operation yielded. -/
  | result (value : Json)
  /-- Why the operation failed. -/
  | error (message : String)

/-- The answer to an operation. -/
structure Response where
  /-- The status. -/
  status : Nat
  /-- The body. -/
  body : Body

namespace Response

/-- The answer to an operation that succeeded. -/
def success (value : Json) : Response := ⟨200, .result value⟩

/-- The answer to an operation that failed. -/
def failure (e : DatabaseError) : Response := ⟨e.status, .error e.message⟩

/-- The answer to an operation. -/
def ofOutcome : Except DatabaseError Json → Response
  | .ok value => success value
  | .error e => failure e

/-- Whether the operation succeeded. -/
def isSuccess (r : Response) : Bool :=
  r.status == 200

end Response

namespace Body

/-- Whether the body holds a result. -/
def isResult : Body → Bool
  | result _ => true
  | error _ => false

/-- The body as a JSON value. -/
def toJson : Body → Json
  | result value => .object [("result", value)]
  | error message => .object [("error", .string message)]

end Body

end CampusQuery
