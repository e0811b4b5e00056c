import CampusQuery.Json.Decode
import CampusQuery.Query.Basic

/-!
# Reading queries

A query is written as a JSON object with a `WHERE` clause, an `OPTIONS` clause and at most a
`TRANSFORMATIONS` clause. `Query.ofJson` reads it clause by clause and reports the first part that
is not of the prescribed form; `FormError` names every way in which a part can fail to be.

Reading decides only the form of a query. Whether its parts agree with each other and with the
datasets at hand is the matter of `CampusQuery.Query.Agreement`.
-/

namespace CampusQuery

/-- A clause that lists column keys. -/
inductive Clause where
  | columns
  | order
deriving DecidableEq

/-- The keyword of a clause. -/
def Clause.keyword : Clause → String
  | columns => "COLUMNS"
  | order => "ORDER"

/-- What in a query is not of the prescribed form. -/
inductive FormError where
  | notJson
  | notAnObject
  | missingWhere
  | missingOptions
  | excessKey (key : String)
  | whereNotAnObject
  | filterNotAnObject
  | filterSize (count : Nat)
  | unknownFilter (key : String)
  | emptyLogic (connective : Connective)
  /-- A part that should be an object of one member is none. -/
  | notOneMember (part : String)
  /-- A part that should have one member has another number of them. -/
  | memberCount (part : String) (count : Nat)
  | numericKeyNeeded (comparison : Comparison) (key : String)
  | numberNeeded (comparison : Comparison)
  | stringKeyNeeded (key : String)
  | stringNeeded
  | pattern (error : NameError)
  | optionsNotAnObject
  | missingColumns
  | unknownOption (key : String)
  | columnsNotAnArray
  | noColumns
  | columnNotAString (clause : Clause)
  | badColumn (clause : Clause) (error : NameError)
  | emptyColumn (clause : Clause)
  | orderIncomplete
  | orderExcess
  | badDirection
  | badOrderKeys
  | badOrder
  | groupingNotAnObject
  | groupingIncomplete
  | groupingExcess
  | badGroup
  | groupKeyNotAString
  | badGroupKey (error : NameError)
  | badApply
  | badRuleName (name : String)
  | unknownAggregation (keyword : String)
  | targetNotAString (aggregation : Aggregation)
  | badTarget (aggregation : Aggregation) (error : NameError)
deriving DecidableEq

/-- The wording of the error. -/
def FormError.message : FormError → String
  | notJson => "Query is not valid JSON"
  | notAnObject => "Query must be an object"
  | missingWhere => "Missing WHERE in query"
  | missingOptions => "Missing OPTIONS in query"
  | excessKey key => s!"Excess key in query: {key}"
  | whereNotAnObject => "WHERE must be an object"
  | filterNotAnObject => "FILTER must be an object"
  | filterSize count => s!"FILTER must contain exactly one key, found {count}"
  | unknownFilter key => s!"Invalid FILTER key: {key}"
  | emptyLogic connective => connective.keyword ++ " must be a non-empty array"
  | notOneMember part => s!"{part} must be an object"
  | memberCount part count => s!"{part} must contain exactly one key, found {count}"
  | numericKeyNeeded comparison key =>
    comparison.keyword ++ s!" requires a numeric field key, got '{key}'"
  | numberNeeded comparison => comparison.keyword ++ " requires a numeric value"
  | stringKeyNeeded key => s!"IS requires a string field key, got '{key}'"
  | stringNeeded => "IS requires a string value"
  | pattern error => error.message
  | optionsNotAnObject => "OPTIONS must be an object"
  | missingColumns => "Missing COLUMNS in OPTIONS"
  | unknownOption key => s!"Invalid key in OPTIONS: {key}"
  | columnsNotAnArray => "COLUMNS must be an array"
  | noColumns => "COLUMNS must contain at least one key"
  | columnNotAString clause => clause.keyword ++ " keys must be strings"
  | badColumn clause error => "Invalid " ++ clause.keyword ++ " key: " ++ error.message
  | emptyColumn clause => clause.keyword ++ " keys cannot be empty"
  | orderIncomplete => "ORDER must contain 'dir' and 'keys'"
  | orderExcess => "ORDER may only contain 'dir' and 'keys'"
  | badDirection => "ORDER 'dir' must be \"UP\" or \"DOWN\""
  | badOrderKeys => "ORDER 'keys' must be a non-empty array"
  | badOrder => "ORDER must be a key or a \x7b dir, keys \x7d object"
  | groupingNotAnObject => "TRANSFORMATIONS must be an object"
  | groupingIncomplete => "TRANSFORMATIONS must contain GROUP and APPLY"
  | groupingExcess => "TRANSFORMATIONS may only contain GROUP and APPLY"
  | badGroup => "GROUP must be a non-empty array"
  | groupKeyNotAString => "GROUP keys must be strings"
  | badGroupKey error => "Invalid GROUP key: " ++ error.message
  | badApply => "APPLY must be a non-empty array"
  | badRuleName name => s!"applykey '{name}' must be non-empty and cannot contain an underscore"
  | unknownAggregation keyword => s!"Invalid APPLYTOKEN: {keyword}"
  | targetNotAString aggregation => aggregation.keyword ++ " target must be a string"
  | badTarget aggregation error =>
    "Invalid " ++ aggregation.keyword ++ " key: " ++ error.message

namespace Query

/-! ### The filter -/

/-- The only member of a part that should have just one. -/
def oneMember (part : String) : Json → Except FormError (String × Json)
  | .object [member] => .ok member
  | .object members => .error (.memberCount part members.length)
  | _ => .error (.notOneMember part)

/-- A comparison of a numeric field with a number. -/
def readComparison (c : Comparison) (body : Json) : Except FormError Filter := do
  let (name, value) ← oneMember c.keyword body
  match FieldKey.parse name with
  | .ok key =>
    if key.field.isNumeric then
      match value with
      | .number n => return .compare c key n.value
      | _ => throw (.numberNeeded c)
    else throw (.numericKeyNeeded c name)
  | .error _ => throw (.numericKeyNeeded c name)

/-- A match of a string field with a pattern. -/
def readLike (body : Json) : Except FormError Filter := do
  let (name, value) ← oneMember "IS" body
  match FieldKey.parse name with
  | .ok key =>
    if key.field.isNumeric then throw (.stringKeyNeeded name)
    else
      match value with
      | .string s =>
        match Pattern.parse s with
        | .ok pattern => return .like key pattern
        | .error error => throw (.pattern error)
      | _ => throw .stringNeeded
  | .error _ => throw (.stringKeyNeeded name)

mutual

/-- A filter: an object with one member, whose name is a connective, a comparison, `IS` or
`NOT`. -/
def readFilter : Json → Except FormError Filter
  | .object [(key, body)] => readCondition key body
  | .object members => .error (.filterSize members.length)
  | _ => .error .filterNotAnObject

/-- The condition of a given keyword. -/
def readCondition (key : String) (body : Json) : Except FormError Filter :=
  if key = "AND" then readLogic .and body
  else if key = "OR" then readLogic .or body
  else if key = "LT" then readComparison .lt body
  else if key = "GT" then readComparison .gt body
  else if key = "EQ" then readComparison .eq body
  else if key = "IS" then readLike body
  else if key = "NOT" then (readFilter body).map .not
  else .error (.unknownFilter key)

/-- The filters that a connective joins, of which there is at least one. -/
def readLogic (c : Connective) : Json → Except FormError Filter
  | .array (item :: items) => (readFilters (item :: items)).map (.logic c)
  | _ => .error (.emptyLogic c)

/-- The filters of a list. -/
def readFilters : List Json → Except FormError (List Filter)
  | [] => .ok []
  | item :: items => do
    let filter ← readFilter item
    let filters ← readFilters items
    return filter :: filters

end

/-- The condition of a `WHERE` clause, none if the clause is empty. -/
def readWhere : Json → Except FormError (Option Filter)
  | .object [] => .ok none
  | .object members => (readFilter (.object members)).map some
  | _ => .error .whereNotAnObject

/-! ### The options -/

/-- The key of a column: a field key if it holds an underscore, else the name of a computed
value. -/
def readColumn (clause : Clause) : Json → Except FormError Column
  | .string key =>
    if key.toList.contains '_' then
      match FieldKey.parse key with
      | .ok fieldKey => .ok (.field fieldKey)
      | .error error => .error (.badColumn clause error)
    else if key = "" then .error (.emptyColumn clause)
    else .ok (.computed key)
  | _ => .error (.columnNotAString clause)

/-- The columns of a list of keys. -/
def readColumns (clause : Clause) : List Json → Except FormError (List Column)
  | [] => .ok []
  | item :: items => do
    let column ← readColumn clause item
    let columns ← readColumns clause items
    return column :: columns

/-- The columns of a list without repetitions, each at its first place. -/
def distinctColumns (columns : List Column) : List Column :=
  columns.foldl (fun kept c => if kept.contains c then kept else kept ++ [c]) []

/-- The columns of the result; one that is named again stays at its first place. -/
def readColumnList : Json → Except FormError (List Column)
  | .array [] => .error .noColumns
  | .array items => (readColumns .columns items).map distinctColumns
  | _ => .error .columnsNotAnArray

/-- The direction of an order. -/
def readDirection : Json → Except FormError Direction
  | .string s =>
    if s = "UP" then .ok .up else if s = "DOWN" then .ok .down else .error .badDirection
  | _ => .error .badDirection

/-- The order of the rows: a key, or a direction with a list of keys. -/
def readOrder : Json → Except FormError SortOrder
  | .string key => (readColumn .order (.string key)).map .single
  | .object members =>
    match Json.findMember? "dir" members, Json.findMember? "keys" members with
    | some dir, some keys => do
      if members.length ≠ 2 then throw .orderExcess
      let direction ← readDirection dir
      match keys with
      | .array (item :: items) =>
        return .directional direction (← readColumns .order (item :: items))
      | _ => throw .badOrderKeys
    | _, _ => .error .orderIncomplete
  | _ => .error .badOrder

/-- The columns and the order of the result. -/
def readOptions : Json → Except FormError (List Column × Option SortOrder)
  | .object members =>
    match Json.findMember? "COLUMNS" members with
    | none => .error .missingColumns
    | some columns =>
      match members.find? fun m => m.1 ≠ "COLUMNS" ∧ m.1 ≠ "ORDER" with
      | some extra => .error (.unknownOption extra.1)
      | none => do
        let columns ← readColumnList columns
        match Json.findMember? "ORDER" members with
        | none => return (columns, none)
        | some order => return (columns, some (← readOrder order))
  | _ => .error .optionsNotAnObject

/-! ### The transformations -/

/-- A field that records are grouped by. -/
def readGroupKey : Json → Except FormError FieldKey
  | .string key =>
    match FieldKey.parse key with
    | .ok fieldKey => .ok fieldKey
    | .error error => .error (.badGroupKey error)
  | _ => .error .groupKeyNotAString

/-- A computed value: its name, and in it the aggregation with its target. -/
def readRule (item : Json) : Except FormError Rule := do
  let (name, body) ← oneMember "APPLYRULE" item
  if name = "" ∨ name.toList.contains '_' then throw (.badRuleName name)
  let (keyword, target) ← oneMember "APPLYTOKEN" body
  match Aggregation.ofKeyword? keyword with
  | none => throw (.unknownAggregation keyword)
  | some aggregation =>
    match target with
    | .string key =>
      match FieldKey.parse key with
      | .ok fieldKey => return ⟨name, aggregation, fieldKey⟩
      | .error error => throw (.badTarget aggregation error)
    | _ => throw (.targetNotAString aggregation)

/-- The items of an array that is not empty, each read in the same way. -/
def readSome {α : Type} (empty : FormError) (read : Json → Except FormError α) :
    Json → Except FormError (List α)
  | .array (item :: items) => (item :: items).mapM read
  | _ => .error empty

/-- The grouping of the records. -/
def readGrouping : Json → Except FormError Grouping
  | .object members =>
    match Json.findMember? "GROUP" members, Json.findMember? "APPLY" members with
    | some group, some apply => do
      if members.length ≠ 2 then throw .groupingExcess
      let keys ← readSome .badGroup readGroupKey group
      let rules ← readSome .badApply readRule apply
      return ⟨keys, rules⟩
    | _, _ => .error .groupingIncomplete
  | _ => .error .groupingNotAnObject

/-! ### The query -/

/-- A query, read clause by clause. -/
def ofJson : Json → Except FormError Query
  | .object members =>
    match Json.findMember? "WHERE" members, Json.findMember? "OPTIONS" members with
    | none, _ => .error .missingWhere
    | some _, none => .error .missingOptions
    | some whereClause, some options =>
      match members.find? fun m =>
        m.1 ≠ "WHERE" ∧ m.1 ≠ "OPTIONS" ∧ m.1 ≠ "TRANSFORMATIONS" with
      | some extra => .error (.excessKey extra.1)
      | none => do
        let filter ← readWhere whereClause
        let (columns, order) ← readOptions options
        match Json.findMember? "TRANSFORMATIONS" members with
        | none => return ⟨filter, columns, order, none⟩
        | some grouping => return ⟨filter, columns, order, some (← readGrouping grouping)⟩
  | _ => .error .notAnObject

/-- A query given as JSON text. -/
def parse (text : String) : Except FormError Query :=
  match Json.parse text with
  | .ok raw => ofJson raw
  | .error _ => .error .notJson

end Query

end CampusQuery
