import CampusQuery.Record.Text
import CampusQuery.Text.Blank
import CampusQuery.FieldKey

/-!
# Datasets

A dataset is a named list of records of one kind. Two conditions make one fit to be stored. Its id
is not empty, not all blank, and free of underscores, which separate the id from the field in a
field key (`checkId`); and every record has exactly the fields of the kind, each with a value of the
field's type (`Dataset.checkSchema`). Each check reports the first thing that is wrong.
-/

namespace CampusQuery

/-! ### Ids -/

/-- What is wrong with the id of a dataset. -/
inductive IdFault where
  | empty
  | blank
  | underscore
deriving DecidableEq

/-- The wording of the fault. -/
def IdFault.message : IdFault → String
  | empty => "id cannot be empty"
  | blank => "id cannot be only whitespace"
  | underscore => "id cannot contain an underscore"

/-- The first fault of an id. -/
def idFault? (id : String) : Option IdFault :=
  if id.toList = [] then some .empty
  else if id.toList.all isBlank then some .blank
  else if id.toList.contains '_' then some .underscore
  else none

/-! ### Errors -/

/-- What is wrong with a record of a dataset. -/
inductive SchemaFault where
  /-- The kind has no such field. -/
  | unexpected (field : Field)
  /-- A field of the kind has no value. -/
  | missing (field : Field)
  /-- A field's value is of the other type. -/
  | wrongType (field : Field)
deriving DecidableEq

/-- The wording of the fault. -/
def SchemaFault.message : SchemaFault → String
  | unexpected field => "unexpected field " ++ field.label
  | missing field => "missing field " ++ field.label
  | wrongType field => "field " ++ field.label ++ " has the wrong type"

/-- Why an operation on stored datasets fails. -/
inductive StoreError where
  | invalidId (id : String) (fault : IdFault)
  | duplicate (id : String)
  | notFound (id : String)
  | noRecords (id : String)
  | schemaMismatch (id : String) (kind : Kind) (row : Nat) (fault : SchemaFault)
  /-- The directory of the datasets could not be used. -/
  | inputOutput
  /-- A text could not be decoded. -/
  | undecodable (fault : Fault)
deriving DecidableEq

namespace StoreError

/-- The wording of the error. -/
def message : StoreError → String
  | invalidId id fault => s!"Invalid dataset id '{id}': " ++ fault.message
  | duplicate id => s!"Dataset already exists: {id}"
  | notFound id => s!"Dataset not found: {id}"
  | noRecords id => s!"Dataset {id} contains no valid sections"
  | schemaMismatch id kind row fault =>
    s!"Dataset {id} does not match the " ++ kind.name ++ s!" schema at row {row}: " ++
      fault.message
  | inputOutput => "IO error"
  | undecodable _ => "Serialization error"

/-- Whether the error says that a dataset is missing. -/
def isNotFound : StoreError → Bool
  | notFound _ => true
  | _ => false

end StoreError

/-- Refuses an id with a fault. -/
def checkId (id : String) : Except StoreError Unit :=
  match idFault? id with
  | some fault => .error (.invalidId id fault)
  | none => .ok ()

/-! ### Datasets -/

/-- A named list of records of one kind. -/
structure Dataset where
  /-- The name of the dataset in queries. -/
  id : String
  /-- The kind of its records. -/
  kind : Kind
  /-- The records. -/
  records : Array Record

/-- The first fault of a record of a given kind: a field that the kind does not have, or else a
field of the kind without a value or with one of the wrong type. -/
def Record.schemaFault? (kind : Kind) (r : Record) : Option SchemaFault :=
  match r.fields.find? fun f => !f.belongsTo kind with
  | some f => some (.unexpected f)
  | none => kind.fields.findSome? fun f =>
    match r.get? f with
    | none => some (.missing f)
    | some v => if v.type = f.valueType then none else some (.wrongType f)

namespace Dataset

/-- The number of records. -/
def size (d : Dataset) : Nat :=
  d.records.size

/-- The first row with a fault, and its fault. -/
def schemaFault? (d : Dataset) : Option (Nat × SchemaFault) :=
  d.records.toList.zipIdx.findSome? fun (r, row) => (r.schemaFault? d.kind).map (row, ·)

/-- Refuses a dataset with a record that does not fit its kind. -/
def checkSchema (d : Dataset) : Except StoreError Unit :=
  match d.schemaFault? with
  | some (row, fault) => .error (.schemaMismatch d.id d.kind row fault)
  | none => .ok ()

end Dataset

/-! ### Listings -/

/-- What a listing says of a dataset. -/
structure DatasetInfo where
  /-- The name of the dataset. -/
  id : String
  /-- The kind of its records. -/
  kind : Kind
  /-- The number of its records. -/
  rows : Nat
deriving DecidableEq

/-- What a listing says of a dataset. -/
def Dataset.info (d : Dataset) : DatasetInfo :=
  ⟨d.id, d.kind, d.size⟩

namespace DatasetInfo

/-- The entry of a listing as a JSON value. -/
def toJson (i : DatasetInfo) : Json :=
  .object [("id", .string i.id), ("kind", .string i.kind.name),
    ("numRows", .number (.integer i.rows))]

/-- The kind of a given name. -/
def kindOfTree (t : Tree) : Except Fault Kind := do
  match Kind.ofName? (← t.toString) with
  | some kind => return kind
  | none => throw .mismatch

/-- An entry as far as its members have been read. -/
structure Partial where
  id : Option String
  kind : Option Kind
  rows : Option Nat

/-- The entry whose members are all known. -/
def ofPartial : Partial → Except Fault DatasetInfo
  | ⟨some id, some kind, some rows⟩ => .ok ⟨id, kind, rows⟩
  | _ => .error .mismatch

/-- Reads the members of an object, each known name at most once. -/
def ofMembers (p : Partial) : Members → Except Fault DatasetInfo
  | .done => ofPartial p
  | .cut => .error .malformed
  | .cons name value rest => do
    let name ← Tree.textOf name
    if name = "id" then
      if p.id.isSome then throw .mismatch
      ofMembers { p with id := ← value.toString } rest
    else if name = "kind" then
      if p.kind.isSome then throw .mismatch
      ofMembers { p with kind := ← kindOfTree value } rest
    else if name = "numRows" then
      if p.rows.isSome then throw .mismatch
      ofMembers { p with rows := ← value.toUnsigned } rest
    else
      value.skip
      ofMembers p rest

/-- Reads the entry given as an array of its three parts. -/
def ofItems : Items → Except Fault DatasetInfo
  | .cons id rest => do
    let id ← id.toString
    match rest with
    | .cons kind rest =>
      let kind ← kindOfTree kind
      match rest with
      | .cons rows rest =>
        let rows ← rows.toUnsigned
        Tree.endItems rest
        return ⟨id, kind, rows⟩
      | .done => throw .mismatch
      | .cut => throw .malformed
    | .done => throw .mismatch
    | .cut => throw .malformed
  | .done => .error .mismatch
  | .cut => .error .malformed

/-- Reads an entry of a listing: an object with its three members, or an array of them. -/
def ofTree : Tree → Except Fault DatasetInfo
  | .object members => ofMembers ⟨none, none, none⟩ members
  | .array items => ofItems items
  | t => .error t.unfit

/-- Reads a text as an entry of a listing. -/
def parse (text : String) : Except Fault DatasetInfo :=
  Json.decode ofTree text

end DatasetInfo

end CampusQuery
