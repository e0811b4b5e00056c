import CampusQuery.Field

/-!
# Field keys

A query names a field of a dataset by a key `<dataset>_<field>`. The dataset's id ends at the first
underscore and is not empty, and a field's name holds no underscore, so a key has exactly one.
`FieldKey.toText` writes the key that `FieldKey.parse` reads.
-/

namespace CampusQuery

/-- Why the text of a name is not understood. -/
inductive NameError where
  /-- The text is not of the form of a field key. -/
  | malformedKey (key : String)
  /-- There is no such field. -/
  | unknownField (name : String)
  /-- There is no such kind of dataset. -/
  | unknownKind (name : String)
  /-- The pattern has an asterisk inside. -/
  | badPattern (pattern : String)
deriving DecidableEq

/-- The wording of the error. -/
def NameError.message : NameError → String
  | malformedKey key => s!"Invalid key '{key}': expected 'idstring_field'"
  | unknownField name => s!"Unknown field: {name}"
  | unknownKind name => s!"Invalid dataset kind: {name}"
  | badPattern pattern =>
    s!"Invalid pattern '{pattern}': asterisks are only allowed at the start or end"

/-- The field of a given name. -/
def Field.parse (label : String) : Except NameError Field :=
  match Field.ofLabel? label with
  | some f => .ok f
  | none => .error (.unknownField label)

/-- The kind of a given name. -/
def Kind.parse (name : String) : Except NameError Kind :=
  match Kind.ofName? name with
  | some k => .ok k
  | none => .error (.unknownKind name)

/-- A field of a named dataset. -/
structure FieldKey where
  /-- The id of the dataset. -/
  dataset : String
  /-- The field. -/
  field : Field
deriving DecidableEq

namespace FieldKey

/-- The key as it stands in a query. -/
def toText (k : FieldKey) : String :=
  k.dataset ++ "_" ++ k.field.label

/-- The two sides of the first underscore of a text. -/
def splitUnderscore? (text : List Char) : Option (List Char × List Char) :=
  match text.dropWhile (· != '_') with
  | [] => none
  | _ :: rest => some (text.takeWhile (· != '_'), rest)

/-- Reads a key: the form first, then the field's name. -/
def parse (key : String) : Except NameError FieldKey :=
  match splitUnderscore? key.toList with
  | none => .error (.malformedKey key)
  | some (dataset, label) =>
    if dataset.isEmpty || label.contains '_' then .error (.malformedKey key)
    else (Field.parse (String.ofList label)).map fun f => ⟨String.ofList dataset, f⟩

end FieldKey

end CampusQuery
