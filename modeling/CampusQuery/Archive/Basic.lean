import CampusQuery.Archive.Disk
import CampusQuery.Catalog.Basic

/-!
# The archive of datasets

Each dataset of an archive is a file `<id>_<kind>.json` with the JSON array of its records. An id
holds no underscore, so the last underscore of a file's name before its extension separates the id
from the kind (`Archive.parseFileName?` reads what `Archive.fileName` writes).

Saving writes the file under a temporary name and renames it into place. Loading takes all files
whose name and text can be read, in the order of their ids and then of their kinds, whatever the
order in which the directory lists them.
-/

namespace CampusQuery

namespace Archive

/-! ### File names -/

/-- The name of the file of a dataset. -/
def fileName (id : String) (kind : Kind) : String :=
  id ++ "_" ++ kind.name ++ ".json"

/-- The name under which a file is written before it is renamed. -/
def temporaryName (name : String) : String :=
  name ++ ".tmp"

/-- The two sides of the last place of a character in a text. -/
def splitLast? (mark : Char) (text : List Char) : Option (List Char × List Char) :=
  match text.reverse.dropWhile (· != mark) with
  | [] => none
  | _ :: front => some (front.reverse, (text.reverse.takeWhile (· != mark)).reverse)

/-- A file's name without its extension `json`. A dot at the front of a name begins no
extension. -/
def stem? (name : String) : Option (List Char) :=
  match splitLast? '.' name.toList with
  | some (stem, extension) =>
    if stem ≠ [] ∧ extension = "json".toList then some stem else none
  | none => none

/-- The id and kind of the dataset of a file, by the file's name. -/
def parseFileName? (name : String) : Option (String × Kind) :=
  (stem? name).bind fun stem =>
    (splitLast? '_' stem).bind fun (id, kind) =>
      if idFault? (String.ofList id) = none then
        (Kind.ofName? (String.ofList kind)).map fun k => (String.ofList id, k)
      else none

/-! ### Saving and removing -/

/-- The text of the file of a dataset. -/
def fileText (d : Dataset) : String :=
  String.ofList (Record.listText d.records.toList)

/-- The steps that save a dataset. -/
def saveSteps (d : Dataset) : List Disk.Step :=
  [.makeRoot,
   .write (temporaryName (fileName d.id d.kind)) (fileText d),
   .rename (temporaryName (fileName d.id d.kind)) (fileName d.id d.kind)]

/-- Saves a dataset; the disk is what the steps made of it, also if one failed. -/
def save (disk : Disk) (d : Dataset) : Except StoreError Unit × Disk :=
  match disk.runSteps (saveSteps d) with
  | (none, next) => (.ok (), next)
  | (some _, next) => (.error .inputOutput, next)

/-- Deletes the file of a dataset. A file that is not there is no error. -/
def remove (disk : Disk) (id : String) (kind : Kind) : Except StoreError Unit × Disk :=
  match disk.runSteps [.remove (fileName id kind)] with
  | (none, next) => (.ok (), next)
  | (some .notFound, next) => (.ok (), next)
  | (some .refused, next) => (.error .inputOutput, next)

/-! ### Loading -/

/-- The dataset of a file, if its name and its text can be read. -/
def loadFile? (name : String) (content : Content) : Option Dataset :=
  (parseFileName? name).bind fun (id, kind) =>
    match content with
    | .file text =>
      match Record.parseList text with
      | .ok records => some ⟨id, kind, records.toArray⟩
      | .error _ => none
    | .directory => none

/-- Whether a dataset comes before another by id and then by kind, or is at the same place. -/
def precedes (a b : Dataset) : Bool :=
  ((compare a.id b.id).then (compare a.kind.name b.kind.name)).isLE

/-- All datasets of the archive, in the order of their ids and kinds. Where there is no directory
there are none. -/
def load (disk : Disk) : Except StoreError (List Dataset) :=
  match disk.list with
  | .ok things => .ok ((things.filterMap fun t => loadFile? t.1 t.2).mergeSort precedes)
  | .error .notFound => .ok []
  | .error .refused => .error .inputOutput

/-- The catalog of the datasets of a list that can be stored one after the other; the others are
passed over. -/
def catalogOf (datasets : List Dataset) : Catalog :=
  datasets.foldl (fun c d => match c.add d with | .ok next => next | .error _ => c) .empty

end Archive

end CampusQuery
