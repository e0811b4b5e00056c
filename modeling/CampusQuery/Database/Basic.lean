import CampusQuery.Archive.Basic
import CampusQuery.Course.Section
import CampusQuery.Database.Config
import CampusQuery.Database.Response

/-!
# The database

A database is a catalog of datasets with a configuration. If the configuration names a directory,
every dataset is also kept in an archive there, and `Database.start` takes the catalog from it.

An operation that changes the catalog first makes the changed catalog, then changes the archive,
and only then puts the changed catalog in place of the old one. So an operation that fails, at
whatever step, leaves the catalog as it was.
-/

namespace CampusQuery

/-- A catalog of datasets with a configuration. -/
structure Database where
  /-- The configuration. -/
  config : Config
  /-- The datasets that queries see. -/
  catalog : Catalog

namespace Database

/-- A database without datasets. -/
def new (config : Config) : Database :=
  ⟨config, .empty⟩

/-- A database with the datasets of its archive, as far as they can be stored. -/
def start (config : Config) (disk : Disk) : Except StoreError Database :=
  match config.dataDir with
  | none => .ok (new config)
  | some _ => (Archive.load disk).map fun datasets => ⟨config, Archive.catalogOf datasets⟩

/-- What an operation that changes the catalog yields: its outcome, the database after it, and the
disk after it. -/
abbrev Change (α : Type) : Type :=
  Except StoreError α × Database × Disk

/-- An operation that fails without having touched anything. -/
def refuse {α : Type} (db : Database) (disk : Disk) (e : StoreError) : Change α :=
  (.error e, db, disk)

/-- Puts a changed catalog in place once the archive has been changed too. -/
def publish {α : Type} (db : Database) (disk : Disk) (next : Catalog) (value : α)
    (archive : Disk → Except StoreError Unit × Disk) : Change α :=
  match db.config.dataDir with
  | none => (.ok value, { db with catalog := next }, disk)
  | some _ =>
    match archive disk with
    | (.ok (), disk') => (.ok value, { db with catalog := next }, disk')
    | (.error e, disk') => (.error e, db, disk')

/-- Stores a dataset and yields the ids of all datasets. -/
def add (db : Database) (disk : Disk) (d : Dataset) : Change (List String) :=
  match db.catalog.add d with
  | .error e => db.refuse disk e
  | .ok next => db.publish disk next next.ids fun disk => Archive.save disk d

/-- Stores the dataset of the sections in course files and yields the ids of all datasets. -/
def addCourseFiles (db : Database) (disk : Disk) (id : String) (texts : List String) :
    Change (List String) :=
  match checkId id with
  | .error e => db.refuse disk e
  | .ok () =>
    match Course.parseFiles texts with
    | .error fault => db.refuse disk (.undecodable fault)
    | .ok records => db.add disk ⟨id, .courses, records.toArray⟩

/-- Takes a dataset out and yields its id. -/
def remove (db : Database) (disk : Disk) (id : String) : Change String :=
  match db.catalog.remove id with
  | .error e => db.refuse disk e
  | .ok (d, next) => db.publish disk next d.id fun disk => Archive.remove disk d.id d.kind

/-- The listing of all datasets, in the order of their ids. -/
def list (db : Database) : List DatasetInfo :=
  db.catalog.infos

/-- The rows of a query given as a JSON value. -/
def query (db : Database) (raw : Json) : Except QueryError (List Row) :=
  Query.runJson raw db.catalog db.config.maxResults

/-- The rows of a query given as JSON text. -/
def queryText (db : Database) (text : String) : Except QueryError (List Row) :=
  Query.runText text db.catalog db.config.maxResults

end Database

end CampusQuery
