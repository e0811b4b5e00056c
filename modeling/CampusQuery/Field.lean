import CampusQuery.Value

/-!
# Fields and the kinds of dataset

A dataset is of one of two kinds, and its kind fixes which fields its records have and in which
order they are checked (`Kind.fields`). The fields of all kinds stand in one enumeration,
`Field.all`, numeric fields first; records are written in that order.
-/

namespace CampusQuery

/-- The kind of a dataset. -/
inductive Kind where
  /-- Course sections. -/
  | courses
  /-- Rooms, with the data of their buildings. -/
  | rooms
deriving DecidableEq

namespace Kind

/-- Both kinds. -/
def all : List Kind := [courses, rooms]

/-- The name of a kind. -/
def name : Kind → String
  | courses => "courses"
  | rooms => "rooms"

/-- The kind of a given name. -/
def ofName? (name : String) : Option Kind :=
  all.find? (·.name == name)

end Kind

/-- A field of a record. -/
inductive Field where
  | avg | pass | fail | audit | year | lat | lon | seats
  | dept | id | instructor | title | uuid
  | fullname | shortname | number | name | address | type | furniture | href
deriving DecidableEq

namespace Field

/-- All fields, in the order in which records are written. -/
def all : List Field :=
  [avg, pass, fail, audit, year, lat, lon, seats,
   dept, id, instructor, title, uuid,
   fullname, shortname, number, name, address, type, furniture, href]

/-- The place of a field in `all`. -/
def index : Field → Fin 21
  | avg => 0 | pass => 1 | fail => 2 | audit => 3 | year => 4 | lat => 5 | lon => 6 | seats => 7
  | dept => 8 | id => 9 | instructor => 10 | title => 11 | uuid => 12
  | fullname => 13 | shortname => 14 | number => 15 | name => 16 | address => 17 | type => 18
  | furniture => 19 | href => 20

/-- The name of a field, as it stands in files and queries. -/
def label : Field → String
  | avg => "avg" | pass => "pass" | fail => "fail" | audit => "audit" | year => "year"
  | lat => "lat" | lon => "lon" | seats => "seats"
  | dept => "dept" | id => "id" | instructor => "instructor" | title => "title" | uuid => "uuid"
  | fullname => "fullname" | shortname => "shortname" | number => "number" | name => "name"
  | address => "address" | type => "type" | furniture => "furniture" | href => "href"

/-- The field of a given name. -/
def ofLabel? (label : String) : Option Field :=
  all.find? (·.label == label)

/-- What a field holds. -/
def valueType : Field → FieldType
  | avg | pass | fail | audit | year | lat | lon | seats => .numeric
  | _ => .text

/-- Whether a field holds numbers. -/
def isNumeric (f : Field) : Bool :=
  f.valueType == .numeric

theorem all_get_index (f : Field) : all.get f.index = f := by
  cases f <;> rfl

theorem index_injective {f g : Field} (h : f.index = g.index) : f = g := by
  rw [← all_get_index f, ← all_get_index g, h]

/-- Every place in `all` is that of a field. -/
theorem exists_index_eq (i : Fin 21) : ∃ f : Field, f.index = i := by
  refine ⟨all.get i, ?_⟩
  revert i
  decide

theorem mem_all (f : Field) : f ∈ all := by
  cases f <;> decide

end Field

/-- The fields of a kind, in the order in which a record is checked. -/
def Kind.fields : Kind → List Field
  | courses =>
    [.dept, .id, .avg, .instructor, .title, .pass, .fail, .audit, .uuid, .year]
  | rooms =>
    [.fullname, .shortname, .number, .name, .address, .lat, .lon, .seats, .type, .furniture, .href]

/-- Whether records of a kind have the field. -/
def Field.belongsTo (f : Field) (kind : Kind) : Bool :=
  kind.fields.contains f

end CampusQuery
