import CampusQuery.Json.Decode
import CampusQuery.Record
import CampusQuery.Text.Blank

/-!
# Course files

A course file is a JSON object whose member `result` lists the sections of a course. A section
becomes a record if it has every attribute that a record of courses needs, in a form that can be
read; other sections are passed over, and so is whatever else the file holds. The section called
`overall` sums up all sections of its course and is dated to the year 1900.

A file whose text is no such object is a fault, and a list of files with such a file among them
yields no records at all.
-/

namespace CampusQuery

namespace Course

/-- The year that the section called `overall` is dated to. -/
def overallYear : Binary64 := .ofInt 1900

/-! ### Attributes -/

/-- An attribute that is read as a string; a number is taken by its text. -/
def text? : Json → Option String
  | .string s => some s
  | .number n => some (String.ofList n.text)
  | _ => none

/-- An attribute that is read as a number; a string is taken by the number that it spells. -/
def number? : Json → Option Binary64
  | .number n => some n.value
  | .string s => readNumber? (trimBlanks s.toList)
  | _ => none

/-- The value of a text attribute of a section. -/
def textOf? (members : List (String × Json)) (name : String) : Option Value :=
  ((Json.findMember? name members).bind text?).map .text

/-- The value of a numeric attribute of a section. -/
def numberOf? (members : List (String × Json)) (name : String) : Option Value :=
  ((Json.findMember? name members).bind number?).map .number

/-- Whether a section sums up its course. -/
def isOverall (members : List (String × Json)) : Bool :=
  match Json.findMember? "Section" members with
  | some (.string s) => s == "overall"
  | _ => false

/-- The year of a section, which has to be present in any case. -/
def year? (members : List (String × Json)) : Option Value :=
  if isOverall members then
    (Json.findMember? "Year" members).map fun _ => .number overallYear
  else numberOf? members "Year"

/-! ### Sections -/

/-- The fields of a record of courses with the values of a section. -/
def sectionValues (members : List (String × Json)) : List (Field × Option Value) :=
  [(.dept, textOf? members "Subject"), (.id, textOf? members "Course"),
   (.avg, numberOf? members "Avg"), (.instructor, textOf? members "Professor"),
   (.title, textOf? members "Title"), (.pass, numberOf? members "Pass"),
   (.fail, numberOf? members "Fail"), (.audit, numberOf? members "Audit"),
   (.uuid, textOf? members "id"), (.year, year? members)]

/-- The record of a section, if the section has all attributes. -/
def recordOf? : Json → Option Record
  | .object members =>
    ((sectionValues members).mapM fun e : Field × Option Value => e.2.map fun v => (e.1, v)).map
      Record.ofEntries
  | _ => none

/-! ### Files -/

/-- Reads the list of sections of a file. -/
def sectionsOfTree (t : Tree) : Except Fault (List Json) :=
  Tree.toListOf (Tree.toJson (maxDepth - 2)) t

/-- Reads the members of a file, of which `result` occurs once and all others are passed over. -/
def sectionsOfMembers (sections : Option (List Json)) : Members → Except Fault (List Json)
  | .done =>
    match sections with
    | some sections => .ok sections
    | none => .error .mismatch
  | .cut => .error .malformed
  | .cons name value rest => do
    let name ← Tree.textOf name
    if name = "result" then
      if sections.isSome then throw .mismatch
      sectionsOfMembers (some (← sectionsOfTree value)) rest
    else
      value.skip
      sectionsOfMembers sections rest

/-- Reads the sections of a file: an object with a member `result`, or an array of just that. -/
def fileOfTree : Tree → Except Fault (List Json)
  | .object members => sectionsOfMembers none members
  | .array .done => .error .mismatch
  | .array .cut => .error .malformed
  | .array (.cons result rest) => do
    let sections ← sectionsOfTree result
    Tree.endItems rest
    return sections
  | t => .error t.unfit

/-- The records of a course file. -/
def parseFile (text : String) : Except Fault (List Record) :=
  (Json.decode fileOfTree text).map fun sections => sections.filterMap recordOf?

/-- The records of several course files in order, or the fault of the first one with a fault. -/
def parseFiles (texts : List String) : Except Fault (List Record) :=
  (texts.mapM parseFile).map List.flatten

end Course

end CampusQuery
