import CampusQuery.Execution.Run

/-!
# Configuration

A database is configured by the directory of its archive, without which it keeps everything in
memory, and by the number of rows that a result may have. Every part of a configuration has a
default, and a configuration is read from an object with some of its parts or from an array of the
first of them.
-/

namespace CampusQuery

/-- The settings of a database. -/
structure Config where
  /-- The directory of the archive. -/
  dataDir : Option String
  /-- How many rows a result may have. -/
  maxResults : Nat
deriving DecidableEq

namespace Config

/-- The settings that hold unless told otherwise. -/
def standard : Config := ⟨none, defaultMaxResults⟩

/-- Reads the directory, which may be `null`. -/
def dirOfTree : Tree → Except Fault (Option String)
  | .null => .ok none
  | t => t.toString.map some

/-- Reads the members of the settings of execution, each known name at most once. -/
def limitOfMembers (limit : Option Nat) : Members → Except Fault Nat
  | .done => .ok (limit.getD defaultMaxResults)
  | .cut => .error .malformed
  | .cons name value rest => do
    let name ← Tree.textOf name
    if name = "max_results" then
      if limit.isSome then throw .mismatch
      limitOfMembers (some (← value.toUnsigned)) rest
    else
      value.skip
      limitOfMembers limit rest

/-- Reads the settings of execution. -/
def limitOfTree : Tree → Except Fault Nat
  | .object members => limitOfMembers none members
  | .array .done => .ok defaultMaxResults
  | .array .cut => .error .malformed
  | .array (.cons value rest) => do
    let limit ← value.toUnsigned
    Tree.endItems rest
    return limit
  | t => .error t.unfit

/-- Reads the members of a configuration, each known name at most once. -/
def ofMembers (dir : Option (Option String)) (limit : Option Nat) :
    Members → Except Fault Config
  | .done => .ok ⟨dir.getD none, limit.getD defaultMaxResults⟩
  | .cut => .error .malformed
  | .cons name value rest => do
    let name ← Tree.textOf name
    if name = "data_dir" then
      if dir.isSome then throw .mismatch
      ofMembers (some (← dirOfTree value)) limit rest
    else if name = "execution" then
      if limit.isSome then throw .mismatch
      ofMembers dir (some (← limitOfTree value)) rest
    else
      value.skip
      ofMembers dir limit rest

/-- Reads a configuration given as an array of its parts. -/
def ofItems : Items → Except Fault Config
  | .done => .ok standard
  | .cut => .error .malformed
  | .cons dir rest => do
    let dir ← dirOfTree dir
    match rest with
    | .done => return ⟨dir, defaultMaxResults⟩
    | .cut => throw .malformed
    | .cons limit rest =>
      let limit ← limitOfTree limit
      Tree.endItems rest
      return ⟨dir, limit⟩

/-- Reads a configuration. -/
def ofTree : Tree → Except Fault Config
  | .object members => ofMembers none none members
  | .array items => ofItems items
  | t => .error t.unfit

/-- Reads a text as a configuration. -/
def parse (text : String) : Except Fault Config :=
  Json.decode ofTree text

/-- The configuration as JSON text. -/
def jsonText (c : Config) : List Char :=
  let dir := match c.dataDir with
    | some dir => Json.stringText dir
    | none => Json.null.text
  Json.objectText
    [("data_dir", dir),
     ("execution", Json.objectText [("max_results", integerText c.maxResults)])]

end Config

end CampusQuery
