/-!
# The directory of the datasets

What an archive knows of a disk is one directory, which may not exist or may turn out to be a file.
A `Disk` lists what exists at and below that place, each thing under its path; the empty path is
the place itself.

Paths are given as texts and resolved as an operating system does (`Disk.resolve`): a slash
separates, a dot stays, two dots go up, and everything on the way has to be a directory. A text that
is too long, or that holds a name which no file can have, cannot be used. Outside the directory
nothing is known to exist, so a path that leaves it leads nowhere.

The primitive operations are the `Step`s. A step that fails leaves the disk as it was, and
`Disk.runSteps` stops at the first one that does.
-/

namespace CampusQuery

/-- What exists under a path. -/
inductive Content where
  /-- A file with its text. -/
  | file (text : String)
  /-- A directory. -/
  | directory
deriving DecidableEq

/-- A directory and all that is below it. -/
structure Disk where
  /-- The things that exist, each under its path, in no particular order. -/
  things : List (List String × Content)
deriving DecidableEq

/-- Why an operation on a disk fails. -/
inductive DiskFault where
  /-- There is nothing under the path. -/
  | notFound
  /-- What is there cannot be used in this way. -/
  | refused
deriving DecidableEq

namespace Disk

/-- The disk on which the directory does not exist. -/
def absent : Disk := ⟨[]⟩

/-- The disk on which the directory is empty. -/
def emptyDirectory : Disk := ⟨[([], .directory)]⟩

/-- The disk with a file in place of the directory. -/
def fileInPlace : Disk := ⟨[([], .file "")]⟩

/-- What exists under a path. -/
def find? (disk : Disk) (path : List String) : Option Content :=
  (disk.things.find? fun t => t.1 == path).map (·.2)

/-- The disk with something put under a path. -/
def put (disk : Disk) (path : List String) (content : Content) : Disk :=
  ⟨(disk.things.filter fun t => t.1 != path) ++ [(path, content)]⟩

/-- The disk with nothing under a path. -/
def delete (disk : Disk) (path : List String) : Disk :=
  ⟨disk.things.filter fun t => t.1 != path⟩

/-! ### Paths -/

/-- The most bytes in the name of a file. -/
def maxNameBytes : Nat := 255

/-- Whether a file can have the name. -/
def isName (name : List Char) : Bool :=
  (String.ofList name).utf8ByteSize ≤ maxNameBytes

/-- The parts of a path between its slashes. -/
def splitSlashes : List Char → List (List Char)
  | [] => [[]]
  | c :: rest =>
    if c = '/' then [] :: splitSlashes rest
    else
      match splitSlashes rest with
      | [] => [[c]]
      | part :: parts => (c :: part) :: parts

/-- How a walk ends that is outside the directory and has some parts of a path text before it. No
name is found there, and without a name it ends at a directory that is none of the disk's. -/
def walkOutside : List (List Char) → DiskFault
  | [] => .refused
  | part :: rest =>
    if part = [] ∨ part = ['.'] ∨ part = ['.', '.'] then walkOutside rest
    else if isName part then .notFound
    else .refused

/-- The path at the end of a walk through the directories, from the one under a path and along
parts of a path text. -/
def walk (disk : Disk) (path : List String) : List (List Char) → Except DiskFault (List String)
  | [] => .ok path
  | part :: rest =>
    match disk.find? path with
    | none => .error .notFound
    | some (.file _) => .error .refused
    | some .directory =>
      if part = [] ∨ part = ['.'] then disk.walk path rest
      else if part = ['.', '.'] then
        if path = [] then .error (walkOutside rest) else disk.walk path.dropLast rest
      else if isName part then disk.walk (path ++ [String.ofList part]) rest
      else .error .refused

/-- The most bytes in the text of a path. -/
def maxPathBytes : Nat := 4095

/-- Whether a text can be that of a path: it is not too long and holds no null character. -/
def isPathText (text : String) : Bool :=
  text.utf8ByteSize ≤ maxPathBytes && !text.toList.contains (Char.ofNat 0)

/-- The path that a text leads to from the directory. A slash in front begins at the root of all
directories instead, which is outside. -/
def resolve (disk : Disk) (text : String) : Except DiskFault (List String) :=
  if !isPathText text then .error .refused
  else
    match text.toList with
    | '/' :: rest => .error (walkOutside (splitSlashes rest))
    | chars => disk.walk [] (splitSlashes chars)

/-! ### Operations -/

/-- Makes the directory itself, if it does not exist. -/
def makeRoot (disk : Disk) : Except DiskFault Disk :=
  match disk.find? [] with
  | none => .ok (disk.put [] .directory)
  | some .directory => .ok disk
  | some (.file _) => .error .refused

/-- Writes a file, in place of a file of its name. -/
def write (disk : Disk) (name text : String) : Except DiskFault Disk := do
  let path ← disk.resolve name
  match disk.find? path with
  | some .directory => throw .refused
  | _ => return disk.put path (.file text)

/-- The text of a file. -/
def read (disk : Disk) (name : String) : Except DiskFault String := do
  let path ← disk.resolve name
  match disk.find? path with
  | some (.file text) => return text
  | some .directory => throw .refused
  | none => throw .notFound

/-- Gives a file another name, in place of a file of that name. -/
def rename (disk : Disk) (name target : String) : Except DiskFault Disk := do
  let text ← disk.read name
  let path ← disk.resolve name
  (disk.delete path).write target text

/-- Deletes a file. -/
def remove (disk : Disk) (name : String) : Except DiskFault Disk := do
  let path ← disk.resolve name
  match disk.find? path with
  | some (.file _) => return disk.delete path
  | some .directory => throw .refused
  | none => throw .notFound

/-- Makes a directory where nothing is. -/
def makeDirectory (disk : Disk) (name : String) : Except DiskFault Disk := do
  let path ← disk.resolve name
  match disk.find? path with
  | some _ => throw .refused
  | none => return disk.put path .directory

/-- The things in the directory, with their names. -/
def list (disk : Disk) : Except DiskFault (List (String × Content)) :=
  match disk.find? [] with
  | none => .error .notFound
  | some (.file _) => .error .refused
  | some .directory => .ok <| disk.things.filterMap fun t =>
    match t.1 with
    | [name] => some (name, t.2)
    | _ => none

/-! ### Steps -/

/-- A primitive operation on a disk. -/
inductive Step where
  /-- Make the directory itself. -/
  | makeRoot
  /-- Write a file. -/
  | write (name text : String)
  /-- Give a file another name. -/
  | rename (name target : String)
  /-- Delete a file. -/
  | remove (name : String)
deriving DecidableEq

/-- What a step does to a disk. -/
def Step.run (disk : Disk) : Step → Except DiskFault Disk
  | makeRoot => disk.makeRoot
  | write name text => disk.write name text
  | rename name target => disk.rename name target
  | remove name => disk.remove name

/-- Runs steps up to the first that fails, and tells how that one failed and what the disk is
then. -/
def runSteps (disk : Disk) : List Step → Option DiskFault × Disk
  | [] => (none, disk)
  | step :: rest =>
    match step.run disk with
    | .ok next => next.runSteps rest
    | .error fault => (some fault, disk)

end Disk

end CampusQuery
