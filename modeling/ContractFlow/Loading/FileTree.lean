import ContractFlow.Error
import ContractFlow.Source.Utf8

/-!
A tree of files around the current directory. Paths have slashes between the names of directories.
They are followed step by step, as a step up leads on only from a directory that exists; writing a
file makes the directories on the way to it.
-/

namespace ContractFlow

namespace Path

/-- The steps of a path. Empty steps and single points lead nowhere. -/
def steps (path : String) : List String :=
  (fields '/' path.toList).map String.ofList

/-- The last step that leads somewhere, unless it leads upwards. -/
def fileName? (path : String) : Option String :=
  match ((steps path).filter fun step => step ≠ "" ∧ step ≠ ".").getLast? with
  | some ".." => none
  | last => last

/-- The path of a file in a directory. -/
def join (directory name : String) : String :=
  if directory.isEmpty || directory.toList.getLast? = some '/' then directory ++ name
  else directory ++ "/" ++ name

end Path

/-- The place of a file or directory: the steps up from the current directory, then the names on the
way down to it. -/
abbrev Location : Type := List String

namespace Location

/-- The place one step up. -/
def up (place : Location) : Location :=
  if place.all (· = "..") then place ++ [".."] else place.dropLast

/-- The place that a step leads to. -/
def enter (place : Location) (step : String) : Location :=
  if step = "" ∨ step = "." then place
  else if step = ".." then up place
  else place ++ [step]

end Location

/-- The files and directories there are. Of two contents of a file the first one counts. The
directories that files are in need not be listed. -/
structure FileTree where
  files : List (Location × List UInt8) := []
  directories : List Location := []

namespace FileTree

def isDirectory (t : FileTree) (place : Location) : Bool :=
  place.all (· = "..") || t.directories.any (place.isPrefixOf ·) ||
    t.files.any fun (file, _) => place.isPrefixOf file && place ≠ file

/-- Follows steps from a place. Every step must start in a directory. -/
def follow (t : FileTree) (place : Location) : List String → Option Location
  | [] => some place
  | step :: rest =>
    if t.isDirectory place then t.follow (Location.enter place step) rest else none

/-- The place that a path leads to. -/
def locate? (t : FileTree) (path : String) : Option Location :=
  if path.isEmpty || path.toList.head? = some '/' then none else t.follow [] (Path.steps path)

def content? (t : FileTree) (path : String) : Option (List UInt8) := do
  t.files.lookup (← t.locate? path)

def isFile (t : FileTree) (path : String) : Bool := (t.content? path).isSome

/-- Reads a text file. -/
def read (t : FileTree) (path : String) : Except Error String :=
  match t.content? path with
  | none => .error (.file .notFound)
  | some bytes =>
    match Utf8.decode? bytes with
    | some text => .ok text
    | none => .error (.file .notUtf8)

/-- Makes the directories that steps from a place lead through. -/
def makeWay (t : FileTree) (place : Location) : List String → FileTree
  | [] => t
  | step :: rest =>
    let next := Location.enter place step
    { t with directories := next :: t.directories }.makeWay next rest

def addDirectory (t : FileTree) (path : String) : FileTree := t.makeWay [] (Path.steps path)

/-- Writes a file, and makes the directories on the way to it. -/
def write (t : FileTree) (path : String) (content : List UInt8) : FileTree :=
  let steps := Path.steps path
  let t := t.makeWay [] steps.dropLast
  { t with files := (steps.foldl Location.enter [], content) :: t.files }

end FileTree

end ContractFlow
