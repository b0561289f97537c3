import BasicMachine.CommandLine.Front
import BasicMachine.CommandLine.Path

/-!
# A directory in memory

Files by name in one flat directory, with what was printed, so that the front end runs without an operating system. A
path is followed part by part, and the first part that leads nowhere decides how it fails. Of the directories above,
nothing is known but that they are there: no name is found in them, and a file that is written there is out of sight.
-/
namespace BasicMachine.CommandLine

structure Directory where
  /-- Files with their contents, the newest first. -/
  files : List (String × List UInt8) := []
  /-- Names of files that were not there at the start. -/
  created : List String := []
  out : String := ""
  err : String := ""

namespace Directory

/-- Where a path has come to. -/
inductive Place
  /-- The directory itself. -/
  | here
  /-- A directory above it. -/
  | above
  | file (content : List UInt8)
  deriving DecidableEq

def start (path : String) : Place := if Path.isAbsolute path then .above else .here

/-- What a name stands for in the directory or above it. -/
def find (d : Directory) (place : Place) (name : String) : Except PathError Place :=
  if Path.maxNameSize < name.utf8ByteSize then .error .tooLong
  else
    match place, d.files.lookup name with
    | .here, some content => .ok (.file content)
    | _, _ => .error .missing

/-- Where one more part of a path leads to. -/
def enter (d : Directory) (place : Place) (part : String) : Except PathError Place :=
  match place with
  | .file _ => .error .notDirectory
  | place =>
    if part = "." then .ok place
    else if part = ".." then .ok .above
    else d.find place part

/-- Where the parts of a path lead to. -/
def follow (d : Directory) (place : Place) (parts : List String) : Except PathError Place :=
  parts.foldlM d.enter place

def read (d : Directory) (path : String) : Except PathError (List UInt8) := do
  Path.check path
  match ← d.follow (start path) (Path.parts path) with
  | .file content => if Path.endsInSlash path then .error .notDirectory else .ok content
  | _ => .error .isDirectory

/-- Gives a file its content and makes it if it is new. -/
def put (d : Directory) (name : String) (content : List UInt8) : Directory :=
  let created := if (d.files.lookup name).isSome then d.created else name :: d.created
  { d with files := (name, content) :: d.files.filter (·.1 ≠ name), created }

/-- Writes to the last part of a path. A slash after it is refused before it is looked at. -/
def writeIn (d : Directory) (place : Place) (name : String) (slash : Bool) (content : List UInt8) :
    Except PathError Directory :=
  match place with
  | .file _ => .error .notDirectory
  | place =>
    if name = "." ∨ name = ".." ∨ slash then .error .isDirectory
    else if Path.maxNameSize < name.utf8ByteSize then .error .tooLong
    else if place = .here then .ok (d.put name content)
    else .ok d

def write (d : Directory) (path : String) (content : List UInt8) : Except PathError Directory := do
  Path.check path
  let parts := Path.parts path
  match parts.getLast? with
  | some name => d.writeIn (← d.follow (start path) parts.dropLast) name (Path.endsInSlash path) content
  | none => .error .isDirectory

/-- A shell on a directory, without a terminal. -/
def shell : Shell (StateM Directory) where
  readFile path := return ((← get).read path).mapError PathError.message
  writeFile path content := do
    match (← get).write path content with
    | .ok d =>
      set d
      return .ok ()
    | .error e => return .error e.message
  out s := modify fun d => { d with out := d.out ++ s }
  err s := modify fun d => { d with err := d.err ++ s }
  run _ _ := return .error (.of .internalError "NO TERMINAL")
  prompt _ := return .error (.of .internalError "NO TERMINAL")

end Directory

end BasicMachine.CommandLine
