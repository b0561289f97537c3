/-!
# Paths

The parts of a path and the ways in which it fails to lead to a file.
-/
namespace BasicMachine.CommandLine

inductive PathError
  | missing
  | notDirectory
  | isDirectory
  | tooLong
  deriving DecidableEq, Repr

/-- The text of the operating system. -/
def PathError.message : PathError → String
  | .missing => "No such file or directory (os error 2)"
  | .notDirectory => "Not a directory (os error 20)"
  | .isDirectory => "Is a directory (os error 21)"
  | .tooLong => "File name too long (os error 36)"

namespace Path

/-- The greatest number of bytes in a path. -/
def maxSize : Nat := 4095

/-- The greatest number of bytes in one name. -/
def maxNameSize : Nat := 255

/-- The names between slashes; several slashes count as one. -/
def parts (path : String) : List String := (path.splitOn "/").filter (· ≠ "")

/-- Whether a path starts at the root. -/
def isAbsolute (path : String) : Bool := path.toList.head? = some '/'

/-- Whether a slash follows the last name, which then must be that of a directory. -/
def endsInSlash (path : String) : Bool := path.toList.getLast? = some '/'

/-- Refuses a path that is empty or too long, before any of its parts is looked at. -/
def check (path : String) : Except PathError Unit :=
  if path.isEmpty then .error .missing
  else if maxSize < path.utf8ByteSize then .error .tooLong
  else .ok ()

end Path

end BasicMachine.CommandLine
