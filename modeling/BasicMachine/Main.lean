import BasicMachine.CommandLine.Front
import BasicMachine.CommandLine.Path
import BasicMachine.Machine.Scripted

/-!
# The program

The front end on the real file system and standard streams. A program that runs reads its lines from standard input,
which is taken in first, and only its text output is shown.
-/
namespace BasicMachine.CommandLine

/-- The text of an error of the operating system. -/
def osError : IO.Error → String
  | .noFileOrDirectory _ _ _ => PathError.message .missing
  | .permissionDenied _ code _ => "Permission denied (os error " ++ toString code ++ ")"
  | .inappropriateType _ 21 _ => PathError.message .isDirectory
  | .inappropriateType _ _ _ => PathError.message .notDirectory
  | .invalidArgument _ 36 _ => PathError.message .tooLong
  | e => toString e

def attempt (action : IO α) : IO (Except String α) := do
  match ← action.toBaseIO with
  | .ok a => return .ok a
  | .error e => return .error (osError e)

partial def inputLines (input : IO.FS.Stream) (before : List String) : IO (List String) := do
  let line ← input.getLine
  if line.isEmpty then return before.reverse
  else inputLines input (line.dropEndWhile (· == '\n') |>.toString |> (· :: before))

/-- The text that some calls write. -/
def outputText (record : Array Recorded) : String :=
  record.foldl (fun s r => match r.call with
    | .write b => s.push (Char.ofNat b.toNat)
    | .puts t => s ++ t
    | _ => s) ""

/-- Runs a program slice by slice and shows its output after each. -/
partial def runSlices (env : Environment Script) (o : Options) (p : Program) (s : Session Script) :
    IO (Except Error Unit) := do
  let (result, s) := match Session.run env p o.cycles s with
    | .ok halted s => (Except.ok halted, s)
    | .error e s => (Except.error e, s)
  IO.print (outputText s.host.record)
  s.host.seen.forM fun snapshot => IO.eprintln snapshot.text
  let s := { s with host := { s.host with record := #[], seen := #[] } }
  match result with
  | .ok true => return .ok ()
  | .ok false => runSlices env o p s
  | .error e => return .error e

def terminal : Shell IO where
  readFile name := do return (← attempt (IO.FS.readBinFile name)).map (·.data.toList)
  writeFile name content := attempt (IO.FS.writeBinFile name ⟨content.toArray⟩)
  out := IO.print
  err := IO.eprint
  run o p := do
    let lines ← inputLines (← IO.getStdin) []
    let machine := { Machine.new {} with tracing := o.trace }
    runSlices { host := Script.host, watch := some Script.watch } o p { machine, host := { lines } }
  prompt _ := return .error (.of .internalError "NO TERMINAL")

end BasicMachine.CommandLine

def main (args : List String) : IO UInt32 := BasicMachine.CommandLine.front BasicMachine.CommandLine.terminal args
