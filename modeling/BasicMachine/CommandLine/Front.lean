import BasicMachine.Assembly.Layout
import BasicMachine.Assembly.Line
import BasicMachine.Language.Compile
import BasicMachine.Program.Image
import BasicMachine.Program.Listing

/-!
# Command line

Options, programs from files, and what goes to the standard streams. The front end asks a shell for everything that
touches files and terminals, so that it can be run against any.
-/
namespace BasicMachine.CommandLine

structure Options where
  /-- Cycles of one run. -/
  cycles : Nat := 5000
  trace : Bool := false
  list : Bool := false
  /-- Where to write the image. -/
  image : Option String := none
  file : Option String := none
  deriving DecidableEq

def usage : String :=
  "usage: basic [--cycles N] [--trace] [--list] [--image OUT] [FILE]\n\n" ++
    "FILE is BASIC source (.bas), assembly (.asm) or a program image.\n" ++
    "Without FILE an interactive prompt starts."

/-- The greatest number of cycles. -/
def maxCycles : Nat := 0xffffffffffffffff

/-- The options that arguments add. A refusal is the line that explains it, which is empty where help is asked for. -/
def Options.add (o : Options) : List String → Except String Options
  | [] => .ok o
  | "--cycles" :: n :: rest =>
    match (Numeral.unsigned? maxCycles n.toList).filter (0 < ·) with
    | some cycles => { o with cycles }.add rest
    | none => .error "--cycles needs a positive number"
  | ["--cycles"] => .error "--cycles needs a positive number"
  | "--trace" :: rest => { o with trace := true }.add rest
  | "--list" :: rest => { o with list := true }.add rest
  | "--image" :: out :: rest => { o with image := some out }.add rest
  | ["--image"] => .error "--image needs a file name"
  | arg :: rest =>
    if arg = "-h" ∨ arg = "--help" then .error ""
    else if arg.toList.head? = some '-' then .error ("unknown option " ++ arg)
    else if o.file.isNone then { o with file := some arg }.add rest
    else .error ("unexpected argument " ++ arg)

/-- An error of the operating system. -/
def fileError (text : String) : Error := .of .internalError text

/-- An error in bold after a question mark. -/
def styled (e : Error) : String := "\x1b[1m?" ++ e.text ++ "\x1b[0m"

/-- Whether a file name ends in letters of either case. -/
def hasExtension (extension : String) (name : String) : Bool :=
  extension.toList.reverse.isPrefixOf (name.toList.map Char.toLower).reverse

def sourceText (content : List UInt8) : Except Error String :=
  match Utf8.decode? content with
  | some s => .ok s
  | none => .error (fileError "stream did not contain valid UTF-8")

/-- The program in a file, by the extension of its name. -/
def load (name : String) (content : List UInt8) : Except Error Program :=
  if hasExtension ".bas" name then do Language.compile (← sourceText content)
  else if hasExtension ".asm" name then do Assembly.assemble (← Assembly.read (← sourceText content))
  else Program.ofImage content

/-- What the front end needs of its surroundings. File operations fail with the text of the operating system. -/
structure Shell (m : Type → Type) where
  readFile : String → m (Except String (List UInt8))
  writeFile : String → List UInt8 → m (Except String Unit)
  out : String → m Unit
  err : String → m Unit
  run : Options → Program → m (Except Error Unit)
  prompt : Options → m (Except Error Unit)

variable {m : Type → Type} [Monad m]

/-- Writes the image of a program, if one is asked for. -/
def writeImage (shell : Shell m) (o : Options) (p : Program) : ExceptT Error m Unit :=
  match o.image with
  | some out => do
    let written ← shell.writeFile out p.toImage
    ExceptT.mk (pure (written.mapError fileError))
  | none => return ()

/-- A program is run only if neither its listing nor its image is asked for. -/
def runFile (shell : Shell m) (o : Options) (file : String) : ExceptT Error m Unit := do
  let content ← shell.readFile file
  let p ← ExceptT.mk (pure ((content.mapError fileError).bind (load file)))
  if o.list then shell.out p.listingText
  writeImage shell o p
  if !o.list && o.image.isNone then ExceptT.mk (shell.run o p)

/-- The exit status for some arguments: 2 for a refusal and 1 for an error. -/
def front (shell : Shell m) (args : List String) : m UInt32 := do
  match Options.add {} args with
  | .error message =>
    if !message.isEmpty then shell.err (message ++ "\n")
    shell.err (usage ++ "\n")
    return 2
  | .ok o =>
    let result ← match o.file with
      | some file => (runFile shell o file).run
      | none => shell.prompt o
    match result with
    | .ok () => return 0
    | .error e =>
      shell.err (styled e ++ "\n")
      return 1

end BasicMachine.CommandLine
