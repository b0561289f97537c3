import BasicMachine.Language.Command

/-!
# Compiling context

What the compiler knows while it reads the tokens of a line: the names so far, the open loops and the commands made.
Commands are checked for size as they are made, so that a program that grows past the reach of a jump is refused where
it does.
-/
namespace BasicMachine.Language

/-- Jumps reach addresses below this one. -/
def maxCode : Nat := 0x10000

structure ForLoop where
  name : String
  slot : Slot
  step : Nat
  top : Label
  exit : Label
  line : Nat
  deriving DecidableEq

structure WhileLoop where
  top : Label
  exit : Label
  line : Nat
  deriving DecidableEq

structure Context where
  /-- Tokens of the line that are not read yet. -/
  rest : List Token := []
  /-- The line that errors and references name. -/
  line : Nat := 0
  scopes : Scopes
  arrays : List (String × ArrayBlock) := []
  /-- Functions of the whole program with their numbers of parameters. -/
  functions : List (String × Nat) := []
  /-- Text constants with their first cells, the newest first. -/
  texts : List (String × Nat) := []
  dataCount : Nat := 0
  /-- Open loops, the innermost first. -/
  forLoops : List ForLoop := []
  whileLoops : List WhileLoop := []
  /-- Number of labels inside statements. -/
  labelCount : Nat := 0
  /-- Labels of lines and functions that jumps name, with the line of the jump, the newest first. -/
  references : List (Label × Nat) := []
  /-- The commands, the newest first, and the size of their code. -/
  commands : List Command := []
  size : Nat := 0
  /-- The size of all code, parts of the current statement included. -/
  reach : Nat := 0

abbrev Parser := StateT Context (Except Error)

namespace Parser

def fail (code : ErrorCode) (detail : String := "") : Parser α := throw (.of code detail)

def peek : Parser (Option Token) := return (← get).rest.head?

def skip : Parser Unit := modify fun c => { c with rest := c.rest.tail }

/-- A syntax error at the next token. -/
def unexpected (expected : String) : Parser α := do
  match ← peek with
  | some t => fail .syntaxError (expected ++ " AT " ++ t.text)
  | none => fail .syntaxError (expected ++ " AT END")

/-- Takes the next token if it is the one asked for. -/
def accept (t : Token) : Parser Bool := do
  if (← peek) = some t then
    skip
    return true
  else return false

def expect (t : Token) : Parser Unit := do
  unless ← accept t do unexpected ("EXPECTED " ++ t.text)

def identifier : Parser String := do
  match ← peek with
  | some (.ident name) =>
    skip
    return name
  | _ => unexpected "EXPECTED VARIABLE"

/-- Whether a statement may end before the next token. -/
def atEnd : Parser Bool := do
  match ← peek with
  | none | some .colon | some .semicolon | some (.word .ELSE) => return true
  | _ => return false

/-- Counts code that a command will hold. -/
def account (code : Steps) : Parser Unit := modify fun c => { c with reach := c.reach + code.size }

def accountCode (code : Code) : Parser Unit := account (Steps.ofCode code)

/-- Refuses a place that no jump can reach. -/
def checkReach : Parser Unit := do
  if maxCode ≤ (← get).reach then fail .outOfMemory "PROGRAM TOO LARGE"

def emit (command : Command) : Parser Unit :=
  modify fun c =>
    let size := c.size + command.size
    { c with commands := command :: c.commands, size, reach := size }

def freshLabel : Parser Label :=
  modifyGet fun c => (.inside c.labelCount, { c with labelCount := c.labelCount + 1 })

/-- The target of jumps from before. -/
def place (l : Label) : Parser Unit := do
  checkReach
  emit (.mark l)

def refer (l : Label) : Parser Unit := modify fun c => { c with references := (l, c.line) :: c.references }

def allocate (n : Nat) : Parser Nat :=
  modifyGet fun c =>
    let (address, scopes) := c.scopes.allocate n
    (address, { c with scopes })

def resolve (name : String) : Parser Slot :=
  modifyGet fun c =>
    let (slot, scopes) := c.scopes.resolve name
    (slot, { c with scopes })

/-- Cells that a text takes: one for each byte but zero bytes, and one for its end. -/
def textCells (s : String) : Nat := ((Utf8.encode s).filter (· != 0)).length + 1

/-- The first cell of a text constant. Equal texts share their cells. -/
def intern (s : String) : Parser Nat := do
  match (← get).texts.lookup s with
  | some address => return address
  | none =>
    let address ← allocate (textCells s)
    modify fun c => { c with texts := (s, address) :: c.texts }
    return address

/-- The number of cells of an array, row by row. -/
def arrayLength (name : String) : (length : Nat) → List Int16 → Parser Nat
  | length, [] => return length
  | length, extent :: rest => do
    if extent ≤ 0 then fail .illegalFunctionCall "DIMENSION"
    let next := length * extent.toInt.toNat
    if 32767 < next then fail .outOfMemory ("ARRAY " ++ name)
    arrayLength name next rest

def dimension (name : String) (extents : List Int16) : Parser ArrayBlock := do
  if ((← get).arrays.lookup name).isSome then fail .redimensionedArray name
  let length ← arrayLength name 1 extents
  let base ← allocate length
  let array : ArrayBlock := { base, extents, length }
  modify fun c => { c with arrays := (name, array) :: c.arrays }
  return array

end Parser

end BasicMachine.Language
