import BasicMachine.Language.Parser.Statement
import BasicMachine.Language.Source
import BasicMachine.Program.Basic

/-!
# Compilation

A program is the code of its commands, a HALT, and an entry block that sets up memory and jumps to the first command.
Memory holds the frame pointer, the DATA cursor and the DATA items, and then variables, arrays, texts, frames and loop
cells in the order of their first use.
-/
namespace BasicMachine.Language

/-- Fails with the line that the error belongs to, unless it has one already. -/
def Parser.within (line : Nat) (p : Parser α) : Parser α :=
  fun c => (p c).mapError (·.inLine line)

/-- The value that stands for a DATA item. -/
def dataValue : DataItem → Parser Value
  | .number v => return v
  | .text s => return .pointer (← Parser.intern s)

/-- The mark of a numbered line. -/
def markLine (n : UInt16) : Parser Unit := do
  let repeated := (← get).commands.any fun c => match c with
    | .mark l => l = .line n
    | _ => false
  if repeated then Parser.fail .syntaxError "DUPLICATE LINE NUMBER"
  Parser.emit (.mark (.line n))

/-- The beginning of a line: its number is marked. -/
def startLine (s : SourceLine) : Parser Unit := do
  modify fun c => { c with rest := s.line.tokens, line := s.id }
  match s.line.number with
  | some n => markLine n
  | none => pure ()

def compileLine (s : SourceLine) : Parser Unit :=
  Parser.within s.id do
    startLine s
    Parser.wholeLine

/-- Every loop is closed; the oldest that is not is named. -/
def checkLoops : Parser Unit := do
  let c ← get
  match c.forLoops.getLast?, c.whileLoops.getLast? with
  | some loop, _ => throw ((Error.of .forWithoutNext).inLine loop.line)
  | none, some loop => throw ((Error.of .whileWithoutWend).inLine loop.line)
  | none, none => pure ()

/-- Zeros in the cells from `start` on, at most 32767 by one instruction. -/
def clearCode (start count : Nat) : Code :=
  if count = 0 then []
  else
    let n := min count 32767
    .pointer .setIdx start :: .short .clr (Int16.ofNat n) :: clearCode (start + n) (count - n)
termination_by count

def textCode (text : String × Nat) : Code := [.pointer .setIdx text.2, .setS (Utf8.encode text.1)]

/-- A DATA item in its cell. -/
def itemCode (item : Value × Nat) : Code := [.push item.1, .pointer .store item.2]

/-- Sets up memory up to `limit` and jumps to the first command. -/
def entryCode (limit : Nat) (texts : List (String × Nat)) (items : List Value) : Code :=
  [.pointer .pushP 0, .pointer .store frameCell, .short .pushI 0, .pointer .store cursorCell] ++
    clearCode (dataBase + items.length) (limit - (dataBase + items.length)) ++ texts.flatMap textCode ++
    (items.zipIdx dataBase).flatMap itemCode ++ [.short .jmp 0]

/-- The error of a reference to a label that is not there. -/
def undefinedLabel (line : Nat) : Label → Error
  | .line n => (Error.of .undefinedLine (toString n.toNat)).inLine line
  | .function name => (Error.of .undefinedUserFunction name).inLine line
  | .inside _ => Error.of .internalError "NO SUCH PLACE"

/-- References are checked in the order in which they stand. -/
def checkReferences (labels : List (Label × Nat)) : List (Label × Nat) → Except Error Unit
  | [] => .ok ()
  | (l, line) :: rest =>
    match labels.lookup l with
    | none => .error (undefinedLabel line l)
    | some address =>
      if maxCode ≤ address then .error (.of .outOfMemory "PROGRAM TOO LARGE") else checkReferences labels rest

/-- The labels that a program shows. -/
def shownLabels (labels : List (Label × Nat)) : Labels :=
  labels.filterMap fun (l, address) => l.name?.map (·, address)

/-- The program of a context in which all lines are read. -/
def link (c : Context) (items : List Value) : Except Error Program := do
  let commands := (Command.halt :: c.commands).reverse
  let labels := labelsFrom 0 commands
  checkReferences labels c.references.reverse
  let main : Steps := commands.flatMap Command.code
  let entry := entryCode c.scopes.highWater c.texts.reverse items
  if maxCode < main.size + entry.size then throw (.of .outOfMemory "PROGRAM TOO LARGE")
  return {
    code := (main.place (fun l => (labels.lookup l).getD 0) 0 ++ entry).bytes.toArray
    labels := shownLabels labels
    entry := main.size
    staticSize := c.scopes.highWater }

/-- The context and the DATA values after all lines. -/
def readLines (lines : List SourceLine) (items : List DataItem) : Parser (List Value) := do
  let values ← items.mapM dataValue
  lines.forM compileLine
  checkLoops
  return values

def compile (source : String) : Except Error Program := do
  let lines ← sourceLines source
  let items ← sourceData lines
  let functions ← sourceFunctions lines
  let start : Context :=
    { scopes := .new (dataBase + items.length), functions, dataCount := items.length }
  let (values, c) ← (readLines lines items).run start
  link c values

end BasicMachine.Language
