import BasicMachine.Assembly.Item
import BasicMachine.Assembly.Piece
import BasicMachine.Single.Read

/-!
# Lines of assembly

A line holds any number of labels and then at most one instruction or directive. Mnemonics, host calls and registers
may be in either case.
-/
namespace BasicMachine.Assembly

def syntaxError (detail : String) : Except Error α := .error (.of .syntaxError detail)

def upper (s : String) : String := s.map Char.toUpper

/-- A letter, an underscore or a point, and then also digits, `$` and `:`. -/
def isLabel (s : String) : Bool :=
  match s.toList with
  | [] => false
  | c :: rest =>
    (c.isAlpha || c == '_' || c == '.') &&
      (c :: rest).all fun d => d.isAlphanum || d == '_' || d == '.' || d == '$' || d == ':'

/-- An address in decimal, with or without an at sign. -/
def readPointer (s : String) : Except Error Nat :=
  let digits := match s.toList with
    | '@' :: rest => rest
    | cs => cs
  match Numeral.unsigned? maxPointer digits with
  | some n => .ok n
  | none => syntaxError ("BAD POINTER " ++ s)

def holdsInf : List Char → Bool
  | 'i' :: 'n' :: 'f' :: _ => true
  | _ :: rest => holdsInf rest
  | [] => false

/-- Whether a text has a mark that integers do not have. -/
def looksFloat (cs : List Char) : Bool :=
  cs.any (fun c => c == '.' || c == 'e' || c == 'E') || holdsInf cs

/-- `UNSET`, an address after an at sign, an integer or a single other than NaN. -/
def readValue (s : String) : Except Error Value :=
  let cs := s.toList
  if upper s == "UNSET" then .ok .unset
  else if cs.head? == some '@' then do return .pointer (← readPointer s)
  else
    match Numeral.int16? cs with
    | some n => .ok (.integer n)
    | none =>
      match (Single.read? cs).filter fun x => looksFloat cs && !x.isNaN with
      | some x => .ok (.float x)
      | none => syntaxError ("BAD VALUE " ++ s)

/-- A host call by number or name. -/
def readSyscall (s : String) : Except Error Syscall :=
  match Numeral.unsigned? 0xffff s.toList with
  | some n => Syscall.ofNumber (UInt16.ofNat n)
  | none =>
    match Syscall.ofName? (upper s) with
    | some call => .ok call
    | none => syntaxError ("BAD SYSCALL " ++ s)

def readRegister (s : String) : Except Error Register :=
  match Register.ofName? (upper s) with
  | some r => .ok r
  | none => syntaxError ("BAD REGISTER " ++ s)

/-- The item that an opcode and the pieces after it make. -/
def readInstruction (op : Opcode) (operands : List Piece) : Except Error Item :=
  match op.kind, operands with
  | .none, [] => .ok (.instruction op .none)
  | .short, [.word s] =>
    match Numeral.int16? s.toList with
    | some n => .ok (.instruction op (.short n))
    | none => if isLabel s then .ok (.jump op s) else syntaxError ("BAD SHORT " ++ s)
  | .float, [.word s] =>
    match Single.word? s.toList with
    | some word => .ok (.instruction op (.float word))
    | none => syntaxError ("BAD FLOAT " ++ s)
  | .pointer, [.word s] => do return .instruction op (.pointer (← readPointer s))
  | .value, [.word s] => do return .instruction op (.value (← readValue s))
  | .syscall, [.word call, .comma, .word register] => do
    return .instruction op (.syscall (← readSyscall call) (← readRegister register))
  | .string, [.text s] => .ok (.instruction op (.string (Utf8.encode s)))
  | _, [] => syntaxError (op.mnemonic ++ " NEEDS AN OPERAND")
  | _, operands => syntaxError ("BAD OPERAND " ++ " ".intercalate (operands.map Piece.show))

def readEntry : List Piece → Except Error Item
  | [.word label] => if isLabel label then .ok (.entry label) else syntaxError "EXPECTED .entry LABEL"
  | _ => syntaxError "EXPECTED .entry LABEL"

def readStatic : List Piece → Except Error Item
  | [.word s] =>
    match Numeral.unsigned? (maxPointer + 1) s.toList with
    | some n => .ok (.static n)
    | none => syntaxError ("BAD SIZE " ++ s)
  | _ => syntaxError "EXPECTED .static CELLS"

/-- The instruction or directive that a word begins. -/
def readStatement (word : String) (operands : List Piece) : Except Error Item :=
  if word == ".entry" || word == ".ENTRY" then readEntry operands
  else if word == ".static" || word == ".STATIC" then readStatic operands
  else
    match Opcode.ofMnemonic? (upper word) with
    | some op => readInstruction op operands
    | none => .error (.of .unknownMnemonic word)

/-- The items of a line from its pieces. -/
def itemsOf : List Piece → Except Error (List Item)
  | [] => .ok []
  | .word w :: rest =>
    if w.toList.getLast? = some ':' then
      let name := String.ofList w.toList.dropLast
      if isLabel name then do return .label name :: (← itemsOf rest)
      else syntaxError ("BAD LABEL " ++ w)
    else do return [← readStatement w rest]
  | piece :: _ => syntaxError ("UNEXPECTED " ++ piece.show)

def readLine (cs : List Char) : Except Error (List Item) := do itemsOf (← pieces cs)

/-- The items of a line and the row that its errors name. -/
def readRow (line : List Char × Nat) : Except Error (List Item) := (readLine line.1).mapError (·.inLine line.2)

/-- The items of a whole text. An error names its row, counted from one. -/
def read (source : String) : Except Error (List Item) := do
  return (← ((Text.lines source.toList).zipIdx 1).mapM readRow).flatten

end BasicMachine.Assembly
