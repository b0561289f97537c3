import BasicMachine.Assembly.Item
import BasicMachine.Program.Basic

/-!
# Layout

Items become a program in two passes. The first gives every label the size of the code before it; the second writes
the addresses into the jumps. The last entry and the last static size count.
-/
namespace BasicMachine.Assembly

/-- A piece of code whose size is known: an instruction, or a jump to a label. -/
inductive Placed
  | fixed (i : Instruction)
  | jump (op : ShortOp) (label : String)
  deriving DecidableEq

/-- A program whose jumps are still open, its code in reverse. -/
structure Draft where
  size : Nat := 0
  labels : Labels := []
  code : List Placed := []
  entry : Option String := none
  staticSize : Nat := 0
  deriving DecidableEq

def Draft.add (d : Draft) : Item → Except Error Draft
  | .label name =>
    if (d.labels.find? name).isSome then .error (.of .syntaxError ("DUPLICATE LABEL " ++ name))
    else .ok { d with labels := d.labels.insert name d.size }
  | .instruction op operand =>
    match Instruction.ofParts? op operand with
    | some i => .ok { d with code := .fixed i :: d.code, size := d.size + i.size }
    | none => .error (.of .syntaxError ("BAD OPERAND FOR " ++ op.mnemonic))
  | .jump op label =>
    match op with
    | .short short => .ok { d with code := .jump short label :: d.code, size := d.size + 3 }
    | _ => .error (.of .syntaxError (op.mnemonic ++ " TAKES NO LABEL"))
  | .entry label => .ok { d with entry := some label }
  | .static cells => .ok { d with staticSize := cells }

def Draft.label (d : Draft) (name : String) : Except Error Nat :=
  match d.labels.find? name with
  | some address => .ok address
  | none => .error (.of .undefinedLabel name)

/-- The address of a label as a short operand. -/
def Draft.target (d : Draft) (name : String) : Except Error Int16 := do
  let address ← d.label name
  if 0xffff < address then throw (.of .outOfMemory ("LABEL " ++ name ++ " OUT OF RANGE"))
  return (UInt16.ofNat address).toInt16

def Draft.resolve (d : Draft) : Placed → Except Error Instruction
  | .fixed i => .ok i
  | .jump op label => do return .short op (← d.target label)

def assemble (items : List Item) : Except Error Program := do
  let draft ← items.foldlM Draft.add {}
  let code ← draft.code.reverse.mapM draft.resolve
  let entry ← match draft.entry with
    | some name => draft.label name
    | none => pure 0
  return { code := (Code.bytes code).toArray, labels := draft.labels, entry, staticSize := draft.staticSize }

end BasicMachine.Assembly
