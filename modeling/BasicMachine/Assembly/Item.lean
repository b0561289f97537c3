import BasicMachine.Instruction.Basic

/-!
# Assembly items

What a line of assembly can say: name the next address, hold an instruction, jump to a named address, choose the
entry point or reserve memory cells.
-/
namespace BasicMachine.Assembly

inductive Item
  | label (name : String)
  | instruction (op : Opcode) (operand : Operand)
  /-- An instruction whose short operand is the address of a label. -/
  | jump (op : Opcode) (label : String)
  | entry (label : String)
  | static (cells : Nat)
  deriving DecidableEq

def Item.text : Item → String
  | label name => name ++ ":"
  | instruction op operand => "    " ++ op.mnemonic ++ operand.text
  | jump op name => "    " ++ op.mnemonic ++ " " ++ name
  | entry name => ".entry " ++ name
  | static cells => ".static " ++ toString cells

end BasicMachine.Assembly
