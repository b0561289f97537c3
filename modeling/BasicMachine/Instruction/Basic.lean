import BasicMachine.Instruction.Opcode
import BasicMachine.Text.Quoted
import BasicMachine.Text.Utf8
import BasicMachine.Value.Word

/-!
# Instructions

An instruction is an opcode with an operand of its kind. Its code is the opcode's byte and the operand's bytes, the
low byte of a number first; a string ends with a zero byte and so drops those it holds.
-/
namespace BasicMachine

/-- An operand on its own. A single is kept as its word, so that a NaN keeps its sign and payload. -/
inductive Operand
  | none
  | short (n : Int16)
  | float (word : UInt32)
  | pointer (address : Nat)
  | value (v : Value)
  | syscall (call : Syscall) (register : Register)
  | string (bytes : List UInt8)
  deriving DecidableEq

inductive Instruction
  | plain (op : PlainOp)
  | short (op : ShortOp) (n : Int16)
  | pointer (op : PointerOp) (address : Nat)
  | pushF (word : UInt32)
  | push (v : Value)
  | syscall (call : Syscall) (register : Register)
  | setS (bytes : List UInt8)
  deriving DecidableEq

def bytes16 (n : UInt16) : List UInt8 := [n.toUInt8, (n >>> 8).toUInt8]

def bytes32 (n : UInt32) : List UInt8 :=
  [n.toUInt8, (n >>> 8).toUInt8, (n >>> 16).toUInt8, (n >>> 24).toUInt8]

/-- The lowest 21 bits of an address. -/
def bytesOfAddress (address : Nat) : List UInt8 :=
  let a := address % 0x200000
  [UInt8.ofNat (a % 256), UInt8.ofNat (a / 256 % 256), UInt8.ofNat (a / 65536)]

namespace Operand

def kind : Operand → OperandKind
  | none => .none
  | short _ => .short
  | float _ => .float
  | pointer _ => .pointer
  | value _ => .value
  | syscall _ _ => .syscall
  | string _ => .string

def bytes : Operand → List UInt8
  | none => []
  | short n => bytes16 n.toUInt16
  | float word => bytes32 word
  | pointer address => bytesOfAddress address
  | value v => bytes32 v.toWord
  | syscall call register => bytes16 call.number ++ bytes16 register.number
  | string bytes => bytes.filter (· != 0) ++ [0]

/-- The operand as assembly shows it, after a blank. -/
def text : Operand → String
  | none => ""
  | short n => " " ++ toString n.toInt
  | float word => " " ++ Single.literal (Float32.ofBits word)
  | pointer address => " " ++ toString address
  | value v => " " ++ v.text
  | syscall call register => " " ++ call.name ++ ", " ++ register.name
  | string bytes => " " ++ Text.quoted (Utf8.decodeLossy bytes)

end Operand

namespace Instruction

def opcode : Instruction → Opcode
  | plain op => .plain op
  | short op _ => .short op
  | pointer op _ => .pointer op
  | pushF _ => .pushF
  | push _ => .push
  | syscall _ _ => .syscall
  | setS _ => .setS

def operand : Instruction → Operand
  | plain _ => .none
  | short _ n => .short n
  | pointer _ address => .pointer address
  | pushF word => .float word
  | push v => .value v
  | syscall call register => .syscall call register
  | setS bytes => .string bytes

/-- An opcode takes an operand of its own kind only. -/
def ofParts? : Opcode → Operand → Option Instruction
  | .plain op, .none => some (plain op)
  | .short op, .short n => some (short op n)
  | .pointer op, .pointer address => some (pointer op address)
  | .pushF, .float word => some (pushF word)
  | .push, .value v => some (push v)
  | .syscall, .syscall call register => some (syscall call register)
  | .setS, .string bytes => some (setS bytes)
  | _, _ => none

theorem ofParts?_eq_some_iff {op : Opcode} {operand : Operand} {i : Instruction} :
    ofParts? op operand = some i ↔ i.opcode = op ∧ i.operand = operand := by
  constructor
  · intro h
    cases op <;> cases operand <;> simp_all [ofParts?] <;> subst h <;> simp [Instruction.opcode, Instruction.operand]
  · rintro ⟨rfl, rfl⟩
    cases i <;> rfl

def bytes (i : Instruction) : List UInt8 := i.opcode.byte :: i.operand.bytes

def size (i : Instruction) : Nat := i.bytes.length

@[simp] theorem size_plain (op : PlainOp) : size (plain op) = 1 := rfl

@[simp] theorem size_short (op : ShortOp) (n : Int16) : size (short op n) = 3 := rfl

@[simp] theorem size_pointer (op : PointerOp) (address : Nat) : size (pointer op address) = 4 := rfl

@[simp] theorem size_syscall (call : Syscall) (register : Register) : size (syscall call register) = 5 := rfl

theorem size_pos (i : Instruction) : 0 < i.size := Nat.zero_lt_succ _

def text (i : Instruction) : String := i.opcode.mnemonic ++ i.operand.text

end Instruction

/-- Instructions in the order in which they lie in memory. -/
abbrev Code := List Instruction

namespace Code

def bytes (code : Code) : List UInt8 := code.flatMap Instruction.bytes

def size (code : Code) : Nat := code.foldr (fun i n => i.size + n) 0

theorem length_bytes (code : Code) : code.bytes.length = code.size := by
  induction code with
  | nil => rfl
  | cons i rest ih =>
    rw [bytes, List.flatMap_cons, List.length_append]
    exact congrArg (i.bytes.length + ·) ih

@[simp] theorem size_nil : size [] = 0 := rfl

@[simp] theorem size_cons (i : Instruction) (code : Code) : size (i :: code) = i.size + code.size := rfl

@[simp] theorem size_append (before after : Code) : size (before ++ after) = before.size + after.size := by
  induction before with
  | nil => simp
  | cons i rest ih => simp [ih, Nat.add_assoc]

end Code

end BasicMachine
