import BasicMachine.Instruction.Basic

/-!
# Programs

Code bytes, a label table, an entry point and the number of memory cells that the program keeps for itself. Reading
past the end of the code gives zero bytes, and a HALT where an opcode is looked for.
-/
namespace BasicMachine

/-- Names of code addresses, each at most once. -/
abbrev Labels := List (String × Nat)

namespace Labels

def find? (labels : Labels) (name : String) : Option Nat := labels.lookup name

/-- A name that is there already gets the new address. -/
def insert (labels : Labels) (name : String) (address : Nat) : Labels :=
  (name, address) :: labels.filter (·.1 != name)

/-- By name. -/
def sorted (labels : Labels) : Labels := labels.mergeSort fun x y => x.1 ≤ y.1

end Labels

structure Program where
  code : Array UInt8 := #[]
  labels : Labels := []
  entry : Nat := 0
  staticSize : Nat := 0
  deriving DecidableEq

namespace Program

def size (p : Program) : Nat := p.code.size

def add (p : Program) (i : Instruction) : Program := { p with code := p.code ++ i.bytes }

def addLabel (p : Program) (name : String) (address : Nat) : Program :=
  { p with labels := p.labels.insert name address }

def label (p : Program) (name : String) : Except Error Nat :=
  match p.labels.find? name with
  | some address => .ok address
  | none => .error (.of .undefinedLabel name)

/-- The byte at an address, zero past the end. -/
def byteAt (p : Program) (address : Nat) : UInt8 := p.code[address]?.getD 0

/-- The opcode byte at an address, HALT past the end. -/
def fetch (p : Program) (address : Nat) : UInt8 := p.code[address]?.getD PlainOp.halt.byte

def wordAt (p : Program) (address : Nat) : UInt32 :=
  (p.byteAt address).toUInt32 ||| (p.byteAt (address + 1)).toUInt32 <<< 8 |||
    (p.byteAt (address + 2)).toUInt32 <<< 16 ||| (p.byteAt (address + 3)).toUInt32 <<< 24

def halfAt (p : Program) (address : Nat) : UInt16 :=
  (p.byteAt address).toUInt16 ||| (p.byteAt (address + 1)).toUInt16 <<< 8

def shortAt (p : Program) (address : Nat) : Int16 := (p.halfAt address).toInt16

/-- Three bytes, of which the highest bit does not count. -/
def pointerAt (p : Program) (address : Nat) : Nat :=
  (p.byteAt address).toNat + 256 * (p.byteAt (address + 1)).toNat + 65536 * ((p.byteAt (address + 2)).toNat % 128)

def valueAt (p : Program) (address : Nat) : Value := .ofWord (p.wordAt address)

def syscallAt (p : Program) (address : Nat) : Except Error (Syscall × Register) := do
  let call ← Syscall.ofNumber (p.halfAt address)
  let register ← Register.ofNumber (p.halfAt (address + 2))
  return (call, register)

/-- The first zero byte among the next `room` bytes from `address` on, or else the address after them. -/
def stringEnd (p : Program) : (room address : Nat) → Nat
  | 0, address => address
  | room + 1, address => if p.byteAt address = 0 then address else p.stringEnd room (address + 1)

/-- The bytes from `address` to the first zero or the end of the code. -/
def stringAt (p : Program) (address : Nat) : List UInt8 :=
  (p.code.extract address (p.stringEnd (p.size - address) address)).toList

/-- Bytes that the string at `address` takes, its terminator among them where there is one. -/
def stringWidth (p : Program) (address : Nat) : Nat := min ((p.stringAt address).length + 1) (p.size - address)

/-- Bytes that the operand of `op` at `address` takes. -/
def operandWidth (p : Program) (op : Opcode) (address : Nat) : Nat :=
  op.kind.width?.getD (p.stringWidth address)

/-- The instruction with opcode `op` whose operand starts at `start`, and the address behind the operand. -/
def decode (p : Program) (op : Opcode) (start : Nat) : Except Error (Instruction × Nat) :=
  match op with
  | .plain op => .ok (.plain op, start)
  | .short op => .ok (.short op (p.shortAt start), start + 2)
  | .pointer op => .ok (.pointer op (p.pointerAt start), start + 3)
  | .pushF => .ok (.pushF (p.wordAt start), start + 4)
  | .push => .ok (.push (p.valueAt start), start + 4)
  | .syscall => do
    let (call, register) ← p.syscallAt start
    return (.syscall call register, start + 4)
  | .setS => .ok (.setS (p.stringAt start), start + p.stringWidth start)

/-- The instruction at an address and the address of the next one. -/
def instructionAt (p : Program) (address : Nat) : Except Error (Instruction × Nat) := do
  let op ← Opcode.ofByte (p.fetch address)
  p.decode op (address + 1)

/-- Why an operand was not overwritten. -/
inductive PatchFailure
  | refused (error : Error)
  /-- The operand runs past the end of the code. There is no error number for this: the program that tries it
  cannot go on. -/
  | cutOff
  deriving DecidableEq, Repr

/-- Overwrites the operand of the instruction at `address`, whose opcode must take operands of that kind. -/
def patch (p : Program) (address : Nat) (operand : Operand) : Except PatchFailure Program :=
  match Opcode.ofByte (p.fetch address) with
  | .error e => .error (.refused e)
  | .ok op =>
    if op.kind ≠ operand.kind ∨ p.size ≤ address then
      .error (.refused (.of .internalError
        ("NO " ++ operand.kind.name ++ " OPERAND AT " ++ Numeral.hex 4 address)))
    else if p.size < address + 1 + operand.bytes.length then .error .cutOff
    else
      let before := p.code.extract 0 (address + 1)
      let after := p.code.extract (address + 1 + operand.bytes.length) p.size
      .ok { p with code := before ++ operand.bytes ++ after }

end Program

end BasicMachine
