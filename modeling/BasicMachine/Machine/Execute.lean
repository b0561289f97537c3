import BasicMachine.Instruction.Basic
import BasicMachine.Machine.Action

/-!
# Instructions at work

The effect of every instruction but host calls. The program counter is already past the instruction.
-/
namespace BasicMachine

/-- How the machine goes on after an instruction. -/
inductive Progress
  /-- With the next instruction, having spent `extra` cycles beyond the cost. -/
  | next (extra : Nat)
  /-- With the next instruction, in the next run. -/
  | pause
  /-- With the same instruction, in the next run. -/
  | retry
  | halt
  deriving DecidableEq, Repr

/-- The interrupts that the host handles. -/
abbrev Interrupts := UInt16 → Option (Action Unit)

namespace Action

def binary (f : Value → Value → Except Error Value) : Action Unit := do
  let (left, right) ← pop2
  push (← ofExcept (f left right))

def unary (f : Value → Except Error Value) : Action Unit := do
  let v ← pop
  push (← ofExcept (f v))

def compareWith (f : Array Value → Value → Value → Except Error Value) : Action Unit := do
  let (left, right) ← pop2
  push (← ofExcept (f (← get).memory left right))

/-- The number of cells that CALLOC asks for. -/
def cellCount : Value → Except Error Nat
  | .integer n => if 0 ≤ n then .ok n.toInt.toNat else .error (.of .illegalFunctionCall "BAD ALLOC")
  | .float x => if 0 ≤ x then .ok (Single.truncate x).toNat else .error (.of .illegalFunctionCall "BAD ALLOC")
  | _ => .error (.of .illegalFunctionCall "BAD ALLOC")

def plainEffect : PlainOp → Action Unit
  | .nop | .halt | .yield => return ()
  | .trace => modify fun m => { m with tracing := !m.tracing }
  | .pop => do let _ ← pop
  | .dup => do
    let v ← pop
    push v
    push v
  | .swap => do
    let (first, second) ← pop2
    push second
    push first
  | .pushReg r => do push (← register r)
  | .popReg r => do setRegister r (← pop)
  | .loadI => do push (← cell (← get).idx)
  | .storeI => do
    let v ← pop
    setCell (← get).idx v
  | .pushIdx => do push (.pointer (← get).idx)
  | .popIdx => do setIdx (← ofExcept (← pop).asPointer)
  | .calloc => do
    let n ← ofExcept (cellCount (← pop))
    let address ← allocate n
    setIdx address
    clearCells n address
  | .unary f => unary f.apply
  | .binary f => binary f.apply
  | .relation f => compareWith fun memory l r => f.apply memory l r
  | .cmp => compareWith Value.rank
  | .rnd => do
    let scale ← ofExcept (← pop).asNumber
    let random := (← get).random
    modify fun m => { m with random := random.next }
    push (.float (random.float * scale))
  | .seed => do
    let v ← pop
    modify fun m => { m with random := .ofSeed v.toWord.toUInt64 }
  | .len => do
    let address ← ofExcept (← pop).asPointer
    let length := (← ofExcept (Value.string (← get).memory address)).length
    if 32767 < length then fail .overflow
    push (.integer (Int16.ofNat length))
  | .clock => do push (.float (Float32.ofNat (← get).clock))
  | .ret => fun m =>
    match m.calls.top? with
    | some address => .ok () { m with pc := address, calls := m.calls.dropTop }
    | none => .error (.of .returnWithoutGosub) m

/-- A jump operand as an address. -/
def jumpAddress (n : Int16) : Nat := n.toUInt16.toNat

def shortEffect (interrupts : Interrupts) (n : Int16) : ShortOp → Action Unit
  | .irq =>
    match interrupts n.toUInt16 with
    | some handler => handler
    | none => fail .illegalFunctionCall ("NO INTERRUPT " ++ toString n.toUInt16.toNat)
  | .fail =>
    match ErrorCode.ofNumber? n with
    | some code => fail code
    | none => fail .illegalFunctionCall ("ERROR " ++ toString n.toInt)
  | .pushI => push (.integer n)
  | .loadX => do push (← cell (← indexed n))
  | .storeX => do
    let address ← indexed n
    setCell address (← pop)
  | .deref => do setIdx (← ofExcept (← cell (← indexed n)).asPointer)
  | .alloc => do
    if n < 0 then fail .illegalFunctionCall "NEGATIVE ALLOC"
    setIdx (← allocate n.toInt.toNat)
  | .clr => do if 0 < n then clearCells n.toInt.toNat (← indexed 0)
  | .jmp => setPc (jumpAddress n)
  | .jz => do unless ← ofExcept (← pop).isTrue do setPc (jumpAddress n)
  | .jnz => do if ← ofExcept (← pop).isTrue then setPc (jumpAddress n)
  | .call => fun m =>
    if m.calls.isFull then .error m.calls.overflow m
    else .ok () { m with calls := m.calls.insert m.pc, pc := jumpAddress n }

def pointerEffect (address : Nat) : PointerOp → Action Unit
  | .pushP => push (.pointer address)
  | .load => do push (← cell address)
  | .store => do setCell address (← pop)
  | .setIdx => setIdx address

/-- Stores bytes and a zero at IDX, which goes along. -/
def setString : List UInt8 → Action Unit
  | [] => setNext 0
  | b :: rest => do
    setNext b
    setString rest
where
  setNext (b : UInt8) : Action Unit := do
    let address := (← get).idx
    setCell address (.integer (Int16.ofNat b.toNat))
    setIdx (address + 1)

def effect (interrupts : Interrupts) : Instruction → Action Unit
  | .plain op => plainEffect op
  | .short op n => shortEffect interrupts n op
  | .pointer op address => pointerEffect address op
  | .pushF word => push (.float (Float32.ofBits word))
  | .push v => push v
  | .syscall _ _ => return ()
  | .setS bytes => setString bytes

end Action

/-- How the machine goes on after an instruction that is no host call. -/
def Instruction.progress : Instruction → Progress
  | .plain .halt => .halt
  | .plain .yield => .pause
  | _ => .next 0

end BasicMachine
