import BasicMachine.Machine.Basic

/-!
# Actions

What changes a machine and may fail. A failed action keeps what it changed before.
-/
namespace BasicMachine

abbrev Action := EStateM Error Machine

namespace Action

def fail (code : ErrorCode) (detail : String := "") : Action α := throw (.of code detail)

def ofExcept (r : Except Error α) : Action α := fun m =>
  match r with
  | .ok a => .ok a m
  | .error e => .error e m

/-- An operation on the stack of values. -/
def onStack (f : EStateM Error (Stack Value) α) : Action α := fun m =>
  match f m.stack with
  | .ok a stack => .ok a { m with stack }
  | .error e stack => .error e { m with stack }

def push (v : Value) : Action Unit := onStack (Stack.push v)

def pop : Action Value := onStack Stack.pop

/-- Two values, the top one second. -/
def pop2 : Action (Value × Value) := onStack Stack.pop2

theorem push_apply (v : Value) (m : Machine) : push v m =
    if m.stack.isFull then .error m.stack.overflow m else .ok () { m with stack := m.stack.insert v } := by
  unfold push onStack Stack.push
  cases m.stack.isFull <;> rfl

theorem pop_apply (m : Machine) : pop m =
    match m.stack.top? with
    | some v => .ok v { m with stack := m.stack.dropTop }
    | none => .error m.stack.underflow m := by
  unfold pop onStack Stack.pop
  cases m.stack.top? <;> rfl

/-- Popping two values is popping twice. -/
theorem pop2_eq_pops : pop2 = do
    let second ← pop
    let first ← pop
    return (first, second) := by
  funext m
  simp only [pop2, pop, onStack, Stack.pop2, bind, EStateM.bind]
  cases Stack.pop m.stack with
  | error e s => rfl
  | ok second s =>
    simp only
    cases Stack.pop s <;> rfl

def register (r : Register) : Action Value := return (← get).register r

def setRegister (r : Register) (v : Value) : Action Unit := modify (·.setRegister r v)

def setIdx (address : Nat) : Action Unit := modify ({ · with idx := address })

def setPc (address : Nat) : Action Unit := modify ({ · with pc := address })

def memoryFault (address : Int) : Error := .of .memoryFault ("ADDRESS " ++ toString address)

def cell (address : Nat) : Action Value := fun m =>
  match m.memory[address]? with
  | some v => .ok v m
  | none => .error (memoryFault address) m

def setCell (address : Nat) (v : Value) : Action Unit := fun m =>
  if address < m.memory.size then .ok () { m with memory := m.memory.setIfInBounds address v }
  else .error (memoryFault address) m

/-- The address at an offset from IDX. -/
def indexed (offset : Int16) : Action Nat := do
  let address := Value.shifted (← get).idx offset.toInt
  if address < 0 then throw (memoryFault address)
  return address.toNat

/-- Zeros in `count` cells from `address` on. -/
def clearCells : (count address : Nat) → Action Unit
  | 0, _ => return ()
  | count + 1, address => do
    setCell address (.integer 0)
    clearCells count (address + 1)

/-- Bytes and a zero in the cells from `address` on. -/
def storeString : (bytes : List UInt8) → (address : Nat) → Action Unit
  | [], address => setCell address (.integer 0)
  | b :: rest, address => do
    setCell address (.integer (Int16.ofNat b.toNat))
    storeString rest (address + 1)

/-- The first of `n` cells that are taken from the heap. -/
def allocate (n : Nat) : Action Nat := do
  let m ← get
  if m.heap < m.floor + n then fail .outOfMemory "HEAP"
  let top := m.heap - n
  modify ({ · with heap := top })
  return top

/-- The string at an address, each cell as the character of its low byte. -/
def text (address : Nat) : Action String := do
  let cells ← ofExcept (Value.string (← get).memory address)
  return String.ofList (cells.map fun n => Char.ofNat n.toUInt16.toUInt8.toNat)

def popByte : Action UInt8 := do ofExcept (← pop).asByte

/-- A number that fits 16 bits, without its fraction. -/
def popCoordinate : Action Int16 := do
  match ← pop with
  | .integer n => return n
  | .float x =>
    if -32768 ≤ x ∧ x ≤ 32767 then return Int16.ofInt (Single.truncate x)
    else fail .overflow
  | _ => fail .typeMismatch

/-- A number from 0 to 65535, without its fraction. -/
def popCount : Action UInt16 := do
  match ← pop with
  | .integer n => if 0 ≤ n then return n.toUInt16 else fail .illegalFunctionCall
  | .float x =>
    if 0 ≤ x ∧ x ≤ 65535 then return UInt16.ofNat (Single.truncate x).toNat
    else fail .illegalFunctionCall
  | _ => fail .typeMismatch

end Action

end BasicMachine
