import BasicMachine.Error

/-!
# Stacks

A stack of limited size. Pushing past the limit and popping from an empty stack are errors that name the stack.
-/
namespace BasicMachine

structure Stack (α : Type) where
  name : String
  limit : Nat
  /-- The last item is on top. -/
  items : Array α := #[]
  deriving DecidableEq

namespace Stack

variable {α : Type}

def size (s : Stack α) : Nat := s.items.size

def isFull (s : Stack α) : Bool := s.limit ≤ s.items.size

/-- One more item, whatever the limit. -/
def insert (s : Stack α) (a : α) : Stack α := { s with items := s.items.push a }

/-- One item fewer, if there is one. -/
def dropTop (s : Stack α) : Stack α := { s with items := s.items.pop }

def top? (s : Stack α) : Option α := s.items.back?

def clear (s : Stack α) : Stack α := { s with items := #[] }

def overflow (s : Stack α) : Error := .of .stackOverflow s.name

def underflow (s : Stack α) : Error := .of .stackUnderflow s.name

def push (a : α) : EStateM Error (Stack α) Unit := fun s =>
  if s.isFull then .error s.overflow s else .ok () (s.insert a)

def pop : EStateM Error (Stack α) α := fun s =>
  match s.top? with
  | some a => .ok a s.dropTop
  | none => .error s.underflow s

/-- Two items, the top one second. If there is only one, it is gone. -/
def pop2 : EStateM Error (Stack α) (α × α) := do
  let second ← pop
  let first ← pop
  return (first, second)

/-- The top `n` items, the topmost last, or none of them. -/
def popN (n : Nat) : EStateM Error (Stack α) (List α) := fun s =>
  if s.items.size < n then .error s.underflow s
  else
    let rest := s.items.size - n
    .ok (s.items.extract rest s.items.size).toList { s with items := s.items.extract 0 rest }

variable (s : Stack α) (a : α)

@[simp] theorem top?_insert : (s.insert a).top? = some a := by simp [top?, insert]

@[simp] theorem dropTop_insert : (s.insert a).dropTop = s := by simp [dropTop, insert]

@[simp] theorem size_insert : (s.insert a).size = s.size + 1 := by simp [size, insert]

@[simp] theorem limit_insert : (s.insert a).limit = s.limit := rfl

@[simp] theorem overflow_insert : (s.insert a).overflow = s.overflow := rfl

theorem isFull_iff : s.isFull = true ↔ s.limit ≤ s.size := by simp [isFull, size]

end Stack

end BasicMachine
