import BasicMachine.Instruction.Basic

/-!
# Code before its place is known

Steps are instructions whose jumps are still open: a jump over a piece of code is known by its distance, and a jump to
a line, a function or a place inside a statement by its label. The size of the code depends on neither, so that labels
get their addresses before jumps get theirs.
-/
namespace BasicMachine.Language

inductive Label
  | line (n : UInt16)
  | function (name : String)
  /-- A place inside a statement. -/
  | inside (id : Nat)
  deriving DecidableEq, Repr

/-- The name that a program's label table shows; places inside statements are not shown. -/
def Label.name? : Label → Option String
  | line n => some (toString n.toNat)
  | function name => some ("FN:" ++ name)
  | inside _ => none

/-- A code address as the operand of a jump. -/
def jumpOperand (address : Nat) : Int16 := (UInt16.ofNat address).toInt16

inductive Step
  | fixed (i : Instruction)
  /-- A jump by a distance from its own address. -/
  | skip (op : ShortOp) (distance : Nat)
  | jump (op : ShortOp) (l : Label)
  deriving DecidableEq

namespace Step

def size : Step → Nat
  | fixed i => i.size
  | skip _ _ => 3
  | jump _ _ => 3

/-- The instruction of a step at an address, where `link` gives the addresses of labels. -/
def instruction (link : Label → Nat) (address : Nat) : Step → Instruction
  | fixed i => i
  | skip op distance => .short op (jumpOperand (address + distance))
  | jump op l => .short op (jumpOperand (link l))

@[simp] theorem size_instruction (link : Label → Nat) (address : Nat) (s : Step) :
    (s.instruction link address).size = s.size := by
  cases s <;> rfl

end Step

abbrev Steps := List Step

namespace Steps

def ofCode (code : Code) : Steps := code.map .fixed

def size (steps : Steps) : Nat := steps.foldr (fun s n => s.size + n) 0

@[simp] theorem size_nil : size [] = 0 := rfl

@[simp] theorem size_cons (s : Step) (steps : Steps) : size (s :: steps) = s.size + steps.size := rfl

@[simp] theorem size_append (before after : Steps) : size (before ++ after) = before.size + after.size := by
  induction before with
  | nil => simp
  | cons s rest ih => simp [ih, Nat.add_assoc]

/-- The code of steps that start at an address. -/
def place (link : Label → Nat) (address : Nat) : Steps → Code
  | [] => []
  | s :: rest => s.instruction link address :: place link (address + s.size) rest

@[simp] theorem size_place (link : Label → Nat) (address : Nat) (steps : Steps) :
    (place link address steps).size = steps.size := by
  induction steps generalizing address with
  | nil => rfl
  | cons s rest ih => simp [place, ih]

theorem place_append (link : Label → Nat) (address : Nat) (before after : Steps) :
    place link address (before ++ after) = place link address before ++ place link (address + before.size) after := by
  induction before generalizing address with
  | nil => rfl
  | cons s rest ih => simp [place, ih, Nat.add_assoc]

end Steps

end BasicMachine.Language
