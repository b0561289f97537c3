import BasicMachine.Value.Basic

/-!
# Comparison

Values of one kind compare by size; two addresses compare the strings that start at them, cell by cell. A string
in memory is a row of integer cells that ends before a zero.
-/
namespace BasicMachine

/-- The comparisons that answer yes or no. -/
inductive Relation
  | equal
  | notEqual
  | greater
  | greaterEqual
  | less
  | lessEqual
  deriving DecidableEq, Repr

namespace Value

/-- The string that goes on at `address`, of which at most `room` cells lie in memory; `before` holds the cells
before, the last first. -/
def stringFrom (memory : Array Value) (before : List Int16) : (room address : Nat) → Except Error (List Int16)
  | 0, _ => .error (.of .memoryFault "UNTERMINATED STRING")
  | room + 1, address =>
    match memory[address]? with
    | some (integer n) => if n = 0 then .ok before.reverse else stringFrom memory (n :: before) room (address + 1)
    | some _ => .error (.of .typeMismatch "NOT A STRING")
    | none => .error (.of .memoryFault "UNTERMINATED STRING")

/-- The integer cells from `address` up to the first zero. -/
def string (memory : Array Value) (address : Nat) : Except Error (List Int16) :=
  stringFrom memory [] (memory.size - address) address

/-- NaN has no place among the singles. -/
def orderFloats (x y : Float32) : Option Ordering :=
  if x < y then some .lt else if x == y then some .eq else if y < x then some .gt else none

def compareStrings : List Int16 → List Int16 → Ordering
  | [], [] => .eq
  | [], _ :: _ => .lt
  | _ :: _, [] => .gt
  | a :: as, b :: bs => (compare a.toInt b.toInt).then (compareStrings as bs)

/-- How two values stand to each other; `mixed` allows an integer beside a single. -/
def order (memory : Array Value) (mixed : Bool) : Value → Value → Except Error (Option Ordering)
  | integer l, integer r => .ok (some (compare l.toInt r.toInt))
  | float l, float r => .ok (orderFloats l r)
  | integer l, float r =>
    if mixed then .ok (orderFloats (Float32.ofInt l.toInt) r) else .error (.of .typeMismatch)
  | float l, integer r =>
    if mixed then .ok (orderFloats l (Float32.ofInt r.toInt)) else .error (.of .typeMismatch)
  | pointer l, pointer r => do
    let left ← string memory l
    let right ← string memory r
    return some (compareStrings left right)
  | _, _ => .error (.of .typeMismatch)

/-- -1, 0 or 1 as the left value is below, level with or above the right one; an integer may stand beside a
single. -/
def rank (memory : Array Value) (l r : Value) : Except Error Value := do
  match ← order memory true l r with
  | some .lt => return integer (-1)
  | some .eq => return integer 0
  | some .gt => return integer 1
  | none => throw (.of .illegalFunctionCall "NAN")

end Value

namespace Relation

/-- The standings for which a comparison holds. -/
def holds : Relation → Option Ordering → Bool
  | equal, o => o == some .eq
  | notEqual, o => o != some .eq
  | greater, o => o == some .gt
  | greaterEqual, o => o == some .gt || o == some .eq
  | less, o => o == some .lt
  | lessEqual, o => o == some .lt || o == some .eq

/-- Values of different kinds do not compare. -/
def apply (memory : Array Value) (relation : Relation) (l r : Value) : Except Error Value := do
  return .ofBool (relation.holds (← Value.order memory false l r))

end Relation

end BasicMachine
