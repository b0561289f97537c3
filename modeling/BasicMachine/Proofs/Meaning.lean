import BasicMachine.Machine.Host
import BasicMachine.Proofs.Functions
import BasicMachine.Proofs.Grammar

/-!
# What expressions mean

The value of an expression with all that it may hold: array elements, functions that ask the host or draw a random
number, and calls of functions that the program defines. A call binds the parameters of the function to the values of its
arguments and evaluates the body. Since programs can look at any cell, memory is part of what an expression sees: while
a function is at work, its arguments lie in its frame, and the frame pointer tells where.
-/
namespace BasicMachine.Language

/-- What an expression sees and may change. -/
structure World (σ : Type) where
  memory : Array Value
  random : Random
  host : σ

abbrev Evaluation (σ : Type) := EStateM Error (World σ)

namespace Evaluation

variable {σ α : Type}

/-- An answer that depends on memory alone. -/
def looking (f : Array Value → Except Error α) : Evaluation σ α := fun w =>
  match f w.memory with
  | .ok a => .ok a w
  | .error e => .error e w

def answer (r : Except Error α) : Evaluation σ α := looking fun _ => r

/-- The value of a cell. -/
def held (address : Nat) (memory : Array Value) : Except Error Value :=
  match memory[address]? with
  | some v => .ok v
  | none => .error (Action.memoryFault address)

def fetch (address : Nat) : Evaluation σ Value := looking (held address)

def ask (host : Host σ) (call : HostCall) : Evaluation σ call.Answer := fun w =>
  let (a, t) := host call w.host
  .ok a { w with host := t }

/-- A random number below the scale. -/
def draw (scale : Float32) : Evaluation σ Value := fun w =>
  .ok (.float (w.random.float * scale)) { w with random := w.random.next }

/-- Changes memory. -/
def remember (f : Array Value → Array Value) : Evaluation σ Unit := fun w => .ok () { w with memory := f w.memory }

end Evaluation

open Evaluation

/-- A number that fits 16 bits, without its fraction. -/
def coordinate : Value → Except Error Int16
  | .integer n => .ok n
  | .float x => if -32768 ≤ x ∧ x ≤ 32767 then .ok (Int16.ofInt (Single.truncate x)) else .error (.of .overflow)
  | _ => .error (.of .typeMismatch)

namespace Builtin

/-- The function as one whose result depends on its argument alone. -/
def function? : Builtin → Option Function
  | abs => some .abs
  | atn => some .atn
  | cos => some .cos
  | exp => some .exp
  | int => some .int
  | len => some .len
  | log => some .log
  | sgn => some .sgn
  | sin => some .sin
  | sqr => some .sqr
  | tan => some .tan
  | inkey | key | peek | point | rnd => none

/-- The value of a built-in function. -/
def eval {σ : Type} (host : Host σ) (f : Builtin) (args : List Value) : Evaluation σ Value :=
  match f, args with
  | inkey, [] => do return .integer (Int16.ofNat (← ask host (.read true)).toNat)
  | key, [v] => do return .ofBool (← ask host (.keySet (← answer v.asByte)))
  | peek, [v] => do fetch (← answer (v.toPointer >>= Value.asPointer))
  | point, [x, y] => do
    let y ← answer (coordinate y)
    let x ← answer (coordinate x)
    return .integer (Int16.ofNat (← ask host (.getPixel x y)).toNat)
  | rnd, [v] => do draw (← answer v.asNumber)
  | f, args =>
    match f.function?, args with
    | some g, [v] => looking fun memory => g.apply memory v
    | _, _ => throw (.of .illegalFunctionCall (f.name ++ " TAKES " ++ toString f.arity))

end Builtin

namespace ArrayBlock

/-- Fails unless an index lies inside the array. -/
def check (array : ArrayBlock) (memory : Array Value) (index : Value) : Except Error Unit := do
  unless ← (← compared memory .less index (.integer (Int16.ofNat array.length))).isTrue do
    throw (.of .subscriptOutOfRange)
  unless ← (← compared memory .greaterEqual index (.integer 0)).isTrue do
    throw (.of .subscriptOutOfRange)

end ArrayBlock

/-- The value of a parameter; the first has place 1. -/
def argument (args : List Value) (place : Int16) : Except Error Value :=
  match args[place.toInt.toNat - 1]? with
  | some v => .ok v
  | none => .error (.of .internalError "NO SUCH PARAMETER")

section
variable {σ : Type} (host : Host σ) (call : String → List Value → Evaluation σ Value) (args : List Value)

mutual

/-- The value of an expression, from left to right, where `call` gives the values of functions and `args` those of the
parameters. -/
def Expr.eval : Expr → Evaluation σ Value
  | .integer n => return .integer n
  | .float x => return .float x
  | .text address => return .pointer address
  | .variable (.cell address) => fetch address
  | .variable (.place offset) => answer (argument args offset)
  | .element array subscripts => do
    let index ← evalIndex array.extents subscripts
    looking fun memory => array.check memory index
    fetch (← answer (index.add (.pointer array.base) >>= Value.asPointer))
  | .negate e => do answer ((Value.integer 0).subtract (← e.eval))
  | .not e => do answer (Unary.not.apply (← e.eval))
  | .binary op left right => do
    let l ← left.eval
    let r ← right.eval
    looking fun memory => op.apply memory l r
  | .builtin f es => do f.eval host (← evalAll es)
  | .call name es => do call name (← evalAll es)

def evalAll : List Expr → Evaluation σ (List Value)
  | [] => return []
  | e :: rest => do
    let v ← e.eval
    return v :: (← evalAll rest)

/-- The index of an array element, row by row. -/
def evalIndex (extents : List Int16) : List Expr → Evaluation σ Value
  | [] => throw (.of .subscriptOutOfRange)
  | e :: rest => do
    let index ← answer (← e.eval).floor
    evalInner extents.tail index rest

/-- The subscripts after the first, each with the extent of its own dimension. -/
def evalInner (extents : List Int16) (index : Value) : List Expr → Evaluation σ Value
  | [] => return index
  | e :: rest => do
    let scaled ← answer (index.multiply (.integer (extents.headD 0)))
    let index ← answer ((← e.eval).floor >>= scaled.add)
    evalInner extents.tail index rest

end

end

/-- Values in the cells from `start` on. -/
def settle (start : Nat) : List Value → Array Value → Array Value
  | [], memory => memory
  | v :: rest, memory => (settle (start + 1) rest memory).setIfInBounds start v

/-- Memory where the body of a function begins: the frame holds the frame pointer of the caller and the arguments, and it
is the active one. -/
def Routine.enter (r : Routine) (caller : Value) (args : List Value) (memory : Array Value) : Array Value :=
  (settle (r.frame + 1) args (memory.setIfInBounds r.frame caller)).setIfInBounds frameCell (.pointer r.frame)

/-- The value of a function of the program, whose calls go no deeper than `depth`. -/
def Context.apply {σ : Type} (c : Context) (host : Host σ) : (depth : Nat) → String → List Value → Evaluation σ Value
  | 0, name, _ => throw (.of .internalError ("FN " ++ name ++ " GOES TOO DEEP"))
  | depth + 1, name, args =>
    match c.routine? name with
    | none => throw (.of .undefinedUserFunction name)
    | some r => do
      let caller ← fetch frameCell
      remember (r.enter caller args)
      let v ← r.body.eval host (c.apply host depth) args
      remember (·.setIfInBounds frameCell caller)
      return v

end BasicMachine.Language
