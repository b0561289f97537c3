import BasicMachine.Language.Expr

/-!
# Commands

A program is a flat list of commands; loops and branches jump to labels among them.
-/
namespace BasicMachine.Language

inductive Command
  | mark (l : Label)
  | jump (l : Label)
  | call (l : Label)
  | ret
  | halt
  | yield
  | branchUnless (e : Expr) (l : Label)
  /-- Jumps if the cell compares with the number as asked. -/
  | branchOn (cell : Nat) (n : Int16) (equal : Bool) (l : Label)
  /-- Leaves the loop once the variable is past the limit in the direction of the step. -/
  | testLoop (slot : Slot) (limit step : Nat) (exit : Label)
  | assign (t : Target) (e : Expr)
  | print (e : Expr)
  | write (byte : UInt8)
  | prompt (address : Nat)
  | input (t : Target) (isText : Bool)
  /-- Reads the next of `count` DATA items. -/
  | read (t : Target) (count : Nat)
  /-- A function that keeps its parameters in the frame. -/
  | function (frame arity : Nat) (body : Expr)
  | poke (address value : Expr)
  | swap (left right : Slot)
  | seed (e : Option Expr)
  | host (request : Syscall) (args : List Expr)
  | blit (x y : Expr) (array : ArrayBlock)

namespace Command

def hostCode (request : Syscall) : Code := [.syscall request .a]

/-- A value from the stack goes to the host. -/
def sendCode (request : Syscall) : Code := .plain (.popReg .a) :: hostCode request

/-- Fails if all of the `count` DATA items are read. -/
def remainingSteps (count : Nat) : Steps :=
  Steps.ofCode [.pointer .load cursorCell, .short .pushI (Int16.ofNat count), .plain (.relation .less)] ++
    [.skip .jnz 6, .fixed (.short .fail ErrorCode.outOfData.number)]

/-- The next DATA item; the cursor moves on. -/
def nextItemCode : Code :=
  [.pointer .pushP dataBase, .pointer .load cursorCell, .plain (.binary .add)] ++ fetchCode ++
    [.pointer .load cursorCell, .short .pushI 1, .plain (.binary .add), .pointer .store cursorCell]

/-- Places of arguments are numbers of 16 bits, and so is how many there are. -/
def argumentCount (arity : Nat) : Nat := (Int16.ofNat arity).toInt.toNat

/-- Saves the caller's frame pointer and the arguments, the last of them first. -/
def enterCode (frame arity : Nat) : Code :=
  [.pointer .setIdx frame, .pointer .load frameCell, .short .storeX 0] ++
    (List.range (argumentCount arity)).reverse.map (fun i => .short .storeX (Int16.ofNat (i + 1))) ++
    [.plain .pushIdx, .pointer .store frameCell]

def leaveCode : Code := frameCode ++ [.short .loadX 0, .pointer .store frameCell, .plain .ret]

def testLoopCode (slot : Slot) (limit step : Nat) : Code :=
  slot.load ++
    [.pointer .load limit, .plain .cmp, .pointer .load step, .short .pushI 0, .plain .cmp,
      .plain (.binary .multiply), .short .pushI 1, .plain (.relation .notEqual)]

def code : Command → Steps
  | mark _ => []
  | jump l => [.jump .jmp l]
  | call l => [.jump .call l]
  | ret => Steps.ofCode [.plain .ret]
  | halt => Steps.ofCode [.plain .halt]
  | yield => Steps.ofCode [.plain .yield]
  | branchUnless e l => e.codeBefore [.jump .jz l]
  | branchOn cell n equal l =>
    Steps.ofCode [.pointer .load cell, .short .pushI n, .plain .cmp] ++ [.jump (if equal then .jz else .jnz) l]
  | testLoop slot limit step exit => Steps.ofCode (testLoopCode slot limit step) ++ [.jump .jz exit]
  | assign t e => t.address ++ e.codeBefore (Steps.ofCode t.store)
  | print e => e.codeBefore (Steps.ofCode (sendCode .print))
  | write byte => Steps.ofCode (.short .pushI (Int16.ofNat byte.toNat) :: sendCode .write)
  | prompt address => Steps.ofCode (.pointer .pushP address :: sendCode .puts)
  | input t isText =>
    t.address ++ Steps.ofCode (hostCode (if isText then .gets else .input) ++ .plain (.pushReg .a) :: t.store)
  | read t count => t.address ++ remainingSteps count ++ Steps.ofCode (nextItemCode ++ t.store)
  | function frame arity body => Steps.ofCode (enterCode frame arity) ++ body.codeBefore (Steps.ofCode leaveCode)
  | poke address value =>
    address.codeBefore (.fixed (.plain (.unary .toPointer)) :: value.codeBefore (Steps.ofCode depositCode))
  | swap left right => Steps.ofCode (left.load ++ right.load ++ left.store ++ right.store)
  | seed none => Steps.ofCode [.plain .clock, .plain .seed]
  | seed (some e) => e.codeBefore (Steps.ofCode [.plain .seed])
  | host request args => argumentsBefore (Steps.ofCode (hostCode request)) args
  | blit x y array =>
    x.codeBefore (y.codeBefore (Steps.ofCode
      ([.short .pushI (Int16.ofNat array.length), .pointer .pushP array.base] ++ sendCode .blit)))

/-- Bytes of the command's code. -/
def size (c : Command) : Nat := c.code.size

end Command

/-- The addresses of the labels in commands that start at `start`, the first mark first. -/
def labelsFrom (start : Nat) : List Command → List (Label × Nat)
  | [] => []
  | .mark l :: rest => (l, start) :: labelsFrom start rest
  | c :: rest => labelsFrom (start + c.size) rest

end BasicMachine.Language
