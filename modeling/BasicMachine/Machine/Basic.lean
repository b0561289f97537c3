import BasicMachine.Instruction.Opcode
import BasicMachine.Machine.Random
import BasicMachine.Machine.Stack

/-!
# The machine

Registers, memory, two stacks and a clock. A machine is ready until it first runs; a fault stops it until it is reset.
-/
namespace BasicMachine

structure Config where
  /-- Cells of memory. -/
  memorySize : Nat := 16384
  /-- Values on the stack. -/
  stackSize : Nat := 256
  /-- Return addresses on the call stack. -/
  callDepth : Nat := 64
  deriving DecidableEq

inductive Status
  | ready
  | running
  | faulted
  deriving DecidableEq, Repr

structure Machine where
  config : Config
  a : Value
  b : Value
  c : Value
  idx : Nat
  pc : Nat
  /-- Where the first run begins, if not at the entry point of its program. -/
  start : Option Nat
  stack : Stack Value
  calls : Stack Nat
  memory : Array Value
  /-- The cells from here on are handed out. -/
  heap : Nat
  /-- The heap does not grow below this cell. -/
  floor : Nat
  tracing : Bool
  status : Status
  /-- Bytes that an unfinished READS has stored. -/
  readCursor : Nat
  random : Random
  clock : Nat
  deriving DecidableEq

namespace Machine

def defaultSeed : UInt64 := 0x5eed

/-- A machine that has not run. Memory has no more cells than an address can name. -/
def new (config : Config) : Machine :=
  let config := { config with memorySize := min config.memorySize (maxPointer + 1) }
  { config
    a := .unset
    b := .unset
    c := .unset
    idx := 0
    pc := 0
    start := none
    stack := { name := "VALUE STACK", limit := config.stackSize }
    calls := { name := "CALL STACK", limit := config.callDepth }
    memory := Array.replicate config.memorySize .unset
    heap := config.memorySize
    floor := 0
    tracing := false
    status := .ready
    readCursor := 0
    random := .ofSeed defaultSeed
    clock := 0 }

/-- Forgets all that has happened to the machine. Its sizes and limits stay. -/
def reset (m : Machine) : Machine :=
  { m with
    a := .unset
    b := .unset
    c := .unset
    idx := 0
    pc := 0
    start := none
    stack := m.stack.clear
    calls := m.calls.clear
    memory := m.memory.map fun _ => .unset
    heap := m.memory.size
    floor := 0
    tracing := false
    status := .ready
    readCursor := 0
    random := .ofSeed defaultSeed
    clock := 0 }

/-- Sets the program counter. Before the first run this replaces the entry point. -/
def jump (m : Machine) (address : Nat) : Machine :=
  match m.status with
  | .ready => { m with start := some address }
  | _ => { m with pc := address }

def isRunning (m : Machine) : Bool := m.status == .running

def register (m : Machine) : Register → Value
  | .a => m.a
  | .b => m.b
  | .c => m.c

def setRegister (m : Machine) (r : Register) (v : Value) : Machine :=
  match r with
  | .a => { m with a := v }
  | .b => { m with b := v }
  | .c => { m with c := v }

def faulted (m : Machine) : Machine := { m with status := .faulted }

end Machine

end BasicMachine
