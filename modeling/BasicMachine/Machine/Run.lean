import BasicMachine.Machine.Serve
import BasicMachine.Machine.Snapshot
import BasicMachine.Program.Basic

/-!
# Runs

A run executes instructions until the machine halts, pauses, fails or has spent its budget of cycles. The machine keeps
its state between runs, so that the next one goes on where this one stopped.
-/
namespace BasicMachine

/-- What a machine runs in: its host, the interrupts that are handled, and who watches it while it traces. -/
structure Environment (σ : Type) where
  host : Host σ
  interrupts : Interrupts := fun _ => none
  watch : Option (Snapshot → σ → σ) := none

namespace Session

variable {σ : Type}

/-- A ready machine starts if the static cells of the program fit its memory. -/
def begin (p : Program) : Action Unit := fun m =>
  match m.status with
  | .faulted => .error (.of .internalError "MACHINE FAULTED; RESET REQUIRED") m
  | .running => .ok () m
  | .ready =>
    if m.memory.size < p.staticSize then .error (.of .outOfMemory "STATIC SEGMENT") m.faulted
    else
      .ok () { m with floor := p.staticSize, pc := m.start.getD p.entry, start := none, status := .running }

/-- The program counter passes the instruction, and the clock counts its cost. -/
def pass (p : Program) (op : Opcode) : Action Unit :=
  modify fun m =>
    { m with pc := m.pc + 1 + p.operandWidth op (m.pc + 1), clock := m.clock + op.cost }

/-- What an instruction does with its operand, with `room` cycles left. -/
def perform (env : Environment σ) (room : Nat) : Instruction → SessionM σ Progress
  | .syscall call r => serve env.host r room call
  | i => do
    act (Action.effect env.interrupts i)
    return i.progress

/-- One instruction at `address`, with `room` cycles left after its cost. The machine passes by the width of the
operand's kind, and each instruction reads its operand itself. -/
def step (env : Environment σ) (p : Program) (op : Opcode) (address room : Nat) : SessionM σ Progress := do
  act (pass p op)
  let start := address + 1
  match op with
  | .plain op => perform env room (.plain op)
  | .short op => perform env room (.short op (p.shortAt start))
  | .pointer op => perform env room (.pointer op (p.pointerAt start))
  | .pushF => perform env room (.pushF (p.wordAt start))
  | .push => perform env room (.push (p.valueAt start))
  | .setS => perform env room (.setS (p.stringAt start))
  | .syscall =>
    let (call, r) ← act (Action.ofExcept (p.syscallAt start))
    perform env room (.syscall call r)

/-- Shows the machine to its watcher. -/
def watched (env : Environment σ) (op : Opcode) (s : Session σ) : Session σ :=
  match env.watch, s with
  | some watch, ⟨m, t⟩ => if m.tracing then ⟨m, watch (m.snapshot op) t⟩ else ⟨m, t⟩
  | none, s => s

@[simp] theorem machine_watched (env : Environment σ) (op : Opcode) (s : Session σ) :
    (watched env op s).machine = s.machine := by
  unfold watched
  split
  · split <;> rfl
  · rfl

def withMachine (f : Machine → Machine) : Session σ → Session σ
  | ⟨m, t⟩ => ⟨f m, t⟩

@[simp] theorem machine_withMachine (f : Machine → Machine) (s : Session σ) :
    (withMachine f s).machine = f s.machine := rfl

/-- NOP is free, but the code has an end. -/
theorem lt_size_of_nop {p : Program} {address : Nat}
    (h : Opcode.ofByte (p.fetch address) = .ok (.plain .nop)) : address < p.size := by
  rcases Nat.lt_or_ge address p.size with inside | outside
  · exact inside
  · have past : p.fetch address = PlainOp.halt.byte := by
      simp [Program.fetch, Array.getElem?_eq_none (show p.code.size ≤ address from outside)]
    have halts : Opcode.ofByte PlainOp.halt.byte = .ok (.plain .halt) := rfl
    rw [past, halts] at h
    simp at h

/-- Instructions while any of `left` cycles are left. -/
def loop (env : Environment σ) (p : Program) (left : Nat) (s : Session σ) :
    EStateM.Result Error (Session σ) Bool :=
  if left = 0 then .ok false s
  else
    let address := s.machine.pc
    match h : Opcode.ofByte (p.fetch address) with
    | .error e => .error (e.atAddress address) (withMachine .faulted s)
    | .ok op =>
      if nop : op = .plain .nop then
        have := lt_size_of_nop (nop ▸ h)
        loop env p left (withMachine (fun m => { m with pc := m.pc + 1 }) (watched env op s))
      else
        have : op.cost = 1 := if_neg nop
        match step env p op address (left - op.cost) (watched env op s) with
        | .error e s => .error (e.atAddress address) (withMachine .faulted s)
        | .ok (.next extra) s => loop env p (left - op.cost - extra) s
        | .ok .pause s => .ok false s
        | .ok .retry s => .ok false (withMachine (fun m => { m with pc := address }) s)
        | .ok .halt s => .ok true (withMachine .reset s)
termination_by (left, p.size - s.machine.pc)
decreasing_by
  · simp only [machine_withMachine, machine_watched]
    exact Prod.Lex.right _ (by omega)
  · exact Prod.Lex.left _ _ (by omega)

/-- Runs for at most `budget` cycles. The answer tells whether the machine halted, which resets it. -/
def run (env : Environment σ) (p : Program) (budget : Nat) : SessionM σ Bool := do
  act (begin p)
  loop env p budget

/-- How a row of runs ended. -/
inductive Ending
  | halted
  | failed (e : Error)
  /-- The last run paused or spent its budget. -/
  | suspended
  deriving DecidableEq

/-- Runs until one halts or fails, but at most `count` times after the `made` before. The answer tells how many runs
were made. -/
def runsFrom (env : Environment σ) (p : Program) (budget : Nat) : (count made : Nat) → Session σ →
    (Ending × Nat) × Session σ
  | 0, made, s => ((.suspended, made), s)
  | count + 1, made, s =>
    match run env p budget s with
    | .ok true s => ((.halted, made + 1), s)
    | .ok false s => runsFrom env p budget count (made + 1) s
    | .error e s => ((.failed e, made + 1), s)

def runs (env : Environment σ) (p : Program) (budget count : Nat) (s : Session σ) : (Ending × Nat) × Session σ :=
  runsFrom env p budget count 0 s

end Session

end BasicMachine
