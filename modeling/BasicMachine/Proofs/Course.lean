import BasicMachine.Machine.Run

/-!
# The course of a run

A run is a row of instructions, and its answer alone does not tell a budget that is spent from a pause. The course of a
run keeps the reason why it stops and goes one instruction at a time, so that what one instruction does is said once.
-/
namespace BasicMachine

/-- The instruction with opcode `op` whose operand lies at `address`. -/
def Program.instructionOf (p : Program) (op : Opcode) (address : Nat) : Except Error Instruction :=
  (p.decode op address).map Prod.fst

/-- A listing goes on where the width of the operand says. -/
theorem Program.decode_eq (p : Program) (op : Opcode) (address : Nat) :
    p.decode op address = (p.instructionOf op address).map (·, address + p.operandWidth op address) := by
  cases op with
  | syscall =>
    rw [instructionOf, decode]
    cases p.syscallAt address <;> rfl
  | _ => rfl

theorem Program.instructionAt_of_decoded {p : Program} {op : Opcode} {address : Nat} {i : Instruction}
    (fetched : Opcode.ofByte (p.fetch address) = .ok op) (decoded : p.instructionOf op (address + 1) = .ok i) :
    p.instructionAt address = .ok (i, address + 1 + p.operandWidth op (address + 1)) := by
  simp only [instructionAt, fetched, bind, Except.bind, decode_eq, decoded, Except.map]

namespace Session

variable {σ : Type}

/-- Why a run stops. -/
inductive Stop
  /-- The budget of cycles is spent. -/
  | spent
  /-- A YIELD was executed. -/
  | paused
  /-- READS goes on in the next run. -/
  | waiting
  | halted
  | failed (e : Error)
  deriving DecidableEq

/-- What an instruction leads to. -/
inductive Outcome (σ : Type)
  /-- The run goes on, with `left` cycles. -/
  | next (left : Nat) (s : Session σ)
  | stop (why : Stop) (s : Session σ)

/-- The machine past an instruction. -/
def passed (p : Program) (op : Opcode) (m : Machine) : Machine :=
  { m with pc := m.pc + 1 + p.operandWidth op (m.pc + 1), clock := m.clock + op.cost }

section
variable {env : Environment σ} {p : Program} {op : Opcode} {address room : Nat} {s : Session σ}

/-- A machine reads an operand as a listing does. -/
theorem step_decoded {i : Instruction} (h : p.instructionOf op (address + 1) = .ok i) :
    step env p op address room s = perform env room i (withMachine (passed p op) s) := by
  cases op with
  | syscall =>
    rw [Program.instructionOf, Program.decode] at h
    cases found : p.syscallAt (address + 1) with
    | error e =>
      rw [found] at h
      cases h
    | ok operand =>
      rw [found] at h
      cases h
      simp only [step, bind, EStateM.bind, found]
      rfl
  | _ =>
    cases h
    rfl

theorem step_undecoded {e : Error} (h : p.instructionOf op (address + 1) = .error e) :
    step env p op address room s = .error e (withMachine (passed p op) s) := by
  cases op with
  | syscall =>
    rw [Program.instructionOf, Program.decode] at h
    cases found : p.syscallAt (address + 1) with
    | error e' =>
      rw [found] at h
      cases h
      simp only [step, bind, EStateM.bind, found]
      rfl
    | ok operand =>
      rw [found] at h
      cases h
  | _ => cases h

end

/-- What the instruction at `address` leads to, by what it does with `left` cycles left after its cost. -/
def Outcome.ofStep (address left : Nat) : EStateM.Result Error (Session σ) Progress → Outcome σ
  | .error e s => .stop (.failed (e.atAddress address)) (withMachine .faulted s)
  | .ok (.next extra) s => .next (left - extra) s
  | .ok .pause s => .stop .paused s
  | .ok .retry s => .stop .waiting (withMachine (fun m => { m with pc := address }) s)
  | .ok .halt s => .stop .halted (withMachine .reset s)

/-- One instruction of a run that has `left` cycles left. -/
def advance (env : Environment σ) (p : Program) (left : Nat) (s : Session σ) : Outcome σ :=
  if left = 0 then .stop .spent s
  else
    let address := s.machine.pc
    match Opcode.ofByte (p.fetch address) with
    | .error e => .stop (.failed (e.atAddress address)) (withMachine .faulted s)
    | .ok op =>
      if op = .plain .nop then
        .next left (withMachine (fun m => { m with pc := m.pc + 1 }) (watched env op s))
      else .ofStep address (left - op.cost) (step env p op address (left - op.cost) (watched env op s))

section
variable {env : Environment σ} {p : Program} {left : Nat} {s : Session σ} {op : Opcode}

theorem advance_zero : advance env p 0 s = .stop .spent s := rfl

theorem advance_unknown {e : Error} (h : Opcode.ofByte (p.fetch s.machine.pc) = .error e) :
    advance env p (left + 1) s = .stop (.failed (e.atAddress s.machine.pc)) (withMachine .faulted s) := by
  simp only [advance, Nat.add_one_ne_zero, if_false, h]

theorem advance_nop (h : Opcode.ofByte (p.fetch s.machine.pc) = .ok (.plain .nop)) :
    advance env p (left + 1) s =
      .next (left + 1) (withMachine (fun m => { m with pc := m.pc + 1 }) (watched env (.plain .nop) s)) := by
  simp only [advance, Nat.add_one_ne_zero, if_false, h, if_true]

/-- Every instruction but NOP takes one cycle. -/
theorem advance_step (h : Opcode.ofByte (p.fetch s.machine.pc) = .ok op) (costly : op ≠ .plain .nop) :
    advance env p (left + 1) s =
      .ofStep s.machine.pc left (step env p op s.machine.pc left (watched env op s)) := by
  have cost : op.cost = 1 := if_neg costly
  simp only [advance, Nat.add_one_ne_zero, if_false, h, costly, cost, Nat.add_sub_cancel]

end

/-- An instruction takes a cycle, or it is a NOP and brings the end of the code nearer. -/
theorem advance_next_lt {env : Environment σ} {p : Program} {left left' : Nat} {s s' : Session σ}
    (h : advance env p left s = .next left' s') :
    left' < left ∨ left' = left ∧ p.size - s'.machine.pc < p.size - s.machine.pc := by
  cases left with
  | zero => cases h
  | succ left =>
    cases fetched : Opcode.ofByte (p.fetch s.machine.pc) with
    | error e =>
      rw [advance_unknown fetched] at h
      cases h
    | ok op =>
      by_cases nop : op = .plain .nop
      · subst nop
        have inside := lt_size_of_nop fetched
        rw [advance_nop fetched] at h
        cases h
        refine .inr ⟨rfl, ?_⟩
        simp only [machine_withMachine, machine_watched]
        omega
      · rw [advance_step fetched nop] at h
        unfold Outcome.ofStep at h
        split at h <;> cases h
        omega

/-- Instructions until the run stops. -/
def course (env : Environment σ) (p : Program) (left : Nat) (s : Session σ) : Stop × Session σ :=
  match h : advance env p left s with
  | .stop why s => (why, s)
  | .next left' s' =>
    have := advance_next_lt h
    course env p left' s'
termination_by (left, p.size - s.machine.pc)
decreasing_by
  rcases this with less | ⟨rfl, less⟩
  · exact Prod.Lex.left _ _ less
  · exact Prod.Lex.right _ less

theorem course_stop {env : Environment σ} {p : Program} {left : Nat} {s t : Session σ} {why : Stop}
    (h : advance env p left s = .stop why t) : course env p left s = (why, t) := by
  rw [course]
  split <;> simp_all

theorem course_next {env : Environment σ} {p : Program} {left left' : Nat} {s s' : Session σ}
    (h : advance env p left s = .next left' s') : course env p left s = course env p left' s' := by
  rw [course]
  split <;> simp_all

/-- A course goes on after an instruction that takes a cycle as the instruction says. -/
theorem course_step {env : Environment σ} {p : Program} {left : Nat} {s : Session σ} {op : Opcode} (some : left ≠ 0)
    (fetched : Opcode.ofByte (p.fetch s.machine.pc) = .ok op) (costly : op ≠ .plain .nop) :
    course env p left s =
      match Outcome.ofStep s.machine.pc (left - op.cost)
          (step env p op s.machine.pc (left - op.cost) (watched env op s)) with
      | .stop why s => (why, s)
      | .next left' s' => course env p left' s' := by
  have cost : op.cost = 1 := if_neg costly
  have start : advance env p (left - op.cost + 1) s = _ := advance_step fetched costly
  rw [show left - op.cost + 1 = left by omega] at start
  split
  · next stopped => exact course_stop (start.trans stopped)
  · next gone => exact course_next (start.trans gone)

/-- What the reason of a stop is as the answer of a run. -/
def Stop.answer (why : Stop) (s : Session σ) : EStateM.Result Error (Session σ) Bool :=
  match why with
  | spent | paused | waiting => .ok false s
  | halted => .ok true s
  | failed e => .error e s

/-- The loop of a run follows its course. -/
theorem loop_eq_course (env : Environment σ) (p : Program) (left : Nat) (s : Session σ) :
    loop env p left s = (course env p left s).1.answer (course env p left s).2 := by
  fun_induction loop env p left s with
  | case1 s => rw [course_stop advance_zero]; rfl
  | case2 left s some address e unknown =>
    obtain ⟨left, rfl⟩ := Nat.exists_eq_succ_of_ne_zero some
    rw [course_stop (advance_unknown unknown)]
    rfl
  | case3 left s some address fetched inside ih =>
    obtain ⟨left, rfl⟩ := Nat.exists_eq_succ_of_ne_zero some
    rw [course_next (advance_nop fetched)]
    exact ih
  | case4 left s some address op fetched nop cost e s' stepped => rw [course_step some fetched nop, stepped]; rfl
  | case5 left s some address op fetched nop cost extra s' stepped ih =>
    rw [course_step some fetched nop, stepped]
    exact ih
  | case6 left s some address op fetched nop cost s' stepped => rw [course_step some fetched nop, stepped]; rfl
  | case7 left s some address op fetched nop cost s' stepped => rw [course_step some fetched nop, stepped]; rfl
  | case8 left s some address op fetched nop cost s' stepped => rw [course_step some fetched nop, stepped]; rfl

/-- A run as its course: why it stops, and where. -/
def slice (env : Environment σ) (p : Program) (budget : Nat) (s : Session σ) : Stop × Session σ :=
  match act (begin p) s with
  | .ok _ s => course env p budget s
  | .error e s => (.failed e, s)

theorem run_eq_slice (env : Environment σ) (p : Program) (budget : Nat) (s : Session σ) :
    run env p budget s = (slice env p budget s).1.answer (slice env p budget s).2 := by
  simp only [run, bind, EStateM.bind, slice]
  cases act (begin p) s with
  | ok _ t => exact loop_eq_course _ _ _ _
  | error e t => rfl

theorem run_eq_course {env : Environment σ} {p : Program} {budget : Nat} {s start : Session σ}
    (started : act (begin p) s = .ok () start) :
    run env p budget s = (course env p budget start).1.answer (course env p budget start).2 := by
  rw [run_eq_slice, slice, started]

/-- The sessions in which a run with `left` cycles looks for its next instruction. -/
inductive Visits (env : Environment σ) (p : Program) : Nat → Session σ → Session σ → Prop
  | here (left : Nat) (s : Session σ) : Visits env p (left + 1) s s
  | next {left left' : Nat} {s s' t : Session σ} (went : advance env p left s = .next left' s')
      (later : Visits env p left' s' t) : Visits env p left s t

/-- Runs with the given budgets one after the other, until one halts or fails. -/
def runEach (env : Environment σ) (p : Program) : List Nat → Session σ → Ending × Session σ
  | [], s => (.suspended, s)
  | budget :: rest, s =>
    match run env p budget s with
    | .ok true s => (.halted, s)
    | .ok false s => runEach env p rest s
    | .error e s => (.failed e, s)

end Session

end BasicMachine
