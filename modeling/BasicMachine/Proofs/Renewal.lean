import BasicMachine.Proofs.LineInput

/-!
# Machines that start over

Whatever is done with a machine, its sizes and limits stay as they were made. So a machine that halts or is reset is a new
one. A machine that has failed stays as it is until it is reset.
-/
namespace BasicMachine

namespace Machine

/-- What no call changes: the configuration, the number of cells, and the names and limits of the stacks. -/
def frame (m : Machine) : Config × Nat × (String × Nat) × (String × Nat) :=
  (m.config, m.memory.size, (m.stack.name, m.stack.limit), (m.calls.name, m.calls.limit))

@[simp] theorem frame_reset (m : Machine) : m.reset.frame = m.frame := by
  simp [frame, reset, Stack.clear]

theorem reset_eq_new {m : Machine} {config : Config} (h : m.frame = (new config).frame) : m.reset = new config := by
  simp only [frame, Prod.mk.injEq] at h
  obtain ⟨made, size, ⟨stackName, stackLimit⟩, callName, callLimit⟩ := h
  have cells : (new config).memory.size = min config.memorySize (maxPointer + 1) := Array.size_replicate
  have cleared : m.memory.map (fun _ => Value.unset) = (new config).memory := by
    rw [Array.map_const', size, cells]
    rfl
  simp only [reset, Stack.clear, made, stackName, stackLimit, callName, callLimit, cleared, size, cells]
  rfl

end Machine

/-- The frame, with errors of every kind. -/
def Action.framing : Action.Bounds where
  within m m' := m'.frame = m.frame
  errors _ := True
  refl _ := rfl
  trans first second := second.trans first
  registers _ _ _ _ _ _ _ := rfl
  pushed _ _ _ := rfl
  popped _ := rfl
  stored m address v := by simp [Machine.frame]
  taken _ _ _ := rfl
  usual _ _ := trivial

theorem Action.roaming_framing : Action.framing.Roaming where
  jumped _ _ := rfl
  called _ _ _ := rfl
  returned _ := rfl
  errors _ := trivial

/-- No interrupt handler changes the frame of the machine. -/
def Environment.Framed (env : Environment σ) : Prop :=
  ∀ id handler, env.interrupts id = some handler → Action.Confined Action.framing handler

namespace Session

open Action

variable {σ : Type} {env : Environment σ} {p : Program} {left : Nat} {s t : Session σ}

/-- What is left of a machine after an instruction: it has its frame, and it is reset if it halts and faulted if it
fails. -/
def Outcome.Framed (m : Machine) : Outcome σ → Prop
  | .next _ s => s.machine.frame = m.frame
  | .stop why s => s.machine.frame = m.frame ∧ (why = .halted → ∃ m' : Machine, s.machine = m'.reset) ∧
      ∀ e, why = .failed e → s.machine.status = .faulted

theorem framed_ofStep {m : Machine} {address : Nat} {r : EStateM.Result Error (Session σ) Progress}
    (kept : (machineAfter r).frame = m.frame) : (Outcome.ofStep address left r).Framed m := by
  cases r with
  | error e s => exact ⟨kept, nofun, fun _ _ => rfl⟩
  | ok progress s =>
    cases progress with
    | next extra => exact kept
    | pause => exact ⟨kept, nofun, fun _ failed => nomatch failed⟩
    | retry => exact ⟨kept, nofun, fun _ failed => nomatch failed⟩
    | halt => exact ⟨(Machine.frame_reset _).trans kept, fun _ => ⟨_, rfl⟩, fun _ failed => nomatch failed⟩

theorem framed_advance (framed : env.Framed) (p : Program) (left : Nat) (s : Session σ) :
    (advance env p left s).Framed s.machine := by
  cases left with
  | zero => exact ⟨rfl, nofun, fun _ failed => nomatch failed⟩
  | succ left =>
    cases fetched : Opcode.ofByte (p.fetch s.machine.pc) with
    | error e =>
      rw [advance_unknown fetched]
      exact ⟨rfl, nofun, fun _ _ => rfl⟩
    | ok op =>
      by_cases nop : op = .plain .nop
      · subst nop
        rw [advance_nop fetched]
        simp only [Outcome.Framed, machine_withMachine, machine_watched]
        rfl
      have passed : (withMachine (passed p op) (watched env op s)).machine.frame = s.machine.frame := by
        simp only [machine_withMachine, machine_watched]
        rfl
      rw [advance_step fetched nop]
      refine framed_ofStep (Eq.trans ?_ passed)
      cases decoded : p.instructionOf op (s.machine.pc + 1) with
      | error e =>
        rw [step_undecoded decoded]
        rfl
      | ok i =>
        rw [step_decoded decoded]
        have confined : Confined framing (perform env left i) :=
          confined_perform_of_handlers roaming_framing framed fun _ _ => confined_readString (fun _ _ _ => rfl) _ _ _ _
        cases performed : perform env left i (withMachine (Session.passed p op) (watched env op s)) with
        | ok progress t => exact confined.ok performed
        | error e t => exact (confined.error performed).1

theorem framed_course (framed : env.Framed) (p : Program) (left : Nat) (s : Session σ) :
    (Outcome.stop (course env p left s).1 (course env p left s).2).Framed s.machine := by
  fun_induction course env p left s with
  | case1 left s why t stopped =>
    have here := framed_advance framed p left s
    rwa [stopped] at here
  | case2 left s left' s' went shorter ih =>
    have here := framed_advance framed p left s
    rw [went] at here
    exact ⟨ih.1.trans here, ih.2⟩

theorem frame_begin (h : act (begin p) s = .ok () t) : t.machine.frame = s.machine.frame := by
  obtain ⟨-, rfl⟩ | ⟨-, -, rfl⟩ := begin_started h
  · rfl
  · rfl

/-- A run keeps the frame of its machine, however it ends. -/
theorem framed_slice (framed : env.Framed) (p : Program) (budget : Nat) (s : Session σ) :
    (Outcome.stop (slice env p budget s).1 (slice env p budget s).2).Framed s.machine := by
  unfold slice
  cases started : act (begin p) s with
  | ok _ start =>
    have course := framed_course framed p budget start
    exact ⟨course.1.trans (frame_begin started), course.2⟩
  | error e t =>
    rw [begin_refused started]
    exact ⟨rfl, nofun, fun _ _ => rfl⟩

/-- A faulted machine does not run. -/
theorem run_of_faulted (faulted : s.machine.status = .faulted) (env : Environment σ) (p : Program) (budget : Nat) :
    run env p budget s = .error (.of .internalError "MACHINE FAULTED; RESET REQUIRED") s := by
  rcases s with ⟨m, host⟩
  have refused : act (begin p) ⟨m, host⟩ = .error (.of .internalError "MACHINE FAULTED; RESET REQUIRED") ⟨m, host⟩ := by
    simp only [act, begin, show m.status = .faulted from faulted]
  exact run_bind_error refused

/-- What the owner of a machine can do with it, apart from looking at it. -/
inductive Call (σ : Type)
  | run (env : Environment σ) (p : Program) (budget : Nat)
  | jump (address : Nat)
  | setTracing (tracing : Bool)
  | setRegister (r : Register) (v : Value)
  | push (v : Value)
  | pop
  /-- Puts a value into a cell of memory. -/
  | write (address : Nat) (v : Value)
  | reset

inductive Reply
  | done
  | ran (halted : Bool)
  | popped (v : Value)
  | failed (e : Error)
  deriving DecidableEq

/-- What a run replies that stops so. -/
def Stop.reply : Stop → Reply
  | .spent | .paused | .waiting => .ran false
  | .halted => .ran true
  | .failed e => .failed e

namespace Call

/-- The interrupt handlers of a run keep the frame of the machine. -/
def Framed : Call σ → Prop
  | run env _ _ => env.Framed
  | _ => True

@[grind] def perform (s : Session σ) : Call σ → Reply × Session σ
  | run env p budget =>
    match Session.run env p budget s with
    | .ok halted s => (.ran halted, s)
    | .error e s => (.failed e, s)
  | jump address => (.done, withMachine (·.jump address) s)
  | setTracing tracing => (.done, withMachine ({ · with tracing }) s)
  | setRegister r v => (.done, withMachine (·.setRegister r v) s)
  | push v =>
    match act (Action.push v) s with
    | .ok _ s => (.done, s)
    | .error e s => (.failed e, s)
  | pop =>
    match act Action.pop s with
    | .ok v s => (.popped v, s)
    | .error e s => (.failed e, s)
  | write address v => (.done, withMachine (fun m => { m with memory := m.memory.setIfInBounds address v }) s)
  | reset => (.done, withMachine .reset s)

/-- One call after another, with the reply to each. -/
def performAll : List (Call σ) → Session σ → List Reply × Session σ
  | [], s => ([], s)
  | call :: rest, s =>
    let (reply, s) := call.perform s
    let (replies, s) := performAll rest s
    (reply :: replies, s)

theorem perform_run (env : Environment σ) (p : Program) (budget : Nat) (s : Session σ) :
    (run env p budget).perform s = ((slice env p budget s).1.reply, (slice env p budget s).2) := by
  simp only [perform, run_eq_slice]
  cases (slice env p budget s).1 <;> rfl

theorem perform_of_stop {why : Stop} {budget : Nat} {start : Session σ} (started : act (begin p) s = .ok () start)
    (stopped : advance env p budget start = .stop why t) : (run env p budget).perform s = (why.reply, t) := by
  rw [perform_run, slice, started]
  dsimp only
  rw [course_stop stopped]

/-- Neither runs, moves nor resets the machine. -/
def Plain : Call σ → Prop
  | run _ _ _ | jump _ | reset => False
  | _ => True

/-- A plain call does what an instruction may do. -/
theorem within_perform (bounds : Bounds) (s : Session σ) {call : Call σ} (plain : call.Plain) :
    bounds.within s.machine (call.perform s).2.machine := by
  cases call with
  | run env p budget => exact plain.elim
  | jump address => exact plain.elim
  | reset => exact plain.elim
  | setTracing tracing => exact bounds.registers _ _ _ _ _ tracing _
  | setRegister r v =>
    have confined : Action.Confined bounds (Action.setRegister r v) := confined_setRegister r v
    exact confined.ok rfl
  | write address v => exact bounds.stored _ _ _
  | push v =>
    have confined : Confined bounds (act (Action.push v) : SessionM σ Unit) := confined_act (confined_push v)
    simp only [perform]
    split
    · next pushed => exact confined.ok pushed
    · next failed => exact (confined.error failed).1
  | pop =>
    have confined : Confined bounds (act Action.pop : SessionM σ Value) := confined_act confined_pop
    simp only [perform]
    split
    · next popped => exact confined.ok popped
    · next failed => exact (confined.error failed).1

theorem frame_perform {call : Call σ} (framed : call.Framed) (s : Session σ) :
    (call.perform s).2.machine.frame = s.machine.frame := by
  cases call with
  | run env p budget =>
    rw [perform_run]
    exact (framed_slice framed p budget s).1
  | jump address =>
    simp only [perform, machine_withMachine, Machine.jump]
    split <;> rfl
  | reset => exact Machine.frame_reset _
  | setTracing | setRegister | push | pop | write =>
    exact within_perform framing s trivial

theorem frame_performAll {calls : List (Call σ)} (framed : ∀ call ∈ calls, call.Framed) (s : Session σ) :
    (performAll calls s).2.machine.frame = s.machine.frame := by
  induction calls generalizing s with
  | nil => rfl
  | cons call rest ih =>
    have later := ih (fun call member => framed call (List.mem_cons_of_mem _ member)) (call.perform s).2
    exact later.trans (frame_perform (framed call List.mem_cons_self) s)

/-- Only a reset helps a machine that has failed. -/
theorem faulted_perform {call : Call σ} (other : call ≠ .reset) (faulted : s.machine.status = .faulted) :
    (call.perform s).2.machine.status = .faulted := by
  cases call with
  | run env p budget =>
    simp only [perform, run_of_faulted faulted]
    exact faulted
  | jump address =>
    simp only [perform, machine_withMachine, Machine.jump, faulted]
  | reset => exact absurd rfl other
  | setTracing | setRegister | push | pop | write =>
    refine Eq.trans ?_ faulted
    have same {call : Call σ} (h : pulse.within s.machine (call.perform s).2.machine) :
        (call.perform s).2.machine.status = s.machine.status := (Prod.mk.inj h).2
    exact same (within_perform pulse s trivial)

theorem faulted_performAll {calls : List (Call σ)} (others : .reset ∉ calls) (faulted : s.machine.status = .faulted) :
    (performAll calls s).2.machine.status = .faulted := by
  induction calls generalizing s with
  | nil => exact faulted
  | cons call rest ih =>
    rw [List.mem_cons, not_or] at others
    exact ih others.2 (faulted_perform (Ne.symm others.1) faulted)

/-- What a call says of the machine it leaves: a run that halts resets it, and a run that fails faults it. -/
theorem of_perform {call : Call σ} {reply : Reply} (framed : call.Framed) (replied : call.perform s = (reply, t)) :
    (reply = .ran true → ∃ m : Machine, t.machine = m.reset) ∧
    (∀ env p budget e, call = run env p budget → reply = .failed e → t.machine.status = .faulted) := by
  cases call with
  | run env p budget =>
    obtain ⟨-, halted, failed⟩ := framed_slice framed p budget s
    rw [perform_run] at replied
    cases replied
    refine ⟨fun ran => halted ?_, fun _ _ _ e _ error => failed e ?_⟩
    · generalize (slice env p budget s).1 = why at ran
      cases why <;> cases ran
      rfl
    · generalize (slice env p budget s).1 = why at error
      cases why <;> cases error
      rfl
  | push v =>
    simp only [perform] at replied
    split at replied <;> cases replied <;> exact ⟨nofun, fun _ _ _ _ other => nomatch other⟩
  | pop =>
    simp only [perform] at replied
    split at replied <;> cases replied <;> exact ⟨nofun, fun _ _ _ _ other => nomatch other⟩
  | jump | setTracing | setRegister | write | reset =>
    cases replied
    exact ⟨nofun, fun _ _ _ _ other => nomatch other⟩

/-- A machine that was reset, or has halted, is a new one, and nothing that is done with it later tells them apart. After
a run that failed, no run does anything until the machine is reset. -/
theorem machines_start_over {config : Config} {host : σ} {history : List (Call σ)} {replies : List Reply} {call : Call σ}
    {reply : Reply} (framed : ∀ call ∈ history, call.Framed) (last : call.Framed)
    (before : performAll history ⟨.new config, host⟩ = (replies, s)) (replied : call.perform s = (reply, t)) :
    (call = reset ∨ reply = .ran true →
      t.machine = .new config ∧ ∀ later, performAll later t = performAll later ⟨.new config, t.host⟩) ∧
    (∀ env p budget e, call = run env p budget → reply = .failed e → ∀ later, reset ∉ later →
      ∀ env p budget, (run env p budget).perform (performAll later t).2 =
        (.failed (.of .internalError "MACHINE FAULTED; RESET REQUIRED"), (performAll later t).2)) := by
  have frame : t.machine.frame = (Machine.new config).frame := by
    have history := frame_performAll framed ⟨.new config, host⟩
    have called := frame_perform last s
    rw [before] at history
    rw [replied] at called
    exact called.trans history
  refine ⟨fun ends => ?_, fun env p budget e runs failed later others env' p' budget' => ?_⟩
  · obtain ⟨m, renewed⟩ : ∃ m : Machine, t.machine = m.reset := by
      obtain rfl | halted := ends
      · cases replied
        exact ⟨s.machine, rfl⟩
      · exact (of_perform last replied).1 halted
    have new : t.machine = .new config := by
      rw [renewed, Machine.frame_reset] at frame
      rw [renewed, Machine.reset_eq_new frame]
    exact ⟨new, fun later => by rw [← new]⟩
  · have faulted := (of_perform last replied).2 env p budget e runs failed
    simp only [perform, run_of_faulted (faulted_performAll others faulted)]

/-- Calls that leave traces in most parts of a machine. -/
def touches : List (Call Script) :=
  [.push (.integer 5), .setRegister .b (.pointer 3), .write 2 (.integer 7), .setTracing true, .jump 9]

def untouched : Session Script := ⟨.new { memorySize := 4 }, {}⟩

/-- HALT past the end of the code gives back a new machine. An unknown opcode leaves one that no run moves, not even
after a jump. -/
theorem machines_start_over_touches :
    (∃ t, (run scripted {} 1).perform (performAll touches untouched).2 = (.ran true, t) ∧
      t.machine = .new { memorySize := 4 }) ∧
    ∃ e t, (run scripted { code := #[0xff] } 1).perform (performAll [.pop] untouched).2 = (.failed e, t) ∧
      (run scripted {} 1).perform (performAll [.jump 0] t).2 =
        (.failed (.of .internalError "MACHINE FAULTED; RESET REQUIRED"), (performAll [.jump 0] t).2) := by
  have quiet (history : List (Call Script)) (calls : ∀ env p budget, run env p budget ∉ history) :
      ∀ call ∈ history, call.Framed := by
    rintro (_ | _) member
    · exact absurd member (calls _ _ _)
    all_goals trivial
  have framed (p : Program) : (run scripted p 1).Framed := nofun
  have before (history : List (Call Script)) : performAll history untouched = ((performAll history untouched).1, _) := rfl
  constructor
  · have started : act (begin {}) (performAll touches untouched).2 = .ok () _ := rfl
    have halts : (run scripted {} 1).perform _ = (Stop.halted.reply, _) := perform_of_stop started rfl
    refine ⟨_, halts, ?_⟩
    exact ((machines_start_over (quiet touches (by simp [touches])) (framed _) (before _) halts).1 (.inr rfl)).1
  · have started : act (begin { code := #[0xff] }) (performAll [.pop] untouched).2 = .ok () _ := rfl
    have fails : (run scripted { code := #[0xff] } 1).perform _ = (Stop.reply (.failed _), _) :=
      perform_of_stop started rfl
    refine ⟨_, _, fails, ?_⟩
    exact (machines_start_over (quiet [.pop] (by simp)) (framed _) (before _) fails).2 _ _ _ _ rfl rfl [.jump 0]
      (by simp) _ _ _

end Call

end Session

end BasicMachine
