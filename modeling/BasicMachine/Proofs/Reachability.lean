import BasicMachine.Proofs.Closure
import BasicMachine.Proofs.Confinement

/-!
# Where a closed program can go

The program counter and the return addresses of a machine that runs a closed program stay among the starts of its
instructions, whatever its host does.
-/
namespace BasicMachine

open Language

theorem Stack.mem_of_mem_dropTop {α : Type} {s : Stack α} {a : α} (h : a ∈ s.dropTop.items) : a ∈ s.items := by
  rw [← Array.mem_toList_iff] at h ⊢
  exact (List.dropLast_sublist _).subset (Array.toList_pop ▸ h)

/-- The program counter and the return addresses are among `starts`. -/
structure Machine.Inside (starts : List Nat) (m : Machine) : Prop where
  pc : m.pc ∈ starts
  calls : ∀ address ∈ m.calls.items, address ∈ starts

/-- A machine that runs inside `starts`. -/
structure Machine.Roams (starts : List Nat) (m : Machine) : Prop extends m.Inside starts where
  running : m.status = .running

/-- A machine that has stopped inside `starts`, and whose next run begins there, too. -/
structure Machine.Rests (starts : List Nat) (m : Machine) : Prop extends m.Inside starts where
  start : m.status = .ready → m.start = none

variable {σ α β : Type} {starts : List Nat}

theorem Machine.Roams.of_within {m m' : Machine} (h : m.Roams starts)
    (same : Action.control.within m m') : m'.Roams starts := by
  simp only [Action.control, Action.Bounds.ofView, Prod.mk.injEq] at same
  obtain ⟨pc, calls, status⟩ := same
  exact ⟨⟨pc ▸ h.pc, calls ▸ h.calls⟩, status.trans h.running⟩

namespace Action

/-- A machine that runs inside `starts` still does after the action, which fails with usual errors only. -/
structure Keeps (starts : List Nat) (a : Action α) : Prop where
  ok : ∀ {m v m'}, m.Roams starts → a m = .ok v m' → m'.Roams starts
  error : ∀ {m e m'}, m.Roams starts → a m = .error e m' → m'.Roams starts ∧ e.Usual

theorem keeps_of_confined {a : Action α} (h : Confined control a) : Keeps starts a where
  ok roams r := roams.of_within (h.ok r)
  error roams r := ⟨roams.of_within (h.error r).1, (h.error r).2⟩

theorem keeps_bind {a : Action α} {f : α → Action β} (first : Keeps starts a) (second : ∀ v, Keeps starts (f v)) :
    Keeps starts (a >>= f) where
  ok {m v m'} roams h := by
    simp only [bind, EStateM.bind] at h
    split at h
    · next r => exact (second _).ok (first.ok roams r) h
    · cases h
  error {m e m'} roams h := by
    simp only [bind, EStateM.bind] at h
    split at h
    · next r => exact (second _).error (first.ok roams r) h
    · next r => cases h; exact first.error roams r

theorem keeps_setPc {address : Nat} (there : address ∈ starts) : Keeps starts (setPc address) where
  ok roams h := by cases h; exact ⟨⟨there, roams.calls⟩, roams.running⟩
  error _ h := by cases h

/-- A jump on a condition may go to its target. -/
theorem keeps_branch {address : Nat} (there : address ∈ starts) (taken : Bool) :
    Keeps starts (if taken then setPc address else pure ()) := by
  split
  · exact keeps_setPc there
  · exact keeps_of_confined (confined_pure _)

/-- The truth of the value on top of the stack. -/
theorem keeps_popTruth {f : Bool → Action β} (h : ∀ b, Keeps starts (f b)) :
    Keeps starts (do f (← ofExcept (← pop).isTrue)) :=
  keeps_bind (keeps_of_confined confined_pop) fun v =>
    keeps_bind (keeps_of_confined (confined_ofExcept v.isTrue_usual)) h

theorem keeps_ret : Keeps starts (plainEffect .ret) where
  ok {m v m'} roams h := by
    simp only [plainEffect] at h
    split at h
    · next address top =>
      cases h
      have member : address ∈ m.calls.items := Array.mem_of_back? top
      exact ⟨⟨roams.calls address member, fun other older => roams.calls other (Stack.mem_of_mem_dropTop older)⟩,
        roams.running⟩
    · cases h
  error roams h := by
    simp only [plainEffect] at h
    split at h <;> cases h
    exact ⟨roams, by decide⟩

theorem keeps_call {interrupts : Interrupts} {n : Int16} (there : jumpAddress n ∈ starts) :
    Keeps starts (shortEffect interrupts n .call) where
  ok {m v m'} roams h := by
    simp only [shortEffect] at h
    split at h
    · cases h
    · cases h
      refine ⟨⟨there, fun address member => ?_⟩, roams.running⟩
      rcases Array.mem_push.mp member with older | rfl
      · exact roams.calls address older
      · exact roams.pc
  error {m e m'} roams h := by
    simp only [shortEffect] at h
    split at h
    · cases h
      exact ⟨roams, by simp [Stack.overflow, Error.Usual, Error.of]⟩
    · cases h

/-- So does every jump to one of `starts`. -/
theorem keeps_jump {interrupts : Interrupts} {op : ShortOp} {n : Int16} (jump : jumps op = true)
    (there : jumpAddress n ∈ starts) : Keeps starts (shortEffect interrupts n op) := by
  cases op with
  | jmp => exact keeps_setPc there
  | jz =>
    refine keeps_popTruth fun taken => ?_
    cases taken
    · exact keeps_branch there true
    · exact keeps_branch there false
  | jnz => exact keeps_popTruth fun taken => keeps_branch there taken
  | call => exact keeps_call there
  | _ => cases jump

end Action

namespace Session

variable {p : Program} {env : Environment σ}

/-- A machine that runs inside `starts` still does after a step of a session, which fails with usual errors only. -/
def Stays (starts : List Nat) : EStateM.Result Error (Session σ) α → Prop
  | .ok _ s => s.machine.Roams starts
  | .error e s => s.machine.Roams starts ∧ e.Usual

theorem stays_of_confined {x : SessionM σ α} {s : Session σ} (h : Confined Action.control x)
    (roams : s.machine.Roams starts) : Stays starts (x s) := by
  cases result : x s with
  | ok v t => exact roams.of_within (h.ok result)
  | error e t => exact ⟨roams.of_within (h.error result).1, (h.error result).2⟩

theorem stays_act {a : Action Unit} {v : α} {s : Session σ} (h : Action.Keeps starts a)
    (roams : s.machine.Roams starts) : Stays starts ((do act a; return v : SessionM σ α) s) := by
  rcases s with ⟨m, t⟩
  simp only [bind, EStateM.bind, act]
  cases result : a m with
  | ok v m' => exact h.ok roams result
  | error e m' => exact h.error roams result

/-- A tame instruction leaves the program counter and the calls as they are. -/
theorem confined_perform (env : Environment σ) (room : Nat) {i : Instruction} (simple : tame i = true) :
    Confined Action.control (perform env room i) := by
  have effect (h : Action.Confined Action.control (Action.effect env.interrupts i)) :
      Confined Action.control (do act (Action.effect env.interrupts i); return i.progress : SessionM σ Progress) :=
    confined_then h fun _ => confined_pure _
  cases i with
  | plain op => exact effect (Action.confined_plainEffect op (bne_iff_ne.mp simple))
  | short op n =>
    refine effect ?_
    by_cases special : op ∈ [.irq, .fail, .jmp, .jz, .jnz, .call]
    · cases op with
      | fail =>
        refine Action.confined_failEffect env.interrupts n fun code found => ?_
        simp only [tame, found, bne_iff_ne, ne_eq, Option.some.injEq] at simple
        exact ⟨simple, fun _ => by simp [Error.of]⟩
      | irq | jmp | jz | jnz | call => cases simple
      | _ => simp at special
    · exact Action.confined_shortEffect _ _ special
  | pointer op address => exact effect (Action.confined_pointerEffect address op)
  | pushF word => exact effect (Action.confined_push _)
  | push v => exact effect (Action.confined_push _)
  | syscall call r => exact confined_serve env.host r room call (bne_iff_ne.mp simple)
  | setS bytes => exact effect (Action.confined_setString bytes)

/-- An instruction that leads to `starts` keeps a machine inside them. -/
theorem stays_perform {s : Session σ} {i : Instruction} (env : Environment σ) (room : Nat)
    (leads : Leads starts s.machine.pc i) (calls : ∀ address ∈ s.machine.calls.items, address ∈ starts)
    (running : s.machine.status = .running) : Stays starts (perform env room i s) := by
  rcases leads with ⟨n, rfl, there⟩ | ⟨next, simple | rfl | ⟨op, n, rfl, jump, there⟩⟩
  · exact ⟨⟨there, calls⟩, running⟩
  · exact stays_of_confined (confined_perform env room simple) ⟨⟨next, calls⟩, running⟩
  · exact stays_act Action.keeps_ret ⟨⟨next, calls⟩, running⟩
  · exact stays_act (Action.keeps_jump jump there) ⟨⟨next, calls⟩, running⟩

/-- What a stop makes of a machine that runs. -/
def Stop.status : Stop → Status
  | spent | paused | waiting => .running
  | halted => .ready
  | failed _ => .faulted

/-- What an instruction leads to is inside `starts`. -/
def Outcome.Safe (starts : List Nat) : Outcome σ → Prop
  | .next _ s => s.machine.Roams starts
  | .stop why s => s.machine.Rests starts ∧ s.machine.status = why.status ∧ ∀ e, why = .failed e → e.Usual

/-- A machine that rests when it stops for its budget, and otherwise by what the instruction has done. -/
theorem safe_ofStep {address left : Nat} {r : EStateM.Result Error (Session σ) Progress} (stays : Stays starts r)
    (here : address ∈ starts) (zero : 0 ∈ starts) : (Outcome.ofStep address left r).Safe starts := by
  have rests {m : Machine} (h : m.Roams starts) : m.Rests starts :=
    ⟨h.toInside, fun ready => absurd (h.running.symm.trans ready) (by decide)⟩
  unfold Outcome.ofStep
  split
  · obtain ⟨roams, usual⟩ := stays
    refine ⟨⟨⟨roams.pc, roams.calls⟩, fun ready => absurd ready (by simp [withMachine, Machine.faulted])⟩, rfl, ?_⟩
    rintro _ ⟨⟩
    exact usual
  · exact stays
  · exact ⟨rests stays, stays.running, by simp⟩
  · exact ⟨⟨⟨here, stays.calls⟩, fun ready => absurd (stays.running.symm.trans ready) (by decide)⟩, stays.running, by simp⟩
  · exact ⟨⟨⟨zero, by simp [withMachine, Machine.reset, Stack.clear]⟩, fun _ => rfl⟩, rfl, by simp⟩

theorem instructionAt_eq_ok {address next : Nat} {i : Instruction} (h : p.instructionAt address = .ok (i, next)) :
    ∃ op, Opcode.ofByte (p.fetch address) = .ok op ∧ p.instructionOf op (address + 1) = .ok i ∧
      next = address + 1 + p.operandWidth op (address + 1) := by
  simp only [Program.instructionAt, bind, Except.bind] at h
  split at h
  · cases h
  next op fetched =>
  rw [Program.decode_eq] at h
  cases decoded : p.instructionOf op (address + 1) with
  | error e =>
    rw [decoded] at h
    cases h
  | ok j =>
    rw [decoded] at h
    cases h
    exact ⟨op, fetched, decoded, rfl⟩

theorem start_mem_of_tiles {start : Nat} (tiles : p.Tiles start starts) (some : starts ≠ []) : start ∈ starts := by
  cases tiles with
  | done => exact absurd rfl some
  | next decoded later => exact List.mem_cons_self

theorem zero_mem_starts (closed : p.Closed starts) : 0 ∈ starts :=
  start_mem_of_tiles closed.tiles (List.ne_nil_of_mem closed.entry)

/-- One instruction that leads to `starts`. -/
theorem safe_of_leads (zero : 0 ∈ starts) {s : Session σ} (roams : s.machine.Roams starts) {i : Instruction} {next : Nat}
    (found : p.instructionAt s.machine.pc = .ok (i, next)) (leads : Leads starts next i) (left : Nat) :
    (advance env p left s).Safe starts := by
  obtain ⟨op, fetched, decoded, rfl⟩ := instructionAt_eq_ok found
  cases left with
  | zero =>
    exact ⟨⟨roams.toInside, fun ready => absurd (roams.running.symm.trans ready) (by decide)⟩, roams.running, by simp⟩
  | succ left =>
    by_cases nop : op = .plain .nop
    · subst nop
      rw [advance_nop fetched]
      cases decoded
      rcases leads with ⟨n, impossible, -⟩ | ⟨next, -⟩
      · cases impossible
      · refine ⟨⟨?_, ?_⟩, ?_⟩ <;> simp only [machine_withMachine, machine_watched]
        · exact next
        · exact roams.calls
        · exact roams.running
    · rw [advance_step fetched nop, step_decoded decoded]
      refine safe_ofStep (stays_perform env left ?_ ?_ ?_) roams.pc zero <;>
        simp only [machine_withMachine, machine_watched]
      · exact leads
      · exact roams.calls
      · exact roams.running

/-- One instruction of a closed program. -/
theorem safe_advance (closed : p.Closed starts) {s : Session σ} (roams : s.machine.Roams starts) (left : Nat) :
    (advance env p left s).Safe starts := by
  obtain ⟨i, next, found, leads⟩ := closed.leads _ roams.pc
  exact safe_of_leads (zero_mem_starts closed) roams found leads left

/-- All instructions of a run. -/
theorem rests_course (closed : p.Closed starts) (env : Environment σ) {s : Session σ} (roams : s.machine.Roams starts)
    (left : Nat) :
    (course env p left s).2.machine.Rests starts ∧
      (course env p left s).2.machine.status = (course env p left s).1.status ∧
      ∀ e, (course env p left s).1 = .failed e → e.Usual := by
  fun_induction course env p left s with
  | case1 left s why t stopped =>
    have safe : (advance env p left s).Safe starts := safe_advance closed roams left
    rwa [stopped] at safe
  | case2 left s left' s' went less ih =>
    have safe : (advance env p left s).Safe starts := safe_advance closed roams left
    rw [went] at safe
    exact ih safe

theorem roams_of_visits (closed : p.Closed starts) {left : Nat} {s t : Session σ} (visits : Visits env p left s t)
    (roams : s.machine.Roams starts) : t.machine.Roams starts := by
  induction visits with
  | here => exact roams
  | @next left left' s s' t went later ih =>
    have safe : (advance env p left s).Safe starts := safe_advance closed roams left
    rw [went] at safe
    exact ih safe

/-- A machine begins at the entry point, or goes on where it is, or fails and keeps its place. -/
theorem stays_begin (closed : p.Closed starts) {m : Machine} {t : σ} (rests : m.Rests starts) :
    match act (begin p) ⟨m, t⟩ with
    | .ok _ s => s.machine.Roams starts
    | .error e s => s.machine.Rests starts ∧ e.Usual := by
  simp only [act, begin]
  cases status : m.status with
  | faulted => exact ⟨rests, by decide⟩
  | running => exact ⟨rests.toInside, status⟩
  | ready =>
    by_cases small : m.memory.size < p.staticSize
    · simp only [small, if_true]
      exact ⟨⟨⟨rests.pc, rests.calls⟩, fun ready => absurd ready (by simp [Machine.faulted])⟩, by decide⟩
    · simp only [small, if_false, rests.start status]
      exact ⟨⟨closed.entry, rests.calls⟩, rfl⟩

/-- A run of a closed program. -/
theorem rests_run (closed : p.Closed starts) (env : Environment σ) {m : Machine} (rests : m.Rests starts) (budget : Nat) (t : σ) :
    match run env p budget ⟨m, t⟩ with
    | .ok _ s => s.machine.Rests starts
    | .error e s => s.machine.Rests starts ∧ e.Usual := by
  have begun := stays_begin (t := t) closed rests
  rw [run_eq_slice, slice]
  cases result : act (begin p) ⟨m, t⟩ with
  | error e s =>
    rw [result] at begun
    exact begun
  | ok _ s =>
    rw [result] at begun
    obtain ⟨rests, -, usual⟩ := rests_course closed env begun budget
    dsimp only
    cases why : (course env p budget s).1 with
    | failed e => exact ⟨rests, usual e why⟩
    | _ => exact rests

/-- The machines that runs of a program lead to, in any environments, from a machine that has not run. -/
inductive Reached (p : Program) : Machine → Prop
  | fresh (config : Config) : Reached p (.new config)
  | ran {σ : Type} {m : Machine} (before : Reached p m) (env : Environment σ) (budget : Nat) (t : σ) {halted : Bool}
      {s : Session σ} (went : run env p budget ⟨m, t⟩ = .ok halted s) : Reached p s.machine
  | failed {σ : Type} {m : Machine} (before : Reached p m) (env : Environment σ) (budget : Nat) (t : σ) {e : Error}
      {s : Session σ} (went : run env p budget ⟨m, t⟩ = .error e s) : Reached p s.machine

theorem rests_of_reached (closed : p.Closed starts) {m : Machine} (h : Reached p m) : m.Rests starts := by
  induction h with
  | fresh config => exact ⟨⟨zero_mem_starts closed, by simp [Machine.new]⟩, fun _ => rfl⟩
  | ran before env budget t went ih =>
    have rests := rests_run closed env ih budget t
    rwa [went] at rests
  | failed before env budget t went ih =>
    have rests := rests_run closed env ih budget t
    rw [went] at rests
    exact rests.1

end Session

end BasicMachine
