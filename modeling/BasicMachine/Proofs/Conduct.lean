import BasicMachine.Proofs.Evaluation
import BasicMachine.Proofs.Meaning

/-!
# Sessions on their way

What a machine and its host do together from an instruction on, whatever the budget: host calls are part of it. A piece
of code does what an evaluation says if it leaves the stack, memory, random numbers and host that the evaluation leads
to, or fails with its error. Pieces that lie one after the other do what one evaluation after the other does.
-/
namespace BasicMachine

open Language

namespace Session

variable {σ : Type} {env : Environment σ} {p : Program} {s s' s'' : Session σ}

/-- The session is at `s'` after `n` cycles. -/
inductive Goes (env : Environment σ) (p : Program) : Nat → Session σ → Session σ → Prop
  | refl (s : Session σ) : Goes env p 0 s s
  | step {n : Nat} {s s' s'' : Session σ} (first : ∀ left, advance env p (left + 1) s = .next left s')
      (later : Goes env p n s' s'') : Goes env p (n + 1) s s''

namespace Goes

theorem trans {n k : Nat} (first : Goes env p n s s') (second : Goes env p k s' s'') : Goes env p (n + k) s s'' := by
  induction first with
  | refl s => rwa [Nat.zero_add]
  | step move _ ih => rw [Nat.add_right_comm]; exact .step move (ih second)

/-- A machine that nobody watches asks nothing of the host on its own. -/
theorem of_reaches {n : Nat} {m m' : Machine} (h : Reaches env p n m m') (off : m.tracing = false) (t : σ) :
    Goes env p n ⟨m, t⟩ ⟨m', t⟩ := by
  induction h with
  | refl m => exact .refl _
  | step move _ ih =>
    obtain ⟨t', same, goes⟩ := move.goes t
    obtain rfl := same off
    exact .step goes (ih (move.tracing.trans off))

/-- A course goes on from where the session is then. -/
theorem course {n : Nat} (h : Goes env p n s s') (left : Nat) :
    Session.course env p (n + left) s = Session.course env p left s' := by
  induction h with
  | refl s => rw [Nat.zero_add]
  | @step n _ _ _ first _ ih => rw [Nat.add_right_comm, course_next (first (n + left)), ih]

end Goes

/-- The session fails, sooner or later, and leaves the host in the state `h`. -/
def Breaks (env : Environment σ) (p : Program) (s : Session σ) (e : Error) (h : σ) : Prop :=
  ∃ n s' t, Goes env p n s s' ∧ (∀ left, advance env p (left + 1) s' = .stop (.failed e) t) ∧ t.host = h

theorem Breaks.after {n : Nat} {e : Error} {h : σ} (first : Goes env p n s s') (later : Breaks env p s' e h) :
    Breaks env p s e h := by
  obtain ⟨k, last, t, goes, stops, host⟩ := later
  exact ⟨n + k, last, t, first.trans goes, stops, host⟩

theorem Breaks.of_fails {m : Machine} {e : Error} (h : Fails env p m e) (off : m.tracing = false) (t : σ) :
    Breaks env p ⟨m, t⟩ e t := by
  obtain ⟨n, m', reaches, stops⟩ := h
  obtain ⟨s, same, stops⟩ := stops t
  exact ⟨n, ⟨m', t⟩, s, .of_reaches reaches off t, stops, same off⟩

section
variable {i : Instruction} {next : Nat} (found : p.instructionAt s.machine.pc = .ok (i, next))
  (costly : i ≠ .plain .nop) (off : s.machine.tracing = false)
include found costly off

theorem goes_of_perform
    (done : ∀ left, perform env left i ⟨s.machine.past next, s.host⟩ = .ok (.next 0) s') : Goes env p 1 s s' := by
  obtain ⟨m, t⟩ := s
  obtain ⟨t', same, goes⟩ := advance_decoded env found costly t
  obtain rfl := same off
  refine .step (fun left => ?_) (.refl _)
  rw [goes, done]
  rfl

theorem breaks_of_perform {e : Error} {m' : Machine} {h : σ}
    (failed : ∀ left, perform env left i ⟨s.machine.past next, s.host⟩ = .error e ⟨m', h⟩) :
    Breaks env p s (e.atAddress s.machine.pc) h := by
  obtain ⟨m, t⟩ := s
  obtain ⟨t', same, goes⟩ := advance_decoded env found costly t
  obtain rfl := same off
  refine ⟨0, _, ⟨m'.faulted, h⟩, .refl _, fun left => ?_, rfl⟩
  rw [goes, failed]
  rfl

end

section
variable {i : Instruction} {next : Nat} (found : p.instructionAt s.machine.pc = .ok (i, next)) (silent : quiet i = true)
  (off : s.machine.tracing = false)
include found silent off

theorem goes_of_effect {m' : Machine} (effect : Action.effect env.interrupts i (s.machine.past next) = .ok () m') :
    Goes env p 1 s ⟨m', s.host⟩ := by
  refine goes_of_perform found (fun nop => by rw [nop] at silent; cases silent) off fun left => ?_
  rw [perform_quiet silent, effect]

theorem breaks_of_effect {e : Error} {m' : Machine}
    (effect : Action.effect env.interrupts i (s.machine.past next) = .error e m') :
    Breaks env p s (e.atAddress s.machine.pc) s.host := by
  have failed (left : Nat) : perform env left i ⟨s.machine.past next, s.host⟩ = .error e ⟨m', s.host⟩ := by
    rw [perform_quiet silent, effect]
  exact breaks_of_perform found (fun nop => by rw [nop] at silent; cases silent) off failed

end

/-- What expressions see of a session. -/
def world (s : Session σ) : World σ := ⟨s.machine.memory, s.machine.random, s.host⟩

/-- The session `size` bytes further on, with another stack and in another world. -/
def beyond (s : Session σ) (size : Nat) (stack : Stack Value) (w : World σ) (a : Value) (idx clock : Nat) : Session σ :=
  ⟨{ s.machine with
      pc := s.machine.pc + size
      stack
      memory := w.memory
      random := w.random
      a
      idx
      clock }, w.host⟩

theorem beyond_beyond (s : Session σ) (size size' : Nat) (stack stack' : Stack Value) (w w' : World σ) (a a' : Value)
    (idx idx' clock clock' : Nat) :
    (s.beyond size stack w a idx clock).beyond size' stack' w' a' idx' clock' =
      s.beyond (size + size') stack' w' a' idx' clock' := by
  simp only [beyond, Nat.add_assoc]

/-- From here on, `size` bytes of code lead to the stack, the world and the registers given, and change nothing else but
the clock. -/
def Leads (env : Environment σ) (p : Program) (s : Session σ) (size : Nat) (stack : Stack Value) (w : World σ) (a : Value)
    (idx : Nat) : Prop :=
  ∃ n clock, Goes env p n s (s.beyond size stack w a idx clock)

namespace Leads

variable {size size' idx idx' : Nat} {stack stack' : Stack Value} {w w' : World σ} {a a' : Value}

/-- No code leaves everything as it is. -/
theorem refl (s : Session σ) : Leads env p s 0 s.machine.stack s.world s.machine.a s.machine.idx := ⟨0, _, .refl s⟩

theorem after {n clock : Nat} (first : Goes env p n s (s.beyond size stack w a idx clock))
    (later : Leads env p (s.beyond size stack w a idx clock) size' stack' w' a' idx') :
    Leads env p s (size + size') stack' w' a' idx' := by
  obtain ⟨k, clock', goes⟩ := later
  rw [beyond_beyond] at goes
  exact ⟨n + k, clock', first.trans goes⟩

theorem trans (first : Leads env p s size stack w a idx)
    (later : ∀ clock, Leads env p (s.beyond size stack w a idx clock) size' stack' w' a' idx') :
    Leads env p s (size + size') stack' w' a' idx' := by
  obtain ⟨n, clock, goes⟩ := first
  exact after goes (later clock)

/-- An instruction that may ask the host. -/
theorem of_perform {i : Instruction} {memory : Array Value} {random : Random} {h : σ}
    (found : p.instructionAt s.machine.pc = .ok (i, s.machine.pc + size)) (costly : i ≠ .plain .nop)
    (off : s.machine.tracing = false)
    (done : ∀ left, perform env left i ⟨s.machine.past (s.machine.pc + size), s.host⟩ =
      .ok (.next 0) ⟨{ s.machine.past (s.machine.pc + size) with stack, memory, random, a, idx }, h⟩) :
    Leads env p s size stack ⟨memory, random, h⟩ a idx :=
  ⟨1, _, goes_of_perform found costly off done⟩

/-- An instruction that asks nothing of the host. -/
theorem of_effect {i : Instruction} {memory : Array Value} {random : Random}
    (found : p.instructionAt s.machine.pc = .ok (i, s.machine.pc + size)) (silent : quiet i = true)
    (off : s.machine.tracing = false)
    (effect : Action.effect env.interrupts i (s.machine.past (s.machine.pc + size)) =
      .ok () { s.machine.past (s.machine.pc + size) with stack, memory, random, a, idx }) :
    Leads env p s size stack ⟨memory, random, s.host⟩ a idx :=
  ⟨1, _, goes_of_effect found silent off effect⟩

end Leads

/-- From here on, `size` bytes of code do what the answer tells: they leave its stack and its world and change nothing
else but registers and the clock, or they fail with its error. -/
def Does (env : Environment σ) (p : Program) (s : Session σ) (size : Nat) :
    EStateM.Result Error (World σ) (Stack Value) → Prop
  | .ok stack w => ∃ a idx, Leads env p s size stack w a idx
  | .error e w => ∃ address, Breaks env p s (e.atAddress address) w.host

namespace Does

variable {α : Type} {size size' : Nat} {x : Evaluation σ α} {f : α → Evaluation σ (Stack Value)} {g : α → Stack Value}
  {r : EStateM.Result Error (World σ) (Stack Value)}

/-- What is done after some code. -/
theorem after {stack : Stack Value} {w : World σ} {a : Value} {idx : Nat} (first : Leads env p s size stack w a idx)
    (later : ∀ clock, Does env p (s.beyond size stack w a idx clock) size' r) : Does env p s (size + size') r := by
  obtain ⟨n, clock, goes⟩ := first
  have rest := later clock
  cases r with
  | error e w' => exact rest.imp fun _ breaks => breaks.after goes
  | ok stack' w' => exact rest.imp fun _ => .imp fun _ leads => .after goes leads

/-- Code after code. The stack in between holds what the first answer makes of it. -/
theorem bind (first : Does env p s size ((g <$> x) s.world))
    (later : ∀ v w, x s.world = .ok v w → ∀ a idx clock,
      Does env p (s.beyond size (g v) w a idx clock) size' (f v w)) :
    Does env p s (size + size') ((x >>= f) s.world) := by
  simp only [Functor.map, EStateM.map, Bind.bind, EStateM.bind] at first ⊢
  cases result : x s.world with
  | error e w =>
    rw [result] at first
    exact first
  | ok v w =>
    rw [result] at first
    obtain ⟨a, idx, leads⟩ := first
    exact after leads fun clock => later v w result a idx clock

/-- Code that asks nothing of the host and leaves memory alone. -/
theorem of_computes {code : Code} {room : Nat} {r : Except Error (Stack Value)}
    (computes : Computes env p s.machine code room r) (lies : p.HasCode s.machine.pc code)
    (off : s.machine.tracing = false) (enough : s.machine.stack.size + room ≤ s.machine.stack.limit) :
    Does env p s code.size (Evaluation.answer r s.world) := by
  rcases computes.outcome lies with arrives | ⟨full, -⟩
  · cases r with
    | ok stack => exact ⟨_, _, _, _, .of_reaches arrives off s.host⟩
    | error e =>
      obtain ⟨address, fails⟩ := arrives
      exact ⟨address, .of_fails fails off s.host⟩
  · omega

end Does

end Session

end BasicMachine
