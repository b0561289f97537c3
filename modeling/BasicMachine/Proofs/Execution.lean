import BasicMachine.Proofs.Reachability

/-!
# Execution of a piece of code

What a machine does from an instruction on, whatever budget it has, as long as it asks nothing of the host: it reaches
another machine after a number of cycles, or it fails. Pieces of code that lie one after the other are put together
from what each of them does.
-/
namespace BasicMachine

/-- The instruction takes a cycle, goes on in the same run and asks nothing of the host. -/
def quiet : Instruction → Bool
  | .plain .nop | .plain .halt | .plain .yield | .syscall _ _ => false
  | _ => true

/-- The machine past an instruction that is not executed yet. -/
def Machine.past (m : Machine) (next : Nat) : Machine := { m with pc := next, clock := m.clock + 1 }

namespace Session

variable {σ : Type} {env : Environment σ} {p : Program} {m m' m'' : Machine}

/-- A watcher sees the machine only while it traces. -/
theorem watched_eq (env : Environment σ) (op : Opcode) (m : Machine) (h : σ) :
    ∃ h', (m.tracing = false → h' = h) ∧ watched env op ⟨m, h⟩ = ⟨m, h'⟩ := by
  unfold watched
  split
  · next watch _ _ _ same =>
    cases same
    split
    · next on => exact ⟨_, fun off => absurd (on.symm.trans off) (by decide), rfl⟩
    · exact ⟨h, fun _ => rfl, rfl⟩
  · next same => exact ⟨h, fun _ => rfl, rfl⟩

/-- A decoded instruction that takes a cycle. -/
theorem advance_decoded (env : Environment σ) {i : Instruction} {next : Nat} (found : p.instructionAt m.pc = .ok (i, next))
    (costly : i ≠ .plain .nop) (h : σ) :
    ∃ h', (m.tracing = false → h' = h) ∧
      ∀ left, advance env p (left + 1) ⟨m, h⟩ = .ofStep m.pc left (perform env left i ⟨m.past next, h'⟩) := by
  obtain ⟨op, fetched, decoded, rfl⟩ := instructionAt_eq_ok found
  have other : op ≠ .plain .nop := by
    rintro rfl
    cases decoded
    exact costly rfl
  obtain ⟨h', silent, watch⟩ := watched_eq env op m h
  refine ⟨h', silent, fun left => ?_⟩
  have cost : op.cost = 1 := if_neg other
  rw [advance_step fetched other, watch, step_decoded decoded]
  simp only [withMachine, passed, Machine.past, cost]

theorem perform_quiet {i : Instruction} (silent : quiet i = true) (room : Nat) (h : σ) :
    perform env room i ⟨m, h⟩ =
      match Action.effect env.interrupts i m with
      | .ok _ m' => .ok (.next 0) ⟨m', h⟩
      | .error e m' => .error e ⟨m', h⟩ := by
  have progress : i.progress = .next 0 := by
    cases i with
    | plain op => cases op <;> first | rfl | cases silent
    | _ => rfl
  have same : perform env room i = (do act (Action.effect env.interrupts i); return i.progress) := by
    cases i with
    | syscall call r => cases silent
    | _ => rfl
  rw [same, progress]
  simp only [bind, EStateM.bind, act]
  cases Action.effect env.interrupts i m <;> rfl

/-- One instruction takes the machine on, and the host does not change unless the machine is watched. -/
structure Moves (env : Environment σ) (p : Program) (m m' : Machine) : Prop where
  tracing : m'.tracing = m.tracing
  goes : ∀ h, ∃ h', (m.tracing = false → h' = h) ∧ ∀ left, advance env p (left + 1) ⟨m, h⟩ = .next left ⟨m', h'⟩

theorem moves_of_effect {i : Instruction} {next : Nat} (found : p.instructionAt m.pc = .ok (i, next))
    (silent : quiet i = true) (effect : Action.effect env.interrupts i (m.past next) = .ok () m')
    (tracing : m'.tracing = m.tracing) : Moves env p m m' := by
  refine ⟨tracing, fun h => ?_⟩
  obtain ⟨h', same, goes⟩ := advance_decoded env found (fun nop => by rw [nop] at silent; cases silent) h
  refine ⟨h', same, fun left => ?_⟩
  rw [goes, perform_quiet silent, effect]
  rfl

/-- The machine is at `m'` after `n` cycles. -/
inductive Reaches (env : Environment σ) (p : Program) : Nat → Machine → Machine → Prop
  | refl (m : Machine) : Reaches env p 0 m m
  | step {n : Nat} {m m' m'' : Machine} (first : Moves env p m m') (later : Reaches env p n m' m'') :
      Reaches env p (n + 1) m m''

namespace Reaches

theorem single (h : Moves env p m m') : Reaches env p 1 m m' := .step h (.refl _)

theorem trans {n k : Nat} (first : Reaches env p n m m') (second : Reaches env p k m' m'') :
    Reaches env p (n + k) m m'' := by
  induction first with
  | refl m => rwa [Nat.zero_add]
  | step move _ ih => rw [Nat.add_right_comm]; exact .step move (ih second)

theorem tracing {n : Nat} (h : Reaches env p n m m') : m'.tracing = m.tracing := by
  induction h with
  | refl => rfl
  | step move _ ih => exact ih.trans move.tracing

/-- A course goes on from where the machine is then. -/
theorem course {n : Nat} (h : Reaches env p n m m') (t : σ) :
    ∃ t', (m.tracing = false → t' = t) ∧
      ∀ left, Session.course env p (n + left) ⟨m, t⟩ = Session.course env p left ⟨m', t'⟩ := by
  induction h generalizing t with
  | refl m => exact ⟨t, fun _ => rfl, fun left => by rw [Nat.zero_add]⟩
  | @step n m m' m'' move _ ih =>
    obtain ⟨t', same, goes⟩ := move.goes t
    obtain ⟨t'', same', rest⟩ := ih t'
    refine ⟨t'', fun off => (same' (move.tracing.trans off)).trans (same off), fun left => ?_⟩
    rw [Nat.add_right_comm, course_next (goes (n + left)), rest]

end Reaches

/-- The machine fails, sooner or later, and the host does not change unless the machine is watched. -/
def Fails (env : Environment σ) (p : Program) (m : Machine) (e : Error) : Prop :=
  ∃ n m', Reaches env p n m m' ∧
    ∀ h, ∃ s : Session σ, (m.tracing = false → s.host = h) ∧
      ∀ left, advance env p (left + 1) ⟨m', h⟩ = .stop (.failed e) s

theorem fails_of_effect {i : Instruction} {next : Nat} {e : Error} (found : p.instructionAt m.pc = .ok (i, next))
    (silent : quiet i = true) (effect : Action.effect env.interrupts i (m.past next) = .error e m') :
    Fails env p m (e.atAddress m.pc) := by
  refine ⟨0, m, .refl m, fun h => ?_⟩
  obtain ⟨h', same, goes⟩ := advance_decoded env found (fun nop => by rw [nop] at silent; cases silent) h
  refine ⟨⟨m'.faulted, h'⟩, same, fun left => ?_⟩
  rw [goes, perform_quiet silent, effect]
  rfl

theorem Fails.after {n : Nat} {e : Error} (first : Reaches env p n m m') (later : Fails env p m' e) :
    Fails env p m e := by
  obtain ⟨k, last, reaches, stops⟩ := later
  refine ⟨n + k, last, first.trans reaches, fun h => ?_⟩
  obtain ⟨s, same, goes⟩ := stops h
  exact ⟨s, fun off => same (first.tracing.trans off), goes⟩

theorem Fails.course {e : Error} (h : Fails env p m e) (t : σ) :
    ∃ n s, (m.tracing = false → s.host = t) ∧ ∀ left, n < left → Session.course env p left ⟨m, t⟩ = (.failed e, s) := by
  obtain ⟨n, m', reaches, stops⟩ := h
  obtain ⟨t', same, goes⟩ := reaches.course t
  obtain ⟨s, same', stops⟩ := stops t'
  refine ⟨n, s, fun off => (same' off).trans (same off), fun left more => ?_⟩
  obtain ⟨k, rfl⟩ := Nat.exists_eq_add_of_lt more
  rw [Nat.add_assoc, goes, course_stop (stops k)]

/-- The machine reaches the one that the answer holds, or fails with the error that it holds, wherever that is. -/
def Arrives (env : Environment σ) (p : Program) (n : Nat) (m : Machine) : Except Error Machine → Prop
  | .ok m' => Reaches env p n m m'
  | .error e => ∃ address, Fails env p m (e.atAddress address)

theorem Arrives.bind {n k : Nat} {r : Except Error Machine} {f : Machine → Except Error Machine}
    (first : Arrives env p n m r) (later : ∀ m', r = .ok m' → Arrives env p k m' (f m')) :
    Arrives env p (n + k) m (r >>= f) := by
  cases r with
  | error e => exact first
  | ok m' =>
    have rest := later m' rfl
    show Arrives env p (n + k) m (f m')
    cases result : f m' with
    | ok m'' =>
      rw [result] at rest
      exact Reaches.trans first rest
    | error e =>
      rw [result] at rest
      exact rest.imp fun _ fails => fails.after first

end Session

end BasicMachine
