import BasicMachine.Proofs.Slices
import BasicMachine.Proofs.StackEffect

/-!
# From machine to machine

A program carries a machine from one instruction to the next, whatever its host answers and however its runs are cut.
What an instruction makes of a machine is said once for each kind of instruction. A fact about a machine that goes on
is then of one form: something holds as long as something else has not come to pass.
-/
namespace BasicMachine

open Session

namespace Program

/-- One instruction takes the machine to another one in some environment. A run may end with it, but not the machine. -/
def Carries (p : Program) (m m' : Machine) : Prop :=
  ∃ (σ : Type) (env : Environment σ) (left : Nat) (t t' : σ),
    (∃ left', advance env p left ⟨m, t⟩ = .next left' ⟨m', t'⟩) ∨
      ∃ why, (why = .paused ∨ why = .waiting) ∧ advance env p left ⟨m, t⟩ = .stop why ⟨m', t'⟩

/-- The next instruction does not fail for want of values on the stack. -/
def Healthy (p : Program) (m : Machine) : Prop :=
  ∀ {σ : Type} (env : Environment σ) (left : Nat) (t : σ) (e : Error) (s : Session σ),
    advance env p left ⟨m, t⟩ = .stop (.failed e) s → e.code ≠ .stackUnderflow

/-- The machine comes to another one, the first on its way of which `there` holds. -/
inductive Comes (p : Program) (there : Machine → Prop) : Machine → Machine → Prop
  | here {m : Machine} (h : there m) : Comes p there m m
  | next {m m' m'' : Machine} (h : ¬ there m) (carries : p.Carries m m') (later : Comes p there m' m'') :
      Comes p there m m''

/-- For `n` instructions, `stays` holds of the machine unless `ends` has held of it. -/
def Unless (p : Program) (stays ends : Machine → Prop) : (n : Nat) → Machine → Prop
  | 0, m => ends m ∨ stays m
  | n + 1, m => ends m ∨ stays m ∧ ∀ m', p.Carries m m' → Unless p stays ends n m'

/-- `stays` holds of the machine, and after each of its next instructions unless `ends` has held since then. -/
def Until (p : Program) (stays ends : Machine → Prop) (m : Machine) : Prop :=
  stays m ∧ ∀ m', p.Carries m m' → ∀ n, p.Unless stays ends n m'

namespace Unless

variable {p : Program} {stays stays' ends ends' : Machine → Prop} {n : Nat} {m m' : Machine}

theorem now (h : ends m) : p.Unless stays ends n m := by
  cases n <;> exact .inl h

theorem step (here : stays m) (later : ∀ m', p.Carries m m' → ∀ k < n, p.Unless stays ends k m') :
    p.Unless stays ends n m := by
  cases n with
  | zero => exact .inr here
  | succ n => exact .inr ⟨here, fun m' carries => later m' carries n (Nat.lt_succ_self n)⟩

theorem mono (h : p.Unless stays ends n m) (before : ∀ m, stays m → stays' m) (after : ∀ m, ends m → ends' m) :
    p.Unless stays' ends' n m := by
  induction n generalizing m with
  | zero => exact h.imp (after m) (before m)
  | succ n ih => exact h.imp (after m) fun ⟨here, later⟩ => ⟨before m here, fun m' carries => ih (later m' carries)⟩

/-- What holds up to one moment and then up to another. -/
theorem trans (first : p.Unless stays ends n m) (second : ∀ k ≤ n, ∀ m', ends m' → p.Unless stays ends' k m') :
    p.Unless stays ends' n m := by
  induction n generalizing m with
  | zero =>
    rcases first with h | h
    · exact second 0 (Nat.le_refl 0) m h
    · exact .inr h
  | succ n ih =>
    rcases first with h | ⟨here, later⟩
    · exact second (n + 1) (Nat.le_refl _) m h
    · exact .inr ⟨here, fun m' carries => ih (later m' carries) fun k less => second k (Nat.le_succ_of_le less)⟩

/-- One instruction further on. -/
theorem next (h : ∀ n, p.Unless stays ends n m) :
    ends m ∨ stays m ∧ ∀ m', p.Carries m m' → ∀ n, p.Unless stays ends n m' := by
  by_cases done : ends m
  · exact .inl done
  · have on (n : Nat) := (h (n + 1)).resolve_left done
    exact .inr ⟨(on 0).1, fun m' carries n => (on n).2 m' carries⟩

/-- What does not end now goes on. -/
theorem strict (h : ∀ n, p.Unless stays ends n m) (on : ¬ ends m) : p.Until stays ends m :=
  (next h).resolve_left on

/-- The first machine of which `there` holds is the one that ends the wait, if it is not among those that wait. -/
theorem comes {there : Machine → Prop} (h : ∀ n, p.Unless stays ends n m) (busy : ∀ m, stays m → ¬ there m)
    (done : ∀ m, ends m → there m) (comes : p.Comes there m m') : ends m' := by
  induction comes with
  | here there =>
    rcases next h with ends | ⟨stays, -⟩
    · exact ends
    · exact absurd there (busy _ stays)
  | next away carries _ ih =>
    rcases next h with ends | ⟨-, later⟩
    · exact absurd (done _ ends) away
    · exact ih (later _ carries)

end Unless

namespace Until

variable {p : Program} {stays stays' ends ends' : Machine → Prop} {m : Machine}

theorem relaxed (h : p.Until stays ends m) (n : Nat) : p.Unless stays ends n m :=
  .step h.1 fun m' carries k _ => h.2 m' carries k

theorem mono (h : p.Until stays ends m) (before : ∀ m, stays m → stays' m) (after : ∀ m, ends m → ends' m) :
    p.Until stays' ends' m :=
  ⟨before m h.1, fun m' carries n => (h.2 m' carries n).mono before after⟩

theorem trans (first : p.Until stays ends m) (second : ∀ n m', ends m' → p.Unless stays ends' n m') :
    p.Until stays ends' m :=
  ⟨first.1, fun m' carries n => (first.2 m' carries n).trans fun k _ => second k⟩

end Until

end Program

section
variable {p : Program} {m m' : Machine} {i : Instruction} {next : Nat}

/-- An instruction that is not READS goes on as its kind says. -/
theorem Session.perform_progress {σ : Type} {env : Environment σ} {room : Nat} {s s' : Session σ} {progress : Progress}
    (other : ∀ r, i ≠ .syscall .readS r) (h : perform env room i s = .ok progress s') : progress = i.progress := by
  have plain (v : Progress) (x : SessionM σ Unit) : Returns v (do x; return v) := returns_bind fun _ => returns_pure v
  cases i with
  | syscall call r => exact returns_serve _ _ _ (fun readS => other r (readS ▸ rfl)) h
  | _ => exact plain _ _ h

/-- What carries a machine on is its next instruction. -/
theorem Program.Carries.performed (found : p.instructionAt m.pc = .ok (i, next)) (costly : i ≠ .plain .nop)
    (once : ∀ r, i ≠ .syscall .readS r) (h : p.Carries m m') :
    i ≠ .plain .halt ∧ ∃ (σ : Type) (env : Environment σ) (room : Nat) (t t' : σ),
      perform env room i ⟨m.past next, t⟩ = .ok i.progress ⟨m', t'⟩ := by
  obtain ⟨σ, env, left, t, t', outcome⟩ := h
  obtain ⟨h', -, goes⟩ := advance_decoded env found costly t
  cases left with
  | zero =>
    rcases outcome with ⟨left', gone⟩ | ⟨why, kind, stopped⟩
    · cases gone
    · rw [advance_zero] at stopped
      cases stopped
      simp at kind
  | succ left =>
    rw [goes] at outcome
    cases result : perform env left i ⟨m.past next, h'⟩ with
    | error e s =>
      rw [result] at outcome
      rcases outcome with ⟨left', gone⟩ | ⟨why, kind, stopped⟩
      · cases gone
      · cases stopped
        simp at kind
    | ok progress s =>
      have same := perform_progress once result
      subst same
      rw [result] at outcome
      have waits : i.progress ≠ .retry := by
        cases i with
        | plain op => cases op <;> simp [Instruction.progress]
        | _ => simp [Instruction.progress]
      cases kind : i.progress with
      | next extra =>
        rw [kind] at outcome
        rcases outcome with ⟨left', gone⟩ | ⟨why, -, stopped⟩
        · cases gone
          exact ⟨by rintro rfl; simp [Instruction.progress] at kind, σ, env, left, h', t', kind ▸ result⟩
        · cases stopped
      | pause =>
        rw [kind] at outcome
        rcases outcome with ⟨left', gone⟩ | ⟨why, -, stopped⟩
        · cases gone
        · cases stopped
          exact ⟨by rintro rfl; simp [Instruction.progress] at kind, σ, env, left, h', t', kind ▸ result⟩
      | retry => exact absurd kind waits
      | halt =>
        rw [kind] at outcome
        rcases outcome with ⟨left', gone⟩ | ⟨why, stop, stopped⟩
        · cases gone
        · cases stopped
          simp at stop

/-- An instruction that is no host call has done its effect. -/
theorem Program.Carries.effected (found : p.instructionAt m.pc = .ok (i, next)) (silent : quiet i = true)
    (h : p.Carries m m') : ∃ interrupts, Action.effect interrupts i (m.past next) = .ok () m' := by
  have costly : i ≠ .plain .nop := fun nop => by rw [nop] at silent; cases silent
  have once (r : Register) : i ≠ .syscall .readS r := fun readS => by rw [readS] at silent; cases silent
  obtain ⟨-, σ, env, room, t, t', performed⟩ := h.performed found costly once
  rw [perform_quiet silent] at performed
  refine ⟨env.interrupts, ?_⟩
  cases result : Action.effect env.interrupts i (m.past next) with
  | ok _ after =>
    rw [result] at performed
    obtain ⟨-, same⟩ := EStateM.Result.ok.inj performed
    cases same
    rfl
  | error e after => rw [result] at performed; cases performed

theorem Program.healthy_of_perform (found : p.instructionAt m.pc = .ok (i, next)) (costly : i ≠ .plain .nop)
    (h : ∀ {σ : Type} (env : Environment σ) room (t : σ) e s,
      perform env room i ⟨m.past next, t⟩ = .error e s → e.code ≠ .stackUnderflow) : p.Healthy m := by
  intro σ env left t e s stopped
  obtain ⟨h', -, goes⟩ := advance_decoded env found costly t
  cases left with
  | zero => cases stopped
  | succ left =>
    rw [goes] at stopped
    unfold Outcome.ofStep at stopped
    split at stopped <;> cases stopped
    next e' s' failed => exact h env left h' e' s' failed

theorem Program.healthy_of_effect (found : p.instructionAt m.pc = .ok (i, next)) (silent : quiet i = true)
    (h : ∀ interrupts e m', Action.effect interrupts i (m.past next) = .error e m' → e.code ≠ .stackUnderflow) :
    p.Healthy m := by
  refine healthy_of_perform found (fun nop => by rw [nop] at silent; cases silent) fun env room t e s failed => ?_
  rw [perform_quiet silent] at failed
  cases result : Action.effect env.interrupts i (m.past next) with
  | ok _ after => rw [result] at failed; cases failed
  | error e' after =>
    rw [result] at failed
    cases failed
    exact h _ _ _ result

/-- An instruction that only shifts the stack. -/
theorem Program.Carries.shifted {takes gives : Nat} (found : p.instructionAt m.pc = .ok (i, next))
    (shift : i.shift = some (takes, gives)) (h : p.Carries m m') : (m.past next).Shifted takes gives m' := by
  have costly : i ≠ .plain .nop := fun nop => by rw [nop] at shift; cases shift
  have once (r : Register) : i ≠ .syscall .readS r := fun readS => by rw [readS] at shift; cases shift
  obtain ⟨-, σ, env, room, t, t', performed⟩ := h.performed found costly once
  exact (shifts_perform env room shift).ok performed

theorem Program.healthy_of_shift {takes gives : Nat} (found : p.instructionAt m.pc = .ok (i, next))
    (shift : i.shift = some (takes, gives)) (enough : takes ≤ m.values.length) : p.Healthy m := by
  refine healthy_of_perform found (fun nop => by rw [nop] at shift; cases shift) fun env room t e s failed same => ?_
  exact Nat.not_lt_of_le enough ((shifts_perform env room shift).error failed same)

end

namespace Action

variable {m m' : Machine} {v : Value} {rest : List Value}

theorem pop_values (stack : m.values = v :: rest) :
    pop m = .ok v { m with stack := m.stack.dropTop } ∧ ({ m with stack := m.stack.dropTop } : Machine).values = rest := by
  refine ⟨pop_eq_ok ?_, ?_⟩
  · rw [Machine.top?_eq, stack, List.head?_cons]
  · rw [Machine.values_dropTop, stack, List.tail_cons]

theorem push_ok {u : Unit} (h : push v m = .ok u m') : m' = { m with stack := m.stack.insert v } := by
  rw [push_apply] at h
  split at h <;> cases h
  rfl

theorem cell_ok {address : Nat} (h : cell address m = .ok v m') : m.memory[address]? = some v ∧ m' = m := by
  unfold cell at h
  split at h
  · next found => cases h; exact ⟨found, rfl⟩
  · cases h

theorem setCell_ok {address : Nat} {u : Unit} (h : setCell address v m = .ok u m') :
    address < m.memory.size ∧ m' = { m with memory := m.memory.setIfInBounds address v } := by
  unfold setCell at h
  split at h
  · next inside => cases h; exact ⟨inside, rfl⟩
  · cases h

theorem indexed_ok {offset : Int16} {address : Nat} (h : indexed offset m = .ok address m') :
    Value.shifted m.idx offset.toInt = address ∧ m' = m := by
  rw [indexed_eq] at h
  split at h
  · cases h
  · cases h
    exact ⟨by omega, rfl⟩

theorem ofExcept_ok {r : Except Error α} {a : α} (h : ofExcept r m = .ok a m') : r = .ok a ∧ m' = m := by
  unfold ofExcept at h
  split at h <;> cases h
  exact ⟨rfl, rfl⟩

end Action

/-- The machine goes on at `pc`, with these values, this memory and this index; calls and heap are as they were. -/
structure Machine.Becomes (m m' : Machine) (pc : Nat) (values : List Value) (memory : Array Value) (idx : Nat) : Prop where
  pc : m'.pc = pc
  values : m'.values = values
  memory : m'.memory = memory
  idx : m'.idx = idx
  calls : m'.calls = m.calls
  heap : m'.heap = m.heap
  floor : m'.floor = m.floor

namespace Machine.Becomes

variable {m m₁ m' : Machine} {pc idx : Nat} {memory : Array Value} {v w : Value} {values : List Value}

theorem push {u : Unit} (h : m.Becomes m₁ pc values memory idx) (pushed : Action.push v m₁ = .ok u m') :
    m.Becomes m' pc (v :: values) memory idx := by
  rw [Action.push_ok pushed]
  exact ⟨h.pc, (Machine.values_insert _ v).trans (congrArg _ h.values), h.memory, h.idx, h.calls, h.heap, h.floor⟩

theorem pop (h : m.Becomes m₁ pc (w :: values) memory idx) (popped : Action.pop m₁ = .ok v m') :
    v = w ∧ m.Becomes m' pc values memory idx := by
  obtain ⟨known, left⟩ := Action.pop_values h.values
  rw [known] at popped
  cases popped
  exact ⟨rfl, h.pc, left, h.memory, h.idx, h.calls, h.heap, h.floor⟩

theorem pop2 {pair : Value × Value} (h : m.Becomes m₁ pc (v :: w :: values) memory idx)
    (popped : Action.pop2 m₁ = .ok pair m') : pair = (w, v) ∧ m.Becomes m' pc values memory idx := by
  rw [Action.pop2_eq_pops] at popped
  obtain ⟨second, m₂, first, popped⟩ := run_bind_eq_ok popped
  obtain ⟨rfl, one⟩ := h.pop first
  obtain ⟨first, m₃, popped, returned⟩ := run_bind_eq_ok popped
  obtain ⟨rfl, two⟩ := one.pop popped
  cases returned
  exact ⟨rfl, two⟩

theorem compare {f : Array Value → Value → Value → Except Error Value} {u : Unit}
    (h : m.Becomes m₁ pc (v :: w :: values) memory idx) (done : Action.compareWith f m₁ = .ok u m') :
    ∃ x, f memory w v = .ok x ∧ m.Becomes m' pc (x :: values) memory idx := by
  obtain ⟨pair, m₂, popped, done⟩ := run_bind_eq_ok done
  obtain ⟨rfl, left⟩ := h.pop2 popped
  obtain ⟨_, _, got, done⟩ := run_bind_eq_ok done
  cases got
  obtain ⟨x, m₃, result, pushed⟩ := run_bind_eq_ok done
  obtain ⟨known, rfl⟩ := Action.ofExcept_ok result
  exact ⟨x, left.memory ▸ known, left.push pushed⟩

end Machine.Becomes

/-- What becomes of the stack and the index by an instruction that only works on them, if it does not fail. -/
def Instruction.turns (memory : Array Value) (values : List Value) (idx : Nat) (ends : List Value → Nat → Prop) :
    Instruction → Prop
  | .pointer .setIdx address => ends values address
  | .pointer .pushP address => ends (.pointer address :: values) idx
  | .pointer .load address => ∃ v, memory[address]? = some v ∧ ends (v :: values) idx
  | .short .pushI n => ends (.integer n :: values) idx
  | .short .loadX n => ∃ (address : Nat) (v : Value), Value.shifted idx n.toInt = address ∧ memory[address]? = some v ∧
      ends (v :: values) idx
  | .short .deref n => ∃ address target : Nat, Value.shifted idx n.toInt = address ∧
      memory[address]? = some (.pointer target) ∧ ends values target
  | .plain op =>
    match op, values with
    | .pushIdx, _ => ends (.pointer idx :: values) idx
    | .loadI, _ => ∃ v, memory[idx]? = some v ∧ ends (v :: values) idx
    | .popIdx, v :: rest => ∃ address, v = .pointer address ∧ ends rest address
    | .dup, v :: rest => ends (v :: v :: rest) idx
    | .swap, v :: w :: rest => ends (w :: v :: rest) idx
    | .binary f, v :: w :: rest => ∃ u, f.apply w v = .ok u ∧ ends (u :: rest) idx
    | .cmp, v :: w :: rest => ∃ u, Value.rank memory w v = .ok u ∧ ends (u :: rest) idx
    | .relation f, v :: w :: rest => ∃ u, f.apply memory w v = .ok u ∧ ends (u :: rest) idx
    | _, _ => True
  | _ => True

namespace Program

open Action

variable {p : Program} {m m' : Machine} {next : Nat} {v w : Value} {rest : List Value}

theorem asPointer_ok {a : Nat} (h : v.asPointer = .ok a) : v = .pointer a := by
  cases v <;> cases h
  rfl

/-- An instruction that only works on the stack and the index. -/
theorem Carries.turns {i : Instruction} (found : p.instructionAt m.pc = .ok (i, next)) (h : p.Carries m m') :
    i.turns m.memory m.values m.idx fun values idx => m.Becomes m' next values m.memory idx := by
  have here : m.Becomes (m.past next) next m.values m.memory m.idx := ⟨rfl, rfl, rfl, rfl, rfl, rfl, rfl⟩
  cases i with
  | pointer op address =>
    obtain ⟨_, done⟩ := h.effected found rfl
    cases op with
    | setIdx => cases done; exact ⟨rfl, rfl, rfl, rfl, rfl, rfl, rfl⟩
    | pushP => exact here.push done
    | load =>
      obtain ⟨v, m₁, read, pushed⟩ := run_bind_eq_ok done
      obtain ⟨there, rfl⟩ := cell_ok read
      exact ⟨v, there, here.push pushed⟩
    | store => trivial
  | short op n =>
    cases op with
    | pushI =>
      obtain ⟨_, done⟩ := h.effected found rfl
      exact here.push done
    | loadX =>
      obtain ⟨_, done⟩ := h.effected found rfl
      obtain ⟨address, m₁, place, done⟩ := run_bind_eq_ok done
      obtain ⟨same, rfl⟩ := indexed_ok place
      obtain ⟨v, m₂, read, pushed⟩ := run_bind_eq_ok done
      obtain ⟨there, rfl⟩ := cell_ok read
      exact ⟨address, v, same, there, here.push pushed⟩
    | deref =>
      obtain ⟨_, done⟩ := h.effected found rfl
      obtain ⟨address, m₁, place, done⟩ := run_bind_eq_ok done
      obtain ⟨same, rfl⟩ := indexed_ok place
      obtain ⟨v, m₂, read, done⟩ := run_bind_eq_ok done
      obtain ⟨there, rfl⟩ := cell_ok read
      obtain ⟨target, m₃, pointer, done⟩ := run_bind_eq_ok done
      obtain ⟨known, rfl⟩ := ofExcept_ok pointer
      obtain rfl := asPointer_ok known
      cases done
      exact ⟨address, target, same, there, rfl, rfl, rfl, rfl, rfl, rfl, rfl⟩
    | _ => trivial
  | plain op =>
    cases op with
    | pushIdx =>
      obtain ⟨_, done⟩ := h.effected found rfl
      obtain ⟨m₁, m₂, got, pushed⟩ := run_bind_eq_ok done
      cases got
      exact here.push pushed
    | loadI =>
      obtain ⟨_, done⟩ := h.effected found rfl
      obtain ⟨m₁, m₂, got, done⟩ := run_bind_eq_ok done
      cases got
      obtain ⟨v, m₃, read, pushed⟩ := run_bind_eq_ok done
      obtain ⟨there, rfl⟩ := cell_ok read
      exact ⟨v, there, here.push pushed⟩
    | popIdx =>
      obtain ⟨_, done⟩ := h.effected found rfl
      obtain ⟨v, m₁, popped, done⟩ := run_bind_eq_ok done
      obtain ⟨address, m₂, pointer, done⟩ := run_bind_eq_ok done
      obtain ⟨known, rfl⟩ := ofExcept_ok pointer
      obtain rfl := asPointer_ok known
      cases done
      cases stack : m.values with
      | nil => trivial
      | cons v rest =>
        obtain ⟨rfl, left⟩ := (stack ▸ here).pop popped
        exact ⟨address, rfl, left.pc, left.values, left.memory, rfl, left.calls, left.heap, left.floor⟩
    | dup =>
      obtain ⟨_, done⟩ := h.effected found rfl
      obtain ⟨v, m₁, popped, done⟩ := run_bind_eq_ok done
      obtain ⟨_, m₂, first, second⟩ := run_bind_eq_ok done
      cases stack : m.values with
      | nil => trivial
      | cons v rest =>
        obtain ⟨rfl, left⟩ := (stack ▸ here).pop popped
        exact (left.push first).push second
    | swap =>
      obtain ⟨_, done⟩ := h.effected found rfl
      obtain ⟨pair, m₁, popped, done⟩ := run_bind_eq_ok done
      obtain ⟨_, m₂, first, second⟩ := run_bind_eq_ok done
      rcases stack : m.values with _ | ⟨v, _ | ⟨w, rest⟩⟩
      · trivial
      · trivial
      · obtain ⟨rfl, left⟩ := (stack ▸ here).pop2 popped
        exact (left.push first).push second
    | binary f =>
      obtain ⟨_, done⟩ := h.effected found rfl
      obtain ⟨pair, m₁, popped, done⟩ := run_bind_eq_ok done
      obtain ⟨u, m₂, result, pushed⟩ := run_bind_eq_ok done
      obtain ⟨known, rfl⟩ := ofExcept_ok result
      rcases stack : m.values with _ | ⟨v, _ | ⟨w, rest⟩⟩
      · trivial
      · trivial
      · obtain ⟨rfl, left⟩ := (stack ▸ here).pop2 popped
        exact ⟨u, known, left.push pushed⟩
    | cmp =>
      obtain ⟨_, done⟩ := h.effected found rfl
      rcases stack : m.values with _ | ⟨v, _ | ⟨w, rest⟩⟩
      · trivial
      · trivial
      · exact (stack ▸ here).compare done
    | relation f =>
      obtain ⟨_, done⟩ := h.effected found rfl
      rcases stack : m.values with _ | ⟨v, _ | ⟨w, rest⟩⟩
      · trivial
      · trivial
      · exact (stack ▸ here).compare (f := fun memory l r => f.apply memory l r) done
    | _ => trivial
  | _ => trivial

theorem Carries.store {address : Nat} (found : p.instructionAt m.pc = .ok (.pointer .store address, next))
    (stack : m.values = v :: rest) (h : p.Carries m m') :
    address < m.memory.size ∧ m.Becomes m' next rest (m.memory.setIfInBounds address v) m.idx := by
  obtain ⟨_, done⟩ := h.effected found rfl
  obtain ⟨popped, left⟩ := pop_values (m := m.past next) stack
  rw [Action.effect, pointerEffect, run_bind_ok popped] at done
  obtain ⟨inside, rfl⟩ := setCell_ok done
  exact ⟨inside, rfl, left, rfl, rfl, rfl, rfl, rfl⟩

theorem Carries.storeX {n : Int16} (found : p.instructionAt m.pc = .ok (.short .storeX n, next))
    (stack : m.values = v :: rest) (h : p.Carries m m') :
    ∃ address : Nat, Value.shifted m.idx n.toInt = address ∧ address < m.memory.size ∧
      m.Becomes m' next rest (m.memory.setIfInBounds address v) m.idx := by
  obtain ⟨_, done⟩ := h.effected found rfl
  obtain ⟨address, m₁, place, done⟩ := run_bind_eq_ok done
  obtain ⟨same, rfl⟩ := indexed_ok place
  obtain ⟨popped, left⟩ := pop_values (m := m.past next) stack
  rw [run_bind_ok popped] at done
  obtain ⟨inside, rfl⟩ := setCell_ok done
  exact ⟨address, same, inside, rfl, left, rfl, rfl, rfl, rfl, rfl⟩

theorem Carries.storeI (found : p.instructionAt m.pc = .ok (.plain .storeI, next)) (stack : m.values = v :: rest)
    (h : p.Carries m m') :
    m.idx < m.memory.size ∧ m.Becomes m' next rest (m.memory.setIfInBounds m.idx v) m.idx := by
  obtain ⟨_, done⟩ := h.effected found rfl
  obtain ⟨popped, left⟩ := pop_values (m := m.past next) stack
  rw [Action.effect, plainEffect, run_bind_ok popped] at done
  obtain ⟨inside, rfl⟩ := setCell_ok done
  exact ⟨inside, rfl, left, rfl, rfl, rfl, rfl, rfl⟩

theorem Carries.jmp {n : Int16} (found : p.instructionAt m.pc = .ok (.short .jmp n, next)) (h : p.Carries m m') :
    m.Becomes m' (jumpAddress n) m.values m.memory m.idx := by
  obtain ⟨_, done⟩ := h.effected found rfl
  cases done
  exact ⟨rfl, rfl, rfl, rfl, rfl, rfl, rfl⟩

theorem Carries.jz {n : Int16} (found : p.instructionAt m.pc = .ok (.short .jz n, next)) (stack : m.values = v :: rest)
    (h : p.Carries m m') :
    ∃ b, v.isTrue = .ok b ∧ m.Becomes m' (if b then next else jumpAddress n) rest m.memory m.idx := by
  obtain ⟨_, done⟩ := h.effected found rfl
  obtain ⟨popped, left⟩ := pop_values (m := m.past next) stack
  rw [Action.effect, shortEffect, run_bind_ok popped] at done
  obtain ⟨b, m₁, truth, done⟩ := run_bind_eq_ok done
  obtain ⟨known, rfl⟩ := ofExcept_ok truth
  refine ⟨b, known, ?_⟩
  cases b <;> cases done <;> exact ⟨rfl, left, rfl, rfl, rfl, rfl, rfl⟩

theorem Carries.jnz {n : Int16} (found : p.instructionAt m.pc = .ok (.short .jnz n, next)) (stack : m.values = v :: rest)
    (h : p.Carries m m') :
    ∃ b, v.isTrue = .ok b ∧ m.Becomes m' (if b then jumpAddress n else next) rest m.memory m.idx := by
  obtain ⟨_, done⟩ := h.effected found rfl
  obtain ⟨popped, left⟩ := pop_values (m := m.past next) stack
  rw [Action.effect, shortEffect, run_bind_ok popped] at done
  obtain ⟨b, m₁, truth, done⟩ := run_bind_eq_ok done
  obtain ⟨known, rfl⟩ := ofExcept_ok truth
  refine ⟨b, known, ?_⟩
  cases b <;> cases done <;> exact ⟨rfl, left, rfl, rfl, rfl, rfl, rfl⟩

theorem Carries.call {n : Int16} (found : p.instructionAt m.pc = .ok (.short .call n, next)) (h : p.Carries m m') :
    m' = { m.past next with calls := m.calls.insert next, pc := jumpAddress n } := by
  obtain ⟨_, done⟩ := h.effected found rfl
  simp only [Action.effect, shortEffect] at done
  split at done <;> cases done
  rfl

theorem Carries.ret (found : p.instructionAt m.pc = .ok (.plain .ret, next)) (h : p.Carries m m') :
    ∃ address, m.calls.top? = some address ∧ m' = { m.past next with pc := address, calls := m.calls.dropTop } := by
  obtain ⟨_, done⟩ := h.effected found rfl
  simp only [Action.effect, plainEffect] at done
  split at done
  · next address top => cases done; exact ⟨address, top, rfl⟩
  · cases done

theorem not_carries_halt (found : p.instructionAt m.pc = .ok (.plain .halt, next)) : ¬ p.Carries m m' :=
  fun h => (h.performed found (by simp) (by simp)).1 rfl

theorem not_carries_fail {n : Int16} (found : p.instructionAt m.pc = .ok (.short .fail n, next)) : ¬ p.Carries m m' := by
  intro h
  obtain ⟨_, done⟩ := h.effected found rfl
  rw [Action.effect, shortEffect] at done
  cases named : ErrorCode.ofNumber? n <;> rw [named] at done <;> cases done

end Program

/-- No failure is one of the stack. -/
structure Spares {S : Type} (a : EStateM Error S α) : Prop where
  code : ∀ {s e s'}, a s = .error e s' → e.code ≠ .stackUnderflow

namespace Spares

variable {S : Type} {a : EStateM Error S α} {f : α → EStateM Error S β}

theorem bind (first : Spares a) (second : ∀ v, Spares (f v)) : Spares (a >>= f) where
  code {s e s'} h := by
    simp only [Bind.bind, EStateM.bind] at h
    split at h
    · exact (second _).code h
    · next failed => cases h; exact first.code failed

theorem pure (v : α) : Spares (Pure.pure v : EStateM Error S α) where
  code h := by cases h

theorem get : Spares (MonadState.get : EStateM Error S S) where
  code h := by cases h

/-- What takes nothing off the stack. -/
theorem of_shifts {view : S → Machine} {gives : Nat} (h : Shifts view 0 gives a) : Spares a where
  code failed same := absurd (h.error failed same) (Nat.not_lt_zero _)

theorem setPc (address : Nat) : Spares (Action.setPc address) where
  code h := by cases h

theorem setCell (address : Nat) (v : Value) : Spares (Action.setCell address v) where
  code h := by
    unfold Action.setCell at h
    split at h <;> cases h
    simp [Action.memoryFault, Error.of]

theorem storeString (bytes : List UInt8) (address : Nat) : Spares (Action.storeString bytes address) := by
  induction bytes generalizing address with
  | nil => exact setCell _ _
  | cons b rest ih => exact bind (setCell _ _) fun _ => ih _

theorem allocate (n : Nat) : Spares (Action.allocate n) where
  code h := by
    rw [Action.allocate_eq] at h
    split at h <;> cases h
    simp [Error.of]

theorem act {σ : Type} {a : Action α} (h : Spares a) : Spares (Session.act a : SessionM σ α) where
  code {s e s'} failed := by
    simp only [Session.act] at failed
    split at failed <;> cases failed
    next inner => exact h.code inner

theorem ask {σ : Type} (host : Host σ) (call : HostCall) : Spares (Session.ask host call) where
  code h := by cases h

end Spares

namespace Program

open Action

variable {p : Program} {m : Machine} {i : Instruction} {next : Nat} {v : Value} {rest : List Value}

/-- An instruction that takes nothing off the stack. -/
theorem healthy_of_spares (found : p.instructionAt m.pc = .ok (i, next)) (silent : quiet i = true)
    (h : ∀ interrupts, Spares (Action.effect interrupts i)) : p.Healthy m :=
  healthy_of_effect found silent fun interrupts _ _ failed => (h interrupts).code failed

/-- An instruction that takes one value off the stack. -/
theorem healthy_of_pop {f : Value → Action Unit} (found : p.instructionAt m.pc = .ok (i, next)) (silent : quiet i = true)
    (pops : ∀ interrupts, Action.effect interrupts i = pop >>= f) (spares : ∀ v, Spares (f v))
    (stack : m.values = v :: rest) : p.Healthy m := by
  refine healthy_of_effect found silent fun interrupts e m' failed => ?_
  rw [pops, run_bind_ok (pop_values (m := m.past next) stack).1] at failed
  exact (spares v).code failed

theorem healthy_store {address : Nat} (found : p.instructionAt m.pc = .ok (.pointer .store address, next))
    (stack : m.values = v :: rest) : p.Healthy m :=
  healthy_of_pop found rfl (fun _ => rfl) (fun _ => .setCell _ _) stack

theorem healthy_storeI (found : p.instructionAt m.pc = .ok (.plain .storeI, next)) (stack : m.values = v :: rest) :
    p.Healthy m :=
  healthy_of_pop found rfl (fun _ => rfl) (fun _ => .bind .get fun _ => .setCell _ _) stack

theorem healthy_storeX {n : Int16} (found : p.instructionAt m.pc = .ok (.short .storeX n, next))
    (stack : m.values = v :: rest) : p.Healthy m := by
  refine healthy_of_effect found rfl fun interrupts e m' failed => ?_
  simp only [Action.effect, shortEffect, bind, EStateM.bind] at failed
  split at failed
  · next address m₁ place =>
    obtain ⟨-, rfl⟩ := indexed_ok place
    rw [(pop_values (m := m.past next) stack).1] at failed
    exact (Spares.setCell _ _).code failed
  · next place =>
    cases failed
    exact (Spares.of_shifts (shifts_indexed n)).code place

theorem spares_truth {f : Bool → Action Unit} (v : Value) (h : ∀ b, Spares (f b)) :
    Spares (do f (← Action.ofExcept v.isTrue)) :=
  .bind (.of_shifts (shifts_ofExcept v.isTrue_usual)) h

theorem healthy_jz {n : Int16} (found : p.instructionAt m.pc = .ok (.short .jz n, next))
    (stack : m.values = v :: rest) : p.Healthy m := by
  refine healthy_of_pop found rfl (fun _ => rfl) (fun v => spares_truth v fun b => ?_) stack
  cases b
  · exact .setPc _
  · exact .pure _

theorem healthy_jnz {n : Int16} (found : p.instructionAt m.pc = .ok (.short .jnz n, next))
    (stack : m.values = v :: rest) : p.Healthy m := by
  refine healthy_of_pop found rfl (fun _ => rfl) (fun v => spares_truth v fun b => ?_) stack
  cases b
  · exact .pure _
  · exact .setPc _

theorem healthy_jmp {n : Int16} (found : p.instructionAt m.pc = .ok (.short .jmp n, next)) : p.Healthy m :=
  healthy_of_spares found rfl fun _ => .setPc _

theorem healthy_call {n : Int16} (found : p.instructionAt m.pc = .ok (.short .call n, next)) : p.Healthy m := by
  refine healthy_of_spares found rfl fun interrupts => ⟨fun {m e m'} failed => ?_⟩
  simp only [Action.effect, shortEffect] at failed
  split at failed <;> cases failed
  simp [Stack.overflow, Error.of]

theorem healthy_ret (found : p.instructionAt m.pc = .ok (.plain .ret, next)) : p.Healthy m := by
  refine healthy_of_spares found rfl fun interrupts => ⟨fun {m e m'} failed => ?_⟩
  simp only [Action.effect, plainEffect] at failed
  split at failed <;> cases failed
  simp [Error.of]

theorem healthy_fail {n : Int16} (other : ErrorCode.ofNumber? n ≠ some .stackUnderflow)
    (found : p.instructionAt m.pc = .ok (.short .fail n, next)) : p.Healthy m := by
  refine healthy_of_spares found rfl fun interrupts => ⟨fun {m e m'} failed => ?_⟩
  rw [Action.effect, shortEffect] at failed
  cases named : ErrorCode.ofNumber? n with
  | none => rw [named] at failed; cases failed; simp [Error.of]
  | some code =>
    rw [named] at failed other
    cases failed
    exact fun same => other (congrArg some same)

theorem healthy_gets {r : Register} (found : p.instructionAt m.pc = .ok (.syscall .gets r, next)) : p.Healthy m := by
  refine healthy_of_perform found (by simp) fun env room t e s failed => ?_
  have line (s : String) : Spares (storeLine s) :=
    .bind (.allocate _) fun _ => .bind (.storeString _ _) fun _ => .pure _
  have spares : Spares (serve env.host r room .gets) :=
    .bind (.ask _ _) fun s => .bind (.act (.bind (line s) fun _ => .of_shifts (shifts_setRegister r _))) fun _ => .pure _
  exact spares.code failed

theorem healthy_halt (found : p.instructionAt m.pc = .ok (.plain .halt, next)) : p.Healthy m :=
  healthy_of_perform found (by simp) fun _ _ _ _ _ failed => by cases failed

end Program

end BasicMachine
