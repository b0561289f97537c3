import BasicMachine.Machine.Scripted
import BasicMachine.Proofs.Confinement

/-!
# Slices of a run

How a run is cut into budgets does not show, as long as no READS is executed: an instruction does the same whatever
cycles are left after it, and each takes one cycle, NOPs apart, which stay for the next run at the end of a budget.
-/
namespace BasicMachine.Session

variable {σ : Type} {env : Environment σ} {p : Program}

/-- The next instruction is a call of READS. -/
def AtReadS (p : Program) (s : Session σ) : Prop :=
  ∃ r next, p.instructionAt s.machine.pc = .ok (.syscall .readS r, next)

/-- None of the runs with the given budgets executes READS. -/
def Unread (env : Environment σ) (p : Program) : List Nat → Session σ → Prop
  | [], _ => True
  | budget :: rest, s =>
    (∀ start, act (begin p) s = .ok () start → ∀ t, Visits env p budget start t → ¬AtReadS p t) ∧
      ∀ t, run env p budget s = .ok false t → Unread env p rest t

/-- Whatever is returned is `v`. -/
def Returns (v : α) (x : SessionM σ α) : Prop := ∀ {s a s'}, x s = .ok a s' → a = v

theorem returns_pure (v : α) : Returns v (pure v : SessionM σ α) := by
  intro s a s' h
  cases h
  rfl

theorem returns_bind {v : γ} {x : SessionM σ α} {f : α → SessionM σ γ} (last : ∀ a, Returns v (f a)) :
    Returns v (x >>= f) := by
  intro s a s' h
  simp only [bind, EStateM.bind] at h
  split at h
  · exact last _ h
  · cases h

/-- Every host call but READS goes on with the next instruction and takes no further cycles. -/
theorem returns_serve (host : Host σ) (r : Register) (room : Nat) {call : Syscall} (other : call ≠ .readS) :
    Returns (.next 0) (serve host r room call) := by
  cases call with
  | readS => exact absurd rfl other
  | _ =>
    unfold serve
    repeat first | exact returns_pure _ | refine returns_bind fun _ => ?_

/-- No host call but READS looks at the cycles that are left. -/
theorem serve_room (host : Host σ) (r : Register) (room room' : Nat) {call : Syscall} (other : call ≠ .readS) :
    serve host r room call = serve host r room' call := by
  cases call with
  | readS => exact absurd rfl other
  | _ => rfl

/-- The operand of the instruction does not make it a call of READS. -/
def NoReadS (p : Program) (op : Opcode) (address : Nat) : Prop :=
  ∀ r, p.instructionOf op (address + 1) ≠ .ok (.syscall .readS r)

theorem noReadS_of_not_atReadS {s : Session σ} {op : Opcode} (fetched : Opcode.ofByte (p.fetch s.machine.pc) = .ok op)
    (other : ¬AtReadS p s) : NoReadS p op s.machine.pc := by
  intro r decoded
  exact other ⟨r, _, Program.instructionAt_of_decoded fetched decoded⟩

theorem perform_room (room room' : Nat) {i : Instruction} (other : ∀ r, i ≠ .syscall .readS r) :
    perform env room i = perform env room' i := by
  cases i with
  | syscall call r => exact serve_room _ _ _ _ fun h => other r (h ▸ rfl)
  | _ => rfl

/-- An instruction other than READS does the same whatever cycles are left. -/
theorem step_room (op : Opcode) (address room room' : Nat) (s : Session σ) (other : NoReadS p op address) :
    step env p op address room s = step env p op address room' s := by
  cases decoded : p.instructionOf op (address + 1) with
  | error e => rw [step_undecoded decoded, step_undecoded decoded]
  | ok i =>
    rw [step_decoded decoded, step_decoded decoded,
      perform_room room room' fun r h => other r (decoded.trans (h ▸ rfl))]

/-- Nor does it take further cycles, or wait. -/
theorem step_progress {op : Opcode} {address room : Nat} {s s' : Session σ} {progress : Progress}
    (other : NoReadS p op address) (h : step env p op address room s = .ok progress s') :
    progress = .next 0 ∨ progress = .pause ∨ progress = .halt := by
  cases decoded : p.instructionOf op (address + 1) with
  | error e =>
    rw [step_undecoded decoded] at h
    cases h
  | ok i =>
    rw [step_decoded decoded] at h
    have plain (v : Progress) (x : SessionM σ Unit) : Returns v (do x; return v) := returns_bind fun _ => returns_pure v
    cases i with
    | syscall call r =>
      refine .inl (returns_serve _ _ _ (fun readS => ?_) h)
      exact other r (readS ▸ decoded)
    | plain op =>
      have returned := plain (Instruction.plain op).progress _ h
      cases op <;> simp [Instruction.progress] at returned <;> simp [returned]
    | short op n => exact .inl (plain _ _ h)
    | pointer op n => exact .inl (plain _ _ h)
    | pushF word => exact .inl (plain _ _ h)
    | push v => exact .inl (plain _ _ h)
    | setS bytes => exact .inl (plain _ _ h)

/-- Without interrupt handlers, the clock counts the cost of the instruction and no more. -/
theorem step_pulse {op : Opcode} {address room : Nat} {s s' : Session σ} {progress : Progress}
    (handlers : env.interrupts = fun _ => none) (other : NoReadS p op address)
    (h : step env p op address room s = .ok progress s') :
    s'.machine.clock = s.machine.clock + op.cost ∧ s'.machine.status = s.machine.status := by
  cases decoded : p.instructionOf op (address + 1) with
  | error e =>
    rw [step_undecoded decoded] at h
    cases h
  | ok i =>
    rw [step_decoded decoded] at h
    have confined : Confined Action.pulse (perform env room i) :=
      confined_perform_of_roaming Action.roaming_pulse handlers fun r readS => absurd (readS ▸ decoded) (other r)
    have same := confined.ok h
    simp only [Action.pulse, Action.Bounds.ofView, machine_withMachine, passed, Prod.mk.injEq] at same
    exact same

/-- The outcome of the same instruction with `more` cycles left. -/
def Outcome.extend (more : Nat) : Outcome σ → Outcome σ
  | next left s => next (left + more) s
  | stop why s => stop why s

/-- More cycles change nothing for an instruction that is executed at all. -/
theorem advance_add (left more : Nat) {s : Session σ} (other : ¬AtReadS p s) :
    advance env p (left + 1 + more) s = (advance env p (left + 1) s).extend more := by
  rw [show left + 1 + more = left + more + 1 by omega]
  cases fetched : Opcode.ofByte (p.fetch s.machine.pc) with
  | error e =>
    rw [advance_unknown fetched, advance_unknown fetched]
    rfl
  | ok op =>
    by_cases nop : op = .plain .nop
    · subst nop
      rw [advance_nop fetched, advance_nop fetched, Outcome.extend]
      congr 1
      omega
    · have noReadS := noReadS_of_not_atReadS fetched other
      rw [advance_step fetched nop, advance_step fetched nop, step_room _ _ (left + more) left _ noReadS]
      cases stepped : step env p op s.machine.pc left (watched env op s) with
      | error e t => rfl
      | ok progress t =>
        obtain rfl | rfl | rfl := step_progress noReadS stepped <;> rfl

/-- A run stops for want of cycles only where it has none. -/
theorem advance_ne_spent (left : Nat) (s t : Session σ) : advance env p (left + 1) s ≠ .stop .spent t := by
  intro h
  unfold advance at h
  simp only [Nat.add_one_ne_zero, if_false] at h
  split at h
  · cases h
  · split at h
    · cases h
    · unfold Outcome.ofStep at h
      split at h <;> cases h

/-- What an instruction adds to the clock it takes from the cycles. -/
theorem advance_pulse {left left' : Nat} {s s' : Session σ} (handlers : env.interrupts = fun _ => none)
    (other : ¬AtReadS p s) (h : advance env p left s = .next left' s') :
    s'.machine.clock + left' = s.machine.clock + left ∧ s'.machine.status = s.machine.status := by
  cases left with
  | zero => cases h
  | succ left =>
    cases fetched : Opcode.ofByte (p.fetch s.machine.pc) with
    | error e =>
      rw [advance_unknown fetched] at h
      cases h
    | ok op =>
      by_cases nop : op = .plain .nop
      · subst nop
        rw [advance_nop fetched] at h
        cases h
        simp only [machine_withMachine, machine_watched, and_self]
      · have noReadS := noReadS_of_not_atReadS fetched other
        have cost : op.cost = 1 := if_neg nop
        rw [advance_step fetched nop] at h
        cases stepped : step env p op s.machine.pc left (watched env op s) with
        | error e t =>
          rw [stepped] at h
          cases h
        | ok progress t =>
          have pulse := step_pulse handlers noReadS stepped
          rw [stepped] at h
          obtain rfl | rfl | rfl := step_progress noReadS stepped <;> cases h
          rw [machine_watched, cost] at pulse
          exact ⟨by omega, pulse.2⟩

section
variable {n m : Nat} {s : Session σ} (unread : ∀ t, Visits env p (n + m) s t → ¬AtReadS p t)
include unread

theorem advance_next_add {left' : Nat} {s' : Session σ} (went : advance env p n s = .next left' s') :
    advance env p (n + m) s = .next (left' + m) s' := by
  cases n with
  | zero => cases went
  | succ n =>
    have here : ¬AtReadS p s := unread s (by rw [Nat.succ_add]; exact .here _ _)
    rw [advance_add n m here, went]
    rfl

/-- A run that stops has no cycles left, or it stops with more of them as well. -/
theorem advance_stop_add {why : Stop} {t : Session σ} (stopped : advance env p n s = .stop why t) :
    n = 0 ∧ why = .spent ∧ t = s ∨ why ≠ .spent ∧ advance env p (n + m) s = .stop why t := by
  cases n with
  | zero =>
    cases stopped
    exact .inl ⟨rfl, rfl, rfl⟩
  | succ n =>
    have here : ¬AtReadS p s := unread s (by rw [Nat.succ_add]; exact .here _ _)
    refine .inr ⟨?_, ?_⟩
    · rintro rfl
      exact advance_ne_spent n s t stopped
    · rw [advance_add n m here, stopped]
      rfl

end

/-- A course with more cycles is the shorter course, and what follows it where only its cycles are spent. -/
theorem course_add (n m : Nat) (s : Session σ) (unread : ∀ t, Visits env p (n + m) s t → ¬AtReadS p t) :
    course env p (n + m) s =
      if (course env p n s).1 = .spent then course env p m (course env p n s).2 else course env p n s := by
  fun_induction course env p n s with
  | case1 n s why t stopped =>
    obtain ⟨rfl, rfl, rfl⟩ | ⟨other, longer⟩ := advance_stop_add unread stopped
    · rw [Nat.zero_add, if_pos rfl]
    · rw [course_stop longer, if_neg other]
  | case2 n s left' s' went shorter ih =>
    have longer := advance_next_add unread went
    rw [course_next longer]
    exact ih fun t visits => unread t (.next longer visits)

/-- A course that spends its cycles counts them all. -/
theorem course_spent (handlers : env.interrupts = fun _ => none) (n : Nat) {s t : Session σ}
    (unread : ∀ u, Visits env p n s u → ¬AtReadS p u) (spent : course env p n s = (.spent, t)) :
    t.machine.clock = s.machine.clock + n ∧ t.machine.status = s.machine.status := by
  fun_induction course env p n s with
  | case1 n s why u stopped =>
    cases spent
    obtain ⟨rfl, -, rfl⟩ | ⟨other, -⟩ := advance_stop_add (m := 0) unread stopped
    · exact ⟨rfl, rfl⟩
    · exact absurd rfl other
  | case2 n s left' s' went shorter ih =>
    cases n with
    | zero => cases went
    | succ n =>
      have here := advance_pulse handlers (unread s (.here _ _)) went
      have later := ih (fun u visits => unread u (.next went visits)) spent
      exact ⟨by omega, later.2.trans here.2⟩

/-- The longer course visits what the second of two shorter ones does. -/
theorem visits_add (n m : Nat) {s t u : Session σ} (unread : ∀ v, Visits env p (n + m) s v → ¬AtReadS p v)
    (spent : course env p n s = (.spent, t)) (visits : Visits env p m t u) : Visits env p (n + m) s u := by
  fun_induction course env p n s with
  | case1 n s why v stopped =>
    cases spent
    obtain ⟨rfl, -, rfl⟩ | ⟨other, -⟩ := advance_stop_add unread stopped
    · rwa [Nat.zero_add]
    · exact absurd rfl other
  | case2 n s left' s' went shorter ih =>
    have longer := advance_next_add unread went
    exact .next longer (ih (fun v visits => unread v (.next longer visits)) spent)

/-- A longer budget visits what a shorter one does. -/
theorem visits_of_le (n m : Nat) {s u : Session σ} (unread : ∀ v, Visits env p (n + m) s v → ¬AtReadS p v)
    (visits : Visits env p n s u) : Visits env p (n + m) s u := by
  induction visits with
  | here n s =>
    rw [Nat.succ_add]
    exact .here _ _
  | next went later ih =>
    have longer := advance_next_add unread went
    exact .next longer (ih fun v visits => unread v (.next longer visits))

/-- A run begins where the last one stopped, or at its start if the machine is ready and the static cells fit. -/
theorem begin_started {s start : Session σ} (h : act (begin p) s = .ok () start) :
    s.machine.status = .running ∧ start = s ∨
    s.machine.status = .ready ∧ p.staticSize ≤ s.machine.memory.size ∧
      start = withMachine (fun m => { m with
        floor := p.staticSize, pc := m.start.getD p.entry, start := none, status := .running }) s := by
  rcases s with ⟨m, t⟩
  simp only [act, begin] at h
  cases status : m.status with
  | ready =>
    rw [status] at h
    dsimp only at h
    split at h
    · next fits =>
      split at fits <;> cases fits
      next small =>
      cases h
      exact .inr ⟨rfl, Nat.le_of_not_lt small, rfl⟩
    · cases h
  | running =>
    rw [status] at h
    cases h
    exact .inl ⟨rfl, rfl⟩
  | faulted =>
    rw [status] at h
    cases h

theorem begin_running {s start : Session σ} (h : act (begin p) s = .ok () start) :
    start.machine.status = .running ∧ start.machine.clock = s.machine.clock := by
  obtain ⟨running, rfl⟩ | ⟨-, -, rfl⟩ := begin_started h
  · exact ⟨running, rfl⟩
  · exact ⟨rfl, rfl⟩

/-- A run that does not begin leaves the machine faulted, and changes nothing else. -/
theorem begin_refused {s t : Session σ} {e : Error} (h : act (begin p) s = .error e t) :
    t = withMachine .faulted s := by
  rcases s with ⟨m, host⟩
  simp only [act, begin] at h
  cases status : m.status with
  | ready =>
    rw [status] at h
    dsimp only at h
    split at h
    · cases h
    · next failed =>
      split at failed <;> cases failed
      cases h
      rfl
  | running =>
    rw [status] at h
    cases h
  | faulted =>
    rw [status] at h
    cases h
    simp only [withMachine, Machine.faulted, ← status]

theorem begin_of_running {s : Session σ} (h : s.machine.status = .running) : act (begin p) s = .ok () s := by
  rcases s with ⟨m, t⟩
  simp only [act, begin]
  rw [show m.status = .running from h]

/-- The two ways in which a run can be shorter than another one: its budget is spent, and the next run takes up the rest
of the longer one; or it ends, and the longer one ends with it. -/
theorem slice_add (handlers : env.interrupts = fun _ => none) {n m : Nat} {s : Session σ}
    (unread : Unread env p [n + m] s) :
    (∀ t, slice env p n s = (.spent, t) →
      t.machine.clock = s.machine.clock + n ∧ slice env p (n + m) s = slice env p m t) ∧
    (∀ why t, slice env p n s = (why, t) → why ≠ .spent → slice env p (n + m) s = (why, t)) := by
  unfold slice
  cases started : act (begin p) s with
  | error e t =>
    refine ⟨fun u spent => ?_, fun why u stopped _ => stopped⟩
    cases spent
  | ok _ start =>
    have running := begin_running started
    have reads := unread.1 start started
    have longer := course_add n m start reads
    refine ⟨fun t spent => ?_, fun why t stopped other => ?_⟩
    · dsimp only at spent ⊢
      have counted := course_spent handlers n (fun u visits => reads u (visits_of_le n m reads visits)) spent
      rw [begin_of_running (counted.2.trans running.1), longer, spent, if_pos rfl]
      exact ⟨by omega, rfl⟩
    · dsimp only at stopped ⊢
      rw [longer, stopped, if_neg other]

theorem run_of_slice {n m : Nat} {s t : Session σ} (h : slice env p n s = slice env p m t) :
    run env p n s = run env p m t := by
  rw [run_eq_slice, run_eq_slice, h]

theorem run_of_slice_spent {n : Nat} {s t : Session σ} (h : slice env p n s = (.spent, t)) :
    run env p n s = .ok false t := by
  rw [run_eq_slice, h]
  rfl

/-- The rest of a budget reads no more than the whole of it. -/
theorem unread_rest {n m : Nat} {s t : Session σ} {rest : List Nat} (handlers : env.interrupts = fun _ => none)
    (unread : Unread env p ((n + m) :: rest) s) (spent : slice env p n s = (.spent, t)) :
    Unread env p (m :: rest) t := by
  have single : Unread env p [n + m] s := ⟨unread.1, fun _ _ => trivial⟩
  have same := (slice_add handlers single).1 t spent
  refine ⟨fun start' started' u visits => ?_, fun u ran => unread.2 u (by rw [run_of_slice same.2, ran])⟩
  unfold slice at spent
  cases started : act (begin p) s with
  | error e start =>
    rw [started] at spent
    cases spent
  | ok _ start =>
    rw [started] at spent
    have reads := unread.1 start started
    have counted := course_spent handlers n (fun u visits => reads u (visits_of_le n m reads visits)) spent
    rw [begin_of_running (counted.2.trans (begin_running started).1)] at started'
    cases started'
    exact reads u (visits_add n m reads spent visits)

/-- One comparison of two rows of budgets whose first budgets are `n` and `n + m`: the rows that are left have fewer
budgets, and they are run from the same session. -/
theorem runEach_eq_of_le (handlers : env.interrupts = fun _ => none) {n m : Nat} {first second : List Nat}
    {s : Session σ} (unreadFirst : Unread env p (n :: first) s) (unreadSecond : Unread env p ((n + m) :: second) s)
    (endsFirst : (runEach env p (n :: first) s).1 ≠ .suspended)
    (endsSecond : (runEach env p ((n + m) :: second) s).1 ≠ .suspended)
    (later : ∀ (rest : List Nat) (t : Session σ), rest.length ≤ second.length + 1 →
      Unread env p first t → Unread env p rest t → (runEach env p first t).1 ≠ .suspended →
      (runEach env p rest t).1 ≠ .suspended → runEach env p first t = runEach env p rest t) :
    runEach env p (n :: first) s = runEach env p ((n + m) :: second) s := by
  have single : Unread env p [n + m] s := ⟨unreadSecond.1, fun _ _ => trivial⟩
  obtain ⟨goesOn, ends⟩ := slice_add handlers single
  cases sliced : slice env p n s with
  | mk why t =>
    by_cases spent : why = .spent
    · subst spent
      have ran := run_of_slice_spent sliced
      have same := run_of_slice (goesOn t sliced).2
      have rest : runEach env p ((n + m) :: second) s = runEach env p (m :: second) t := by
        simp only [runEach, same]
      rw [rest] at endsSecond ⊢
      simp only [runEach, ran] at endsFirst ⊢
      exact later _ t (by simp) (unreadFirst.2 t ran) (unread_rest handlers unreadSecond sliced) endsFirst endsSecond
    · have same : run env p (n + m) s = run env p n s := run_of_slice ((ends why t sliced spent).trans sliced.symm)
      simp only [runEach, same] at endsFirst endsSecond ⊢
      cases ran : run env p n s with
      | error e u => rfl
      | ok halted u =>
        cases halted with
        | true => rfl
        | false =>
          rw [ran] at endsFirst endsSecond
          exact later second u (by simp) (unreadFirst.2 u ran) (unreadSecond.2 u (same.trans ran)) endsFirst
            endsSecond

/-- Two rows of budgets that both lead to the end lead to the same end. -/
theorem runEach_eq (handlers : env.interrupts = fun _ => none) (first second : List Nat) (s : Session σ)
    (unreadFirst : Unread env p first s) (unreadSecond : Unread env p second s)
    (endsFirst : (runEach env p first s).1 ≠ .suspended) (endsSecond : (runEach env p second s).1 ≠ .suspended) :
    runEach env p first s = runEach env p second s := by
  -- The shorter of the two first budgets goes, so that the number of budgets in both rows falls.
  induction size : first.length + second.length using Nat.strongRecOn generalizing first second s with
  | ind size ih =>
    subst size
    cases first with
    | nil => exact absurd rfl endsFirst
    | cons n first =>
      cases second with
      | nil => exact absurd rfl endsSecond
      | cons m second =>
        rcases Nat.le_total n m with le | le
        · obtain ⟨d, rfl⟩ := Nat.exists_eq_add_of_le le
          refine runEach_eq_of_le handlers unreadFirst unreadSecond endsFirst endsSecond ?_
          intro rest t shorter unread unread' ends ends'
          exact ih _ (by simp only [List.length_cons]; omega) first rest t unread unread' ends ends' rfl
        · obtain ⟨d, rfl⟩ := Nat.exists_eq_add_of_le le
          refine (runEach_eq_of_le handlers unreadSecond unreadFirst endsSecond endsFirst ?_).symm
          intro rest t shorter unread unread' ends ends'
          exact ih _ (by simp only [List.length_cons]; omega) second rest t unread unread' ends ends' rfl

/-- Code without READS executes none. -/
theorem unread_of_absent (absent : ∀ address r next, p.instructionAt address ≠ .ok (.syscall .readS r, next))
    (budgets : List Nat) (s : Session σ) : Unread env p budgets s := by
  induction budgets generalizing s with
  | nil => trivial
  | cons budget rest ih => exact ⟨fun start _ t _ ⟨r, next, found⟩ => absent _ r next found, fun t _ => ih t⟩

/-- Slicing does not change execution. A run that spends its budget of `n` cycles has counted them, and the next run
with `m` cycles ends as one run with all of them does; a run that pauses, halts or fails is not changed by further
cycles. So budgets that lead to the end lead to the same end. All of the machine and of the state of the host is the
same, whatever the host is: one that keeps a record of its calls has the same record. -/
theorem slices_agree (env : Environment σ) (p : Program) (handlers : env.interrupts = fun _ => none) :
    (∀ n m s, Unread env p [n + m] s →
      (∀ t, slice env p n s = (.spent, t) →
        run env p n s = .ok false t ∧ t.machine.clock = s.machine.clock + n ∧
          slice env p (n + m) s = slice env p m t ∧ run env p (n + m) s = run env p m t) ∧
      (∀ why t, slice env p n s = (why, t) → why ≠ .spent →
        slice env p (n + m) s = (why, t) ∧ run env p (n + m) s = run env p n s)) ∧
    (∀ first second s, Unread env p first s → Unread env p second s →
      (runEach env p first s).1 ≠ .suspended → (runEach env p second s).1 ≠ .suspended →
      runEach env p first s = runEach env p second s) := by
  refine ⟨fun n m s unread => ⟨fun t spent => ?_, fun why t stopped other => ?_⟩, runEach_eq handlers⟩
  · obtain ⟨counted, same⟩ := (slice_add handlers unread).1 t spent
    exact ⟨run_of_slice_spent spent, counted, same, run_of_slice same⟩
  · have same := (slice_add handlers unread).2 why t stopped other
    exact ⟨same, run_of_slice (same.trans stopped.symm)⟩

/-- Clears the screen, pauses and halts. -/
def clearScreen : Program :=
  { code := (Code.bytes [.syscall .cls .a, .plain .yield, .plain .nop, .plain .halt]).toArray }

def scripted : Environment Script := { host := Script.host }

theorem slices_agree_clearScreen :
    let s : Session Script := ⟨.new { memorySize := 0 }, {}⟩
    (slice scripted clearScreen 1 s).1 = .spent ∧ (slice scripted clearScreen 1 s).2.machine.clock = 1 ∧
      run scripted clearScreen (1 + 8) s = run scripted clearScreen 8 (slice scripted clearScreen 1 s).2 ∧
      (runEach scripted clearScreen [9, 9] s).1 = .halted ∧
      runEach scripted clearScreen [1, 1, 1] s = runEach scripted clearScreen [9, 9] s := by
  intro s
  have absent : ∀ address r next, clearScreen.instructionAt address ≠ .ok (.syscall .readS r, next) := by
    rintro (_ | _ | _ | _ | _ | _ | _ | _ | address) r next h <;> cases h
  have spent : (slice scripted clearScreen 1 s).1 = .spent := by
    show (course scripted clearScreen 1 _).1 = _
    rw [course_next rfl, course_stop rfl]
  have short : (runEach scripted clearScreen [1, 1, 1] s).1 = .halted := by
    rw [runEach, run_eq_course rfl, course_next rfl, course_stop rfl]
    dsimp only [Stop.answer]
    rw [runEach, run_eq_course rfl, course_stop rfl]
    dsimp only [Stop.answer]
    rw [runEach, run_eq_course rfl, course_next rfl, course_stop rfl]
    rfl
  have long : (runEach scripted clearScreen [9, 9] s).1 = .halted := by
    rw [runEach, run_eq_course rfl, course_next rfl, course_stop rfl]
    dsimp only [Stop.answer]
    rw [runEach, run_eq_course rfl, course_next rfl, course_stop rfl]
    rfl
  obtain ⟨agree, same⟩ := slices_agree scripted clearScreen rfl
  obtain ⟨-, counted, -, rest⟩ := (agree 1 8 s (unread_of_absent absent _ _)).1 _ (Prod.ext spent rfl)
  refine ⟨spent, counted, rest, long, ?_⟩
  exact same _ _ s (unread_of_absent absent _ _) (unread_of_absent absent _ _) (by simp [short]) (by simp [long])

end BasicMachine.Session
