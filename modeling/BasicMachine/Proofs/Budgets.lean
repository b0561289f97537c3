import BasicMachine.Proofs.LineInput

/-!
# What a run spends

A run counts a cycle for every instruction and one for every byte that READS keeps, and it stops once they are spent.
READS looks at its cycles only after it has kept a byte. So a run in which READS is executed with the last cycle and
finds a byte counts one cycle more than it was given, and no other run counts more.
-/
namespace BasicMachine.Session

open Action

variable {σ : Type} {env : Environment σ} {p : Program} {left left' : Nat} {s s' t : Session σ}

/-- The cycles that READS counts: it keeps one byte at least where it gets one, and otherwise no more than it has cycles
for. -/
def Counts (clock room extra : Nat) : EStateM.Result Error (Session σ) Progress → Prop
  | .ok .retry s => s.machine.clock ≤ clock + max room 1
  | .ok (.next spent) s => ∃ gained ≤ room, spent = extra + gained ∧ s.machine.clock = clock + gained
  | .ok .pause _ | .ok .halt _ => False
  | .error _ s => s.machine.clock ≤ clock + room

theorem Counts.after {clock room extra left : Nat} {result : EStateM.Result Error (Session σ) Progress}
    (h : Counts (clock + 1) left (extra + 1) result) (some : left ≠ 0) (fewer : left < room) :
    Counts clock room extra result := by
  cases result with
  | error e s =>
    simp only [Counts] at h ⊢
    omega
  | ok progress s =>
    cases progress with
    | retry =>
      simp only [Counts] at h ⊢
      omega
    | next spent =>
      obtain ⟨gained, le, total, counted⟩ := h
      exact ⟨gained + 1, by omega, by omega, by omega⟩
    | pause => exact h
    | halt => exact h

theorem counts_readString (host : Host σ) (r : Register) (room extra : Nat) (m : Machine) (t : σ) :
    Counts m.clock room extra (readString host r room extra ⟨m, t⟩) := by
  induction room using Nat.strongRecOn generalizing extra m t with
  | _ room ih =>
    unfold readString
    rw [run_bind_ok (show ask host (.read false) ⟨m, t⟩ = .ok _ ⟨m, _⟩ from rfl)]
    generalize host (.read false) t = answer
    obtain ⟨b, t'⟩ := answer
    dsimp only
    by_cases zero : b = 0
    · rw [if_pos zero]
      exact Nat.le_add_right _ _
    rw [if_neg zero]
    by_cases last : b = 10 ∨ b = 13
    · rw [if_pos last]
      by_cases inside : m.idx + m.readCursor < m.memory.size
      · rw [run_bind_ok (act_ok ((closeLine_eq r _).trans (if_pos inside)))]
        exact ⟨0, Nat.zero_le _, rfl, rfl⟩
      · rw [run_bind_error (act_error ((closeLine_eq r _).trans (if_neg inside)))]
        exact Nat.le_add_right _ _
    rw [if_neg last]
    by_cases inside : m.idx + m.readCursor < m.memory.size
    · rw [run_bind_ok (act_ok ((keepByte_eq _ _).trans (if_pos inside)))]
      have kept : m.clock + 1 ≤ m.clock + max room 1 := by omega
      cases room with
      | zero => exact kept
      | succ left =>
        dsimp only
        by_cases spent : left = 0
        · rw [if_pos spent]
          exact kept
        · rw [if_neg spent]
          exact (ih left (Nat.lt_succ_self left) (extra + 1) _ t').after spent (Nat.lt_succ_self left)
    · rw [run_bind_error (act_error ((keepByte_eq _ _).trans (if_neg inside)))]
      exact Nat.le_add_right _ _

/-- READS, executed next with the last cycle, keeps a byte. -/
def Overdraws (env : Environment σ) (p : Program) (s : Session σ) : Prop :=
  ∃ r next, p.instructionAt s.machine.pc = .ok (.syscall .readS r, next) ∧
    arrivals env.host (watched env .syscall s).host 0 ≠ 0 ∧
    ¬ EndsLine (arrivals env.host (watched env .syscall s).host 0) ∧
    s.machine.idx + s.machine.readCursor < s.machine.memory.size

/-- Without cycles left, READS counts one for a byte that it keeps, and none otherwise. -/
theorem clock_readString_zero (host : Host σ) (r : Register) (m : Machine) (t : σ) :
    (machineAfter (readString host r 0 0 ⟨m, t⟩)).clock =
      if arrivals host t 0 ≠ 0 ∧ ¬ EndsLine (arrivals host t 0) ∧ m.idx + m.readCursor < m.memory.size then m.clock + 1
      else m.clock := by
  have asked : ask host (.read false) ⟨m, t⟩ = .ok (arrivals host t 0) ⟨m, (host (.read false) t).2⟩ := rfl
  unfold readString
  rw [run_bind_ok asked]
  by_cases zero : arrivals host t 0 = 0
  · rw [if_pos zero, if_neg (fun h => h.1 zero)]
    rfl
  rw [if_neg zero]
  by_cases last : arrivals host t 0 = 10 ∨ arrivals host t 0 = 13
  · rw [if_pos last, if_neg (fun h => h.2.1 last)]
    by_cases inside : m.idx + m.readCursor < m.memory.size
    · rw [run_bind_ok (act_ok ((closeLine_eq r _).trans (if_pos inside)))]
      rfl
    · rw [run_bind_error (act_error ((closeLine_eq r _).trans (if_neg inside)))]
      rfl
  rw [if_neg last]
  by_cases inside : m.idx + m.readCursor < m.memory.size
  · rw [run_bind_ok (act_ok ((keepByte_eq _ _).trans (if_pos inside))), if_pos ⟨zero, last, inside⟩]
    rfl
  · rw [run_bind_error (act_error ((keepByte_eq _ _).trans (if_neg inside))), if_neg (fun h => inside h.2.2)]
    rfl

/-- What an instruction adds to the clock it takes from the cycles, if the run goes on. If the run stops, it adds no more
than there are, or one more for a byte that READS keeps. -/
def Outcome.Paid (env : Environment σ) (p : Program) (left : Nat) (s : Session σ) : Outcome σ → Prop
  | .next left' s' => s'.machine.clock + left' = s.machine.clock + left ∧ ¬ (left = 1 ∧ Overdraws env p s)
  | .stop .halted _ => True
  | .stop _ s' => s'.machine.clock ≤ s.machine.clock + left + 1 ∧
      (s.machine.clock + left < s'.machine.clock ↔ left = 1 ∧ Overdraws env p s)

theorem paid_stop {why : Stop} (small : t.machine.clock ≤ s.machine.clock + left)
    (other : ¬ (left = 1 ∧ Overdraws env p s)) : (Outcome.stop why t).Paid env p left s := by
  cases why <;> first | trivial | exact ⟨by omega, fun above => by omega, fun draws => absurd draws other⟩

/-- READS overdraws only where it is executed. -/
theorem not_overdraws {op : Opcode} (fetched : Opcode.ofByte (p.fetch s.machine.pc) = .ok op)
    (other : NoReadS p op s.machine.pc) : ¬ Overdraws env p s := by
  rintro ⟨r, next, found, -⟩
  obtain ⟨op', fetched', decoded, -⟩ := instructionAt_eq_ok found
  cases fetched.symm.trans fetched'
  exact other r decoded

theorem clock_of_step_error {op : Opcode} {address room : Nat} {e : Error} (handlers : env.interrupts = fun _ => none)
    (other : NoReadS p op address) (h : step env p op address room s = .error e t) :
    t.machine.clock = s.machine.clock + op.cost := by
  cases decoded : p.instructionOf op (address + 1) with
  | error e =>
    rw [step_undecoded decoded] at h
    cases h
    rfl
  | ok i =>
    rw [step_decoded decoded] at h
    have confined : Confined pulse (perform env room i) :=
      confined_perform_of_roaming roaming_pulse handlers fun r readS => absurd (readS ▸ decoded) (other r)
    have same := (confined.error h).1
    simp only [pulse, Bounds.ofView, machine_withMachine, passed, Prod.mk.injEq] at same
    exact same.1

/-- What READS does to the clock when it is executed with `left` cycles after its own. -/
theorem paid_readString {r : Register} {next : Nat} (found : p.instructionAt s.machine.pc = .ok (.syscall .readS r, next))
    {m : Machine} (same : m.idx = s.machine.idx ∧ m.readCursor = s.machine.readCursor ∧ m.memory = s.machine.memory)
    (clock : m.clock = s.machine.clock + 1) (address : Nat) :
    (Outcome.ofStep address left (readString env.host r left 0 ⟨m, (watched env .syscall s).host⟩)).Paid env p (left + 1)
      s := by
  have counts := counts_readString env.host r left 0 m (watched env .syscall s).host
  have last (zero : left = 0) : (Overdraws env p s →
      (machineAfter (readString env.host r left 0 ⟨m, (watched env .syscall s).host⟩)).clock = m.clock + 1) ∧
      (¬ Overdraws env p s →
        (machineAfter (readString env.host r left 0 ⟨m, (watched env .syscall s).host⟩)).clock = m.clock) := by
    subst zero
    rw [clock_readString_zero, same.1, same.2.1, same.2.2]
    exact ⟨fun draws => if_pos ⟨draws.choose_spec.choose_spec.2.1, draws.choose_spec.choose_spec.2.2⟩,
      fun draws => if_neg fun kept => draws ⟨r, next, found, kept⟩⟩
  generalize readString env.host r left 0 ⟨m, (watched env .syscall s).host⟩ = result at counts last
  cases result with
  | error e t =>
    simp only [Counts] at counts
    refine paid_stop (t := withMachine .faulted t) ?_ ?_
    · show t.machine.clock ≤ _
      omega
    · rintro ⟨zero, draws⟩
      have kept := (last (by omega)).1 draws
      simp only [machineAfter] at kept
      omega
  | ok progress t =>
    cases progress with
    | retry =>
      simp only [Counts] at counts
      show t.machine.clock ≤ _ ∧ (_ < t.machine.clock ↔ _)
      refine ⟨by omega, fun above => ?_, fun ⟨zero, draws⟩ => ?_⟩
      · have zero : left = 0 := by omega
        refine ⟨by omega, Classical.byContradiction fun draws => ?_⟩
        have kept := (last zero).2 draws
        simp only [machineAfter] at kept
        omega
      · have kept := (last (by omega)).1 draws
        simp only [machineAfter] at kept
        omega
    | next spent =>
      obtain ⟨gained, le, total, counted⟩ := counts
      refine ⟨?_, fun ⟨zero, draws⟩ => ?_⟩
      · show t.machine.clock + (left - spent) = _
        omega
      · have kept := (last (by omega)).1 draws
        simp only [machineAfter] at kept
        omega
    | pause => exact counts.elim
    | halt => exact counts.elim

theorem paid_advance (handlers : env.interrupts = fun _ => none) (p : Program) (left : Nat) (s : Session σ) :
    (advance env p (left + 1) s).Paid env p (left + 1) s := by
  cases fetched : Opcode.ofByte (p.fetch s.machine.pc) with
  | error e =>
    rw [advance_unknown fetched]
    refine paid_stop (Nat.le_add_right _ _) ?_
    rintro ⟨-, r, next, found, -⟩
    obtain ⟨op, fetched', -⟩ := instructionAt_eq_ok found
    cases fetched.symm.trans fetched'
  | ok op =>
    by_cases nop : op = .plain .nop
    · subst nop
      have other : NoReadS p (.plain .nop) s.machine.pc := fun r decoded => nomatch opcode_of_instructionOf decoded
      rw [advance_nop fetched]
      refine ⟨?_, fun h => not_overdraws fetched other h.2⟩
      show (watched env _ s).machine.clock + (left + 1) = _
      rw [machine_watched]
    have cost : op.cost = 1 := if_neg nop
    rw [advance_step fetched nop]
    by_cases other : NoReadS p op s.machine.pc
    · have draws : ¬ (left + 1 = 1 ∧ Overdraws env p s) := fun h => not_overdraws fetched other h.2
      cases stepped : step env p op s.machine.pc left (watched env op s) with
      | error e t =>
        have clock := clock_of_step_error handlers other stepped
        rw [machine_watched, cost] at clock
        refine paid_stop ?_ draws
        show t.machine.clock ≤ _
        omega
      | ok progress t =>
        have clock := (step_pulse handlers other stepped).1
        rw [machine_watched, cost] at clock
        obtain rfl | rfl | rfl := step_progress other stepped
        · refine ⟨?_, draws⟩
          show t.machine.clock + (left - 0) = _
          omega
        · exact paid_stop (by omega) draws
        · trivial
    · simp only [NoReadS, ne_eq, Classical.not_forall, Classical.not_not] at other
      obtain ⟨r, decoded⟩ := other
      obtain rfl : Opcode.syscall = op := opcode_of_instructionOf decoded
      rw [step_decoded decoded]
      have found := Program.instructionAt_of_decoded fetched decoded
      have same := machine_watched env .syscall s
      exact paid_readString (m := passed p .syscall (watched env .syscall s).machine) found
        (by simp only [passed, same, and_self]) (by simp only [passed, same, cost]) s.machine.pc

/-- A run with `left` cycles comes to a session with the cycles it has there. -/
inductive Passes (env : Environment σ) (p : Program) : Nat → Session σ → Nat → Session σ → Prop
  | here (left : Nat) (s : Session σ) : Passes env p left s left s
  | next {left left' last : Nat} {s s' t : Session σ} (went : advance env p left s = .next left' s')
      (later : Passes env p left' s' last t) : Passes env p left s last t

theorem Passes.of_stop {why : Stop} {last : Nat} {u : Session σ} (stopped : advance env p left s = .stop why t)
    (passes : Passes env p left s last u) : last = left ∧ u = s := by
  cases passes with
  | here => exact ⟨rfl, rfl⟩
  | next went later => cases stopped.symm.trans went

/-- The clock after a course that does not halt. -/
theorem course_clock (handlers : env.interrupts = fun _ => none) (left : Nat) (s : Session σ)
    (going : (course env p left s).1 ≠ .halted) :
    ((course env p left s).1 = .spent → (course env p left s).2.machine.clock = s.machine.clock + left) ∧
    (course env p left s).2.machine.clock ≤ s.machine.clock + left + 1 ∧
    (s.machine.clock + left < (course env p left s).2.machine.clock ↔
      ∃ u, Passes env p left s 1 u ∧ Overdraws env p u) := by
  fun_induction course env p left s with
  | case1 left s why t stopped =>
    cases left with
    | zero =>
      cases stopped
      refine ⟨fun _ => rfl, Nat.le_add_right _ _, fun above => absurd above (Nat.lt_irrefl _), ?_⟩
      rintro ⟨u, passes, -⟩
      cases (passes.of_stop advance_zero).1
    | succ left =>
      have paid := paid_advance handlers p left s
      rw [stopped] at paid
      have other : why ≠ .spent := fun h => advance_ne_spent left s t (h ▸ stopped)
      have bounds : t.machine.clock ≤ s.machine.clock + (left + 1) + 1 ∧
          (s.machine.clock + (left + 1) < t.machine.clock ↔ left + 1 = 1 ∧ Overdraws env p s) := by
        cases why <;> first | exact absurd rfl going | exact paid
      refine ⟨fun spent => absurd spent other, bounds.1, bounds.2.trans ⟨?_, ?_⟩⟩
      · rintro ⟨one, draws⟩
        rw [one]
        exact ⟨s, .here 1 s, draws⟩
      · rintro ⟨u, passes, draws⟩
        obtain ⟨one, rfl⟩ := passes.of_stop stopped
        exact ⟨one.symm, draws⟩
  | case2 left s left' s' went shorter ih =>
    cases left with
    | zero => cases went
    | succ left =>
      have paid := paid_advance handlers p left s
      rw [went] at paid
      obtain ⟨kept, other⟩ := paid
      obtain ⟨spent, most, draws⟩ := ih going
      rw [kept] at most draws
      refine ⟨fun h => (spent h).trans kept, most, draws.trans ⟨?_, ?_⟩⟩
      · rintro ⟨u, passes, draws⟩
        exact ⟨u, .next went passes, draws⟩
      · rintro ⟨u, passes, draws⟩
        cases passes with
        | here => exact absurd ⟨rfl, draws⟩ other
        | next went' later =>
          cases went.symm.trans went'
          exact ⟨u, later, draws⟩

/-- How a run ends that does not halt. -/
theorem Stop.answer_going {why : Stop} {u : Session σ}
    (h : why.answer u = .ok false t ∨ ∃ e, why.answer u = .error e t) : why ≠ .halted ∧ u = t := by
  cases why <;> simp_all [Stop.answer]

/-- A run that does not halt and returns neither at a YIELD nor in READS counts all of its cycles. One that does not halt
counts one cycle more than it was given at most, and it does so exactly where READS has the last cycle and keeps a
byte. -/
theorem overspent_only_in_reads (handlers : env.interrupts = fun _ => none) (p : Program) (budget : Nat) (s t : Session σ)
    (ran : run env p budget s = .ok false t ∨ ∃ e, run env p budget s = .error e t) :
    (run env p budget s = .ok false t → (slice env p budget s).1 ≠ .paused → (slice env p budget s).1 ≠ .waiting →
      t.machine.clock = s.machine.clock + budget) ∧
    t.machine.clock ≤ s.machine.clock + budget + 1 ∧
    (s.machine.clock + budget < t.machine.clock ↔
      ∃ start u, act (begin p) s = .ok () start ∧ Passes env p budget start 1 u ∧ Overdraws env p u) := by
  rw [run_eq_slice] at ran ⊢
  obtain ⟨going, rfl⟩ := Stop.answer_going ran
  unfold slice at going ⊢
  cases started : act (begin p) s with
  | error e u =>
    have same : u.machine.clock = s.machine.clock := by rw [begin_refused started]; rfl
    dsimp only [Stop.answer]
    refine ⟨fun h => (by cases h), by omega, ⟨fun above => by omega, ?_⟩⟩
    rintro ⟨start, v, begins, -⟩
    cases begins
  | ok _ start =>
    rw [started] at going
    have same := (begin_running started).2
    obtain ⟨spent, most, draws⟩ := course_clock handlers budget start going
    rw [same] at spent most draws
    refine ⟨fun ended notPaused notWaiting => spent ?_, most, draws.trans ⟨fun ⟨u, h⟩ => ⟨start, u, rfl, h⟩, ?_⟩⟩
    · generalize (course env p budget start).1 = why at ended notPaused notWaiting ⊢
      cases why <;> simp_all [Stop.answer]
    · rintro ⟨start', u, begins, h⟩
      cases begins
      exact ⟨u, h⟩

def keyed : Session Script := ⟨Machine.new { memorySize := 4 }, { keys := [72] }⟩

theorem run_keyed : ∃ t, run scripted lineReader 1 keyed = .ok false t ∧ t.machine.clock = 2 := by
  rw [run_eq_course rfl, course_stop rfl]
  exact ⟨_, rfl, rfl⟩

/-- One cycle for READS and one for the byte it keeps, where the run was given one. -/
theorem budget_overspent :
    ¬ ∀ t, run scripted lineReader 1 keyed = .ok false t → t.machine.clock ≤ keyed.machine.clock + 1 := by
  obtain ⟨t, ran, two⟩ := run_keyed
  intro within
  have small : t.machine.clock ≤ 0 + 1 := within t ran
  omega

theorem overspent_only_in_reads_keyed :
    ∃ start u, act (begin lineReader) keyed = .ok () start ∧ Passes scripted lineReader 1 start 1 u ∧
      Overdraws scripted lineReader u := by
  obtain ⟨t, ran, two⟩ := run_keyed
  refine (overspent_only_in_reads rfl lineReader 1 keyed t (.inl ran)).2.2.1 ?_
  show 0 + 1 < t.machine.clock
  omega

end BasicMachine.Session
