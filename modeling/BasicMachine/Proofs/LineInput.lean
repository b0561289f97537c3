import BasicMachine.Proofs.Heap
import BasicMachine.Proofs.Slices
import BasicMachine.Proofs.StoredText

/-!
# A line of input over several runs

READS takes bytes from the host until a line ends. It is suspended where the host has none and where the cycles of a run
are spent, and the next run executes it from its start. What it has stored lies in memory, and how much it is stands in
the read cursor, so that no byte is lost and none is stored twice, wherever the runs are cut and whenever bytes arrive.
-/
namespace BasicMachine.Session

open Action

variable {σ : Type} {host : Host σ}

/-- The answers to read calls from a state of the host on. -/
def arrivals (host : Host σ) (t : σ) : Nat → UInt8
  | 0 => (host (.read false) t).1
  | n + 1 => arrivals host (host (.read false) t).2 n

/-- The host is in a state where it has given the first `n` of some answers. -/
def Awaits (host : Host σ) (answers : Nat → UInt8) (n : Nat) (t : σ) : Prop :=
  ∀ k, arrivals host t k = answers (n + k)

/-- The bytes among the first `n` answers; 0 says that none is waiting. -/
def arrived (answers : Nat → UInt8) (n : Nat) : List UInt8 := ((List.range n).map answers).filter (· != 0)

/-- The byte is a newline or a carriage return. -/
def EndsLine (b : UInt8) : Prop := b = 10 ∨ b = 13

instance (b : UInt8) : Decidable (EndsLine b) := inferInstanceAs (Decidable (_ ∨ _))

/-- None of the first `n` answers ends the line. -/
def Unended (answers : Nat → UInt8) (n : Nat) : Prop := ∀ k < n, ¬ EndsLine (answers k)

variable {answers : Nat → UInt8} {n : Nat} {t : σ} {m : Machine} {memory : Array Value} {clock room extra : Nat}

theorem arrived_succ (answers : Nat → UInt8) (n : Nat) :
    arrived answers (n + 1) = arrived answers n ++ if answers n = 0 then [] else [answers n] := by
  rw [arrived, List.range_succ, List.map_append, List.filter_append]
  by_cases zero : answers n = 0 <;> simp [arrived, zero]

theorem Unended.succ (h : Unended answers n) (other : ¬ EndsLine (answers n)) : Unended answers (n + 1) := by
  intro k below
  rcases Nat.lt_succ_iff_lt_or_eq.mp below with earlier | rfl
  · exact h k earlier
  · exact other

theorem Awaits.answer (h : Awaits host answers n t) : (host (.read false) t).1 = answers n := h 0

theorem Awaits.next (h : Awaits host answers n t) : Awaits host answers (n + 1) (host (.read false) t).2 := by
  intro k
  rw [Nat.add_assoc, Nat.add_comm 1]
  exact h (k + 1)

/-- The machine in the midst of READS, with the bytes that it has stored. -/
def midway (answers : Nat → UInt8) (n : Nat) (memory : Array Value) (clock : Nat) (m : Machine) : Machine :=
  { m with memory, readCursor := (arrived answers n).length, clock }

/-- The machine at the end of READS. -/
def lineRead (r : Register) (memory : Array Value) (clock : Nat) (m : Machine) : Machine :=
  { m.setRegister r (.pointer m.idx) with memory, readCursor := 0, clock }

theorem closeLine_eq (r : Register) (m : Machine) :
    closeLine r m =
      if m.idx + m.readCursor < m.memory.size then
        .ok () (lineRead r (m.memory.setIfInBounds (m.idx + m.readCursor) (.integer 0)) m.clock m)
      else .error (memoryFault (m.idx + m.readCursor : Nat)) m := by
  rw [closeLine, run_get_bind]
  by_cases inside : m.idx + m.readCursor < m.memory.size
  · rw [if_pos inside, run_bind_ok (setCell_eq_ok _ inside)]
    cases r <;> rfl
  · have outside (v : Value) : setCell (m.idx + m.readCursor) v m = .error (memoryFault (m.idx + m.readCursor : Nat)) m :=
      if_neg inside
    rw [if_neg inside, run_bind_error (outside _)]

theorem act_error {a : Action α} {e : Error} {m' : Machine} (h : a m = .error e m') :
    (act a : SessionM σ α) ⟨m, t⟩ = .error e ⟨m', t⟩ := by
  simp only [act, h]

/-- What READS comes to after `n` answers: it takes further answers up to the `k`-th, of which it keeps `gained`
bytes. -/
inductive Receives (host : Host σ) (answers : Nat → UInt8) (r : Register) (m : Machine) (n clock room extra : Nat) :
    EStateM.Result Error (Session σ) Progress → Prop
  /-- It is suspended: the host has no byte, or the cycles are spent. -/
  | waits (gained : Nat) {k : Nat} {memory : Array Value} {t : σ} (more : n < k) (unended : Unended answers k)
      (length : (arrived answers k).length = (arrived answers n).length + gained) (within : gained ≤ max room 1)
      (stored : StoredText m.idx (arrived answers k) m.memory memory) (awaits : Awaits host answers k t) :
      Receives host answers r m n clock room extra (.ok .retry ⟨midway answers k memory (clock + gained) m, t⟩)
  /-- The line has ended. -/
  | ends (gained : Nat) {k : Nat} {memory : Array Value} {t : σ} (unended : Unended answers k) (last : EndsLine (answers k))
      (length : (arrived answers k).length = (arrived answers n).length + gained) (within : gained ≤ room)
      (inside : m.idx + (arrived answers k).length < m.memory.size)
      (stored : StoredText m.idx (arrived answers k ++ [0]) m.memory memory) (awaits : Awaits host answers (k + 1) t) :
      Receives host answers r m n clock room extra (.ok (.next (extra + gained)) ⟨lineRead r memory (clock + gained) m, t⟩)
  /-- There is no cell for the next byte, or for the zero that ends the string. -/
  | faults (gained : Nat) {k : Nat} {memory : Array Value} {t : σ} {e : Error} (unended : Unended answers k)
      (some : answers k ≠ 0) (length : (arrived answers k).length = (arrived answers n).length + gained)
      (within : gained ≤ room) (outside : m.memory.size ≤ m.idx + (arrived answers k).length)
      (stored : StoredText m.idx (arrived answers k) m.memory memory) (code : e.code = .memoryFault) :
      Receives host answers r m n clock room extra (.error e ⟨midway answers k memory (clock + gained) m, t⟩)

/-- The first byte that READS keeps, and what it comes to after it. -/
theorem Receives.after {r : Register} {result : EStateM.Result Error (Session σ) Progress} {left : Nat}
    (h : Receives host answers r m (n + 1) (clock + 1) left (extra + 1) result) (byte : answers n ≠ 0) (some : left ≠ 0)
    (fewer : left < room) : Receives host answers r m n clock room extra result := by
  have longer : (arrived answers (n + 1)).length = (arrived answers n).length + 1 := by
    rw [arrived_succ, if_neg byte, List.length_append, List.length_singleton]
  cases h with
  | @waits gained k memory t more unended length within stored awaits =>
    rw [Nat.add_assoc, Nat.add_comm 1]
    exact .waits _ (by omega) unended (by omega) (by omega) stored awaits
  | @ends gained k memory t unended last length within inside stored awaits =>
    rw [Nat.add_assoc clock, Nat.add_assoc extra, Nat.add_comm 1]
    exact .ends _ unended last (by omega) (by omega) inside stored awaits
  | @faults gained k memory t e unended some length within outside stored code =>
    rw [Nat.add_assoc, Nat.add_comm 1]
    exact .faults _ unended some (by omega) (by omega) outside stored code

theorem receives_readString (r : Register) (awaits : Awaits host answers n t) (unended : Unended answers n)
    (stored : StoredText m.idx (arrived answers n) m.memory memory) :
    Receives host answers r m n clock room extra
      (readString host r room extra ⟨midway answers n memory clock m, t⟩) := by
  induction room using Nat.strongRecOn generalizing n t memory clock extra with
  | _ room ih =>
    have asked : ask host (.read false) ⟨midway answers n memory clock m, t⟩ =
        .ok (answers n) ⟨midway answers n memory clock m, (host (.read false) t).2⟩ := by
      rw [← awaits.answer]
      rfl
    have later := awaits.next
    have size : (midway answers n memory clock m).memory.size = m.memory.size := stored.size
    unfold readString
    rw [run_bind_ok asked]
    by_cases zero : answers n = 0
    · rw [if_pos zero]
      have same : arrived answers (n + 1) = arrived answers n := by
        rw [arrived_succ, if_pos zero, List.append_nil]
      have waits : Receives host answers r m n clock room extra _ := .waits 0 (Nat.lt_succ_self n)
        (unended.succ (by rw [zero]; decide)) (by rw [same]; rfl) (Nat.zero_le _) (same ▸ stored) later
      rw [midway, same] at waits
      exact waits
    rw [if_neg zero]
    by_cases last : answers n = 10 ∨ answers n = 13
    · rw [if_pos last]
      by_cases inside : m.idx + (arrived answers n).length < m.memory.size
      · rw [run_bind_ok (act_ok ((closeLine_eq r _).trans (if_pos (by rw [size]; exact inside))))]
        have closed := stored.append (.single 0 (by rw [stored.size]; exact inside))
        have ends : Receives host answers r m n clock room extra _ := .ends 0 unended last rfl
          (Nat.zero_le _) inside closed later
        cases r <;> exact ends
      · rw [run_bind_error (act_error ((closeLine_eq r _).trans (if_neg (by rw [size]; exact inside))))]
        exact .faults 0 unended zero rfl (Nat.zero_le _) (Nat.le_of_not_lt inside) stored rfl
    rw [if_neg last]
    by_cases inside : m.idx + (arrived answers n).length < m.memory.size
    · rw [run_bind_ok (act_ok ((keepByte_eq _ _).trans (if_pos (by rw [size]; exact inside))))]
      have longer : arrived answers (n + 1) = arrived answers n ++ [answers n] := by rw [arrived_succ, if_neg zero]
      have kept := stored.append (.single (answers n) (by rw [stored.size]; exact inside))
      rw [← longer] at kept
      have count : (arrived answers n).length + 1 = (arrived answers (n + 1)).length := by
        rw [longer, List.length_append, List.length_singleton]
      have further : Unended answers (n + 1) := unended.succ last
      have suspended : Receives host answers r m n clock room extra _ :=
        .waits 1 (Nat.lt_succ_self n) further count.symm (Nat.le_max_right _ _) kept later
      rw [midway, ← count] at suspended
      cases room with
      | zero => exact suspended
      | succ left =>
        dsimp only
        by_cases spent : left = 0
        · rw [if_pos spent]
          exact suspended
        · rw [if_neg spent]
          have rest : Receives host answers r m (n + 1) (clock + 1) left (extra + 1) _ :=
            ih left (Nat.lt_succ_self left) later further kept
          rw [midway, ← count] at rest
          exact rest.after zero spent (Nat.lt_succ_self left)
    · rw [run_bind_error (act_error ((keepByte_eq _ _).trans (if_neg (by rw [size]; exact inside))))]
      exact .faults 0 unended zero rfl (Nat.zero_le _) (Nat.le_of_not_lt inside) stored rfl

/-- Watchers take no input. -/
def Unobtrusive (env : Environment σ) : Prop :=
  ∀ watch, env.watch = some watch → ∀ snapshot t, arrivals env.host (watch snapshot t) = arrivals env.host t

/-- READS is unfinished in `t`, which comes from `s`, and has taken `n` answers. It will be executed again. -/
structure Reading (env : Environment σ) (answers : Nat → UInt8) (n : Nat) (s t : Session σ) : Prop where
  unended : Unended answers n
  machine : ∃ memory clock, t.machine = midway answers n memory clock s.machine ∧
    StoredText s.machine.idx (arrived answers n) s.machine.memory memory
  awaits : Awaits env.host answers n t.host

/-- READS has ended in `t` with the answer `n`, and the program goes on at `next`. -/
structure LineRead (env : Environment σ) (answers : Nat → UInt8) (r : Register) (next n : Nat) (s t : Session σ) :
    Prop where
  unended : Unended answers n
  last : EndsLine (answers n)
  machine : ∃ memory clock, t.machine = { lineRead r memory clock s.machine with pc := next } ∧
    StoredText s.machine.idx (arrived answers n ++ [0]) s.machine.memory memory
  awaits : Awaits env.host answers (n + 1) t.host

/-- READS has failed in `t` because memory has no cell for what the answer `n` brings. -/
structure LineRefused (answers : Nat → UInt8) (n : Nat) (s : Session σ) (e : Error) (t : Session σ) : Prop where
  unended : Unended answers n
  some : answers n ≠ 0
  code : e.code = .memoryFault
  outside : s.machine.memory.size ≤ s.machine.idx + (arrived answers n).length
  memory : StoredText s.machine.idx (arrived answers n) s.machine.memory t.machine.memory

section
variable {env : Environment σ} {p : Program} {s t : Session σ} {r : Register} {next b : Nat}
  (unobtrusive : Unobtrusive env) (found : p.instructionAt s.machine.pc = .ok (.syscall .readS r, next))
include unobtrusive found

/-- One more run takes READS further, to its end or to the end of memory. -/
theorem advance_reading (reading : Reading env answers n s t) (positive : 0 < b) :
    (∃ k t', n < k ∧ advance env p b t = .stop .waiting t' ∧ Reading env answers k s t') ∨
    (∃ k left t', left < b ∧ advance env p b t = .next left t' ∧ LineRead env answers r next k s t') ∨
    ∃ k e t', advance env p b t = .stop (.failed e) t' ∧ LineRefused answers k s e t' := by
  obtain ⟨unended, ⟨memory, clock, same, stored⟩, awaits⟩ := reading
  obtain ⟨left, rfl⟩ := Nat.exists_eq_succ_of_ne_zero (Nat.ne_of_gt positive)
  obtain ⟨m, host⟩ := t
  obtain rfl : m = midway answers n memory clock s.machine := same
  -- the watcher may see READS again before each of its runs
  have awaits' : ∃ host', watched env .syscall ⟨midway answers n memory clock s.machine, host⟩ =
      ⟨midway answers n memory clock s.machine, host'⟩ ∧ Awaits env.host answers n host' := by
    unfold watched
    split
    · next watch _ _ watches pair =>
      cases pair
      split
      · refine ⟨_, rfl, fun k => ?_⟩
        rw [unobtrusive watch watches]
        exact awaits k
      · exact ⟨_, rfl, awaits⟩
    · exact ⟨_, rfl, awaits⟩
  obtain ⟨host', watch, awaits'⟩ := awaits'
  have goes : advance env p (left + 1) ⟨midway answers n memory clock s.machine, host⟩ = _ :=
    advance_eq_perform found (by simp)
  rw [show (Instruction.syscall .readS r).opcode = .syscall from rfl, watch] at goes
  have received : Receives env.host answers r { s.machine with pc := next } n (clock + 1) left 0 _ :=
    receives_readString r awaits' unended stored
  have performed : perform env left (.syscall .readS r)
      (withMachine (·.past next) ⟨midway answers n memory clock s.machine, host'⟩) =
      readString env.host r left 0 ⟨midway answers n memory (clock + 1) { s.machine with pc := next }, host'⟩ := rfl
  rw [performed] at goes
  rw [goes]
  generalize readString env.host r left 0 _ = result at received
  cases received with
  | waits gained more unended length within stored awaits =>
    exact .inl ⟨_, _, more, rfl, unended, ⟨_, _, rfl, stored⟩, awaits⟩
  | @ends gained k memory' host'' unended last length within inside stored awaits =>
    refine .inr (.inl ⟨k, _, _, ?_, rfl, unended, last, ⟨memory', clock + 1 + gained, ?_, stored⟩, awaits⟩)
    · omega
    · cases r <;> rfl
  | faults gained unended some length within outside stored code =>
    exact .inr (.inr ⟨_, _, _, rfl, unended, some, code, outside, stored⟩)

end

/-- Runs with the given budgets one after the other, each of which begins with READS and is suspended in it. -/
inductive Suspended (env : Environment σ) (p : Program) : List Nat → Session σ → Session σ → Prop
  | none (s : Session σ) : Suspended env p [] s s
  | more {b : Nat} {budgets : List Nat} {s s' t : Session σ} (ran : run env p b s = .ok false s')
      (stopped : advance env p b s = .stop .waiting s') (later : Suspended env p budgets s' t) :
      Suspended env p (b :: budgets) s t

theorem arrived_length_le (answers : Nat → UInt8) {k n : Nat} (le : k ≤ n) :
    (arrived answers k).length ≤ (arrived answers n).length := by
  induction le with
  | refl => exact Nat.le_refl _
  | step _ ih =>
    rw [arrived_succ, List.length_append]
    omega

/-- There is one answer only that ends the line first. -/
theorem Unended.unique {k : Nat} (h : Unended answers n) (last : EndsLine (answers n)) (h' : Unended answers k)
    (last' : EndsLine (answers k)) : k = n := by
  rcases Nat.lt_trichotomy k n with less | same | more
  · exact absurd last' (h k less)
  · exact same
  · exact absurd last (h' n more)

section
variable {env : Environment σ} {p : Program} {s t t' : Session σ} {r : Register} {next b left : Nat}

theorem reading_start (fresh : s.machine.readCursor = 0) : Reading env (arrivals env.host s.host) 0 s s where
  unended _ below := absurd below (Nat.not_lt_zero _)
  machine := by
    refine ⟨s.machine.memory, s.machine.clock, ?_, .nil _ _⟩
    rw [midway, show (arrived (arrivals env.host s.host) 0).length = 0 from rfl, ← fresh]
  awaits k := by rw [Nat.zero_add]

theorem Reading.running (h : Reading env answers n s t) (running : s.machine.status = .running) :
    t.machine.status = .running := by
  obtain ⟨memory, clock, same, -⟩ := h.machine
  rw [same]
  exact running

theorem LineRead.running (h : LineRead env answers r next n s t) (running : s.machine.status = .running) :
    t.machine.status = .running := by
  obtain ⟨memory, clock, same, -⟩ := h.machine
  rw [same]
  cases r <;> exact running

theorem LineRead.inside (h : LineRead env answers r next n s t) :
    s.machine.idx + (arrived answers n).length < s.machine.memory.size := by
  obtain ⟨memory, clock, -, stored⟩ := h.machine
  have zero := stored.cells (arrived answers n).length 0 (by simp)
  obtain ⟨below, -⟩ := Array.getElem?_eq_some_iff.mp zero
  rw [stored.size] at below
  exact below

theorem run_of_stop {why : Stop} (running : t.machine.status = .running) (stopped : advance env p b t = .stop why t') :
    run env p b t = why.answer t' := by
  rw [run_eq_course (begin_of_running running), course_stop stopped]

theorem run_of_next (running : t.machine.status = .running) (running' : t'.machine.status = .running)
    (went : advance env p b t = .next left t') : run env p b t = run env p left t' := by
  rw [run_eq_course (begin_of_running running), run_eq_course (begin_of_running running'), course_next went]

variable (unobtrusive : Unobtrusive env) (running : s.machine.status = .running)
  (found : p.instructionAt s.machine.pc = .ok (.syscall .readS r, next))
include unobtrusive found

/-- Wherever READS is suspended, it has stored what it has taken. -/
theorem reading_suspended {budgets : List Nat} {t₀ : Session σ} (reading : Reading env answers n s t₀)
    (suspended : Suspended env p budgets t₀ t) : ∃ k, n + budgets.length ≤ k ∧ Reading env answers k s t := by
  induction suspended generalizing n with
  | none t => exact ⟨n, Nat.le_refl _, reading⟩
  | @more b budgets t₀ t₁ t ran stopped later ih =>
    have positive : 0 < b := by
      refine Nat.pos_of_ne_zero ?_
      rintro rfl
      cases stopped
    rcases advance_reading unobtrusive found reading positive with
      ⟨k, t', more, went, reading'⟩ | ⟨k, left, t', -, went, -⟩ | ⟨k, e, t', went, -⟩
    · rw [went] at stopped
      cases stopped
      obtain ⟨k', more', reading''⟩ := ih reading'
      exact ⟨k', by rw [List.length_cons]; omega, reading''⟩
    · rw [went] at stopped
      cases stopped
    · rw [went] at stopped
      cases stopped

include running

/-- The next run takes READS further. -/
theorem run_reading (reading : Reading env answers n s t) (positive : 0 < b) :
    (∃ k t', n < k ∧ Suspended env p [b] t t' ∧ Reading env answers k s t') ∨
    (∃ k left t', left < b ∧ run env p b t = run env p left t' ∧ LineRead env answers r next k s t') ∨
    ∃ k e t', run env p b t = .error e t' ∧ LineRefused answers k s e t' := by
  have goesOn := reading.running running
  rcases advance_reading unobtrusive found reading positive with
    ⟨k, t', more, went, reading'⟩ | ⟨k, left, t', less, went, read⟩ | ⟨k, e, t', went, refused⟩
  · exact .inl ⟨k, t', more, .more (run_of_stop goesOn went) went (.none t'), reading'⟩
  · exact .inr (.inl ⟨k, left, t', less, run_of_next goesOn (read.running running) went, read⟩)
  · exact .inr (.inr ⟨k, e, t', run_of_stop goesOn went, refused⟩)

/-- Where the line has an end, READS comes to an end with it: every run takes an answer at least. -/
theorem line_ends (unended : Unended answers n) (last : EndsLine (answers n)) (budgets : List Nat) {k : Nat} {t₀ : Session σ}
    (reading : Reading env answers k s t₀) (positive : ∀ b ∈ budgets, 0 < b) (enough : n < k + budgets.length) :
    ∃ before b after t, budgets = before ++ b :: after ∧ Suspended env p before t₀ t ∧
      ((∃ left t', left < b ∧ run env p b t = run env p left t' ∧ LineRead env answers r next n s t') ∨
        ∃ j e t', j ≤ n ∧ run env p b t = .error e t' ∧ LineRefused answers j s e t') := by
  have upTo {j : Nat} (unended' : Unended answers j) : j ≤ n := by
    refine Nat.le_of_not_lt fun above => ?_
    exact unended' n above last
  induction budgets generalizing k t₀ with
  | nil =>
    have := upTo reading.unended
    simp only [List.length_nil] at enough
    omega
  | cons b budgets ih =>
    rcases run_reading unobtrusive running found reading (positive b (by simp)) with
      ⟨j, t', more, suspended, reading'⟩ | ⟨j, left, t', less, ran, read⟩ | ⟨j, e, t', ran, refused⟩
    · obtain ⟨before, b', after, t, split, suspended', rest⟩ :=
        ih reading' (fun b' member => positive b' (by simp [member])) (by rw [List.length_cons] at enough; omega)
      cases suspended with
      | more ran stopped later =>
        cases later
        exact ⟨b :: before, b', after, t, by rw [split]; rfl, .more ran stopped suspended', rest⟩
    · obtain rfl := unended.unique last read.unended read.last
      exact ⟨[], b, budgets, t₀, rfl, .none t₀, .inl ⟨left, t', less, ran, read⟩⟩
    · exact ⟨[], b, budgets, t₀, rfl, .none t₀, .inr ⟨j, e, t', upTo refused.unended, ran, refused⟩⟩

end

/-- READS loses and duplicates nothing. However its runs are cut and whenever bytes arrive, the machine is at READS again
wherever it is suspended, with the bytes that were taken so far in memory. The next run takes further answers of the host
up to a suspension, up to the end of the line, or up to the end of memory, where it fails. At the end of the line the
answers up to there have been taken, memory holds their bytes and a zero from IDX on, and the register points there; all
else is as it was. Where the line ends with the answer `n`, more than `n` runs come to that end if memory has cells for
the line, and fail otherwise. -/
theorem reads_lose_nothing (env : Environment σ) (p : Program) (s : Session σ) {r : Register} {next : Nat}
    (unobtrusive : Unobtrusive env) (running : s.machine.status = .running)
    (found : p.instructionAt s.machine.pc = .ok (.syscall .readS r, next)) (fresh : s.machine.readCursor = 0) :
    (∀ budgets t, Suspended env p budgets s t →
      ∃ n, budgets.length ≤ n ∧ t.machine.pc = s.machine.pc ∧ Reading env (arrivals env.host s.host) n s t) ∧
    (∀ budgets t b, Suspended env p budgets s t → 0 < b →
      (∃ t', Suspended env p [b] t t') ∨
      (∃ n left t', left < b ∧ run env p b t = run env p left t' ∧
        LineRead env (arrivals env.host s.host) r next n s t') ∨
      ∃ n e t', run env p b t = .error e t' ∧ LineRefused (arrivals env.host s.host) n s e t') ∧
    (∀ n, Unended (arrivals env.host s.host) n → EndsLine (arrivals env.host s.host n) →
      ∀ budgets : List Nat, (∀ b ∈ budgets, 0 < b) → n < budgets.length →
        ∃ before b after t, budgets = before ++ b :: after ∧ Suspended env p before s t ∧
          if s.machine.idx + (arrived (arrivals env.host s.host) n).length < s.machine.memory.size then
            ∃ left t', left < b ∧ run env p b t = run env p left t' ∧
              LineRead env (arrivals env.host s.host) r next n s t'
          else ∃ k e t', run env p b t = .error e t' ∧ LineRefused (arrivals env.host s.host) k s e t') := by
  have start : Reading env (arrivals env.host s.host) 0 s s := reading_start fresh
  refine ⟨fun budgets t suspended => ?_, fun budgets t b suspended positive => ?_,
    fun n unended last budgets positive enough => ?_⟩
  · obtain ⟨n, taken, reading⟩ := reading_suspended unobtrusive found start suspended
    obtain ⟨memory, clock, same, -⟩ := reading.machine
    exact ⟨n, by omega, by rw [same]; rfl, reading⟩
  · obtain ⟨n, -, reading⟩ := reading_suspended unobtrusive found start suspended
    rcases run_reading unobtrusive running found reading positive with ⟨k, t', -, further, -⟩ | ended
    · exact .inl ⟨t', further⟩
    · exact .inr ended
  · obtain ⟨before, b, after, t, split, suspended, rest⟩ :=
      line_ends unobtrusive running found unended last budgets start positive (by omega)
    refine ⟨before, b, after, t, split, suspended, ?_⟩
    rcases rest with ⟨left, t', less, ran, read⟩ | ⟨k, e, t', le, ran, refused⟩
    · rw [if_pos read.inside]
      exact ⟨left, t', less, ran, read⟩
    · have shorter := arrived_length_le (arrivals env.host s.host) le
      have outside := refused.outside
      rw [if_neg (by omega)]
      exact ⟨k, e, t', ran, refused⟩

def lineReader : Program := { code := (Code.bytes [.syscall .readS .b]).toArray }

/-- A line of two bytes that arrives in runs of one cycle each, with a pause between the bytes. -/
theorem reads_lose_nothing_greeting :
    let env : Environment Script := { host := Script.host }
    let s : Session Script := ⟨{ Machine.new { memorySize := 4 } with status := .running }, { keys := [72, 0, 73, 10] }⟩
    arrived (arrivals env.host s.host) 3 = [72, 73] ∧
      ∃ before b after t left t', [1, 1, 1, 1] = before ++ b :: after ∧
        Suspended env lineReader before s t ∧ run env lineReader b t = run env lineReader left t' ∧
        LineRead env (arrivals env.host s.host) .b 5 3 s t' := by
  intro env s
  have bytes : arrived (arrivals env.host s.host) 3 = [72, 73] := by decide
  have unended : Unended (arrivals env.host s.host) 3 := by
    intro k below
    match k, below with
    | 0, _ | 1, _ | 2, _ => decide
  have found : lineReader.instructionAt 0 = .ok (.syscall .readS .b, 5) := rfl
  obtain ⟨-, -, ends⟩ := reads_lose_nothing env lineReader s (by rintro watch ⟨⟩) rfl found rfl
  obtain ⟨before, b, after, t, split, suspended, rest⟩ :=
    ends 3 unended (.inl rfl) [1, 1, 1, 1] (by decide) (by decide)
  rw [bytes, if_pos (by decide)] at rest
  obtain ⟨left, t', -, ran, read⟩ := rest
  exact ⟨bytes, before, b, after, t, left, t', split, suspended, ran, read⟩

end BasicMachine.Session
