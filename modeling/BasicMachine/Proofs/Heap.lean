import BasicMachine.Machine.Scripted
import BasicMachine.Proofs.Access
import BasicMachine.Proofs.Names
import Mathlib.Logic.Relation

/-!
# The heap

Whatever code a machine runs, its memory and its limits stay as they were made, and the heap grows from the end of
memory down to the static cells of the program that ran first. So the blocks that it hands out lie in memory, and no two
of them overlap.
-/
namespace BasicMachine

open Language (Block)

/-- The sizes of a machine are those that it was made with, and its stacks are within their limits. -/
structure Machine.Sized (config : Config) (m : Machine) : Prop where
  made : m.config = { config with memorySize := min config.memorySize (maxPointer + 1) }
  memory : m.memory.size = min config.memorySize (maxPointer + 1)
  stackLimit : m.stack.limit = config.stackSize
  stack : m.stack.size ≤ config.stackSize
  callLimit : m.calls.limit = config.callDepth
  calls : m.calls.size ≤ config.callDepth

/-- What an instruction may make of a machine: sizes and floor stay, and the heap grows down to the floor at most. -/
structure Machine.Upkept (m m' : Machine) : Prop where
  sized : ∀ config, m.Sized config → m'.Sized config
  status : m'.status = m.status
  floor : m'.floor = m.floor
  heap : m'.heap ≤ m.heap
  above : m.floor ≤ m.heap → m.floor ≤ m'.heap

namespace Machine.Upkept

theorem refl (m : Machine) : m.Upkept m := ⟨fun _ h => h, rfl, rfl, Nat.le_refl _, fun h => h⟩

theorem trans {m m' m'' : Machine} (first : m.Upkept m') (second : m'.Upkept m'') : m.Upkept m'' where
  sized config h := second.sized config (first.sized config h)
  status := second.status.trans first.status
  floor := second.floor.trans first.floor
  heap := Nat.le_trans second.heap first.heap
  above h := by
    have middle := first.above h
    have last := second.above (first.floor.symm ▸ middle)
    rwa [first.floor] at last

theorem of_same {m m' : Machine} (config : m'.config = m.config) (memory : m'.memory.size = m.memory.size)
    (stack : m'.stack = m.stack) (calls : m'.calls = m.calls) (status : m'.status = m.status)
    (floor : m'.floor = m.floor) (heap : m'.heap = m.heap) : m.Upkept m' where
  sized _ h := ⟨config.trans h.made, memory.trans h.memory, stack ▸ h.stackLimit, stack ▸ h.stack,
    calls ▸ h.callLimit, calls ▸ h.calls⟩
  status := status
  floor := floor
  heap := Nat.le_of_eq heap
  above h := heap ▸ h

end Machine.Upkept

theorem Machine.upkept_pushed (m : Machine) (v : Value) (room : m.stack.isFull = false) :
    m.Upkept { m with stack := m.stack.insert v } where
  sized config h := by
    have limit := h.stackLimit
    have size : (m.stack.insert v).size = m.stack.size + 1 := Array.size_push v
    simp only [Stack.isFull, decide_eq_false_iff_not, Nat.not_le] at room
    exact ⟨h.made, h.memory, limit, by rw [size]; exact limit ▸ room, h.callLimit, h.calls⟩
  status := rfl
  floor := rfl
  heap := Nat.le_refl _
  above h := h

theorem Machine.upkept_popped (m : Machine) : m.Upkept { m with stack := m.stack.dropTop } where
  sized config h := by
    have size : m.stack.dropTop.size = m.stack.size - 1 := Array.size_pop
    exact ⟨h.made, h.memory, h.stackLimit, by have := h.stack; rw [size]; omega, h.callLimit, h.calls⟩
  status := rfl
  floor := rfl
  heap := Nat.le_refl _
  above h := h

theorem Machine.upkept_taken (m : Machine) (n : Nat) (fits : m.floor + n ≤ m.heap) :
    m.Upkept { m with heap := m.heap - n } where
  sized _ h := ⟨h.made, h.memory, h.stackLimit, h.stack, h.callLimit, h.calls⟩
  status := rfl
  floor := rfl
  heap := Nat.sub_le _ _
  above _ := by dsimp only; omega

/-- Sizes, floor and heap, with errors of every kind. -/
def Action.upkeep : Action.Bounds where
  within := Machine.Upkept
  errors _ := True
  refl := .refl
  trans := .trans
  registers _ _ _ _ _ _ _ := .of_same rfl rfl rfl rfl rfl rfl rfl
  pushed := Machine.upkept_pushed
  popped := Machine.upkept_popped
  stored _ _ _ := .of_same rfl Array.size_setIfInBounds rfl rfl rfl rfl rfl
  taken := Machine.upkept_taken
  usual _ _ := trivial

namespace Session

open Action

variable {σ : Type} {env : Environment σ} {p : Program}

theorem roaming_upkeep : upkeep.Roaming where
  jumped _ _ := .of_same rfl rfl rfl rfl rfl rfl rfl
  called m address room :=
    { sized := fun config h => by
        have limit := h.callLimit
        have size : (m.calls.insert address).size = m.calls.size + 1 := Array.size_push address
        simp only [Stack.isFull, decide_eq_false_iff_not, Nat.not_le] at room
        exact ⟨h.made, h.memory, h.stackLimit, h.stack, limit, by rw [size]; exact limit ▸ room⟩
      status := rfl, floor := rfl, heap := Nat.le_refl _, above := fun h => h }
  returned m :=
    { sized := fun config h => by
        have size : m.calls.dropTop.size = m.calls.size - 1 := Array.size_pop
        exact ⟨h.made, h.memory, h.stackLimit, h.stack, h.callLimit, by have := h.calls; rw [size]; omega⟩
      status := rfl, floor := rfl, heap := Nat.le_refl _, above := fun h => h }
  errors _ := trivial

theorem upkeep_perform (handlers : env.interrupts = fun _ => none) (room : Nat) (i : Instruction) :
    Confined upkeep (perform env room i) := by
  have counted (m : Machine) (clock readCursor : Nat) : m.Upkept { m with clock, readCursor } :=
    .of_same rfl rfl rfl rfl rfl rfl rfl
  exact confined_perform_of_roaming roaming_upkeep handlers fun _ _ => confined_readString counted _ _ _ _

/-- What is left of a machine after an instruction: one that is upkept, reset if it halts and perhaps faulted if it stops
otherwise. -/
def Outcome.Upkept (m : Machine) : Outcome σ → Prop
  | .next _ s => m.Upkept s.machine
  | .stop why s =>
    ∃ m', m.Upkept m' ∧ if why = .halted then s.machine = m'.reset else s.machine = m' ∨ s.machine = m'.faulted

theorem upkept_ofStep {m : Machine} {address left : Nat} {r : EStateM.Result Error (Session σ) Progress}
    (ok : ∀ progress s, r = .ok progress s → m.Upkept s.machine) (error : ∀ e s, r = .error e s → m.Upkept s.machine) :
    (Outcome.ofStep address left r).Upkept m := by
  unfold Outcome.ofStep
  split
  · exact ⟨_, error _ _ rfl, .inr rfl⟩
  · exact ok _ _ rfl
  · exact ⟨_, ok _ _ rfl, .inl rfl⟩
  · refine ⟨_, ?_, .inl rfl⟩
    exact (ok _ _ rfl).trans (.of_same rfl rfl rfl rfl rfl rfl rfl)
  · exact ⟨_, ok _ _ rfl, rfl⟩

theorem upkept_advance (handlers : env.interrupts = fun _ => none) (p : Program) (left : Nat) (s : Session σ) :
    (advance env p left s).Upkept s.machine := by
  cases left with
  | zero => exact ⟨_, .refl _, .inl rfl⟩
  | succ left =>
    cases fetched : Opcode.ofByte (p.fetch s.machine.pc) with
    | error e =>
      rw [advance_unknown fetched]
      exact ⟨_, .refl _, .inr rfl⟩
    | ok op =>
      by_cases nop : op = .plain .nop
      · subst nop
        rw [advance_nop fetched]
        refine .of_same ?_ ?_ ?_ ?_ ?_ ?_ ?_ <;> simp only [machine_withMachine, machine_watched]
      · have passed : s.machine.Upkept (withMachine (passed p op) (watched env op s)).machine := by
          refine .of_same ?_ ?_ ?_ ?_ ?_ ?_ ?_ <;>
            simp only [machine_withMachine, machine_watched, Session.passed]
        rw [advance_step fetched nop]
        cases decoded : p.instructionOf op (s.machine.pc + 1) with
        | error e =>
          rw [step_undecoded decoded]
          refine upkept_ofStep (by simp) fun _ _ h => ?_
          cases h
          exact passed
        | ok i =>
          rw [step_decoded decoded]
          have confined := upkeep_perform handlers left i
          exact upkept_ofStep (fun _ _ h => passed.trans (confined.ok h)) fun _ _ h => passed.trans (confined.error h).1

theorem opcode_of_instructionOf {op : Opcode} {address : Nat} {i : Instruction} (h : p.instructionOf op address = .ok i) :
    i.opcode = op := by
  cases op with
  | syscall =>
    rw [Program.instructionOf, Program.decode] at h
    cases found : p.syscallAt address with
    | error e =>
      rw [found] at h
      cases h
    | ok operand =>
      rw [found] at h
      cases h
      rfl
  | _ => cases h; rfl

/-- A decoded instruction that takes a cycle, at the session that its watcher leaves. -/
theorem advance_eq_perform {i : Instruction} {next left : Nat} {s : Session σ}
    (found : p.instructionAt s.machine.pc = .ok (i, next)) (costly : i ≠ .plain .nop) :
    advance env p (left + 1) s =
      .ofStep s.machine.pc left (perform env left i (withMachine (·.past next) (watched env i.opcode s))) := by
  obtain ⟨op, fetched, decoded, rfl⟩ := instructionAt_eq_ok found
  obtain rfl := opcode_of_instructionOf decoded
  have other : i.opcode ≠ .plain .nop := by
    intro nop
    cases i <;> cases nop
    exact costly rfl
  have cost : i.opcode.cost = 1 := if_neg other
  have past : withMachine (passed p i.opcode) (watched env i.opcode s) = withMachine
      (·.past (s.machine.pc + 1 + p.operandWidth i.opcode (s.machine.pc + 1))) (watched env i.opcode s) := by
    rw [← machine_watched env i.opcode s]
    simp only [withMachine, passed, Machine.past, cost]
  rw [advance_step fetched other, step_decoded decoded, past]

/-- The block that the instruction at hand was given on the way from one session to the next. -/
def handed (env : Environment σ) (p : Program) (s s' : Session σ) : List Block :=
  match p.instructionAt s.machine.pc with
  | .ok (i, _) =>
    match wants env (watched env i.opcode s) i, finds s'.machine i with
    | some length, some first => [⟨first, length⟩]
    | _, _ => []
  | .error _ => []

/-- A block that is handed out is the one by which the heap has grown. -/
theorem handed_eq {left left' : Nat} {s s' : Session σ} (went : advance env p left s = .next left' s')
    (inside : s.machine.heap ≤ s.machine.memory.size) {b : Block} (member : b ∈ handed env p s s') :
    b.first = s'.machine.heap ∧ b.first + b.length = s.machine.heap := by
  unfold handed at member
  split at member
  · next i next found =>
    split at member
    · next length first wanted finding =>
      obtain rfl := List.mem_singleton.mp member
      have costly : i ≠ .plain .nop := by
        rintro rfl
        cases wanted
      cases left with
      | zero => cases went
      | succ left =>
        rw [advance_eq_perform found costly] at went
        obtain ⟨h', -, watch⟩ := watched_eq env i.opcode s.machine s.host
        rw [show watched env i.opcode s = ⟨s.machine, h'⟩ from watch] at went wanted
        have wanted : wants env ⟨s.machine.past next, h'⟩ i = some length := by
          rw [← wanted]
          cases i <;> rfl
        obtain ⟨full, fits⟩ := perform_wants wanted left
        by_cases small : s.machine.heap < s.machine.floor + length
        · obtain ⟨e, t, failed, -⟩ := full small
          simp only [withMachine, failed, Outcome.ofStep] at went
          cases went
        · obtain ⟨t, done, heap, place⟩ := fits (Nat.le_of_not_lt small) inside
          simp only [withMachine, done, Outcome.ofStep] at went
          cases went
          rw [place] at finding
          cases finding
          exact ⟨rfl, heap⟩
    · cases member
  · cases member

/-- What has happened to a machine since it was made or last reset. -/
structure Log where
  /-- The program that ran first. -/
  first : Option Program := none
  /-- The blocks that were handed out, the last one first. -/
  blocks : List Block := []

/-- One thing that happens to a machine between two resets: a run begins or is refused, or an instruction of a run is
executed, with any program and any host, but without interrupt handlers. -/
inductive Event : Machine × Log → Machine × Log → Prop
  | begun {m m' : Machine} {log : Log} (p : Program) (went : begin p m = .ok () m') :
      Event (m, log) (m', { log with first := log.first <|> some p })
  | refused {m m' : Machine} {log : Log} {e : Error} (p : Program) (went : begin p m = .error e m') :
      Event (m, log) (m', log)
  | next {σ : Type} {env : Environment σ} {p : Program} {left left' : Nat} {s s' : Session σ} {log : Log}
      (handlers : env.interrupts = fun _ => none) (running : s.machine.status = .running)
      (went : advance env p left s = .next left' s') :
      Event (s.machine, log) (s'.machine, { log with blocks := handed env p s s' ++ log.blocks })
  | stop {σ : Type} {env : Environment σ} {p : Program} {left : Nat} {s s' : Session σ} {log : Log} {why : Stop}
      (handlers : env.interrupts = fun _ => none) (running : s.machine.status = .running)
      (went : advance env p left s = .stop why s') (goesOn : why ≠ .halted) :
      Event (s.machine, log) (s'.machine, log)

/-- The machines that come up in any row of runs and resets, from a new one on; a machine that halts is reset. -/
inductive Life (config : Config) : Machine × Log → Prop
  | new : Life config (.new config, {})
  | reset {m : Machine} {log : Log} (before : Life config (m, log)) : Life config (m.reset, {})
  | halted {σ : Type} {env : Environment σ} {p : Program} {left : Nat} {s s' : Session σ} {log : Log}
      (before : Life config (s.machine, log)) (handlers : env.interrupts = fun _ => none)
      (running : s.machine.status = .running) (went : advance env p left s = .stop .halted s') :
      Life config (s'.machine, {})
  | event {a b : Machine × Log} (before : Life config a) (happens : Event a b) : Life config b

/-- What holds of a machine all its life. -/
structure Sound (config : Config) (m : Machine) (log : Log) : Prop extends m.Sized config where
  above : m.floor ≤ m.heap
  inside : m.heap ≤ m.memory.size
  ready : m.status = .ready → m.heap = m.memory.size ∧ log.first = none
  running : m.status = .running → ∃ p, log.first = some p ∧ m.floor = p.staticSize
  blocks : ∀ b ∈ log.blocks, m.heap ≤ b.first ∧ b.first + b.length ≤ m.memory.size
  apart : log.blocks.Pairwise Block.Apart

variable {config : Config} {m m' : Machine} {log : Log}

theorem sound_new (config : Config) : Sound config (.new config) {} where
  made := rfl
  memory := Array.size_replicate
  stackLimit := rfl
  stack := Nat.zero_le _
  callLimit := rfl
  calls := Nat.zero_le _
  above := Nat.zero_le _
  inside := Nat.le_of_eq Array.size_replicate.symm
  ready _ := ⟨Array.size_replicate.symm, rfl⟩
  running h := by cases h
  blocks _ h := by cases h
  apart := .nil

theorem sound_reset (h : m.Sized config) : Sound config m.reset {} where
  made := h.made
  memory := Array.size_map.trans h.memory
  stackLimit := h.stackLimit
  stack := Nat.zero_le _
  callLimit := h.callLimit
  calls := Nat.zero_le _
  above := Nat.zero_le _
  inside := Nat.le_of_eq Array.size_map.symm
  ready _ := ⟨Array.size_map.symm, rfl⟩
  running h := by cases h
  blocks _ h := by cases h
  apart := .nil

theorem Sound.upkept (sound : Sound config m log) (running : m.status = .running) (h : m.Upkept m') :
    Sound config m' log where
  toSized := h.sized config sound.toSized
  above := by
    rw [h.floor]
    exact h.above sound.above
  inside := by
    rw [(h.sized config sound.toSized).memory, ← sound.memory]
    exact Nat.le_trans h.heap sound.inside
  ready ready := by
    rw [h.status, running] at ready
    cases ready
  running _ := by
    rw [h.floor]
    exact sound.running running
  blocks b member := by
    obtain ⟨low, high⟩ := sound.blocks b member
    exact ⟨Nat.le_trans h.heap low, by rw [(h.sized config sound.toSized).memory, ← sound.memory]; exact high⟩
  apart := sound.apart

theorem Sound.faulted (sound : Sound config m log) : Sound config m.faulted log :=
  { sound with ready := nofun, running := nofun }

theorem sound_begun (sound : Sound config m log) (went : begin p m = .ok () m') :
    Sound config m' { log with first := log.first <|> some p } ∧ m'.heap = m.heap := by
  unfold begin at went
  split at went
  · cases went
  · next running =>
    cases went
    obtain ⟨q, first, floor⟩ := sound.running running
    refine ⟨{ sound with ready := fun ready => ?_, running := fun _ => ⟨q, by rw [first]; rfl, floor⟩ }, rfl⟩
    rw [running] at ready
    cases ready
  · next ready =>
    split at went
    · cases went
    · next small =>
      cases went
      obtain ⟨full, first⟩ := sound.ready ready
      refine ⟨{ sound with above := ?_, ready := fun ready => ?_, running := fun _ => ?_ }, rfl⟩
      · dsimp only
        omega
      · cases ready
      · exact ⟨p, by rw [first]; rfl, rfl⟩

theorem sound_refused {e : Error} (sound : Sound config m log) (went : begin p m = .error e m') :
    Sound config m' log ∧ m'.heap = m.heap := by
  unfold begin at went
  split at went
  · cases went
    exact ⟨sound, rfl⟩
  · cases went
  · split at went <;> cases went
    exact ⟨sound.faulted, rfl⟩

theorem sound_next {left left' : Nat} {s s' : Session σ} (handlers : env.interrupts = fun _ => none)
    (running : s.machine.status = .running) (went : advance env p left s = .next left' s')
    (sound : Sound config s.machine log) :
    Sound config s'.machine { log with blocks := handed env p s s' ++ log.blocks } ∧
      s'.machine.heap ≤ s.machine.heap := by
  have upkept : s.machine.Upkept s'.machine := by
    have outcome := upkept_advance handlers p left s
    rwa [went] at outcome
  have after := sound.upkept running upkept
  have fresh {b : Block} (member : b ∈ handed env p s s') := handed_eq went sound.inside member
  refine ⟨{ after with blocks := fun b member => ?_, apart := ?_ }, upkept.heap⟩
  · rcases List.mem_append.mp member with new | old
    · obtain ⟨first, last⟩ := fresh new
      have inside := sound.inside
      rw [after.memory, ← sound.memory]
      omega
    · exact after.blocks b old
  · have single : (handed env p s s').Pairwise Block.Apart := by
      unfold handed
      split
      · split
        · exact List.pairwise_singleton _ _
        · exact .nil
      · exact .nil
    refine List.pairwise_append.mpr ⟨single, sound.apart, fun b new b' old => .inl ?_⟩
    obtain ⟨first, last⟩ := fresh new
    have low := (sound.blocks b' old).1
    omega

theorem sound_stop {left : Nat} {s s' : Session σ} {why : Stop} (handlers : env.interrupts = fun _ => none)
    (running : s.machine.status = .running) (went : advance env p left s = .stop why s') (goesOn : why ≠ .halted)
    (sound : Sound config s.machine log) : Sound config s'.machine log ∧ s'.machine.heap ≤ s.machine.heap := by
  have outcome := upkept_advance handlers p left s
  rw [went] at outcome
  obtain ⟨m', upkept, same⟩ := outcome
  rw [if_neg goesOn] at same
  rcases same with same | same <;> rw [same]
  · exact ⟨sound.upkept running upkept, upkept.heap⟩
  · exact ⟨(sound.upkept running upkept).faulted, upkept.heap⟩

/-- Between resets the machine stays sound, and the heap never shrinks. -/
theorem sound_event {a b : Machine × Log} (happens : Event a b) (sound : Sound config a.1 a.2) :
    Sound config b.1 b.2 ∧ b.1.heap ≤ a.1.heap := by
  cases happens with
  | begun p went => exact (sound_begun sound went).imp_right Nat.le_of_eq
  | refused p went => exact (sound_refused sound went).imp_right Nat.le_of_eq
  | next handlers running went => exact sound_next handlers running went sound
  | stop handlers running went goesOn => exact sound_stop handlers running went goesOn sound

theorem sound_of_life {a : Machine × Log} (life : Life config a) : Sound config a.1 a.2 := by
  induction life with
  | new => exact sound_new config
  | reset before ih =>
    exact sound_reset ih.toSized
  | @halted σ env p left s s' log before handlers running went ih =>
    have outcome := upkept_advance handlers p left s
    rw [went] at outcome
    obtain ⟨m', upkept, same⟩ := outcome
    rw [if_pos rfl] at same
    rw [same]
    exact sound_reset (upkept.sized config ih.toSized)
  | event before happens ih => exact (sound_event happens ih).1

theorem heap_le_of_events {a b : Machine × Log} (events : Relation.ReflTransGen Event a b)
    (sound : Sound config a.1 a.2) : Sound config b.1 b.2 ∧ b.1.heap ≤ a.1.heap := by
  induction events with
  | refl => exact ⟨sound, Nat.le_refl _⟩
  | tail earlier happens ih =>
    obtain ⟨after, less⟩ := sound_event happens ih.1
    exact ⟨after, Nat.le_trans less ih.2⟩

/-- The machine after a run, however it ended. -/
def machineAfter (r : EStateM.Result Error (Session σ) α) : Machine :=
  match r with
  | .ok _ s => s.machine
  | .error _ s => s.machine

theorem life_course (handlers : env.interrupts = fun _ => none) (p : Program) (left : Nat) {s : Session σ}
    (running : s.machine.status = .running) (life : Life config (s.machine, log)) :
    ∃ log', Life config ((course env p left s).2.machine, log') := by
  fun_induction course env p left s generalizing log with
  | case1 left s why t stopped =>
    by_cases halted : why = .halted
    · subst halted
      exact ⟨_, .halted life handlers running stopped⟩
    · exact ⟨_, .event life (.stop handlers running stopped halted)⟩
  | case2 left s left' s' went less ih =>
    have upkept := upkept_advance handlers p left s
    rw [went] at upkept
    exact ih (upkept.status.trans running) (.event life (.next handlers running went))

theorem life_visits (handlers : env.interrupts = fun _ => none) {left : Nat} {s t : Session σ}
    (running : s.machine.status = .running) (life : Life config (s.machine, log)) (visits : Visits env p left s t) :
    ∃ log', Life config (t.machine, log') := by
  induction visits generalizing log with
  | here => exact ⟨log, life⟩
  | @next left left' s s' t went later ih =>
    have upkept := upkept_advance handlers p left s
    rw [went] at upkept
    exact ih (upkept.status.trans running) (.event life (.next handlers running went))

theorem running_of_begun (went : begin p m = .ok () m') : m'.status = .running := by
  unfold begin at went
  split at went
  · cases went
  · next running =>
    cases went
    exact running
  · split at went <;> cases went
    rfl

theorem begin_eq_ok {t : σ} {s : Session σ} (h : act (begin p) ⟨m, t⟩ = .ok () s) : begin p m = .ok () s.machine := by
  simp only [act] at h
  split at h <;> cases h
  assumption

/-- Every run belongs to the life of its machine, and so does every instruction of it. -/
theorem life_run (handlers : env.interrupts = fun _ => none) (p : Program) (budget : Nat) (t : σ)
    (life : Life config (m, log)) :
    (∃ log', Life config (machineAfter (run env p budget ⟨m, t⟩), log')) ∧
      ∀ start s, act (begin p) ⟨m, t⟩ = .ok () start → Visits env p budget start s →
        ∃ log', Life config (s.machine, log') := by
  constructor
  · rw [run_eq_slice, slice]
    cases begun : act (begin p) ⟨m, t⟩ with
    | ok v s =>
      have went := begin_eq_ok begun
      obtain ⟨log', after⟩ := life_course handlers p budget (running_of_begun went)
        (.event life (.begun p went))
      refine ⟨log', ?_⟩
      dsimp only
      cases (course env p budget s).1 <;> exact after
    | error e s =>
      simp only [act] at begun
      split at begun <;> cases begun
      next refused => exact ⟨log, .event life (.refused p refused)⟩
  · intro start s begun visits
    have went := begin_eq_ok begun
    exact life_visits handlers (running_of_begun went) (.event life (.begun p went)) visits

/-- An instruction that stops its run with an error. -/
def Outcome.Fails (code : ErrorCode) (o : Outcome σ) : Prop := ∃ e s, o = .stop (.failed e) s ∧ e.code = code

theorem fails_of_faults {code : ErrorCode} {address left : Nat} {r : EStateM.Result Error (Session σ) Progress}
    (h : Faults code r) : (Outcome.ofStep address left r).Fails code := by
  obtain ⟨e, s, rfl, same⟩ := h
  exact ⟨_, _, rfl, same⟩

section
variable {i : Instruction} {next : Nat} (found : p.instructionAt m.pc = .ok (i, next)) (left : Nat) (t : σ)
include found

/-- An instruction that reads or writes a row of cells that is not in memory. -/
theorem advance_row {row : Row}
    (touched : row ∈ rows env left (withMachine (·.past next) (watched env i.opcode ⟨m, t⟩)) i)
    (outside : ¬ row.Fits m.memory) : (advance env p (left + 1) ⟨m, t⟩).Fails .memoryFault := by
  have costly : i ≠ .plain .nop := by
    rintro rfl
    cases touched
  obtain ⟨t', -, watch⟩ := watched_eq env i.opcode m t
  rw [advance_eq_perform (s := ⟨m, t⟩) found costly, watch]
  rw [watch] at touched
  exact fails_of_faults (faults_perform touched outside)

/-- An instruction that asks the heap for cells gets them if they are there. -/
theorem advance_wants {n : Nat} (wanted : wants env (watched env i.opcode ⟨m, t⟩) i = some n) :
    (m.heap < m.floor + n → (advance env p (left + 1) ⟨m, t⟩).Fails .outOfMemory) ∧
      (m.floor + n ≤ m.heap → m.heap ≤ m.memory.size →
        ∃ s, advance env p (left + 1) ⟨m, t⟩ = .next left s ∧ handed env p ⟨m, t⟩ s = [⟨m.heap - n, n⟩]) := by
  have costly : i ≠ .plain .nop := by
    rintro rfl
    cases wanted
  obtain ⟨t', -, watch⟩ := watched_eq env i.opcode m t
  have wanted' : wants env ⟨m.past next, t'⟩ i = some n := by
    rw [← wanted, watch]
    cases i <;> rfl
  obtain ⟨full, fits⟩ := perform_wants wanted' left
  rw [advance_eq_perform (s := ⟨m, t⟩) found costly, watch]
  refine ⟨fun small => fails_of_faults (full small), fun large inside => ?_⟩
  obtain ⟨s, done, heap, place⟩ := fits large inside
  refine ⟨s, ?_, ?_⟩
  · rw [show withMachine (·.past next) ⟨m, t'⟩ = ⟨m.past next, t'⟩ from rfl, done]
    rfl
  · have first : s.machine.heap = m.heap - n := by
      have : (m.past next).heap = m.heap := rfl
      omega
    simp only [handed, found, wanted, place, first]

end

theorem snapshot_inside (m : Machine) (op : Opcode) :
    (m.snapshot op).window + (m.snapshot op).cells.length ≤ m.memory.size := by
  simp only [Machine.snapshot, Array.length_toList, Array.size_extract]
  omega

/-- Memory safety of every program, be it compiled or a row of arbitrary bytes. Sizes and limits stay as they were made;
while a machine runs, the heap lies between the static cells of the program that ran first and the end of memory and
never shrinks until a reset; and the blocks that it hands out lie there and do not overlap. What watchers see lies in
memory. An instruction that touches a cell outside memory stops with a memory fault; one that asks the heap for more
than it has stops for lack of memory, and one that asks for less gets its cells. All machines of every row of runs and
resets are covered. -/
theorem heap_stays_sound {config : Config} {m : Machine} {log : Log} (life : Life config (m, log)) :
    m.memory.size = min config.memorySize (maxPointer + 1) ∧
    m.stack.size ≤ config.stackSize ∧ m.calls.size ≤ config.callDepth ∧
    (m.status = .running →
      ∃ p, log.first = some p ∧ m.floor = p.staticSize ∧ m.floor ≤ m.heap ∧ m.heap ≤ m.memory.size) ∧
    (∀ later, Relation.ReflTransGen Event (m, log) later → later.1.heap ≤ m.heap) ∧
    log.blocks.Pairwise Block.Apart ∧
    (∀ b ∈ log.blocks, m.floor ≤ b.first ∧ b.first + b.length ≤ m.memory.size) ∧
    (∀ op, (m.snapshot op).window + (m.snapshot op).cells.length ≤ m.memory.size) ∧
    (∀ {σ : Type} (env : Environment σ) (p : Program) (left : Nat) (t : σ) (i : Instruction) (next : Nat),
      p.instructionAt m.pc = .ok (i, next) →
        (∀ row ∈ rows env left (withMachine (·.past next) (watched env i.opcode ⟨m, t⟩)) i, ¬ row.Fits m.memory →
          (advance env p (left + 1) ⟨m, t⟩).Fails .memoryFault) ∧
        (∀ n, wants env (watched env i.opcode ⟨m, t⟩) i = some n →
          (m.heap < m.floor + n → (advance env p (left + 1) ⟨m, t⟩).Fails .outOfMemory) ∧
          (m.floor + n ≤ m.heap →
            ∃ s, advance env p (left + 1) ⟨m, t⟩ = .next left s ∧ handed env p ⟨m, t⟩ s = [⟨m.heap - n, n⟩]))) ∧
    (∀ {σ : Type} (env : Environment σ) (p : Program) (budget : Nat) (t : σ), env.interrupts = (fun _ => none) →
      (∃ log', Life config (machineAfter (run env p budget ⟨m, t⟩), log')) ∧
      ∀ start s, act (begin p) ⟨m, t⟩ = .ok () start → Visits env p budget start s →
        ∃ log', Life config (s.machine, log')) := by
  have sound := sound_of_life life
  have above := sound.above
  refine ⟨sound.memory, sound.stack, sound.calls, fun running => ?_, fun later events => (heap_le_of_events events sound).2,
    sound.apart, fun b member => ?_, snapshot_inside m, fun env p left t i next found => ⟨?_, ?_⟩,
    fun env p budget t handlers => life_run handlers p budget t life⟩
  · obtain ⟨p, first, floor⟩ := sound.running running
    exact ⟨p, first, floor, above, sound.inside⟩
  · obtain ⟨low, high⟩ := sound.blocks b member
    exact ⟨Nat.le_trans above low, high⟩
  · intro row touched outside
    exact advance_row found left t touched outside
  · intro n wanted
    obtain ⟨full, fits⟩ := advance_wants found left t wanted
    exact ⟨full, fun large => fits large sound.inside⟩

/-- Asks for three cells, then for two, and then for more than there are. -/
def greedy : Program where
  code := (Code.bytes [.short .alloc 3, .short .alloc 2, .short .alloc 9]).toArray
  staticSize := 4

theorem heap_stays_sound_greedy :
    ∃ m log, Life { memorySize := 16 } (m, log) ∧ log.blocks = [⟨11, 2⟩, ⟨13, 3⟩] ∧ log.blocks.Pairwise Block.Apart ∧
      m.floor ≤ m.heap ∧ (advance { host := Script.host } greedy 1 ⟨m, {}⟩).Fails .outOfMemory := by
  let env : Environment Script := { host := Script.host }
  have begun := Life.event .new (.begun greedy (m := .new { memorySize := 16 }) rfl)
  have first := begun.event (@Event.next Script env greedy 9 _ ⟨_, {}⟩ _ _ rfl rfl rfl)
  have second := first.event (@Event.next Script env greedy 9 _ ⟨_, {}⟩ _ _ rfl rfl rfl)
  obtain ⟨-, -, -, running, -, apart, -, -, instructions, -⟩ := heap_stays_sound second
  obtain ⟨-, -, -, above, -⟩ := running rfl
  have found : greedy.instructionAt 6 = .ok (.short .alloc 9, 9) := rfl
  obtain ⟨-, wanted⟩ := instructions env greedy 0 {} _ _ found
  exact ⟨_, _, second, rfl, apart, above, (wanted 9 rfl).1 (by decide)⟩

end Session

end BasicMachine
