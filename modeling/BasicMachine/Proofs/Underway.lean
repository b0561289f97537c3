import BasicMachine.Proofs.EntryBlock
import BasicMachine.Proofs.Passage

/-!
# Machines underway

A machine that starts is in the entry block of its program first, and from then on between two commands or inside one of
them. Between two commands its stack is empty, and its return addresses are those of GOSUB, so that a RETURN comes to a
command.
-/
namespace BasicMachine

open Language Action

section
variable {p : Program} {m m' : Machine} {i : Instruction} {values : List Value} {next : Nat}

theorem Program.Carries.fills (fills : i.Fills values) (found : p.instructionAt m.pc = .ok (i.stored, next))
    (small : m.idx ≤ maxPointer) (inside : m.idx + values.length ≤ m.memory.size) (h : p.Carries m m') :
    m'.pc = next ∧ m'.values = m.values ∧ m'.calls = m.calls ∧ m'.heap = m.heap ∧ m'.floor = m.floor ∧
      Sets (laid m.idx values) m.memory m'.memory := by
  obtain ⟨silent, memory, idx, sets, effect⟩ := fills.effect (m := m.past next) small inside
  obtain ⟨interrupts, ran⟩ := h.effected found silent
  rw [effect] at ran
  cases ran
  exact ⟨rfl, rfl, rfl, rfl, rfl, sets⟩

theorem Program.healthy_fills (fills : i.Fills values) (found : p.instructionAt m.pc = .ok (i.stored, next))
    (small : m.idx ≤ maxPointer) (inside : m.idx + values.length ≤ m.memory.size) : p.Healthy m := by
  obtain ⟨silent, memory, idx, -, effect⟩ := fills.effect (m := m.past next) small inside
  refine healthy_of_effect found silent fun interrupts e m' failed => ?_
  rw [effect] at failed
  cases failed

theorem Program.Carries.pushes {v : Value} (push : i.Pushes v) (found : p.instructionAt m.pc = .ok (i, next))
    (h : p.Carries m m') : m.Becomes m' next (v :: m.values) m.memory m.idx := by
  obtain ⟨interrupts, done⟩ := h.effected found push.silent
  rw [push.effect] at done
  rw [push_ok done]
  exact ⟨rfl, Machine.values_insert _ _, rfl, rfl, rfl, rfl, rfl⟩

end

namespace Language

/-- What the entry block of the program puts into a cell. -/
def Context.entryCells (c : Context) (values : List Value) : Nat → Option Value :=
  laidEntry c.scopes.highWater c.texts.reverse values

/-- The machine is past code that sets cells. -/
structure Initialized (f : Nat → Option Value) (stop : Nat) (m m' : Machine) : Prop where
  pc : m'.pc = stop
  values : m'.values = m.values
  calls : m'.calls = m.calls
  heap : m'.heap = m.heap
  floor : m'.floor = m.floor
  sets : Sets f m.memory m'.memory

namespace Initialized

variable {f g : Nat → Option Value} {limit stop stop' : Nat} {m m' m'' : Machine}

theorem trans (first : Initialized f stop m m') (second : Initialized g stop' m' m'') :
    Initialized (fun x => (g x).or (f x)) stop' m m'' :=
  ⟨second.pc, second.values.trans first.values, second.calls.trans first.calls, second.heap.trans first.heap,
    second.floor.trans first.floor, first.sets.trans second.sets⟩

theorem alters (h : Initialized f stop m m') (none : ∀ x, limit ≤ x → f x = .none) : m.Alters (· < limit) False m' where
  floor := h.floor
  size := h.sets.size
  heap := .inl h.heap
  memory x changed := .inl (Nat.lt_of_not_le fun beyond => h.sets.changed changed (none x beyond))

end Initialized

namespace Context

variable {c : Context} {p : Program} {m : Machine} {start stop n : Nat}

theorem unless_setup {limit : Nat} {code : Code} {f : Nat → Option Value} (setup : Setup limit code f)
    (fits : limit ≤ maxPointer + 1) (room : limit ≤ m.memory.size) (lies : p.HasCode start code)
    (size : start + code.size = stop) (pc : m.pc = start) :
    p.Unless (c.Going p (· < limit) False start stop m) (Initialized f stop m) n m := by
  have whole {address : Nat} (inside : address < limit) : address % 0x200000 = address :=
    Nat.mod_eq_of_lt (Nat.lt_of_lt_of_le inside fits)
  have cells {address x : Nat} {values : List Value} (inside : address + values.length ≤ limit) (beyond : limit ≤ x) :
      laid address values x = none := laid_of_not (by omega)
  induction setup generalizing start m n with
  | nil => exact .now ⟨pc.trans size, rfl, rfl, rfl, rfl, .none _⟩
  | @store i v address rest f push inside later ih =>
    obtain ⟨found, lies₁⟩ := lies.cons
    obtain ⟨found₁, lies₂⟩ := lies₁.cons
    rw [Instruction.size_pointer] at lies₂
    rw [Instruction.stored, whole inside] at found₁
    rw [push.stored] at found
    have one : 0 < i.size := i.size_pos
    have sizes : Code.size (i :: .pointer .store address :: rest) = i.size + (4 + Code.size rest) := rfl
    rw [← pc] at found
    refine unless_next (start + i.size) (Program.healthy_of_shift found push.shift (Nat.zero_le _)) pc (by omega) (by omega)
      fun k₁ m₁ carries => ?_
    have becomes := carries.pushes push found
    have pc₁ : m₁.pc = start + i.size := becomes.pc.trans (by rw [← pc])
    refine ⟨becomes.alters, becomes.calls, ?_⟩
    refine unless_set (start + i.size + 4) found₁ pc₁ becomes.values (by omega) (by omega) inside
      fun k₂ m₂ _ becomes₁ => ?_
    have sets : Sets (laid address [v]) m.memory m₂.memory := by
      rw [becomes₁.memory, becomes.memory]
      exact .single v (Nat.lt_of_lt_of_le inside room)
    have done : Initialized (laid address [v]) (start + i.size + 4) m m₂ :=
      ⟨becomes₁.pc, becomes₁.values, becomes₁.calls.trans becomes.calls, becomes₁.heap.trans becomes.heap,
        becomes₁.floor.trans becomes.floor, sets⟩
    exact (ih (sets.size.symm ▸ room) lies₂ (by omega) becomes₁.pc).mono (fun _ => id) fun _ => done.trans
  | @fill i values address rest f fills inside later ih =>
    have some := fills.some
    obtain ⟨found, lies₁⟩ := lies.cons
    rw [Instruction.size_pointer] at lies₁
    rw [Instruction.stored, whole (by omega)] at found
    obtain ⟨found₁, lies₂⟩ := lies₁.cons
    have one : 0 < i.size := i.size_pos
    have sizes : Code.size (.pointer .setIdx address :: i :: rest) = 4 + (i.size + Code.size rest) := rfl
    rw [← pc] at found
    have shift : Instruction.shift (.pointer .setIdx address) = .some (0, 0) := rfl
    refine unless_next (start + 4) (Program.healthy_of_shift found shift (Nat.zero_le _)) pc (by omega) (by omega)
      fun k₁ m₁ carries => ?_
    have becomes : m.Becomes m₁ _ m.values m.memory address := carries.turns found
    have pc₁ : m₁.pc = start + 4 := becomes.pc.trans (by rw [pc]; rfl)
    refine ⟨becomes.alters, becomes.calls, ?_⟩
    rw [← pc₁] at found₁
    have small : m₁.idx ≤ maxPointer := by rw [becomes.idx]; omega
    have inside₁ : m₁.idx + values.length ≤ m₁.memory.size := by rw [becomes.idx, becomes.memory]; omega
    refine unless_next (start + 4 + i.size) (Program.healthy_fills fills found₁ small inside₁) pc₁ (by omega) (by omega)
      fun k₂ m₂ carries₁ => ?_
    obtain ⟨pc₂, values₂, calls₂, heap₂, floor₂, sets₂⟩ := carries₁.fills fills found₁ small inside₁
    rw [pc₁] at pc₂
    rw [becomes.idx] at sets₂
    have second : Initialized (laid address values) (start + 4 + i.size) m₁ m₂ :=
      ⟨pc₂, values₂, calls₂, heap₂, floor₂, sets₂⟩
    rw [becomes.memory] at sets₂
    have done : Initialized (laid address values) (start + 4 + i.size) m m₂ :=
      ⟨pc₂, values₂.trans becomes.values, calls₂.trans becomes.calls, heap₂.trans becomes.heap, floor₂.trans becomes.floor,
        sets₂⟩
    refine ⟨second.alters fun x => cells inside, calls₂, ?_⟩
    exact (ih (sets₂.size.symm ▸ room) lies₂ (by omega) pc₂).mono (fun _ => id) fun _ => done.trans

end Context

namespace Finished

variable {c : Context} {values : List Value} {p : Program} {m m' : Machine}

/-- A machine at the entry point comes to the first command, with its stacks as they were. -/
theorem initializes (h : Finished c values p) (fits : c.scopes.highWater ≤ maxPointer + 1)
    (room : c.scopes.highWater ≤ m.memory.size) (pc : m.pc = p.entry) :
    p.Until (c.Going p (· < c.scopes.highWater) False p.entry (p.entry + (c.entry values).size) m)
      (Initialized (c.entryCells values) 0 m) m := by
  obtain ⟨orderly, -, -⟩ := h.settled.whole
  have below : dataBase + values.length ≤ c.scopes.highWater := by
    obtain ⟨row, fills, -⟩ := orderly.filled
    exact fills.le
  have inside (text : String × Nat) (member : text ∈ c.texts.reverse) :
      text.2 + Parser.textCells text.1 ≤ c.scopes.highWater := (orderly.textBlock (List.mem_reverse.mp member)).2
  obtain ⟨setup, split, sets, some⟩ := setup_entryCode below inside (h.stored_values (h.size_eq ▸ fits))
  obtain ⟨-, -, linked⟩ := link_eq_ok h.linked
  have start : p.entry = c.main.size := by rw [linked]
  have lies := (hasCode_of_link h.linked).append.2
  rw [Steps.size_place, Nat.zero_add, ← start, Context.entry, split] at lies
  obtain ⟨lies₁, lies₂⟩ := lies.append
  have size : (c.entry values).size = setup.size + 3 := by
    rw [Context.entry, split, Code.size_append]
    rfl
  have goes (n : Nat) : p.Unless
      (c.Going p (· < c.scopes.highWater) False p.entry (p.entry + (c.entry values).size) m)
      (Initialized (c.entryCells values) 0 m) n m := by
    refine ((Context.unless_setup sets fits room lies₁ rfl pc).mono
      (fun m' going => going.mono (by omega) (fun _ => id) id) fun _ => id).trans fun k _ m₁ done => ?_
    obtain ⟨found, -⟩ := lies₂.cons
    rw [← done.pc] at found
    have inside : c.Busy p.entry (p.entry + (c.entry values).size) m m₁ :=
      .inside (by rw [done.pc]; omega) (by rw [done.pc]; omega) done.calls
    refine .step ⟨Program.healthy_jmp found, done.alters fun x => sets.none_of_le, inside⟩ fun m₂ carries _ _ => .now ?_
    have becomes := carries.jmp found
    exact ⟨becomes.pc, becomes.values.trans done.values, becomes.calls.trans done.calls, becomes.heap.trans done.heap,
      becomes.floor.trans done.floor, becomes.memory ▸ done.sets⟩
  refine Program.Unless.strict goes fun done => ?_
  have := h.opens_zero.lt_size
  have := done.pc
  omega

end Finished

namespace Context

/-- The address behind the CALL of GOSUB, or of one of the lines of ON. -/
inductive Resumes (c : Context) : Nat → Prop
  | intro {before after : List Command} {n : UInt16} (split : c.program = before ++ .call (.line n) :: after) :
      Resumes c (codeSize before + 3)

/-- The machine is between two commands: its stack is empty, and its return addresses are those of GOSUB. -/
structure Poised (c : Context) (m : Machine) : Prop where
  opens : c.Opens m.pc
  values : m.values = []
  calls : ∀ back ∈ m.calls.items, c.Resumes back

/-- The machine does a command since it was between two of them. -/
structure Doing (c : Context) (p : Program) (m₀ : Machine) (command : Command) (m : Machine) : Prop where
  poised : c.Poised m₀
  stands : c.Stands m₀.pc command
  goes : p.Until (c.Going p (command.Reaches c) command.Allocates m₀.pc (m₀.pc + command.size) m₀)
    (command.Leaves c (m₀.pc + command.size) m₀) m

/-- The machine is in the entry block, or it does a command. -/
inductive Underway (c : Context) (p : Program) (values : List Value) (m : Machine) : Prop
  | starting {m₀ : Machine} (pc : m₀.pc = p.entry) (empty : m₀.values = []) (uncalled : m₀.calls.items = #[])
      (goes : p.Until (c.Going p (· < c.scopes.highWater) False p.entry (p.entry + (c.entry values).size) m₀)
        (Initialized (c.entryCells values) 0 m₀) m)
  | doing {m₀ : Machine} {command : Command} (doing : c.Doing p m₀ command m)

end Context

/-- A command leaves the return addresses, or adds the one behind it if it is a GOSUB, or takes the last of them. -/
theorem Command.Leads.calls_cases {c : Context} {functions : List (String × Nat)} {limit stop : Nat} {m m' : Machine}
    {command : Command} (h : command.Leads c stop m m') (proper : command.Proper functions limit) :
    m'.calls = m.calls ∨ (∃ n, command = .call (.line n)) ∧ m'.calls = m.calls.insert stop ∨
      m'.calls = m.calls.dropTop := by
  cases proper with
  | call n => exact .inr (.inl ⟨⟨n, rfl⟩, h.2⟩)
  | ret =>
    obtain ⟨_, -, -, calls⟩ := h
    exact .inr (.inr calls)
  | halt => exact h.elim
  | _ => exact .inl h.2

namespace Finished

variable {c : Context} {values : List Value} {p : Program} {m m' : Machine} {command : Command}

theorem opens_of_resumes (h : Finished c values p) {x : Nat} (resumes : c.Resumes x) : c.Opens x := by
  obtain ⟨split⟩ := resumes
  exact h.opens_behind (.intro split rfl (by simp)) (by simp) (by simp)

/-- Past a command, the machine is between two of them again. -/
theorem poised_of_leaves (h : Finished c values p) (poised : c.Poised m) (stands : c.Stands m.pc command)
    (leaves : command.Leaves c (m.pc + command.size) m m') : c.Poised m' where
  opens := h.opens_of_leaves stands (fun back top => h.opens_of_resumes (poised.calls back (Array.mem_of_back? top))) leaves
  values := leaves.values.trans poised.values
  calls back member := by
    rcases leaves.leads.calls_cases (h.fine (mem_of_stands stands)).proper with same | ⟨⟨n, rfl⟩, calls⟩ | calls
    · exact poised.calls back (same ▸ member)
    · rw [calls] at member
      rcases Array.mem_push.mp member with member | rfl
      · exact poised.calls back member
      · generalize same : m.pc = x at stands
        obtain ⟨split, -, -⟩ := stands
        exact .intro split
    · rw [calls] at member
      exact poised.calls back (Stack.mem_of_mem_dropTop member)

/-- A machine between two commands begins to do one. -/
theorem doing_of_poised (h : Finished c values p) (fits : c.scopes.highWater ≤ maxPointer + 1) (poised : c.Poised m) :
    ∃ command, c.Doing p m command m := by
  obtain ⟨command, stands⟩ := poised.opens
  exact ⟨command, poised, stands, h.performs fits stands m rfl⟩

/-- One instruction further on, a command is done or it goes on. -/
theorem doing_next (h : Finished c values p) {m₀ : Machine} (doing : c.Doing p m₀ command m) (carries : p.Carries m m') :
    command.Leaves c (m₀.pc + command.size) m₀ m' ∧ c.Poised m' ∨ c.Doing p m₀ command m' := by
  rcases Program.Unless.next (doing.goes.2 m' carries) with leaves | on
  · exact .inl ⟨leaves, h.poised_of_leaves doing.poised doing.stands leaves⟩
  · exact .inr ⟨doing.poised, doing.stands, on⟩

/-- Past the entry block, the machine is at the first command. -/
theorem poised_of_initialized (h : Finished c values p) {f : Nat → Option Value} (empty : m.values = [])
    (uncalled : m.calls.items = #[]) (done : Initialized f 0 m m') : c.Poised m' := by
  refine ⟨done.pc ▸ h.opens_zero, done.values.trans empty, fun back member => ?_⟩
  rw [done.calls, uncalled] at member
  cases Array.not_mem_empty _ member

end Finished

namespace Context.Underway

variable {c : Context} {values : List Value} {p : Program} {m m' : Machine}

theorem healthy (h : c.Underway p values m) : p.Healthy m := by
  cases h with
  | starting _ _ _ goes => exact goes.1.healthy
  | doing doing => exact doing.goes.1.healthy

/-- One instruction further on. -/
theorem step (h : c.Underway p values m) (finished : Finished c values p) (fits : c.scopes.highWater ≤ maxPointer + 1)
    (carries : p.Carries m m') : c.Underway p values m' ∧ m'.memory.size = m.memory.size ∧ m'.floor = m.floor := by
  have begins {m : Machine} (poised : c.Poised m) : c.Underway p values m := by
    obtain ⟨command, doing⟩ := finished.doing_of_poised fits poised
    exact .doing doing
  have both {m₀ : Machine} {cells cells' : Nat → Prop} {fresh fresh' : Prop} (here : m₀.Alters cells fresh m)
      (there : m₀.Alters cells' fresh' m') : m'.memory.size = m.memory.size ∧ m'.floor = m.floor :=
    ⟨there.size.trans here.size.symm, there.floor.trans here.floor.symm⟩
  cases h with
  | starting pc empty uncalled goes =>
    rcases Program.Unless.next (goes.2 m' carries) with done | on
    · exact ⟨begins (finished.poised_of_initialized empty uncalled done), done.sets.size.trans goes.1.alters.size.symm,
        done.floor.trans goes.1.alters.floor.symm⟩
    · exact ⟨.starting pc empty uncalled on, both goes.1.alters on.1.alters⟩
  | doing doing =>
    rcases finished.doing_next doing carries with ⟨leaves, poised⟩ | on
    · obtain ⟨own, -, alters⟩ := leaves.alters
      exact ⟨begins poised, both doing.goes.1.alters alters⟩
    · exact ⟨.doing on, both doing.goes.1.alters on.goes.1.alters⟩

/-- At the start of a command, the machine is between two commands. -/
theorem poised (h : c.Underway p values m) (finished : Finished c values p) (opens : c.Opens m.pc) : c.Poised m := by
  cases h with
  | starting pc _ _ goes =>
    obtain ⟨-, -, linked⟩ := link_eq_ok finished.linked
    have start : p.entry = c.main.size := by rw [linked]
    have before := opens.lt_size
    cases goes.1.busy with
    | start _ _ same =>
      rw [same] at before
      omega
    | inside after _ _ => omega
    | called inside _ => exact absurd opens (finished.not_opens_function inside)
  | doing doing =>
    rcases finished.not_opens_going doing.stands doing.goes.1 with rfl | closed
    · exact doing.poised
    · exact absurd opens closed

end Context.Underway

end Language

end BasicMachine
