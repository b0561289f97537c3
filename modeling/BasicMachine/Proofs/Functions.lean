import BasicMachine.Proofs.Closure
import BasicMachine.Proofs.Levels
import BasicMachine.Proofs.Movement

/-!
# Functions at work

A function keeps its arguments in a frame of its own, and the frame pointer of its caller in the first cell of it. While
an expression is evaluated, only the frames of functions that it calls and the frame pointer change, and once it has its
value the frame pointer is what it was. A frame is not one of those that the body of its function uses, since a function
that calls itself never comes to an end.
-/
namespace BasicMachine

open Language Action

/-- Only `cells` have changed, and what was taken from the heap, which `fresh` allows. -/
structure Machine.Alters (cells : Nat → Prop) (fresh : Prop) (m m' : Machine) : Prop where
  floor : m'.floor = m.floor
  size : m'.memory.size = m.memory.size
  heap : m'.heap = m.heap ∨ fresh ∧ m.floor ≤ m'.heap ∧ m'.heap ≤ m.heap
  memory : ∀ x, m'.memory[x]? ≠ m.memory[x]? → cells x ∨ m'.heap ≤ x ∧ x < m.heap

namespace Machine.Alters

variable {cells cells' : Nat → Prop} {fresh fresh' : Prop} {m m' m'' : Machine}

theorem refl (cells : Nat → Prop) (fresh : Prop) (m : Machine) : m.Alters cells fresh m :=
  ⟨rfl, rfl, .inl rfl, fun _ changed => absurd rfl changed⟩

theorem mono (h : m.Alters cells fresh m') (more : ∀ x, cells x → cells' x) (more' : fresh → fresh') :
    m.Alters cells' fresh' m' :=
  ⟨h.floor, h.size, h.heap.imp_right (.imp_left more'), fun x changed => (h.memory x changed).imp_left (more x)⟩

theorem heap_le (h : m.Alters cells fresh m') : m'.heap ≤ m.heap := by
  rcases h.heap with same | ⟨-, -, less⟩
  · exact Nat.le_of_eq same
  · exact less

theorem trans (first : m.Alters cells fresh m') (second : m'.Alters cells fresh m'') : m.Alters cells fresh m'' where
  floor := second.floor.trans first.floor
  size := second.size.trans first.size
  heap := by
    have le := first.heap_le
    rcases second.heap with same | ⟨allowed, above, less⟩
    · rw [same]
      exact first.heap
    · exact .inr ⟨allowed, first.floor ▸ above, Nat.le_trans less le⟩
  memory x changed := by
    have le := first.heap_le
    have le' := second.heap_le
    by_cases early : m'.memory[x]? = m.memory[x]?
    · rw [← early] at changed
      exact (second.memory x changed).imp_right fun ⟨above, below⟩ => ⟨above, Nat.lt_of_lt_of_le below le⟩
    · exact (first.memory x early).imp_right fun ⟨above, below⟩ => ⟨Nat.le_trans le' above, below⟩

/-- Nothing has been taken from the heap. -/
theorem same (h : m.Alters cells False m') {x : Nat} (other : ¬ cells x) : m'.memory[x]? = m.memory[x]? := by
  have heap : m'.heap = m.heap := h.heap.resolve_right fun impossible => impossible.1
  refine Decidable.byContradiction fun changed => ?_
  rcases h.memory x changed with cell | ⟨above, below⟩
  · exact other cell
  · omega

/-- Cells have changed because they may, or they are new on the heap. -/
theorem changes {limit x : Nat} (h : m.Alters cells fresh m') (floor : m.floor = limit)
    (changed : m'.memory[x]? ≠ m.memory[x]?) : cells x ∨ limit ≤ x ∧ fresh ∧ m'.heap ≤ x ∧ x < m.heap := by
  refine (h.memory x changed).imp_right fun ⟨low, high⟩ => ?_
  rcases h.heap with same | ⟨allowed, above, -⟩
  · omega
  · exact ⟨floor ▸ Nat.le_trans above low, allowed, low, high⟩

/-- A value in a cell. -/
theorem set {x : Nat} {v : Value} (memory : m'.memory = m.memory.setIfInBounds x v) (heap : m'.heap = m.heap)
    (floor : m'.floor = m.floor) (cell : cells x) : m.Alters cells fresh m' := by
  refine ⟨floor, by rw [memory, Array.size_setIfInBounds], .inl heap, fun y changed => .inl ?_⟩
  by_cases same : x = y
  · exact same ▸ cell
  · rw [memory, Array.getElem?_setIfInBounds_ne same] at changed
    exact absurd rfl changed

theorem of_memory (memory : m'.memory = m.memory) (heap : m'.heap = m.heap) (floor : m'.floor = m.floor) :
    m.Alters cells fresh m' :=
  ⟨floor, by rw [memory], .inl heap, fun x changed => absurd (congrArg (fun memory => memory[x]?) memory) changed⟩

end Machine.Alters

theorem Machine.Becomes.alters {m m' : Machine} {pc idx : Nat} {values : List Value}
    {cells : Nat → Prop} {fresh : Prop} (h : m.Becomes m' pc values m.memory idx) : m.Alters cells fresh m' :=
  .of_memory h.memory h.heap h.floor

namespace Language

/-- A function of a program. -/
structure Routine where
  /-- The first cell of its frame. -/
  frame : Nat
  arity : Nat
  body : Expr

namespace Routine

def steps (r : Routine) : Steps := (Command.function r.frame r.arity r.body).code

/-- The cell is one of the frame. -/
def Holds (r : Routine) (x : Nat) : Prop := r.frame ≤ x ∧ x ≤ r.frame + r.arity

/-- The functions that the body calls. -/
def called (r : Routine) : List String := Steps.called r.body.code

end Routine

/-- The function behind the first mark of its name. -/
def routineIn (name : String) : List Command → Option Routine
  | [] => none
  | .mark l :: rest =>
    if l = .function name then
      match rest with
      | .function frame arity body :: _ => some ⟨frame, arity, body⟩
      | _ => none
    else routineIn name rest
  | _ :: rest => routineIn name rest

namespace Context

variable {c : Context} {names names' : List String} {name : String} {r : Routine}

def routine? (c : Context) (name : String) : Option Routine := routineIn name c.program

/-- Who calls the functions `names` may come to call the other one. -/
inductive Calls (c : Context) : List String → String → Prop
  | direct {names : List String} {name : String} (member : name ∈ names) : Calls c names name
  | deeper {names : List String} {name later : String} {r : Routine} (member : name ∈ names)
      (found : c.routine? name = some r) (calls : Calls c r.called later) : Calls c names later

/-- The cell is one of a frame of a function that is called. -/
def Uses (c : Context) (names : List String) (x : Nat) : Prop :=
  ∃ name r, c.Calls names name ∧ c.routine? name = some r ∧ r.Holds x

/-- The calls of these functions come to an end. -/
inductive Ends (c : Context) : List String → Prop
  | intro {names : List String} (h : ∀ name ∈ names, ∀ r, c.routine? name = some r → Ends c r.called) : Ends c names

theorem Calls.mono (h : c.Calls names name) (more : ∀ n ∈ names, n ∈ names') : c.Calls names' name := by
  cases h with
  | direct member => exact .direct (more _ member)
  | deeper member found calls => exact .deeper (more _ member) found calls

theorem Uses.mono {x : Nat} (h : c.Uses names x) (more : ∀ n ∈ names, n ∈ names') : c.Uses names' x := by
  obtain ⟨name, r, calls, found, holds⟩ := h
  exact ⟨name, r, calls.mono more, found, holds⟩

theorem Uses.body {x : Nat} (found : c.routine? name = some r) (h : c.Uses r.called x) : c.Uses [name] x := by
  obtain ⟨other, r', calls, found', holds⟩ := h
  exact ⟨other, r', .deeper (by simp) found calls, found', holds⟩

theorem Uses.frame {x : Nat} (found : c.routine? name = some r) (holds : r.Holds x) : c.Uses [name] x :=
  ⟨name, r, .direct (by simp), found, holds⟩

theorem not_uses_nil (x : Nat) : ¬ c.Uses [] x := by
  rintro ⟨_, _, calls, -, -⟩
  cases calls with
  | direct member => cases member
  | deeper member => cases member

theorem Ends.nil : c.Ends [] := .intro fun _ member => by cases member

theorem Ends.cons (first : c.Ends [name]) (later : c.Ends names) : c.Ends (name :: names) := by
  cases first with
  | intro first =>
    cases later with
    | intro later =>
      refine .intro fun n member r found => ?_
      rcases List.mem_cons.mp member with rfl | member
      · exact first n (by simp) r found
      · exact later n member r found

/-- A function whose calls come to an end does not come back to itself. -/
theorem Ends.not_calls (ends : c.Ends names) (calls : c.Calls names name) (found : c.routine? name = some r) :
    ¬ c.Calls r.called name := by
  induction ends generalizing name r with
  | intro h ih =>
    cases calls with
    | direct member => exact fun again => ih name member r found again found again
    | deeper member found' later => exact ih _ member _ found' later found

/-- The address is one of the code of a function. -/
def InFunction (c : Context) (x : Nat) : Prop :=
  ∃ name r, c.routine? name = some r ∧ c.address (.function name) ≤ x ∧ x < c.address (.function name) + r.steps.size

/-- What the functions of a program have to do with its code and its memory. -/
structure Working (c : Context) (p : Program) : Prop where
  label : ∀ l, c.address l < maxCode
  routine : ∀ {name arity}, c.Knows (.function name) → c.functions.lookup name = some arity →
    ∃ r, c.routine? name = some r ∧ r.arity = arity
  lies : ∀ {name r}, c.routine? name = some r →
    p.HasCode (c.address (.function name)) (r.steps.place c.address (c.address (.function name)))
  reach : ∀ {name r}, c.routine? name = some r → c.address (.function name) + r.steps.size < maxCode
  proper : ∀ {name r}, c.routine? name = some r → r.body.Proper c.functions
  known : ∀ {name r}, c.routine? name = some r → ∀ other ∈ r.called, c.Knows (.function other)
  frame : ∀ {name r}, c.routine? name = some r → frameCell < r.frame ∧ r.frame + r.arity ≤ maxPointer
  apart : ∀ {name name' r r' x}, c.routine? name = some r → c.routine? name' = some r' → r.Holds x → r'.Holds x →
    name = name'

/-- The machine has not left the code from `start` to `stop`, functions apart. -/
inductive Busy (c : Context) (start stop : Nat) (m m' : Machine) : Prop
  | start (some : start < stop) (pc : m.pc = start) (same : m' = m)
  | inside (after : start < m'.pc) (before : m'.pc < stop) (calls : m'.calls = m.calls)
  | called (inside : c.InFunction m'.pc) (deeper : m.calls.size < m'.calls.size)

/-- The machine is on its way through the code from `start` to `stop`, and has changed no more than `cells`. -/
structure Going (c : Context) (p : Program) (cells : Nat → Prop) (fresh : Prop) (start stop : Nat) (m m' : Machine) :
    Prop where
  healthy : p.Healthy m'
  alters : m.Alters cells fresh m'
  busy : c.Busy start stop m m'

/-- The machine is past steps that call `names`; they have left so many values. -/
structure Past (c : Context) (names : List String) (stop height : Nat) (base : List Value) (m m' : Machine) : Prop where
  pc : m'.pc = stop
  calls : m'.calls = m.calls
  alters : m.Alters (c.Uses names) False m'
  values : ∃ top, top.length = height ∧ m'.values = top ++ base
  ends : c.Ends names

/-- What evaluation may change on its way. -/
def Touches (c : Context) (names : List String) (x : Nat) : Prop := x = frameCell ∨ c.Uses names x

/-- A function is at work since it was called. -/
structure Serving (c : Context) (p : Program) (name : String) (m m' : Machine) : Prop where
  healthy : p.Healthy m'
  alters : m.Alters (c.Touches [name]) False m'
  inside : c.InFunction m'.pc
  deeper : m.calls.size ≤ m'.calls.size

/-- A function has returned. -/
structure Served (c : Context) (name : String) (back : Nat) (base : List Value) (m m' : Machine) : Prop where
  pc : m'.pc = back
  calls : m'.calls = m.calls.dropTop
  alters : m.Alters (c.Uses [name]) False m'
  values : ∃ v, m'.values = v :: base
  ends : c.Ends [name]

/-- For `n` instructions, a called function is at work or has returned. -/
def Callable (c : Context) (p : Program) (n : Nat) : Prop :=
  ∀ {name : String} {r : Routine} {m : Machine} {back : Nat} {args base : List Value},
    c.routine? name = some r → r.arity < 0x8000 → m.pc = c.address (.function name) → m.calls.top? = some back →
      m.values = args ++ base → args.length = r.arity → p.Unless (c.Serving p name m) (c.Served name back base m) n m

end Context

end Language

/-- What becomes of the stack and the index by instructions that only work on them, one after the other. -/
def Code.turns (memory : Array Value) (ends : List Value → Nat → Prop) : Code → List Value → Nat → Prop
  | [], values, idx => ends values idx
  | i :: rest, values, idx => i.stored.turns memory values idx (Code.turns memory ends rest)

theorem Instruction.turns.mono {i : Instruction} {memory : Array Value} {values : List Value} {idx : Nat}
    {ends ends' : List Value → Nat → Prop} (h : i.turns memory values idx ends)
    (more : ∀ values idx, ends values idx → ends' values idx) : i.turns memory values idx ends' := by
  revert h
  unfold Instruction.turns
  repeat' split
  all_goals first
    | exact id
    | exact more _ _
    | rintro ⟨v, found, h⟩; exact ⟨v, found, more _ _ h⟩
    | rintro ⟨address, v, place, found, h⟩; exact ⟨address, v, place, found, more _ _ h⟩

theorem Code.turns.mono {code : Code} {memory : Array Value} {values : List Value} {idx : Nat}
    {ends ends' : List Value → Nat → Prop} (h : code.turns memory ends values idx)
    (more : ∀ values idx, ends values idx → ends' values idx) : code.turns memory ends' values idx := by
  induction code generalizing values idx with
  | nil => exact more _ _ h
  | cons i rest ih => exact Instruction.turns.mono h fun _ _ => ih

namespace Language.Context

variable {c : Context} {p : Program} {m m₁ m' : Machine} {cells cells' : Nat → Prop} {fresh fresh' : Prop}
  {start start' stop stop' n : Nat} {ends : Machine → Prop}

/-- What holds from a later place on holds from an earlier one. -/
theorem Going.after (h : c.Going p cells' fresh' start' stop' m₁ m') (alters : m.Alters cells fresh m₁)
    (calls : m₁.calls = m.calls) (further : start < start') (within : stop' ≤ stop) (more : ∀ x, cells' x → cells x)
    (more' : fresh' → fresh) : c.Going p cells fresh start stop m m' := by
  refine ⟨h.healthy, alters.trans (h.alters.mono more more'), ?_⟩
  cases h.busy with
  | start some pc same =>
    subst same
    exact .inside (pc ▸ further) (by omega) calls
  | inside after before calls' => exact .inside (by omega) (by omega) (calls'.trans calls)
  | called inside deeper => exact .called inside (calls ▸ deeper)

theorem Going.mono (h : c.Going p cells' fresh' start stop' m m') (within : stop' ≤ stop)
    (more : ∀ x, cells' x → cells x) (more' : fresh' → fresh) : c.Going p cells fresh start stop m m' := by
  refine ⟨h.healthy, h.alters.mono more more', ?_⟩
  cases h.busy with
  | start some pc same => exact .start (Nat.lt_of_lt_of_le some within) pc same
  | inside after before calls => exact .inside after (Nat.lt_of_lt_of_le before within) calls
  | called inside deeper => exact .called inside deeper

theorem Going.here (healthy : p.Healthy m) (pc : m.pc = start) (some : start < stop) :
    c.Going p cells fresh start stop m m :=
  ⟨healthy, .refl _ _ _, .start some pc rfl⟩

/-- One instruction of a piece of code that goes on. -/
theorem unless_branch (healthy : p.Healthy m) (pc : m.pc = start) (some : start < stop)
    (later : ∀ k m₁, p.Carries m m₁ → ∃ next, start < next ∧ m.Alters cells fresh m₁ ∧ m₁.calls = m.calls ∧
      p.Unless (c.Going p cells fresh next stop m₁) ends k m₁) : p.Unless (c.Going p cells fresh start stop m) ends n m := by
  refine .step (.here healthy pc some) fun m₁ carries k _ => ?_
  obtain ⟨next, further, alters, calls, rest⟩ := later k m₁ carries
  exact rest.mono (fun _ going => going.after alters calls further (Nat.le_refl _) (fun _ => id) id) fun _ => id

theorem unless_next (next : Nat) (healthy : p.Healthy m) (pc : m.pc = start) (some : start < stop) (further : start < next)
    (later : ∀ k m₁, p.Carries m m₁ → m.Alters cells fresh m₁ ∧ m₁.calls = m.calls ∧
      p.Unless (c.Going p cells fresh next stop m₁) ends k m₁) : p.Unless (c.Going p cells fresh start stop m) ends n m :=
  unless_branch healthy pc some fun k m₁ carries => ⟨next, further, later k m₁ carries⟩

/-- Code that only works on the stack and the index, and what comes after it. -/
theorem unless_code (next : Nat) {code : Code} {d d' : Nat} (lies : p.HasCode start code) (pc : m.pc = start)
    (size : start + code.size = next) (level : level d code = some d') (enough : d ≤ m.values.length) (within : next ≤ stop)
    (later : ∀ k m₁, code.turns m.memory (fun values => m.Becomes m₁ next values m.memory) m.values m.idx →
      p.Unless (c.Going p cells fresh next stop m₁) ends k m₁) : p.Unless (c.Going p cells fresh start stop m) ends n m := by
  induction code generalizing start m d n with
  | nil =>
    obtain rfl : start = next := size
    exact later n m ⟨pc, rfl, rfl, rfl, rfl, rfl, rfl⟩
  | cons i rest ih =>
    obtain ⟨found, behind⟩ := lies.cons
    rw [Language.level] at level
    split at level
    · next takes gives shift =>
      split at level
      · next few =>
        rw [Code.size_cons, ← Nat.add_assoc] at size
        have positive := i.size_pos
        rw [← i.shift_stored] at shift
        rw [← pc] at found
        refine unless_next (start + i.size) (Program.healthy_of_shift found shift (Nat.le_trans few enough)) pc (by omega)
          (by omega) fun k m₁ carries => ?_
        have shifted := carries.shifted found shift
        obtain ⟨new, count, values⟩ := shifted.values
        have height : m₁.values.length = m.values.length - takes + gives := by
          rw [values, List.length_append, count, List.length_drop]
          exact Nat.add_comm _ _
        refine ⟨.of_memory shifted.memory shifted.heap shifted.floor, shifted.calls, ?_⟩
        refine ih behind (shifted.pc.trans (congrArg (· + i.size) pc)) size level (by omega) fun k₁ m₂ turned₁ =>
          later k₁ m₂ ((carries.turns found).mono fun values idx first => ?_)
        rw [first.memory, first.values, first.idx] at turned₁
        exact turned₁.mono fun _ _ second => ⟨second.pc, second.values, second.memory, second.idx,
          second.calls.trans first.calls, second.heap.trans first.heap, second.floor.trans first.floor⟩
      · cases level
    · cases level

/-- A value goes from the stack to a cell. -/
theorem unless_set (next : Nat) {address : Nat} {v : Value} {rest : List Value}
    (found : p.instructionAt start = .ok (.pointer .store address, next)) (pc : m.pc = start)
    (values : m.values = v :: rest) (some : start < stop) (further : start < next) (cell : cells address)
    (later : ∀ k m₁, address < m.memory.size → m.Becomes m₁ next rest (m.memory.setIfInBounds address v) m.idx →
      p.Unless (c.Going p cells fresh next stop m₁) ends k m₁) : p.Unless (c.Going p cells fresh start stop m) ends n m := by
  subst pc
  refine unless_next next (Program.healthy_store found values) rfl some further fun k m₁ carries => ?_
  obtain ⟨inside, becomes⟩ := carries.store found values
  exact ⟨.set becomes.memory becomes.heap becomes.floor cell, becomes.calls, later k m₁ inside becomes⟩

theorem Past.after {names names' : List String} {height : Nat} {base : List Value}
    (h : c.Past names stop height base m₁ m') (alters : m.Alters (c.Uses names') False m₁) (calls : m₁.calls = m.calls)
    (more : ∀ n ∈ names, n ∈ names') (ends : c.Ends names → c.Ends names') : c.Past names' stop height base m m' :=
  ⟨h.pc, h.calls.trans calls, alters.trans (h.alters.mono (fun _ uses => uses.mono more) id), h.values, ends h.ends⟩

theorem Past.zero {names : List String} {base : List Value} (h : c.Past names stop 0 base m m') : m'.values = base := by
  obtain ⟨top, none, values⟩ := h.values
  rwa [List.length_eq_zero_iff.mp none] at values

theorem Past.one {names : List String} {base : List Value} (h : c.Past names stop 1 base m m') :
    ∃ v, m'.values = v :: base := by
  obtain ⟨top, one, values⟩ := h.values
  obtain ⟨v, rfl⟩ := List.length_eq_one_iff.mp one
  exact ⟨v, values⟩

theorem Past.two {names : List String} {base : List Value} (h : c.Past names stop 2 base m m') :
    ∃ v w, m'.values = v :: w :: base := by
  obtain ⟨top, two, values⟩ := h.values
  obtain ⟨v, rest, rfl⟩ := List.exists_cons_of_length_eq_add_one two
  obtain ⟨w, rfl⟩ := List.length_eq_one_iff.mp (Nat.succ.inj two)
  exact ⟨v, w, values⟩

theorem Touches.mono {names names' : List String} {x : Nat} (h : c.Touches names x) (more : ∀ n ∈ names, n ∈ names') :
    c.Touches names' x :=
  h.imp_right fun uses => uses.mono more

/-- The first of some steps, and the others behind it. -/
theorem hasCode_cons {address : Nat} {s : Step} {rest : Steps}
    (lies : p.HasCode address (Steps.place c.address address (s :: rest))) :
    p.instructionAt address = .ok ((s.instruction c.address address).stored, address + s.size) ∧
      p.HasCode (address + s.size) (rest.place c.address (address + s.size)) := by
  rw [← Step.size_instruction c.address address s]
  have parts := lies.cons
  rwa [Step.size_instruction] at parts ⊢

theorem hasCode_append {address : Nat} {first second : Steps}
    (lies : p.HasCode address (Steps.place c.address address (first ++ second))) :
    p.HasCode address (first.place c.address address) ∧
      p.HasCode (address + first.size) (second.place c.address (address + first.size)) := by
  rw [Steps.place_append] at lies
  have parts := lies.append
  rwa [Steps.size_place] at parts

/-- Steps with levels go through, as far as the functions that they call do. -/
theorem unless_levels (works : c.Working p) {n : Nat} (callable : ∀ k < n, c.Callable p k) {d d' : Nat} {steps : Steps}
    (levels : Steps.Levels c.functions d steps d') (known : ∀ name ∈ Steps.called steps, c.Knows (.function name))
    (lies : p.HasCode start (steps.place c.address start)) (size : start + steps.size = stop) (small : stop < maxCode)
    {top base : List Value} (pc : m.pc = start) (values : m.values = top ++ base) (height : top.length = d) :
    p.Unless (c.Going p (c.Touches (Steps.called steps)) False start stop m)
      (c.Past (Steps.called steps) stop d' base m) n m := by
  induction levels generalizing n start m top with
  | nil d => exact .now ⟨pc.trans size, rfl, .refl _ _ _, ⟨top, height, values⟩, .nil⟩
  | @fixed i takes gives d d' rest shift enough _ ih =>
    subst pc
    obtain ⟨found, behind⟩ := hasCode_cons lies
    have moves : i.stored.shift = some (takes, gives) := (Instruction.shift_stored i).trans shift
    have length : takes ≤ m.values.length := by
      rw [values, List.length_append]
      omega
    have positive := i.size_pos
    rw [Steps.size_cons, Step.size] at size
    refine .step (.here (Program.healthy_of_shift found moves length) rfl (by omega)) fun m₁ carries k less => ?_
    have shifted := carries.shifted found moves
    obtain ⟨new, count, values'⟩ := shifted.values
    have alters {cells : Nat → Prop} : m.Alters cells False m₁ := .of_memory shifted.memory shifted.heap shifted.floor
    have left : m₁.values = (new ++ top.drop takes) ++ base := by
      rw [values', List.append_assoc]
      change new ++ m.values.drop takes = _
      rw [values, List.drop_append_of_le_length (by omega)]
    refine (ih (fun j lt => callable j (Nat.lt_trans lt less)) known behind ?_ shifted.pc left ?_).mono
      (fun _ going => going.after alters shifted.calls ?_ (Nat.le_refl _) (fun _ => id) id)
      (fun _ past => past.after alters shifted.calls (fun _ => id) id)
    · rw [Step.size, Nat.add_assoc, size]
    · rw [List.length_append, count, List.length_drop]
      omega
    · exact Nat.lt_add_of_pos_right positive
  | @fail code d d' rest other _ ih =>
    subst pc
    obtain ⟨found, behind⟩ := hasCode_cons lies
    rw [Steps.size_cons] at size
    have three : Step.size (.fixed (.short .fail code)) = 3 := rfl
    refine .step (.here (Program.healthy_fail other found) rfl (by omega)) fun m₁ carries k less => ?_
    exact absurd carries (Program.not_carries_fail found)
  | @skip op distance d d' covered rest branch length silent _ _ through beyond =>
    subst pc
    obtain ⟨found, behind⟩ := hasCode_cons lies
    have names : Steps.called (.skip op distance :: (covered ++ rest)) = Steps.called rest := by
      change Steps.called (covered ++ rest) = _
      rw [Steps.called_append, silent, List.nil_append]
    have names' : Steps.called (covered ++ rest) = Steps.called rest := by
      rw [Steps.called_append, silent, List.nil_append]
    rw [names] at known ⊢
    rw [Steps.size_cons, Steps.size_append] at size
    have three : Step.size (.skip op distance) = 3 := rfl
    cases top with
    | nil => cases height
    | cons v top =>
      have stack : m.values = v :: (top ++ base) := values
      have fallen (m₁ : Machine) (k : Nat) (less : k < n) (becomes : m.Becomes m₁ (m.pc + 3) (top ++ base) m.memory m.idx) :
          p.Unless (c.Going p (c.Touches (Steps.called rest)) False m.pc stop m)
            (c.Past (Steps.called rest) stop d' base m) k m₁ := by
        have alters {cells : Nat → Prop} : m.Alters cells False m₁ :=
          .of_memory becomes.memory becomes.heap becomes.floor
        have passed := through (n := k) (m := m₁) (fun j lt => callable j (Nat.lt_trans lt less)) (by rwa [names'])
          behind (by rw [Steps.size_append]; omega) becomes.pc becomes.values (Nat.succ.inj height)
        rw [names'] at passed
        exact passed.mono (fun _ going => going.after alters becomes.calls (by omega) (Nat.le_refl _) (fun _ => id) id)
          fun _ past => past.after alters becomes.calls (fun _ => id) id
      have jumped (m₁ : Machine) (k : Nat) (less : k < n)
          (becomes : m.Becomes m₁ (m.pc + distance) (top ++ base) m.memory m.idx) :
          p.Unless (c.Going p (c.Touches (Steps.called rest)) False m.pc stop m)
            (c.Past (Steps.called rest) stop d' base m) k m₁ := by
        have alters {cells : Nat → Prop} : m.Alters cells False m₁ :=
          .of_memory becomes.memory becomes.heap becomes.floor
        have there : p.HasCode (m.pc + distance) (rest.place c.address (m.pc + distance)) := by
          have second := (hasCode_append behind).2
          rwa [three, Nat.add_assoc, length] at second
        have passed := beyond (n := k) (m := m₁) (fun j lt => callable j (Nat.lt_trans lt less)) known there
          (by omega) becomes.pc becomes.values (Nat.succ.inj height)
        exact passed.mono (fun _ going => going.after alters becomes.calls (by omega) (Nat.le_refl _) (fun _ => id) id)
          fun _ past => past.after alters becomes.calls (fun _ => id) id
      have target : jumpAddress (jumpOperand (m.pc + distance)) = m.pc + distance :=
        jumpAddress_jumpOperand (by omega)
      rcases branch with rfl | rfl
      · refine .step (.here (Program.healthy_jz found stack) rfl (by omega)) fun m₁ carries k less => ?_
        obtain ⟨b, -, becomes⟩ := carries.jz found stack
        rw [target] at becomes
        cases b with
        | true => exact fallen m₁ k less becomes
        | false => exact jumped m₁ k less becomes
      · refine .step (.here (Program.healthy_jnz found stack) rfl (by omega)) fun m₁ carries k less => ?_
        obtain ⟨b, -, becomes⟩ := carries.jnz found stack
        rw [target] at becomes
        cases b with
        | true => exact jumped m₁ k less becomes
        | false => exact fallen m₁ k less becomes
  | @call name arity d d' rest lookup few _ ih =>
    subst pc
    obtain ⟨found, behind⟩ := hasCode_cons lies
    have names : Steps.called (.jump .call (.function name) :: rest) = name :: Steps.called rest := rfl
    rw [names] at known ⊢
    rw [Steps.size_cons] at size
    have three : Step.size (.jump .call (.function name)) = 3 := rfl
    obtain ⟨r, isRoutine, rfl⟩ := works.routine (known name (by simp)) lookup
    have reach := works.reach isRoutine
    refine .step (.here (Program.healthy_call found) rfl (by omega)) fun m₁ carries k less => ?_
    have called := carries.call found
    rw [jumpAddress_jumpOperand (by omega)] at called
    have split : m₁.values = top.take r.arity ++ (top.drop r.arity ++ base) := by
      rw [← List.append_assoc, List.take_append_drop, ← values, called]
      rfl
    have calls : m₁.calls = m.calls.insert (m.pc + 3) := by rw [called]; rfl
    have pc₁ : m₁.pc = c.address (.function name) := by rw [called]
    have alters {cells : Nat → Prop} : m.Alters cells False m₁ := by
      refine .of_memory ?_ ?_ ?_ <;> rw [called] <;> rfl
    have serves := callable k less isRoutine few pc₁ (calls ▸ Stack.top?_insert _ _) split
      (by rw [List.length_take]; omega)
    have only : ∀ n ∈ [name], n ∈ name :: Steps.called rest := by simp
    refine Program.Unless.trans (serves.mono (fun x serving => ?_) fun _ => id) fun k' le m₂ served => ?_
    · refine ⟨serving.healthy, alters.trans (serving.alters.mono (fun _ touches => touches.mono only) id),
        .called serving.inside ?_⟩
      have deeper := serving.deeper
      rw [calls, Stack.size_insert] at deeper
      omega
    · obtain ⟨v, values₂⟩ := served.values
      have calls₂ : m₂.calls = m.calls := by rw [served.calls, calls, Stack.dropTop_insert]
      have alters₂ : m.Alters (c.Uses (name :: Steps.called rest)) False m₂ :=
        alters.trans (served.alters.mono (fun _ uses => uses.mono only) id)
      have left : m₂.values = (v :: top.drop r.arity) ++ base := values₂
      have passed := ih (n := k') (fun j lt => callable j (by omega)) (fun n member => known n (by simp [member])) behind
        (by omega) served.pc left (by rw [List.length_cons, List.length_drop]; omega)
      exact passed.mono
        (fun _ going => going.after (alters₂.mono (fun _ => .inr) id) calls₂ (by omega) (Nat.le_refl _)
          (fun _ touches => touches.mono (by simp +contextual)) id)
        fun _ past => past.after alters₂ calls₂ (by simp +contextual) (Ends.cons served.ends)

/-- The arguments are in the frame, and the frame pointer of the caller is saved. -/
structure Entered (r : Routine) (stop : Nat) (base : List Value) (m m' : Machine) : Prop where
  pc : m'.pc = stop
  calls : m'.calls = m.calls
  values : m'.values = base
  alters : m.Alters (fun x => x = frameCell ∨ r.Holds x) False m'
  pointer : m'.memory[frameCell]? = some (.pointer r.frame)
  saved : m'.memory[r.frame]? = m.memory[frameCell]?

/-- The cell of a place in a frame. -/
theorem shifted_eq {frame i address : Nat} (frameSmall : frame ≤ maxPointer) (few : i < 0x8000)
    (h : Value.shifted frame (Int16.ofNat i).toInt = address) : address = frame + i := by
  rw [Int16.toInt_ofNat_of_lt (by omega), Value.shifted, if_pos (by unfold maxPointer at frameSmall; omega)] at h
  omega

theorem shifted_zero {frame address : Nat} (frameSmall : frame ≤ maxPointer)
    (h : Value.shifted frame (0 : Int16).toInt = address) : address = frame :=
  shifted_eq frameSmall (by decide) h

/-- Arguments go from the stack to their places. -/
theorem unless_arguments {r : Routine} (few : r.arity < 0x8000) (small : r.frame ≤ maxPointer) {places : List Nat}
    (inside : ∀ i ∈ places, i < r.arity) {n : Nat} {args base : List Value} (pc : m.pc = start)
    (lies : p.HasCode start (places.map fun i => .short .storeX (Int16.ofNat (i + 1)))) (idx : m.idx = r.frame)
    (values : m.values = args ++ base) (length : args.length = places.length) (size : start + 3 * places.length = stop) :
    p.Unless (c.Going p (fun x => r.frame < x ∧ r.Holds x) False start stop m)
      (fun m' => m'.pc = stop ∧ m'.calls = m.calls ∧ m'.values = base ∧ m'.idx = r.frame ∧
        m.Alters (fun x => r.frame < x ∧ r.Holds x) False m') n m := by
  induction places generalizing n m start args with
  | nil =>
    cases args with
    | nil => exact .now ⟨pc.trans size, rfl, values, idx, .refl _ _ _⟩
    | cons => cases length
  | cons i places ih =>
    subst pc
    rw [List.map_cons] at lies
    obtain ⟨found, behind⟩ := lies.cons
    have three : Instruction.size (.short .storeX (Int16.ofNat (i + 1))) = 3 := rfl
    rw [List.length_cons] at size
    cases args with
    | nil => cases length
    | cons v args =>
      have stack : m.values = v :: (args ++ base) := values
      refine .step (.here (Program.healthy_storeX found stack) rfl (by omega)) fun m₁ carries k _ => ?_
      obtain ⟨address, place, -, becomes⟩ := carries.storeX found stack
      have known := inside i (by simp)
      have cell : address = r.frame + (i + 1) := shifted_eq small (by omega) (idx ▸ place)
      have alters : m.Alters (fun x => r.frame < x ∧ r.Holds x) False m₁ :=
        .set becomes.memory becomes.heap becomes.floor ⟨by omega, by omega, by omega⟩
      refine (ih (fun j member => inside j (by simp [member])) becomes.pc behind (becomes.idx.trans idx) becomes.values
        (Nat.succ.inj length) (by omega)).mono (fun _ going => going.after alters becomes.calls (by omega) (Nat.le_refl _)
          (fun _ => id) id) ?_
      rintro m' ⟨pc', calls', values', idx', alters'⟩
      exact ⟨pc', calls'.trans becomes.calls, values', idx', alters.trans alters'⟩

theorem argumentCount_eq {arity : Nat} (few : arity < 0x8000) : Command.argumentCount arity = arity := by
  rw [Command.argumentCount, Int16.toInt_ofNat_of_lt (by omega)]
  rfl

theorem size_map_storeX (places : List Nat) :
    Code.size (places.map fun i => .short .storeX (Int16.ofNat (i + 1))) = 3 * places.length := by
  induction places with
  | nil => rfl
  | cons i rest ih =>
    rw [List.map_cons, Code.size_cons, ih, Instruction.size_short, List.length_cons]
    omega

/-- The frame of the caller goes to the first cell of the frame, which becomes the active one. -/
theorem unless_enter {r : Routine} (few : r.arity < 0x8000) (frame : frameCell < r.frame ∧ r.frame + r.arity ≤ maxPointer)
    {n : Nat} {args base : List Value} (pc : m.pc = start)
    (lies : p.HasCode start (Command.enterCode r.frame r.arity)) (values : m.values = args ++ base)
    (length : args.length = r.arity) (size : start + 16 + 3 * r.arity = stop) :
    p.Unless (c.Going p (fun x => x = frameCell ∨ r.Holds x) False start stop m) (Entered r stop base m) n m := by
  have whole : r.frame % 0x200000 = r.frame := Nat.mod_eq_of_lt (by unfold maxPointer at frame; omega)
  have count : (List.range r.arity).reverse.length = r.arity := by simp
  rw [Command.enterCode, argumentCount_eq few, List.append_assoc] at lies
  change p.HasCode start ([.pointer .setIdx r.frame, .pointer .load frameCell] ++ _) at lies
  obtain ⟨lies₁, lies⟩ := lies.append
  obtain ⟨found₂, lies⟩ := lies.cons
  change p.instructionAt (start + 8) = .ok (.short .storeX 0, start + 11) at found₂
  change p.HasCode (start + 11) (_ ++ ([.plain .pushIdx] ++ [.pointer .store frameCell])) at lies
  obtain ⟨places, lies⟩ := lies.append
  obtain ⟨lies₄, lies⟩ := lies.append
  obtain ⟨found₅, -⟩ := lies.cons
  rw [size_map_storeX, count] at lies₄ found₅
  refine unless_code (start + 8) lies₁ pc rfl rfl (Nat.zero_le _) (by omega) fun _ m₂ turned => ?_
  obtain ⟨v, loaded, b₂⟩ := turned
  rw [whole] at b₂
  rw [← b₂.pc] at found₂
  refine .step (.here (Program.healthy_storeX found₂ b₂.values) b₂.pc (by omega))
    fun m₃ carries₃ _ _ => ?_
  obtain ⟨address, place, bound, b₃⟩ := carries₃.storeX found₂ b₂.values
  obtain rfl : address = r.frame := shifted_zero (by omega) (b₂.idx ▸ place)
  have alters₃ : m₂.Alters (fun x => x = frameCell ∨ r.Holds x) False m₃ :=
    .set b₃.memory b₃.heap b₃.floor (.inr ⟨Nat.le_refl _, Nat.le_add_right _ _⟩)
  have saved₃ : m₃.memory[r.frame]? = m.memory[frameCell]? := by
    rw [b₃.memory, Array.getElem?_setIfInBounds_self_of_lt bound]
    exact loaded.symm
  have stored := unless_arguments (c := c) (n := ‹Nat›) few (by omega) (by simp) b₃.pc places (b₃.idx.trans b₂.idx)
    (b₃.values.trans values) (length.trans count.symm) rfl
  rw [count] at stored
  refine Program.Unless.trans (stored.mono (fun _ going => going.after alters₃ b₃.calls (by omega)
    (by omega) (fun x inside => .inr inside.2) id) fun _ => id) ?_
  rintro k - m₄ ⟨pc₄, calls₄, values₄, idx₄, arguments⟩
  have alters₄ : m₂.Alters (fun x => x = frameCell ∨ r.Holds x) False m₄ :=
    alters₃.trans (arguments.mono (fun x inside => .inr inside.2) id)
  have calls₄ := calls₄.trans b₃.calls
  suffices p.Unless (c.Going p (fun x => x = frameCell ∨ r.Holds x) False (start + 11 + 3 * r.arity) stop m₄)
      (Entered r stop base m) k m₄ from
    this.mono (fun _ going => going.after alters₄ calls₄ (by omega) (Nat.le_refl _) (fun _ => id) id) fun _ => id
  refine unless_code (start + 11 + 3 * r.arity + 1) lies₄ pc₄ rfl rfl (Nat.zero_le _) (by omega) fun _ m₅ b₅ => ?_
  rw [idx₄, values₄] at b₅
  refine unless_set (start + 11 + 3 * r.arity + 5) found₅ b₅.pc b₅.values (by omega)
    (by omega) (.inl rfl) fun _ m₆ inside b₆ => .now ?_
  have alters₆ : m₅.Alters (fun x => x = frameCell ∨ r.Holds x) False m₆ := .set b₆.memory b₆.heap b₆.floor (.inl rfl)
  refine ⟨by rw [b₆.pc]; omega, b₆.calls.trans (b₅.calls.trans (calls₄.trans b₂.calls)), b₆.values,
    .trans (.of_memory b₂.memory b₂.heap b₂.floor) (alters₄.trans (.trans (.of_memory b₅.memory b₅.heap b₅.floor) alters₆)), ?_, ?_⟩
  · rw [b₆.memory]
    exact Array.getElem?_setIfInBounds_self_of_lt inside
  · have apart : frameCell ≠ r.frame := by omega
    rw [b₆.memory]
    refine (Array.getElem?_setIfInBounds_ne apart).trans ?_
    rw [b₅.memory, arguments.same fun holds => Nat.lt_irrefl _ holds.1, saved₃]

/-- The frame of the caller becomes the active one again. -/
theorem unless_leave {frame : Nat} (small : frame ≤ maxPointer) (other : frameCell ≠ frame) {n back : Nat} {v : Value}
    {base : List Value} (pc : m.pc = start) (lies : p.HasCode start Command.leaveCode) (values : m.values = v :: base)
    (top : m.calls.top? = some back) (pointer : m.memory[frameCell]? = some (.pointer frame))
    (size : start + 15 = stop) :
    p.Unless (c.Going p (· = frameCell) False start stop m)
      (fun m' => m'.pc = back ∧ m'.calls = m.calls.dropTop ∧ m'.values = v :: base ∧
        m.Alters (· = frameCell) False m' ∧ m'.memory[frameCell]? = m.memory[frame]?) n m := by
  change p.HasCode start ((frameCode ++ [.short .loadX 0]) ++ _) at lies
  obtain ⟨load, lies⟩ := lies.append
  obtain ⟨found₁, lies⟩ := lies.cons
  obtain ⟨found₂, -⟩ := lies.cons
  change p.instructionAt (start + 14) = .ok (.plain .ret, _) at found₂
  refine unless_code (start + 10) load pc rfl rfl (Nat.zero_le _) (by omega) fun _ m₁ turned => ?_
  obtain ⟨cell, target, there, read, address, saved, place, loaded, b₁⟩ := turned
  obtain rfl : cell = frameCell := shifted_zero (by decide) there
  cases pointer.symm.trans read
  obtain rfl := shifted_zero small place
  refine unless_set (start + 14) found₁ b₁.pc b₁.values (by omega) (by omega) rfl fun _ m₂ inside b₂ => ?_
  rw [← b₂.pc] at found₂
  refine .step (.here (Program.healthy_ret found₂) b₂.pc (by omega)) fun m₃ carries _ _ => .now ?_
  obtain ⟨back', top', rfl⟩ := carries.ret found₂
  have calls₂ := b₂.calls.trans b₁.calls
  rw [calls₂, top] at top'
  cases top'
  refine ⟨rfl, congrArg Stack.dropTop calls₂, b₂.values.trans values,
    .set (by rw [← b₁.memory]; exact b₂.memory) (b₂.heap.trans b₁.heap) (b₂.floor.trans b₁.floor) rfl, ?_⟩
  change m₂.memory[frameCell]? = _
  rw [b₂.memory, loaded]
  exact Array.getElem?_setIfInBounds_self_of_lt inside

theorem steps_eq (r : Routine) :
    r.steps = Steps.ofCode (Command.enterCode r.frame r.arity) ++ (r.body.code ++ Steps.ofCode Command.leaveCode) := by
  rw [Routine.steps, Command.code, Expr.codeBefore_eq]

theorem size_enterCode {r : Routine} (few : r.arity < 0x8000) :
    Steps.size (Steps.ofCode (Command.enterCode r.frame r.arity)) = 16 + 3 * r.arity := by
  rw [Steps.size_ofCode, Command.enterCode, argumentCount_eq few, Code.size_append, Code.size_append, size_map_storeX,
    List.length_reverse, List.length_range]
  simp only [Code.size_cons, Code.size_nil, Instruction.size_pointer, Instruction.size_short, Instruction.size_plain]
  omega

/-- A called function comes back with one value, if it comes back. -/
theorem callable (works : c.Working p) (n : Nat) : c.Callable p n := by
  induction n using Nat.strongRecOn with
  | ind n callable =>
    intro name r m back args base found few pc top values length
    have lies := works.lies found
    have frame := works.frame found
    have reach := works.reach found
    have calledSize : Steps.size (Steps.ofCode Command.leaveCode) = 15 := rfl
    rw [← pc] at lies reach
    rw [steps_eq] at lies
    obtain ⟨enter, lies⟩ := hasCode_append lies
    obtain ⟨body, leave⟩ := hasCode_append lies
    rw [Steps.place_ofCode] at enter leave
    have size : r.steps.size = 16 + 3 * r.arity + (r.body.code.size + 15) := by
      rw [steps_eq, Steps.size_append, Steps.size_append, size_enterCode few, calledSize]
    rw [size_enterCode few] at body leave
    have within {x : Nat} (after : m.pc ≤ x) (before : x < m.pc + r.steps.size) : c.InFunction x :=
      ⟨name, r, found, pc ▸ after, pc ▸ before⟩
    -- What happens between the two ends of its code is the work of the function.
    have serving {x : Machine} (going : c.Going p (c.Touches [name]) False m.pc (m.pc + r.steps.size) m x) :
        c.Serving p name m x := by
      refine ⟨going.healthy, going.alters, ?_, ?_⟩
      · cases going.busy with
        | start some _ same =>
          subst same
          exact within (Nat.le_refl _) some
        | inside after before => exact within (Nat.le_of_lt after) before
        | called inside => exact inside
      · cases going.busy with
        | start _ _ same =>
          subst same
          exact Nat.le_refl _
        | inside _ _ calls => exact Nat.le_of_eq (congrArg Stack.size calls).symm
        | called _ deeper => exact Nat.le_of_lt deeper
    have framed {x : Nat} (h : x = frameCell ∨ r.Holds x) : c.Touches [name] x := h.imp_right (.frame found)
    refine Program.Unless.mono ?_ (fun _ => serving) fun _ => id
    refine ((unless_enter few frame rfl enter values length rfl).mono
      (fun x going => going.mono (by omega) (fun _ => framed) id) fun _ => id).trans fun k₁ le₁ m₁ entered => ?_
    have alters₁ := entered.alters.mono (fun _ => framed) id
    have levels := (works.proper found).levels (by omega)
    have empty : m₁.values = [] ++ base := entered.values
    have evaluated := unless_levels works (n := k₁) (fun k less => callable k (by omega)) levels (works.known found)
      (by rw [Nat.add_assoc]; exact body) rfl (by omega) entered.pc empty rfl
    refine (evaluated.mono (fun x going => going.after alters₁ entered.calls (by omega) (by omega) ?_ id)
      fun _ => id).trans fun k₂ le₂ m₂ past => ?_
    · rintro x (same | uses)
      · exact .inl same
      · exact .inr (uses.body found)
    obtain ⟨v, values₂⟩ := past.one
    have unused {x : Nat} (holds : r.Holds x) : ¬ c.Uses r.called x := by
      rintro ⟨other, r', calls, found', holds'⟩
      obtain rfl := works.apart found found' holds holds'
      exact past.ends.not_calls calls found calls
    have zero : ¬ c.Uses r.called frameCell := by
      rintro ⟨other, r', -, found', holds'⟩
      exact Nat.not_lt_of_le holds'.1 (works.frame found').1
    have first : r.Holds r.frame := ⟨Nat.le_refl _, Nat.le_add_right _ _⟩
    have alters₂ := alters₁.trans (past.alters.mono (fun x uses => .inr (uses.body found)) id)
    have calls₂ := past.calls.trans entered.calls
    have left := unless_leave (c := c) (n := k₂) (Nat.le_trans (Nat.le_add_right _ _) frame.2) (Nat.ne_of_lt frame.1) past.pc
      (by rw [Nat.add_assoc m.pc 16]; exact leave) values₂ (calls₂ ▸ top)
      (by rw [past.alters.same zero, entered.pointer]) rfl
    refine (left.mono (fun x going => going.after alters₂ calls₂ (by omega) (by omega) (fun _ => .inl) id)
      fun _ => id).trans ?_
    rintro k₃ - m₃ ⟨pc₃, calls₃, values₃, alters₃, restored⟩
    refine .now ⟨pc₃, calls₂ ▸ calls₃, ?_, ⟨v, values₃⟩, ?_⟩
    · -- The frame pointer went to the first cell of the frame, which the body has not touched.
      have whole := alters₂.trans (alters₃.mono (fun _ => .inl) id)
      have same : m₃.memory[frameCell]? = m.memory[frameCell]? := by
        rw [restored, past.alters.same (unused first), entered.saved]
      refine ⟨whole.floor, whole.size, whole.heap, fun x changed => ?_⟩
      rcases whole.memory x changed with (rfl | uses) | fresh
      · exact absurd same changed
      · exact .inl uses
      · exact .inr fresh
    · refine .intro fun other member r' found' => ?_
      obtain rfl := List.mem_singleton.mp member
      rw [found] at found'
      cases found'
      exact past.ends

end Language.Context

end BasicMachine
