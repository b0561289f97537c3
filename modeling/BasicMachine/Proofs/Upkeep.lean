import BasicMachine.Proofs.Commands
import BasicMachine.Proofs.Labels
import BasicMachine.Proofs.Ledger

/-!
# What reading expressions keeps

An expression may bring new variables, texts and arrays, and each of them gets the next free cells. It makes no commands
and leaves what is owed. Its calls have as many arguments as their functions take, and its code names no cells but those
of the finished program.
-/
namespace BasicMachine.Language

namespace Steps

/-- The addresses that the instructions of some steps name. -/
def pointers (steps : Steps) : List Nat :=
  steps.filterMap fun s => match s with
    | .fixed i => i.pointer?
    | _ => none

@[simp] theorem pointers_nil : pointers [] = [] := rfl

@[simp] theorem pointers_append (first second : Steps) :
    pointers (first ++ second) = pointers first ++ pointers second :=
  List.filterMap_append

/-- The instructions of the steps name cells below `limit` only. -/
def Below (limit : Nat) (steps : Steps) : Prop := ∀ address ∈ pointers steps, address < limit

variable {limit : Nat} {first second : Steps}

theorem Below.append (h : Below limit first) (h' : Below limit second) : Below limit (first ++ second) := by
  intro address member
  rw [pointers_append] at member
  rcases List.mem_append.mp member with member | member
  · exact h address member
  · exact h' address member

theorem below_of_nil (h : pointers first = []) : Below limit first := by
  intro address member
  rw [h] at member
  cases member

theorem below_of_one {address : Nat} (h : pointers first = [address]) (inside : address < limit) : Below limit first := by
  intro other member
  rw [h, List.mem_singleton] at member
  rwa [member]

theorem below_cons {s : Step} (none : pointers [s] = []) (h : Below limit second) : Below limit (s :: second) :=
  (below_of_nil none).append h

end Steps

/-- The expression is the other one or a part of it. -/
inductive Expr.Part (part : Expr) : Expr → Prop
  | whole : Part part part
  | element {e : Expr} {array : ArrayBlock} {subscripts : List Expr} (member : e ∈ subscripts) (h : Part part e) :
      Part part (.element array subscripts)
  | negate {e : Expr} (h : Part part e) : Part part (.negate e)
  | not {e : Expr} (h : Part part e) : Part part (.not e)
  | left {op : Operator} {left right : Expr} (h : Part part left) : Part part (.binary op left right)
  | right {op : Operator} {left right : Expr} (h : Part part right) : Part part (.binary op left right)
  | builtin {e : Expr} {f : Builtin} {args : List Expr} (member : e ∈ args) (h : Part part e) :
      Part part (.builtin f args)
  | call {e : Expr} {name : String} {args : List Expr} (member : e ∈ args) (h : Part part e) : Part part (.call name args)

def Target.subscripts : Target → List Expr
  | scalar _ => []
  | element _ subscripts => subscripts

/-- The expressions that the code of a command evaluates, their parts apart. -/
def Command.expressions : Command → List Expr
  | branchUnless e _ | print e => [e]
  | assign t e => t.subscripts ++ [e]
  | input t _ | read t _ => t.subscripts
  | function _ _ body => [body]
  | poke address value => [address, value]
  | seed e => e.toList
  | host _ args => args
  | blit x y _ => [x, y]
  | _ => []

/-- The expression reads at most the first `count` parameters. -/
def Expr.Sees (count : Nat) (e : Expr) : Prop :=
  ∀ k, (Expr.variable (.place k)).Part e → ∃ i < count, k = Int16.ofNat (i + 1)

section
variable {count : Nat}

theorem sees_element {array : ArrayBlock} {subscripts : List Expr} (all : ∀ e ∈ subscripts, e.Sees count) :
    (Expr.element array subscripts).Sees count := by
  rintro k (_ | ⟨member, part⟩)
  exact all _ member k part

theorem sees_negate {e : Expr} (h : e.Sees count) : e.negate.Sees count := by
  rintro k (_ | _ | part)
  exact h k part

theorem sees_not {e : Expr} (h : e.Sees count) : e.not.Sees count := by
  rintro k (_ | _ | _ | part)
  exact h k part

theorem sees_binary {op : Operator} {left right : Expr} (first : left.Sees count) (second : right.Sees count) :
    (Expr.binary op left right).Sees count := by
  rintro k (_ | _ | _ | _ | part | part)
  · exact first k part
  · exact second k part

theorem sees_builtin {f : Builtin} {args : List Expr} (all : ∀ e ∈ args, e.Sees count) :
    (Expr.builtin f args).Sees count := by
  rintro k (_ | _ | _ | _ | _ | _ | ⟨member, part⟩)
  exact all _ member k part

theorem sees_call {name : String} {args : List Expr} (all : ∀ e ∈ args, e.Sees count) :
    (Expr.call name args).Sees count := by
  rintro k (_ | _ | _ | _ | _ | _ | _ | ⟨member, part⟩)
  exact all _ member k part

theorem sees_cell (address : Nat) : (Expr.variable (.cell address)).Sees count := by
  rintro k ⟨⟩

theorem sees_integer (n : Int16) : (Expr.integer n).Sees count := by
  rintro k ⟨⟩

theorem sees_float (x : Float32) : (Expr.float x).Sees count := by
  rintro k ⟨⟩

theorem sees_text (address : Nat) : (Expr.text address).Sees count := by
  rintro k ⟨⟩

end

/-- An expression with proper calls whose code names no cells and labels but those of the program. Outside of functions it
reads no parameters. -/
structure Expr.Fine (functions : List (String × Nat)) (last : Context) (inner : List Scope) (e : Expr) : Prop where
  proper : e.Proper functions
  below : Steps.Below last.scopes.highWater e.code
  sound : e.Sound last.Cites
  outer : inner = [] → e.Sees 0

section
variable {functions : List (String × Nat)} {limit : Nat}

/-- The cell that the code of a variable names; a place in a frame is found by the frame pointer. -/
def Slot.named : Slot → Nat
  | .cell address => address
  | .place _ => frameCell

theorem below_load {slot : Slot} (inside : slot.named < limit) : Steps.Below limit (Steps.ofCode slot.load) := by
  cases slot <;> exact Steps.below_of_one rfl inside

theorem below_store {slot : Slot} (inside : slot.named < limit) : Steps.Below limit (Steps.ofCode slot.store) := by
  cases slot <;> exact Steps.below_of_one rfl inside

theorem below_operator (op : Operator) : Steps.Below limit (Steps.ofCode op.code) :=
  Steps.below_of_nil (by cases op <;> rfl)

theorem below_builtin (f : Builtin) : Steps.Below limit (Steps.ofCode f.code) :=
  Steps.below_of_nil (by cases f <;> rfl)

theorem below_arguments {args : List Expr} (h : ∀ e ∈ args, Steps.Below limit e.code) :
    Steps.Below limit (argumentsBefore [] args) := by
  induction args with
  | nil => exact Steps.below_of_nil rfl
  | cons e rest ih =>
    rw [argumentsBefore, Expr.codeBefore_eq]
    exact (h e (by simp)).append (ih fun d member => h d (by simp [member]))

theorem below_inner {subscripts : List Expr} (extents : List Int16) (h : ∀ e ∈ subscripts, Steps.Below limit e.code) :
    Steps.Below limit (innerBefore extents [] subscripts) := by
  induction subscripts generalizing extents with
  | nil => exact Steps.below_of_nil rfl
  | cons e rest ih =>
    rw [innerBefore, Expr.codeBefore_eq]
    refine (Steps.below_of_nil rfl).append ((h e (by simp)).append ((Steps.below_of_nil rfl).append ?_))
    exact ih _ fun d member => h d (by simp [member])

theorem below_index {subscripts : List Expr} (extents : List Int16) (h : ∀ e ∈ subscripts, Steps.Below limit e.code) :
    Steps.Below limit (indexBefore extents [] subscripts) := by
  cases subscripts with
  | nil => exact Steps.below_of_nil rfl
  | cons e rest =>
    rw [indexBefore, Expr.codeBefore_eq]
    refine (h e (by simp)).append ((Steps.below_of_nil rfl).append ?_)
    exact below_inner _ fun d member => h d (by simp [member])

/-- The address of an element of an array. -/
theorem below_check {array : ArrayBlock} (inside : array.base < limit) :
    Steps.Below limit (array.checkSteps ++ Steps.ofCode array.baseCode) :=
  Steps.Below.append (Steps.below_of_nil rfl) (Steps.below_of_one rfl inside)

end

/-- The variable has the cell in a program, or it is a parameter of a function. -/
inductive Slot.Placed (last : Context) (inner : List Scope) (name : String) : Slot → Prop
  | cell {address : Nat} (named : (name, address) ∈ last.scopes.root.names) (above : dataBase ≤ address)
      (inside : address < last.scopes.highWater) : Placed last inner name (.cell address)
  | place (offset : Int16) (some : inner ≠ []) (inside : frameCell < last.scopes.highWater) :
      Placed last inner name (.place offset)

theorem Slot.Placed.inside {last : Context} {inner : List Scope} {name : String} {slot : Slot}
    (h : slot.Placed last inner name) : slot.named < last.scopes.highWater := by
  cases h with
  | cell named above inside => exact inside
  | place offset some inside => exact inside

section
variable {functions : List (String × Nat)} {last : Context} {inner : List Scope}

namespace Expr

theorem fine_integer (n : Int16) : (integer n).Fine functions last inner :=
  ⟨.integer n, Steps.below_of_nil rfl, .fixed (.inl rfl) .nil, fun _ => sees_integer n⟩

theorem fine_float (x : Float32) : (float x).Fine functions last inner :=
  ⟨.float x, Steps.below_of_nil rfl, .fixed (.inl rfl) .nil, fun _ => sees_float x⟩

theorem fine_text {address : Nat} (inside : address < last.scopes.highWater) : (text address).Fine functions last inner :=
  ⟨.text address, Steps.below_of_one rfl inside, .fixed (.inl rfl) .nil, fun _ => sees_text address⟩

theorem fine_variable {slot : Slot} {name : String} (placed : slot.Placed last inner name) :
    (Expr.variable slot).Fine functions last inner := by
  refine ⟨.variable slot, ?_, sound_variable slot, fun root => ?_⟩
  · rw [code, codeBefore, List.append_nil]
    exact below_load placed.inside
  · cases placed with
    | cell => exact sees_cell _
    | place _ some => exact absurd root some

theorem fine_cell {address : Nat} (inside : address < last.scopes.highWater) :
    (Expr.variable (.cell address)).Fine functions last inner :=
  ⟨.variable _, Steps.below_of_one rfl inside, sound_variable _, fun _ => sees_cell address⟩

theorem fine_element {array : ArrayBlock} {subscripts : List Expr} (inside : array.base < last.scopes.highWater)
    (some : subscripts ≠ []) (all : ∀ e ∈ subscripts, e.Fine functions last inner) :
    (element array subscripts).Fine functions last inner := by
  refine ⟨.element some fun e member => (all e member).proper, ?_, sound_element fun e member => (all e member).sound,
    fun root => sees_element fun e member => (all e member).outer root⟩
  rw [code_element, ← List.append_assoc array.checkSteps]
  exact (below_index _ fun e member => (all e member).below).append
    ((below_check inside).append (Steps.below_of_nil rfl))

theorem fine_negate {e : Expr} (h : e.Fine functions last inner) : (negate e).Fine functions last inner := by
  refine ⟨.negate h.proper, ?_, sound_negate h.sound, fun root => sees_negate (h.outer root)⟩
  rw [code_negate]
  exact Steps.below_cons rfl (h.below.append (below_operator _))

theorem fine_not {e : Expr} (h : e.Fine functions last inner) : (not e).Fine functions last inner := by
  refine ⟨.not h.proper, ?_, sound_not h.sound, fun root => sees_not (h.outer root)⟩
  rw [code_not]
  exact h.below.append (Steps.below_of_nil rfl)

theorem fine_binary {op : Operator} {left right : Expr} (first : left.Fine functions last inner)
    (second : right.Fine functions last inner) : (binary op left right).Fine functions last inner := by
  refine ⟨.binary first.proper second.proper, ?_, sound_binary first.sound second.sound,
    fun root => sees_binary (first.outer root) (second.outer root)⟩
  rw [code_binary]
  exact first.below.append (second.below.append (below_operator op))

theorem fine_builtin {f : Builtin} {args : List Expr} (count : args.length = f.arity)
    (all : ∀ e ∈ args, e.Fine functions last inner) : (builtin f args).Fine functions last inner := by
  refine ⟨.builtin count fun e member => (all e member).proper, ?_, sound_builtin fun e member => (all e member).sound,
    fun root => sees_builtin fun e member => (all e member).outer root⟩
  rw [code_builtin]
  exact (below_arguments fun e member => (all e member).below).append (below_builtin f)

theorem fine_call {name : String} {args : List Expr} (known : functions.lookup name = some args.length)
    (all : ∀ e ∈ args, e.Fine functions last inner) (cited : last.Cites (.function name)) :
    (call name args).Fine functions last inner := by
  refine ⟨.call known fun e member => (all e member).proper, ?_, sound_call (fun e member => (all e member).sound) cited,
    fun root => sees_call fun e member => (all e member).outer root⟩
  rw [code_call]
  exact (below_arguments fun e member => (all e member).below).append (Steps.below_of_nil rfl)

end Expr

end

/-- The array has its cells in a program, at least one of them. -/
structure ArrayBlock.Placed (last : Context) (array : ArrayBlock) : Prop where
  named : ∃ name, (name, array) ∈ last.arrays
  above : dataBase ≤ array.base
  inside : array.base + array.length ≤ last.scopes.highWater
  some : 0 < array.length
  short : array.length < 0x8000

theorem ArrayBlock.Placed.base {last : Context} {array : ArrayBlock} (h : array.Placed last) :
    array.base < last.scopes.highWater := by
  have := h.some
  have := h.inside
  omega

inductive Target.Placed (functions : List (String × Nat)) (last : Context) (inner : List Scope) : Target → Prop
  | scalar {name : String} {slot : Slot} (h : slot.Placed last inner name) : Placed functions last inner (.scalar slot)
  | element {array : ArrayBlock} {subscripts : List Expr} (h : array.Placed last) (some : subscripts ≠ [])
      (all : ∀ e ∈ subscripts, e.Fine functions last inner) :
      Placed functions last inner (.element array subscripts)

/-- The label of a function. -/
def Label.isFunction : Label → Bool
  | .function _ => true
  | _ => false

/-- A place that commands of a program may go to. -/
structure Label.Placed (last : Context) (l : Label) : Prop where
  other : l.isFunction = false
  cited : last.Cites l

/-- The loop counts a variable by a step that has a cell. -/
structure ForLoop.Placed (last : Context) (loop : ForLoop) : Prop where
  slot : loop.slot.Placed last [] loop.name
  step : loop.step < last.scopes.highWater
  top : loop.top.Placed last
  exit : loop.exit.Placed last

structure WhileLoop.Placed (last : Context) (loop : WhileLoop) : Prop where
  top : loop.top.Placed last
  exit : loop.exit.Placed last

/-- What a parser starts from: the program that it becomes part of, and what stands so far. -/
structure Setting where
  /-- The context in which all lines are read. -/
  last : Context
  functions : List (String × Nat)
  /-- The first cell behind the DATA items. -/
  start : Nat
  base : dataBase ≤ start
  inner : List Scope := []
  owed : List Block := []
  commands : List Command := []
  /-- The commands before those that are looked at. -/
  older : List Command := []

/-- The context is as the setting tells, and every cell behind the DATA items is held or owed. -/
structure Context.Orderly (s : Setting) (c : Context) : Prop where
  functions : c.functions = s.functions
  inner : c.scopes.inner = s.inner
  commands : c.commands = s.commands
  agrees : Agrees s.functions c.rest
  loops : ∀ loop ∈ c.forLoops, loop.Placed s.last
  whiles : ∀ loop ∈ c.whileLoops, loop.Placed s.last
  short : ∀ entry ∈ c.arrays, 0 < entry.2.length ∧ entry.2.length < 0x8000
  distinct : c.Distinct
  filled : c.Filled s.start s.owed

namespace Context

/-- Only tokens are read, and labels, references and code counted. -/
structure Aside (c c' : Context) : Prop where
  rest : c'.rest <:+ c.rest
  scopes : c'.scopes = c.scopes
  arrays : c'.arrays = c.arrays
  functions : c'.functions = c.functions
  texts : c'.texts = c.texts
  forLoops : c'.forLoops = c.forLoops
  whileLoops : c'.whileLoops = c.whileLoops
  commands : c'.commands = c.commands
  cites : ∀ l, c.Cites l → c'.Cites l
  dataCount : c'.dataCount = c.dataCount

theorem Aside.of_rest {c c' : Context} (rest : c'.rest = c.rest) (scopes : c'.scopes = c.scopes)
    (arrays : c'.arrays = c.arrays) (functions : c'.functions = c.functions) (texts : c'.texts = c.texts)
    (forLoops : c'.forLoops = c.forLoops) (whileLoops : c'.whileLoops = c.whileLoops)
    (commands : c'.commands = c.commands) (cites : ∀ l, c.Cites l → c'.Cites l)
    (count : c'.dataCount = c.dataCount := by rfl) : c.Aside c' :=
  ⟨rest ▸ List.suffix_refl _, scopes, arrays, functions, texts, forLoops, whileLoops, commands, cites, count⟩

theorem Aside.past (c : Context) : c.Aside c.past :=
  ⟨List.tail_suffix _, rfl, rfl, rfl, rfl, rfl, rfl, rfl, fun _ => id, rfl⟩

theorem Aside.labelling (c : Context) : c.Aside c.labelling :=
  .of_rest rfl rfl rfl rfl rfl rfl rfl rfl fun _ h => h.labelling

theorem Aside.referring (c : Context) (l : Label) : c.Aside (c.referring l) :=
  .of_rest rfl rfl rfl rfl rfl rfl rfl rfl fun _ h => h.referring l

theorem Aside.within {c c' : Context} (h : c.Aside c') : c.Within c' :=
  .of_same (by rw [h.scopes]) h.arrays h.texts h.commands h.dataCount h.cites

theorem Aside.blocks {c c' : Context} (h : c.Aside c') : c'.blocks = c.blocks := by
  rw [Context.blocks, Context.blocks, Context.tables, Context.tables, h.scopes, h.arrays, h.texts, h.commands]

variable {s : Setting} {c c' : Context}

theorem Orderly.aside (h : c.Orderly s) (same : c.Aside c') : c'.Orderly s where
  functions := same.functions.trans h.functions
  inner := by rw [same.scopes, h.inner]
  commands := same.commands.trans h.commands
  agrees := h.agrees.suffix same.rest
  loops := same.forLoops ▸ h.loops
  whiles := same.whileLoops ▸ h.whiles
  short := same.arrays ▸ h.short
  distinct := by
    refine ⟨?_, ?_, ?_⟩
    · rw [same.scopes]
      exact h.distinct.names
    · rw [same.arrays]
      exact h.distinct.arrays
    · rw [same.texts]
      exact h.distinct.texts
  filled := by
    rw [Filled, same.scopes, same.blocks]
    exact h.filled

/-- Every block lies before the next free cell. -/
theorem Orderly.inside (h : c.Orderly s) {b : Block} (member : b ∈ c.blocks) :
    s.start ≤ b.first ∧ b.first + b.length ≤ c.scopes.highWater := by
  obtain ⟨row, fills, perm⟩ := h.filled
  exact fills.inside (perm.mem_iff.mpr (List.mem_append_right _ member))

/-- There is a cell for the frame pointer, and one for the cursor. -/
theorem Orderly.cursor (h : c.Orderly s) : cursorCell < c.scopes.highWater := by
  obtain ⟨row, fills, -⟩ := h.filled
  exact Nat.lt_of_lt_of_le (Nat.lt_of_lt_of_le (by decide : cursorCell < dataBase) s.base) fills.le

theorem Orderly.scalar (h : c.Orderly s) {name : String} {address : Nat}
    (member : (name, address) ∈ c.scopes.root.names) : s.start ≤ address ∧ address < c.scopes.highWater := by
  have block : ⟨address, 1⟩ ∈ c.blocks :=
    List.mem_append_left _ (List.mem_append_left _ (List.mem_map.mpr ⟨_, member, rfl⟩))
  exact h.inside block

theorem Orderly.array (h : c.Orderly s) {name : String} {array : ArrayBlock} (member : (name, array) ∈ c.arrays) :
    s.start ≤ array.base ∧ array.base + array.length ≤ c.scopes.highWater := by
  have block : ⟨array.base, array.length⟩ ∈ c.blocks :=
    List.mem_append_left _ (List.mem_append_right _ (List.mem_append_left _ (List.mem_map.mpr ⟨_, member, rfl⟩)))
  exact h.inside block

theorem Orderly.placed (h : c.Orderly s) (inside : c.Within s.last) {name : String} {array : ArrayBlock}
    (member : (name, array) ∈ c.arrays) : array.Placed s.last := by
  obtain ⟨above, below⟩ := h.array member
  exact ⟨⟨name, inside.arrays.subset member⟩, Nat.le_trans s.base above, Nat.le_trans below inside.highWater,
    (h.short _ member).1, (h.short _ member).2⟩

theorem Orderly.textBlock (h : c.Orderly s) {text : String} {address : Nat} (member : (text, address) ∈ c.texts) :
    s.start ≤ address ∧ address + Parser.textCells text ≤ c.scopes.highWater := by
  have block : ⟨address, Parser.textCells text⟩ ∈ c.blocks :=
    List.mem_append_left _ (List.mem_append_right _ (List.mem_append_right _ (List.mem_map.mpr ⟨_, member, rfl⟩)))
  exact h.inside block

theorem Orderly.text (h : c.Orderly s) {text : String} {address : Nat} (member : (text, address) ∈ c.texts) :
    address < c.scopes.highWater := by
  have inside := (h.textBlock member).2
  dsimp only [Parser.textCells] at inside
  omega

/-- One more block at the next free cell. -/
theorem Filled.take {start n : Nat} {owed owed' : List Block} (h : c.Filled start owed)
    (next : c'.scopes.highWater = c.scopes.highWater + n)
    (blocks : (owed' ++ c'.blocks).Perm (⟨c.scopes.highWater, n⟩ :: (owed ++ c.blocks))) : c'.Filled start owed' := by
  obtain ⟨row, fills, perm⟩ := h
  exact ⟨⟨c.scopes.highWater, n⟩ :: row, ⟨next.symm, fills⟩, (perm.cons _).trans blocks.symm⟩

/-- With a new variable. -/
def naming (c : Context) (name : String) : Context := { c with scopes := (c.scopes.defineRoot name).2 }

/-- With a new text. -/
def interning (c : Context) (text : String) : Context :=
  { c.allocating (Parser.textCells text) with texts := (text, c.scopes.highWater) :: c.texts }

/-- With a new array. -/
def dimensioning (c : Context) (name : String) (array : ArrayBlock) : Context :=
  { c.allocating array.length with arrays := (name, array) :: c.arrays }

theorem Within.naming (c : Context) (name : String) : c.Within (c.naming name) :=
  ⟨Nat.le_succ _, List.suffix_cons _ _, List.suffix_refl _, List.suffix_refl _, List.suffix_refl _, fun _ => id, rfl⟩

theorem Within.interning (c : Context) (text : String) : c.Within (c.interning text) :=
  ⟨Nat.le_add_right _ _, List.suffix_refl _, List.suffix_refl _, List.suffix_cons _ _, List.suffix_refl _, fun _ => id, rfl⟩

theorem Within.dimensioning (c : Context) (name : String) (array : ArrayBlock) : c.Within (c.dimensioning name array) :=
  ⟨Nat.le_add_right _ _, List.suffix_refl _, List.suffix_cons _ _, List.suffix_refl _, List.suffix_refl _, fun _ => id, rfl⟩

/-- A key without an entry is none of the keys. -/
theorem not_mem_keys {γ : Type} {key : String} {entries : List (String × γ)} (h : entries.lookup key = none) :
    key ∉ entries.map Prod.fst := by
  intro member
  obtain ⟨entry, there, same⟩ := List.mem_map.mp member
  exact absurd (List.lookup_eq_none_iff.mp h entry there) (by simp [same])

theorem Orderly.allocating (h : c.Orderly s) (n : Nat) :
    (c.allocating n).Orderly { s with owed := ⟨c.scopes.highWater, n⟩ :: s.owed } :=
  ⟨h.functions, h.inner, h.commands, h.agrees, h.loops, h.whiles, h.short, ⟨h.distinct.names, h.distinct.arrays, h.distinct.texts⟩,
    h.filled.take rfl (.refl _)⟩

theorem Orderly.naming (h : c.Orderly s) {name : String} (new : c.scopes.root.names.lookup name = none) :
    (c.naming name).Orderly s :=
  ⟨h.functions, h.inner, h.commands, h.agrees, h.loops, h.whiles, h.short,
    ⟨List.nodup_cons.mpr ⟨not_mem_keys new, h.distinct.names⟩, h.distinct.arrays, h.distinct.texts⟩,
    h.filled.take rfl List.perm_middle⟩

theorem Orderly.interning (h : c.Orderly s) {text : String} (new : c.texts.lookup text = none) :
    (c.interning text).Orderly s := by
  refine ⟨h.functions, h.inner, h.commands, h.agrees, h.loops, h.whiles, h.short,
    ⟨h.distinct.names, h.distinct.arrays, List.nodup_cons.mpr ⟨not_mem_keys new, h.distinct.texts⟩⟩,
    h.filled.take rfl ?_⟩
  have tables : ((c.interning text).tables).Perm (⟨c.scopes.highWater, Parser.textCells text⟩ :: c.tables) :=
    (List.perm_middle.append_left _).trans List.perm_middle
  exact ((tables.append_right _).append_left _).trans List.perm_middle

theorem Orderly.dimensioning (h : c.Orderly s) {name : String} {array : ArrayBlock} (new : c.arrays.lookup name = none)
    (base : array.base = c.scopes.highWater) (some : 0 < array.length) (short : array.length < 0x8000) :
    (c.dimensioning name array).Orderly s := by
  refine ⟨h.functions, h.inner, h.commands, h.agrees, h.loops, h.whiles, ?_,
    ⟨h.distinct.names, List.nodup_cons.mpr ⟨not_mem_keys new, h.distinct.arrays⟩, h.distinct.texts⟩,
    h.filled.take rfl ?_⟩
  · intro entry member
    rcases List.mem_cons.mp member with rfl | member
    · exact ⟨some, short⟩
    · exact h.short entry member
  · have tables : ((c.dimensioning name array).tables).Perm (⟨array.base, array.length⟩ :: c.tables) := List.perm_middle
    rw [base] at tables
    exact ((tables.append_right _).append_left _).trans List.perm_middle

/-- The command holds what was owed for it. -/
theorem Orderly.emitting (h : c.Orderly s) {command : Command} {owed : List Block}
    (held : s.owed = command.frame ++ command.temporaries s.commands.head? ++ owed) :
    (c.emitting command).Orderly { s with owed, commands := command :: s.commands } := by
  refine ⟨h.functions, h.inner, congrArg _ h.commands, h.agrees, h.loops, h.whiles, h.short,
    ⟨h.distinct.names, h.distinct.arrays, h.distinct.texts⟩, ?_⟩
  obtain ⟨row, fills, perm⟩ := h.filled
  refine ⟨row, fills, perm.trans ?_⟩
  rw [held, ← h.commands]
  change (_ ++ _ ++ _ ++ (c.tables ++ _)).Perm (owed ++ (c.tables ++ (command.frame ++ frames c.commands ++
    (command.temporaries c.commands.head? ++ temporaries c.commands))))
  refine List.perm_iff_count.mpr fun b => ?_
  simp only [List.count_append]
  omega

end Context

namespace Parser

variable {α β : Type}

/-- The parser takes nothing back, and leads from contexts of one kind to those of another kind. What `post` tells of its
answer is about the finished program, so it holds for good; `pre` is what is known of earlier answers. -/
structure Keeps (before : Context → Prop) (last : Context) (pre : Prop) (p : Parser α) (after : α → Context → Prop)
    (post : α → Prop) : Prop where
  within : ∀ {c a c'}, p c = .ok (a, c') → c.Within c'
  keeps : ∀ {c a c'}, p c = .ok (a, c') → c'.Within last → pre → before c → after a c' ∧ post a

/-- The parser leaves the setting. -/
abbrev Reads (s : Setting) (pre : Prop) (p : Parser α) (post : α → Prop) : Prop :=
  Keeps (·.Orderly s) s.last pre p (fun _ => (·.Orderly s)) post

section
variable {last : Context} {pre pre' : Prop} {before before' : Context → Prop} {p : Parser α} {f : α → Parser β}
  {after after' : α → Context → Prop} {post : α → Prop} {later : β → Context → Prop} {post' : β → Prop}

theorem keeps_bind (first : Keeps before last pre p after post)
    (second : ∀ a, Keeps (after a) last (pre ∧ post a) (f a) later post') : Keeps before last pre (p >>= f) later post' := by
  refine ⟨fun {c b c''} h => ?_, fun {c b c''} h inside holds start => ?_⟩
  · obtain ⟨a, c', ran, ran'⟩ := bind_eq_ok.mp h
    exact (first.within ran).trans ((second a).within ran')
  · obtain ⟨a, c', ran, ran'⟩ := bind_eq_ok.mp h
    obtain ⟨middle, answered⟩ := first.keeps ran (((second a).within ran').trans inside) holds start
    exact (second a).keeps ran' inside ⟨holds, answered⟩ middle

theorem keeps_weaken {post' : α → Prop} (h : Keeps before last pre p after post) (known : pre' → pre)
    (start : ∀ c, before' c → before c) (ends : ∀ a c, c.Within last → pre' → post a → after a c → after' a c)
    (answered : ∀ a, pre' → post a → post' a) : Keeps before' last pre' p after' post' := by
  refine ⟨h.within, fun ran inside holds begins => ?_⟩
  obtain ⟨middle, answer⟩ := h.keeps ran inside (known holds) (start _ begins)
  exact ⟨ends _ _ inside holds answer middle, answered _ holds answer⟩

theorem keeps_then (first : Keeps before last pre p after fun _ => True)
    (second : ∀ a, Keeps (after a) last pre (f a) later post') : Keeps before last pre (p >>= f) later post' :=
  keeps_bind first fun a => keeps_weaken (second a) And.left (fun _ => id) (fun _ _ _ _ _ => id) fun _ _ => id

theorem keeps_pure {a : α} (ends : ∀ c, pre → before c → after a c) (answered : pre → post a) :
    Keeps before last pre (pure a : Parser α) after post := by
  refine ⟨fun {c b c'} ran => ?_, fun {c b c'} ran _ holds start => ?_⟩
  · obtain ⟨-, rfl⟩ := pure_eq_ok.mp ran
    exact .refl _
  · obtain ⟨rfl, rfl⟩ := pure_eq_ok.mp ran
    exact ⟨ends _ holds start, answered holds⟩

theorem keeps_fail (code : ErrorCode) (detail : String) : Keeps before last pre (fail code detail : Parser α) after post :=
  ⟨fun ran => absurd ran fail_ne_ok, fun ran => absurd ran fail_ne_ok⟩

theorem keeps_fail_bind (code : ErrorCode) (detail : String) :
    Keeps before last pre ((fail code detail : Parser α) >>= f) later post' :=
  ⟨fun ran => absurd ran fail_bind_ne_ok, fun ran => absurd ran fail_bind_ne_ok⟩

theorem keeps_unexpected (expected : String) : Keeps before last pre (unexpected expected : Parser α) after post :=
  ⟨fun ran => absurd ran unexpected_ne_ok, fun ran => absurd ran unexpected_ne_ok⟩

theorem keeps_ite {q : Prop} [Decidable q] {yes no : Parser α} (first : Keeps before last (pre ∧ q) yes after post)
    (second : Keeps before last (pre ∧ ¬ q) no after post) : Keeps before last pre (if q then yes else no) after post := by
  split
  · next h => exact keeps_weaken first (⟨·, h⟩) (fun _ => id) (fun _ _ _ _ _ => id) fun _ _ => id
  · next h => exact keeps_weaken second (⟨·, h⟩) (fun _ => id) (fun _ _ _ _ _ => id) fun _ _ => id

/-- Where the condition tells nothing. -/
theorem keeps_either {q : Prop} [Decidable q] {yes no : Parser α} (first : Keeps before last pre yes after post)
    (second : Keeps before last pre no after post) : Keeps before last pre (if q then yes else no) after post := by
  split
  · exact first
  · exact second

/-- The context tells what the finished program has. -/
theorem keeps_get : Keeps before last pre (get : Parser Context) (fun _ => before) fun c => before c ∧ c.Within last :=
  ⟨fun ran => by cases ran; exact .refl _, fun ran inside _ start => by cases ran; exact ⟨start, start, inside⟩⟩

end

section
variable {s : Setting} {pre : Prop} {p : Parser α} {f : α → Parser β} {post : α → Prop} {post' : β → Prop}

theorem reads_pure {a : α} (answered : pre → post a) : Reads s pre (pure a : Parser α) post :=
  keeps_pure (fun _ _ => id) answered

theorem reads_aside (same : ∀ {c a c'}, p c = .ok (a, c') → c.Aside c') : Reads s pre p fun _ => True :=
  ⟨fun ran => (same ran).within, fun ran _ _ orderly => ⟨orderly.aside (same ran), trivial⟩⟩

theorem reads_peek : Reads s pre peek fun _ => True :=
  reads_aside fun ran => by cases ran; exact .of_rest rfl rfl rfl rfl rfl rfl rfl rfl fun _ => id

theorem reads_skip : Reads s pre skip fun _ => True :=
  reads_aside fun ran => by cases ran; exact .past _

theorem reads_accept (t : Token) : Reads s pre (accept t) fun _ => True :=
  keeps_then reads_peek fun _ => keeps_either (keeps_then reads_skip fun _ => reads_pure fun _ => trivial)
    (reads_pure fun _ => trivial)

theorem reads_expect (t : Token) : Reads s pre (expect t) fun _ => True :=
  keeps_then (reads_accept t) fun _ => keeps_either (reads_pure fun _ => trivial) (keeps_unexpected _)

theorem reads_identifier : Reads s pre identifier fun _ => True :=
  reads_aside fun ran => by obtain ⟨-, rfl⟩ := identifier_eq_ok.mp ran; exact .past _

theorem reads_account (code : Steps) : Reads s pre (account code) fun _ => True :=
  reads_aside fun ran => by cases ran; exact .of_rest rfl rfl rfl rfl rfl rfl rfl rfl fun _ => id

theorem reads_accountCode (code : Code) : Reads s pre (accountCode code) fun _ => True := reads_account _

theorem reads_checkReach : Reads s pre checkReach fun _ => True := by
  refine reads_aside fun ran => ?_
  obtain ⟨-, rfl⟩ := checkReach_eq_ok.mp ran
  exact .of_rest rfl rfl rfl rfl rfl rfl rfl rfl fun _ => id

theorem reads_freshLabel : Reads s pre freshLabel (·.Placed s.last) := by
  refine ⟨fun ran => ?_, fun ran inside _ orderly => ?_⟩
  · cases ran
    exact (Context.Aside.labelling _).within
  · cases ran
    exact ⟨orderly.aside (.labelling _), rfl, inside.cites _ (Nat.lt_succ_self _)⟩

theorem reads_refer {l : Label} (outer : ∀ n, l ≠ .inside n) : Reads s pre (refer l) fun _ => s.last.Cites l := by
  refine ⟨fun ran => ?_, fun ran inside _ orderly => ?_⟩
  · cases ran
    exact (Context.Aside.referring _ l).within
  · cases ran
    exact ⟨orderly.aside (.referring _ l), inside.cites _ (.of_referring outer)⟩

/-- Cells that nothing holds yet are owed. -/
theorem keeps_allocate (n : Nat) : Keeps (·.Orderly s) s.last pre (allocate n)
    (fun address => (·.Orderly { s with owed := ⟨address, n⟩ :: s.owed }))
    fun address => address + n ≤ s.last.scopes.highWater := by
  refine ⟨fun {c a c'} ran => ?_, fun {c a c'} ran inside _ h => ?_⟩
  · cases ran
    exact .allocating c n
  · cases ran
    exact ⟨h.allocating n, inside.highWater⟩

theorem findInner?_eq_place {name : String} {inner : List Scope} {slot : Slot}
    (h : Scopes.findInner? name inner = some slot) : ∃ offset, slot = .place offset ∧ inner ≠ [] := by
  induction inner with
  | nil => cases h
  | cons innermost outer ih =>
    rw [Scopes.findInner?] at h
    split at h
    · cases h
      exact ⟨_, rfl, by simp⟩
    · obtain ⟨offset, rfl, -⟩ := ih h
      exact ⟨offset, rfl, by simp⟩

theorem mem_of_lookup {γ : Type} {key : String} {a : γ} {entries : List (String × γ)} (h : entries.lookup key = some a) :
    (key, a) ∈ entries := by
  obtain ⟨before, after, split, -⟩ := List.lookup_eq_some_iff.mp h
  rw [split]
  simp

theorem resolve_cases {name : String} {slot : Slot} {c c' : Context} (h : resolve name c = .ok (slot, c')) :
    c' = c ∧ c.scopes.find? name = some slot ∨
      c' = c.naming name ∧ slot = .cell c.scopes.highWater ∧ c.scopes.root.names.lookup name = none := by
  have same : resolve name c = .ok ((c.scopes.resolve name).1, { c with scopes := (c.scopes.resolve name).2 }) := rfl
  rw [same] at h
  cases found : c.scopes.find? name with
  | some slot =>
    rw [Scopes.resolve, found] at h
    cases h
    exact .inl ⟨rfl, rfl⟩
  | none =>
    rw [Scopes.resolve, found] at h
    cases h
    simp only [Scopes.find?, Option.orElse_eq_orElse, Option.orElse_eq_or, Option.or_eq_none_iff,
      Option.map_eq_none_iff] at found
    exact .inr ⟨rfl, rfl, found.2⟩

/-- A new variable gets the next cell. -/
theorem reads_resolve (name : String) : Reads s pre (resolve name) (·.Placed s.last s.inner name) := by
  refine ⟨fun {c slot c'} ran => ?_, fun {c slot c'} ran inside _ h => ?_⟩
  · rcases resolve_cases ran with ⟨rfl, -⟩ | ⟨rfl, -, -⟩
    · exact .refl _
    · exact .naming c name
  · rcases resolve_cases ran with ⟨rfl, known⟩ | ⟨rfl, rfl, new⟩
    · refine ⟨h, ?_⟩
      simp only [Scopes.find?, Option.orElse_eq_orElse, Option.orElse_eq_or] at known
      rcases Option.or_eq_some_iff.mp known with inner | ⟨-, root⟩
      · obtain ⟨offset, rfl, some⟩ := findInner?_eq_place inner
        exact .place offset (h.inner ▸ some) (Nat.lt_trans (by decide) (Nat.lt_of_lt_of_le h.cursor inside.highWater))
      · obtain ⟨address, entry, rfl⟩ := Option.map_eq_some_iff.mp root
        have member := mem_of_lookup entry
        obtain ⟨above, below⟩ := h.scalar member
        exact .cell (inside.names.subset member) (Nat.le_trans s.base above) (Nat.lt_of_lt_of_le below inside.highWater)
    · exact ⟨h.naming new, .cell (inside.names.subset List.mem_cons_self) h.cursor inside.highWater⟩

theorem intern_cases {text : String} {address : Nat} {c c' : Context} (h : intern text c = .ok (address, c')) :
    c' = c ∧ (text, address) ∈ c.texts ∨
      c' = c.interning text ∧ address = c.scopes.highWater ∧ c.texts.lookup text = none := by
  rw [intern, get_bind] at h
  cases known : c.texts.lookup text with
  | some address =>
    rw [known] at h
    cases h
    exact .inl ⟨rfl, mem_of_lookup known⟩
  | none =>
    rw [known] at h
    cases h
    exact .inr ⟨rfl, rfl, rfl⟩

/-- A new text gets the next cells. -/
theorem reads_intern (text : String) : Reads s pre (intern text) (· < s.last.scopes.highWater) := by
  refine ⟨fun {c address c'} ran => ?_, fun {c address c'} ran inside _ h => ?_⟩
  · rcases intern_cases ran with ⟨rfl, -⟩ | ⟨rfl, -, -⟩
    · exact .refl _
    · exact .interning c text
  · rcases intern_cases ran with ⟨rfl, member⟩ | ⟨rfl, rfl, new⟩
    · exact ⟨h, Nat.lt_of_lt_of_le (h.text member) inside.highWater⟩
    · refine ⟨h.interning new, Nat.lt_of_lt_of_le ?_ inside.highWater⟩
      exact Nat.lt_add_of_pos_right (Nat.succ_pos _)

/-- The cells of an array are as many as its extents allow, and at least one. -/
theorem arrayLength_eq_ok {name : String} {length result : Nat} {extents : List Int16} {c c' : Context}
    (h : arrayLength name length extents c = .ok (result, c')) (some : 0 < length) (short : length < 0x8000) :
    c' = c ∧ 0 < result ∧ result < 0x8000 ∧ result = extents.foldl (fun n d => n * d.toInt.toNat) length := by
  induction extents generalizing length with
  | nil =>
    obtain ⟨rfl, rfl⟩ := pure_eq_ok.mp h
    exact ⟨rfl, some, short, rfl⟩
  | cons extent rest ih =>
    rw [arrayLength] at h
    split at h
    · exact absurd h fail_bind_ne_ok
    · next positive =>
      dsimp only at h
      split at h
      · exact absurd h fail_bind_ne_ok
      · have : (0 : Int16) < extent := Int16.not_le.mp positive
        have : (0 : Int) < extent.toInt := Int16.lt_iff_toInt_lt.mp this
        have count := ih h (Nat.mul_pos some (by omega)) (by omega)
        exact count

theorem dimension_eq_ok {name : String} {extents : List Int16} {array : ArrayBlock} {c c' : Context}
    (h : dimension name extents c = .ok (array, c')) :
    c' = c.dimensioning name array ∧ c.arrays.lookup name = none ∧ array.base = c.scopes.highWater ∧
      0 < array.length ∧ array.length < 0x8000 ∧ array.extents = extents ∧
      array.length = extents.foldl (fun n d => n * d.toInt.toNat) 1 := by
  rw [dimension, get_bind] at h
  split at h
  · exact absurd h fail_bind_ne_ok
  · next known =>
    obtain ⟨length, d, ran, taken⟩ := bind_eq_ok.mp h
    obtain ⟨rfl, some, short, count⟩ := arrayLength_eq_ok ran (by decide) (by decide)
    rw [allocate_bind, modify_bind] at taken
    obtain ⟨rfl, rfl⟩ := pure_eq_ok.mp taken
    exact ⟨rfl, by rwa [Bool.not_eq_true, Option.isSome_eq_false_iff, Option.isNone_iff_eq_none] at known, rfl, some, short,
      rfl, count⟩

/-- A new array gets the next cells. -/
theorem reads_dimension (name : String) (extents : List Int16) : Reads s pre (dimension name extents) (·.Placed s.last) := by
  refine ⟨fun {c array c'} ran => ?_, fun {c array c'} ran inside _ h => ?_⟩
  · obtain ⟨rfl, -⟩ := dimension_eq_ok ran
    exact .dimensioning c name array
  · obtain ⟨rfl, new, base, some, short, -⟩ := dimension_eq_ok ran
    refine ⟨h.dimensioning new base some short, ⟨name, inside.arrays.subset List.mem_cons_self⟩, ?_, ?_, some, short⟩
    · rw [base]
      exact h.cursor
    · rw [base]
      exact inside.highWater

theorem reads_arrayFor (name : String) {known : Option ArrayBlock} (count : Nat)
    (placed : pre → ∀ array ∈ known, array.Placed s.last) : Reads s pre (arrayFor name known count) (·.Placed s.last) := by
  cases known with
  | none => exact reads_dimension _ _
  | some array => exact keeps_either (reads_pure fun holds => placed holds array rfl) (keeps_fail _ _)

theorem reads_extentAt (name : String) (known : Option ArrayBlock) (i : Nat) :
    Reads s pre (extentAt name known i) fun _ => True := by
  cases known with
  | none => exact reads_pure fun _ => trivial
  | some array =>
    rw [extentAt]
    split
    · exact reads_pure fun _ => trivial
    · exact keeps_fail _ _

end

/-- Every parser of expressions, with the fuel given, leaves the setting and answers what is fine. -/
structure ReadsFinely (fuel : Nat) : Prop where
  expression : ∀ {s : Setting} {pre : Prop} (power : Nat),
    Reads s pre (expression fuel power) (·.Fine s.functions s.last s.inner)
  operators : ∀ {s : Setting} {pre : Prop} (power : Nat) {left : Expr},
    (pre → left.Fine s.functions s.last s.inner) →
      Reads s pre (operators fuel power left) (·.Fine s.functions s.last s.inner)
  operand : ∀ {s : Setting} {pre : Prop}, Reads s pre (operand fuel) (·.Fine s.functions s.last s.inner)
  target : ∀ {s : Setting} {pre : Prop} (name : String),
    Reads s pre (target fuel name) (·.Placed s.functions s.last s.inner)
  subscriptsAfter : ∀ {s : Setting} {pre : Prop} (name : String) (array : Option ArrayBlock) (i : Nat),
    Reads s pre (subscriptsAfter fuel name array i)
      fun es => es ≠ [] ∧ ∀ e ∈ es, e.Fine s.functions s.last s.inner
  expressions : ∀ {s : Setting} {pre : Prop},
    Reads s pre (expressions fuel) fun es => ∀ e ∈ es, e.Fine s.functions s.last s.inner
  arguments : ∀ {s : Setting} {pre : Prop},
    Reads s pre (arguments fuel) fun es => ∀ e ∈ es, e.Fine s.functions s.last s.inner
  builtin : ∀ {s : Setting} {pre : Prop} (f : Builtin),
    Reads s pre (builtin fuel f) (·.Fine s.functions s.last s.inner)
  call : ∀ {s : Setting} {pre : Prop}, Reads s pre (call fuel) (·.Fine s.functions s.last s.inner)

section
variable {s : Setting} {pre : Prop} {fuel : Nat} (ih : ReadsFinely fuel)
include ih

theorem reads_expression (power : Nat) :
    Reads s pre (expression (fuel + 1) power) (·.Fine s.functions s.last s.inner) :=
  keeps_bind ih.operand fun _ => ih.operators power And.right

theorem reads_operators (power : Nat) {left : Expr} (first : pre → left.Fine s.functions s.last s.inner) :
    Reads s pre (operators (fuel + 1) power left) (·.Fine s.functions s.last s.inner) := by
  have stays : Reads s pre (pure left : Parser Expr) (·.Fine s.functions s.last s.inner) := reads_pure first
  refine keeps_then reads_peek fun t => ?_
  rcases t with _ | t
  · exact stays
  cases t with
  | operator op =>
    refine keeps_either (keeps_then reads_skip fun _ => keeps_bind (ih.expression _) fun right => ?_) stays
    exact keeps_then (reads_accountCode _) fun _ =>
      ih.operators power fun holds => Expr.fine_binary (first holds.1) holds.2
  | _ => exact stays

theorem reads_operand : Reads s pre (operand (fuel + 1)) (·.Fine s.functions s.last s.inner) := by
  refine keeps_then reads_peek fun t => ?_
  rcases t with _ | t
  · exact keeps_unexpected _
  cases t with
  | integer n =>
    exact keeps_then reads_skip fun _ => keeps_then (reads_accountCode _) fun _ => reads_pure fun _ => Expr.fine_integer n
  | float x =>
    exact keeps_then reads_skip fun _ => keeps_then (reads_accountCode _) fun _ => reads_pure fun _ => Expr.fine_float x
  | string text =>
    exact keeps_then reads_skip fun _ => keeps_bind (reads_intern text) fun _ =>
      keeps_then (reads_accountCode _) fun _ => reads_pure fun holds => Expr.fine_text holds.2
  | lparen =>
    exact keeps_then reads_skip fun _ => keeps_bind (ih.expression 0) fun _ => keeps_then (reads_expect _) fun _ =>
      reads_pure And.right
  | operator op =>
    cases op with
    | minus =>
      exact keeps_then reads_skip fun _ => keeps_then (reads_accountCode _) fun _ =>
        keeps_bind (ih.expression _) fun _ => keeps_then (reads_accountCode _) fun _ =>
          reads_pure fun holds => Expr.fine_negate holds.2
    | plus => exact keeps_then reads_skip fun _ => ih.expression _
    | _ => exact keeps_unexpected _
  | not =>
    exact keeps_then reads_skip fun _ => keeps_bind (ih.expression _) fun _ => keeps_then (reads_accountCode _) fun _ =>
      reads_pure fun holds => Expr.fine_not holds.2
  | ident name =>
    refine keeps_then reads_skip fun _ => keeps_bind (ih.target name) fun t => ?_
    cases t with
    | scalar slot =>
      refine keeps_then (reads_accountCode _) fun _ => reads_pure fun holds => ?_
      cases holds.2 with
      | scalar placed => exact Expr.fine_variable placed
    | element array subscripts =>
      refine keeps_then (reads_accountCode _) fun _ => reads_pure fun holds => ?_
      cases holds.2 with
      | element placed some all => exact Expr.fine_element placed.base some all
  | builtin f => exact keeps_then reads_skip fun _ => ih.builtin f
  | word k =>
    cases k with
    | FN => exact keeps_then reads_skip fun _ => ih.call
    | _ => exact keeps_unexpected _
  | _ => exact keeps_unexpected _

theorem reads_target (name : String) : Reads s pre (target (fuel + 1) name) (·.Placed s.functions s.last s.inner) := by
  refine keeps_then (reads_accept _) fun opens => keeps_either ?_ ?_
  · refine keeps_bind keeps_get fun c => keeps_bind (ih.subscriptsAfter _ _ _) fun subscripts => ?_
    refine keeps_then (reads_expect _) fun _ => keeps_bind (reads_arrayFor _ _ fun holds array found => ?_) fun array => ?_
    · obtain ⟨⟨-, orderly, inside⟩, -⟩ := holds
      exact orderly.placed inside (mem_of_lookup found)
    · exact keeps_then (reads_account _) fun _ => keeps_then reads_checkReach fun _ =>
        keeps_then (reads_accountCode _) fun _ => reads_pure fun holds => .element holds.2 holds.1.2.1 holds.1.2.2
  · exact keeps_bind (reads_resolve name) fun _ => reads_pure fun holds => .scalar holds.2

theorem reads_subscriptsAfter (name : String) (array : Option ArrayBlock) (i : Nat) :
    Reads s pre (subscriptsAfter (fuel + 1) name array i)
      fun es => es ≠ [] ∧ ∀ e ∈ es, e.Fine s.functions s.last s.inner := by
  have rest : Reads s pre (do
      let e ← expression fuel 0
      accountCode (if 0 < i then ArrayBlock.addCode else ArrayBlock.firstCode)
      if ← accept .comma then return e :: (← subscriptsAfter fuel name array (i + 1)) else return [e])
      fun es => es ≠ [] ∧ ∀ e ∈ es, e.Fine s.functions s.last s.inner := by
    refine keeps_bind (ih.expression 0) fun e => keeps_then (reads_accountCode _) fun _ =>
      keeps_then (reads_accept _) fun more => keeps_either ?_ ?_
    · exact keeps_bind (ih.subscriptsAfter _ _ _) fun _ => reads_pure fun holds =>
        ⟨by simp, List.forall_mem_cons.mpr ⟨holds.1.2, holds.2.2⟩⟩
    · exact reads_pure fun holds => ⟨by simp, List.forall_mem_singleton.mpr holds.2⟩
  refine keeps_either ?_ rest
  exact keeps_then (reads_extentAt _ _ _) fun _ => keeps_then (reads_accountCode _) fun _ => rest

theorem reads_expressions :
    Reads s pre (expressions (fuel + 1)) fun es => ∀ e ∈ es, e.Fine s.functions s.last s.inner := by
  refine keeps_bind (ih.expression 0) fun e => keeps_then (reads_accept _) fun more => keeps_either ?_ ?_
  · exact keeps_bind ih.expressions fun _ => reads_pure fun holds => List.forall_mem_cons.mpr ⟨holds.1.2, holds.2⟩
  · exact reads_pure fun holds => List.forall_mem_singleton.mpr holds.2

theorem reads_arguments :
    Reads s pre (arguments (fuel + 1)) fun es => ∀ e ∈ es, e.Fine s.functions s.last s.inner := by
  refine keeps_then (reads_accept _) fun none => keeps_either (reads_pure fun _ => List.forall_mem_nil _) ?_
  exact keeps_bind ih.expressions fun _ => keeps_then (reads_expect _) fun _ => reads_pure And.right

/-- A call has as many arguments as its function takes. -/
theorem reads_builtin (f : Builtin) :
    Reads s pre (builtin (fuel + 1) f) (·.Fine s.functions s.last s.inner) := by
  have checked {pre : Prop} {args : List Expr}
      (all : pre → ∀ e ∈ args, e.Fine s.functions s.last s.inner) : Reads s pre (do
        if args.length ≠ f.arity then fail .illegalFunctionCall (f.name ++ " TAKES " ++ toString f.arity)
        accountCode f.code
        return .builtin f args : Parser Expr) (·.Fine s.functions s.last s.inner) := by
    refine keeps_ite (keeps_fail_bind _ _) (keeps_then (reads_accountCode _) fun _ => ?_)
    exact reads_pure fun holds => Expr.fine_builtin (Decidable.not_not.mp holds.2) (all holds.1)
  refine keeps_then (reads_accept _) fun opens => keeps_either ?_ (keeps_either ?_ ?_)
  · exact keeps_bind ih.arguments fun args => checked And.right
  · refine keeps_then (reads_accountCode _) fun _ => checked fun _ => ?_
    exact List.forall_mem_singleton.mpr (Expr.fine_integer 1)
  · exact checked fun _ => List.forall_mem_nil _

theorem reads_call : Reads s pre (call (fuel + 1)) (·.Fine s.functions s.last s.inner) := by
  refine keeps_then reads_identifier fun name => keeps_bind keeps_get fun c => ?_
  cases known : c.functions.lookup name with
  | none => exact keeps_fail _ _
  | some arity =>
    have checked {pre : Prop} {args : List Expr} (known : pre → s.functions.lookup name = some arity)
        (all : pre → ∀ e ∈ args, e.Fine s.functions s.last s.inner) : Reads s pre (do
          if args.length ≠ arity then
            fail .illegalFunctionCall ("FN " ++ name ++ " TAKES " ++ toString arity)
          account [.jump .call (.function name)]
          refer (.function name)
          return .call name args : Parser Expr) (·.Fine s.functions s.last s.inner) := by
      refine keeps_ite (keeps_fail_bind _ _) ?_
      refine keeps_then (reads_account _) fun _ => keeps_bind (reads_refer (by simp)) fun _ => reads_pure fun holds => ?_
      exact Expr.fine_call (Decidable.not_not.mp holds.1.2 ▸ known holds.1.1) (all holds.1.1) holds.2
    have found (holds : pre ∧ c.Orderly s ∧ c.Within s.last) : s.functions.lookup name = some arity := by
      rw [← holds.2.1.functions, known]
    refine keeps_then (reads_accept _) fun opens => keeps_either ?_ (checked found fun _ => List.forall_mem_nil _)
    exact keeps_bind ih.arguments fun args => checked (fun holds => found holds.1) And.right

end

theorem readsFinely (fuel : Nat) : ReadsFinely fuel := by
  induction fuel with
  | zero =>
    exact ⟨fun _ => keeps_fail _ _, fun _ _ _ => keeps_fail _ _, keeps_fail _ _, fun _ => keeps_fail _ _,
      fun _ _ _ => keeps_fail _ _, keeps_fail _ _, keeps_fail _ _, fun _ => keeps_fail _ _, keeps_fail _ _⟩
  | succ fuel ih =>
    exact ⟨reads_expression ih, reads_operators ih, reads_operand ih, reads_target ih, reads_subscriptsAfter ih,
      reads_expressions ih, reads_arguments ih, reads_builtin ih, reads_call ih⟩

theorem reads_expressionsN {s : Setting} {pre : Prop} (fuel n : Nat) : Reads s pre (expressionsN fuel n)
    fun es => es.length = n ∧ ∀ e ∈ es, e.Fine s.functions s.last s.inner := by
  induction n generalizing pre with
  | zero => exact reads_pure fun _ => ⟨rfl, List.forall_mem_nil _⟩
  | succ n ih =>
    cases n with
    | zero =>
      exact keeps_bind ((readsFinely fuel).expression 0) fun _ =>
        reads_pure fun holds => ⟨rfl, List.forall_mem_singleton.mpr holds.2⟩
    | succ n =>
      refine keeps_bind ((readsFinely fuel).expression 0) fun e => keeps_then (reads_expect _) fun _ => ?_
      exact keeps_bind ih fun _ => reads_pure fun holds =>
        ⟨congrArg (· + 1) holds.2.1, List.forall_mem_cons.mpr ⟨holds.1.2, holds.2.2⟩⟩

end Parser

end BasicMachine.Language
