import BasicMachine.Assembly.Layout
import BasicMachine.Program.Image
import BasicMachine.Proofs.Pointers
import BasicMachine.Proofs.Workings

/-!
# Pointers of compiled programs

Compiled code pushes IDX in one place only: where a function is entered, behind a SETIDX and instructions that keep it.
No jump leads in between, so that what is pushed is an operand. The pointers of a compiled program then fit their packed
form whatever the size of the memory is.
-/
namespace BasicMachine

open Language

/-- The instruction is one of those between the SETIDX and the PUSHIDX of a function. -/
def Instruction.keepsIdx : Instruction → Bool
  | .pointer .load _ | .short .storeX _ => true
  | _ => false

namespace Language

/-- Code that pushes IDX only behind a SETIDX, with instructions in between that keep it. -/
inductive Guarded : Code → Prop
  | nil : Guarded []
  | cons {i : Instruction} {rest : Code} (other : i ≠ .plain .pushIdx) (later : Guarded rest) : Guarded (i :: rest)
  | enter (address : Nat) {kept rest : Code} (keeps : kept.all Instruction.keepsIdx = true) (later : Guarded rest) :
      Guarded (.pointer .setIdx address :: (kept ++ .plain .pushIdx :: rest))

theorem Guarded.append {first second : Code} (h : Guarded first) (h' : Guarded second) : Guarded (first ++ second) := by
  induction h with
  | nil => exact h'
  | cons other _ ih => exact .cons other ih
  | enter address keeps _ ih =>
    rw [List.cons_append, List.append_assoc, List.cons_append]
    exact .enter address keeps ih

theorem Guarded.flatMap {α : Type} {f : α → Code} {list : List α} (h : ∀ a ∈ list, Guarded (f a)) :
    Guarded (list.flatMap f) := by
  induction list with
  | nil => exact .nil
  | cons a rest ih =>
    exact (h a List.mem_cons_self).append (ih fun b member => h b (List.mem_cons_of_mem a member))

/-- The step pushes IDX. -/
def Step.pushesIdx : Step → Bool
  | .fixed (.plain .pushIdx) => true
  | _ => false

section
variable {steps : Steps} (link : Label → Nat)

theorem guarded_place (h : steps.any Step.pushesIdx = false) (address : Nat) : Guarded (steps.place link address) := by
  induction steps generalizing address with
  | nil => exact .nil
  | cons s rest ih =>
    rw [List.any_cons, Bool.or_eq_false_iff] at h
    refine .cons ?_ (ih h.2 _)
    cases s with
    | fixed i =>
      rintro same
      cases same
      cases h.1
    | _ => exact nofun

end

mutual

theorem Expr.any_pushesIdx : (e : Expr) → e.code.any Step.pushesIdx = false
  | .integer _ | .float _ | .text _ => rfl
  | .variable slot => by cases slot <;> rfl
  | .element array subscripts => by
    rw [Expr.code_element, List.any_append, any_index]
    rfl
  | .negate e => by
    rw [Expr.code_negate, List.any_cons, List.any_append, e.any_pushesIdx]
    rfl
  | .not e => by
    rw [Expr.code_not, List.any_append, e.any_pushesIdx]
    rfl
  | .binary op left right => by
    rw [Expr.code_binary, List.any_append, List.any_append, left.any_pushesIdx, right.any_pushesIdx]
    cases op <;> rfl
  | .builtin f args => by
    rw [Expr.code_builtin, List.any_append, any_arguments]
    cases f <;> rfl
  | .call name args => by
    rw [Expr.code_call, List.any_append, any_arguments]
    rfl

theorem any_arguments : (args : List Expr) → (argumentsBefore [] args).any Step.pushesIdx = false
  | [] => rfl
  | e :: rest => by rw [argumentsBefore, e.codeBefore_eq, List.any_append, e.any_pushesIdx, any_arguments rest]; rfl

theorem any_index (extents : List Int16) : (subscripts : List Expr) →
    (indexBefore extents [] subscripts).any Step.pushesIdx = false
  | [] => rfl
  | e :: rest => by
    rw [indexBefore, e.codeBefore_eq, List.any_append, List.any_append, e.any_pushesIdx, any_inner _ rest]
    rfl

theorem any_inner (extents : List Int16) : (subscripts : List Expr) →
    (innerBefore extents [] subscripts).any Step.pushesIdx = false
  | [] => rfl
  | e :: rest => by
    rw [innerBefore, e.codeBefore_eq, List.any_append, List.any_append, List.any_append, e.any_pushesIdx,
      any_inner _ rest]
    rfl

end

theorem Target.any_address (t : Target) : t.address.any Step.pushesIdx = false := by
  cases t with
  | scalar slot => rfl
  | element array subscripts =>
    rw [address, indexBefore_eq, List.any_append, any_index]
    rfl

theorem Target.any_store (t : Target) : (Steps.ofCode t.store).any Step.pushesIdx = false := by
  cases t with
  | scalar slot => cases slot <;> rfl
  | element array subscripts => rfl

/-- The body of a function and its end. -/
def Command.bodySteps (body : Expr) : Steps := body.codeBefore (Steps.ofCode leaveCode)

theorem Command.any_bodySteps (body : Expr) : (bodySteps body).any Step.pushesIdx = false := by
  rw [bodySteps, body.codeBefore_eq, List.any_append, body.any_pushesIdx]
  rfl

/-- Only the code of a function pushes IDX. -/
theorem Command.any_pushesIdx {command : Command} (other : ∀ frame arity body, command ≠ .function frame arity body) :
    command.code.any Step.pushesIdx = false := by
  cases command with
  | function frame arity body => exact absurd rfl (other frame arity body)
  | mark _ | jump _ | call _ | ret | halt | yield | write _ | prompt _ => rfl
  | branchUnless e l => rw [code, e.codeBefore_eq, List.any_append, e.any_pushesIdx]; rfl
  | branchOn cell n equal l => cases equal <;> rfl
  | testLoop slot limit step exit => cases slot <;> rfl
  | assign t e =>
    rw [code, e.codeBefore_eq, List.any_append, List.any_append, t.any_address, e.any_pushesIdx, t.any_store]; rfl
  | print e => rw [code, e.codeBefore_eq, List.any_append, e.any_pushesIdx]; rfl
  | input t isText =>
    rw [code, Steps.ofCode_append, List.any_append, List.any_append, t.any_address]
    cases isText <;> exact t.any_store
  | read t count =>
    rw [code, Steps.ofCode_append, List.any_append, List.any_append, List.any_append, t.any_address, t.any_store]; rfl
  | poke address value =>
    rw [code, address.codeBefore_eq, value.codeBefore_eq, List.any_append, List.any_cons, List.any_append,
      address.any_pushesIdx, value.any_pushesIdx]; rfl
  | swap left right => cases left <;> cases right <;> rfl
  | seed e =>
    cases e with
    | none => rfl
    | some e => rw [code, e.codeBefore_eq, List.any_append, e.any_pushesIdx]; rfl
  | host request args => rw [code, argumentsBefore_eq, List.any_append, any_arguments]; rfl
  | blit x y array =>
    rw [code, x.codeBefore_eq, y.codeBefore_eq, List.any_append, List.any_append, x.any_pushesIdx, y.any_pushesIdx]; rfl

theorem Command.guarded_enterCode (frame arity : Nat) : Guarded (enterCode frame arity) := by
  rw [enterCode, List.append_assoc, List.cons_append, ← List.append_assoc]
  refine .enter frame ?_ (.cons (by simp) .nil)
  simp [Instruction.keepsIdx]

theorem Command.code_function (frame arity : Nat) (body : Expr) :
    code (.function frame arity body) = Steps.ofCode (enterCode frame arity) ++ bodySteps body := rfl

section
variable (link : Label → Nat)

theorem Command.guarded (command : Command) (address : Nat) : Guarded (command.code.place link address) := by
  by_cases entered : ∃ frame arity body, command = .function frame arity body
  · obtain ⟨frame, arity, body, rfl⟩ := entered
    rw [code_function, Steps.place_append, Steps.place_ofCode]
    exact (guarded_enterCode frame arity).append (guarded_place link (any_bodySteps body) _)
  · exact guarded_place link (any_pushesIdx fun frame arity body same => entered ⟨frame, arity, body, same⟩) address

theorem guarded_commands (commands : List Command) (address : Nat) :
    Guarded (Steps.place link address (commands.flatMap Command.code)) := by
  induction commands generalizing address with
  | nil => exact .nil
  | cons command rest ih =>
    rw [List.flatMap_cons, Steps.place_append]
    exact (command.guarded link address).append (ih _)

end

theorem guarded_clearCode (start count : Nat) : Guarded (clearCode start count) := by
  fun_induction clearCode start count with
  | case1 => exact .nil
  | case2 start count some n ih => exact .cons (by simp) (.cons (by simp) ih)

theorem guarded_entryCode (limit : Nat) (texts : List (String × Nat)) (items : List Value) :
    Guarded (entryCode limit texts items) := by
  have start : Guarded
      [.pointer .pushP 0, .pointer .store frameCell, .short .pushI 0, .pointer .store cursorCell] :=
    .cons nofun (.cons nofun (.cons nofun (.cons nofun .nil)))
  refine (((start.append (guarded_clearCode _ _)).append (.flatMap fun text _ => ?_)).append
    (.flatMap fun item _ => ?_)).append (.cons nofun .nil)
  · exact .cons nofun (.cons nofun .nil)
  · exact .cons nofun (.cons nofun .nil)

/-- An address of code that jumps may lead to: what is pushed from there on is set from there on. -/
def Door (code : Code) (address : Nat) : Prop :=
  ∃ (before : Code) (i : Instruction) (rest : Code), code = before ++ i :: rest ∧ before.size = address ∧ Guarded (i :: rest)

/-- An address between a SETIDX and its PUSHIDX. -/
def Inner (code : Code) (address : Nat) : Prop :=
  ∃ before kept rest : Code, code = before ++ (kept ++ .plain .pushIdx :: rest) ∧ before.size = address ∧
    kept.all Instruction.keepsIdx = true ∧ Guarded rest

namespace Context

variable {c : Context} {values : List Value}

theorem guarded_entry (c : Context) (values : List Value) : Guarded (c.entry values) := guarded_entryCode _ _ _

theorem entry_ne_nil : c.entry values ≠ [] := by
  obtain ⟨setup, split, -⟩ := entryCode_eq c.scopes.highWater c.texts.reverse values
  rw [entry, split]
  simp

/-- Code that is guarded up to its end, with the entry block behind it. -/
theorem door_of_main {before after : Steps} (split : c.main = before ++ after)
    (guarded : Guarded (after.place c.address before.size)) : Door (c.code values) before.size := by
  have whole : c.code values = before.place c.address 0 ++ (after.place c.address before.size ++ c.entry values) := by
    rw [code, split, Steps.place_append, Nat.zero_add, List.append_assoc]
  cases rest : after.place c.address before.size ++ c.entry values with
  | nil => exact absurd (List.append_eq_nil_iff.mp rest).2 entry_ne_nil
  | cons i later =>
    refine ⟨before.place c.address 0, i, later, rest ▸ whole, Steps.size_place .., ?_⟩
    rw [← rest]
    exact guarded.append (guarded_entry c values)

theorem door_of_label {l : Label} {address : Nat} (member : (l, address) ∈ c.labels) : Door (c.code values) address := by
  obtain ⟨before, after, split, rfl⟩ := mem_labelsFrom.mp member
  rw [Nat.zero_add]
  have parts : c.main = before.flatMap Command.code ++ (Command.mark l :: after).flatMap Command.code := by
    rw [main, split, List.flatMap_append]
  exact door_of_main parts (guarded_commands _ _ _)

/-- The command that a step of a program belongs to. -/
theorem command_of_step {commands : List Command} {before after : Steps} {s : Step}
    (split : commands.flatMap Command.code = before ++ s :: after) :
    ∃ older command newer first last, commands = older ++ command :: newer ∧ command.code = first ++ s :: last ∧
      before = older.flatMap Command.code ++ first ∧ after = last ++ newer.flatMap Command.code := by
  induction commands generalizing before with
  | nil => simp at split
  | cons command rest ih =>
    rw [List.flatMap_cons] at split
    rcases append_eq_append_cons split with ⟨last, inside, rfl⟩ | ⟨first, rfl, later⟩
    · exact ⟨[], command, rest, before, last, rfl, inside, rfl, rfl⟩
    · obtain ⟨older, other, newer, start, last, rfl, inside, rfl, rfl⟩ := ih later
      exact ⟨command :: older, other, newer, start, last, rfl, inside, by simp, rfl⟩

/-- Behind a jump over code of a command, the command pushes no IDX. -/
theorem any_of_skip {command : Command} {first last : Steps} {op : ShortOp} {distance : Nat}
    (split : command.code = first ++ .skip op distance :: last) : last.any Step.pushesIdx = false := by
  have rest {steps before : Steps} (h : steps.any Step.pushesIdx = false)
      (split : steps = before ++ .skip op distance :: last) : last.any Step.pushesIdx = false := by
    rw [split, List.any_append, List.any_cons, Bool.or_eq_false_iff, Bool.or_eq_false_iff] at h
    exact h.2.2
  by_cases entered : ∃ frame arity body, command = .function frame arity body
  · obtain ⟨frame, arity, body, rfl⟩ := entered
    rw [Command.code_function] at split
    rcases append_eq_append_cons split with ⟨_, inside, -⟩ | ⟨before, rfl, inside⟩
    · have member : Step.skip op distance ∈ Steps.ofCode (Command.enterCode frame arity) := by
        rw [inside]
        simp
      obtain ⟨i, -, same⟩ := List.mem_map.mp member
      cases same
    · exact rest (Command.any_bodySteps body) inside
  · exact rest (Command.any_pushesIdx fun frame arity body same => entered ⟨frame, arity, body, same⟩) split

theorem tame_of_jumps {op : ShortOp} {n : Int16} (jump : jumps op = true) : tame (.short op n) = false := by
  cases op <;> first | rfl | cases jump

/-- Every jump of a program leads to a door. -/
theorem door_of_jump {p : Program} (h : Finished c values p) {before after : Code} {op : ShortOp} {n : Int16}
    (split : c.code values = before ++ .short op n :: after) (jump : jumps op = true) :
    Door (c.code values) (Action.jumpAddress n) := by
  obtain ⟨checked, small, -⟩ := link_eq_ok h.linked
  have short := main_size_lt small
  rcases append_eq_append_cons split with ⟨rest, inside, -⟩ | ⟨rest, -, inside⟩
  · obtain ⟨first, s, last, whole, rfl, same⟩ := Steps.place_eq_append_cons inside
    rw [Nat.zero_add] at same
    rcases (sound_main h.sound).cases whole with ⟨i, rfl, simple⟩ | ⟨_, l, rfl, -, known⟩ | ⟨_, distance, -, -, rfl, -⟩
    · obtain rfl : Instruction.short op n = i := same
      rcases simple with simple | simple
      · exact absurd (tame_of_emitted simple) (by simp [tame_of_jumps jump])
      · cases simple
    · cases same
      have member := address_mem_labels checked known
      obtain ⟨_, _, parts, size⟩ := boundary_of_mem_labels member
      rw [jumpAddress_jumpOperand]
      · exact door_of_label member
      · rw [parts, Steps.size_append] at short
        omega
    · cases same
      obtain ⟨older, command, newer, start, behind, commands, own, rfl, rfl⟩ := command_of_step whole
      have sounds := h.soundness (show command ∈ c.program by rw [commands]; simp)
      rcases sounds.cases own with ⟨_, impossible, -⟩ | ⟨_, _, impossible, -⟩ | ⟨_, _, covered, rest, same, -, rfl, size⟩
      · cases impossible
      · cases impossible
      cases same
      have quiet := any_of_skip own
      rw [List.any_append, Bool.or_eq_false_iff] at quiet
      have parts : c.main = (older.flatMap Command.code ++ start ++ .skip op distance :: covered) ++
          (rest ++ newer.flatMap Command.code) := by
        rw [whole]
        simp
      have target : Steps.size (older.flatMap Command.code ++ start ++ .skip op distance :: covered) =
          Steps.size (older.flatMap Command.code ++ start) + distance := by
        rw [Steps.size_append, Steps.size_cons, Step.size, size]
      rw [← target, jumpAddress_jumpOperand]
      · refine door_of_main parts ?_
        rw [Steps.place_append]
        exact (guarded_place _ quiet.2 _).append (guarded_commands _ _ _)
      · rw [parts, Steps.size_append] at short
        omega
  · obtain ⟨setup, parts, simple⟩ := entryCode_eq c.scopes.highWater c.texts.reverse values
    rw [entry, parts] at inside
    have zero : n = 0 := by
      rcases append_eq_append_cons inside with ⟨_, there, -⟩ | ⟨between, -, there⟩
      · exact absurd (List.all_eq_true.mp simple (.short op n) (by rw [there]; simp)) (by simp [tame_of_jumps jump])
      · cases between with
        | nil => cases there; rfl
        | cons _ _ => simp at there
    subst zero
    exact door_of_main (List.nil_append _).symm (guarded_commands _ _ _)

/-- What an instruction at a door leads to: other doors, or, if it is the SETIDX of a function, its PUSHIDX. -/
theorem leads_of_door {p : Program} (h : Finished c values p) {doors : List Nat}
    (all : ∀ address, address ∈ doors ↔ Door (c.code values) address) {address : Nat} (door : address ∈ doors) :
    ∃ (i : Instruction) (next : Nat), p.instructionAt address = .ok (i.stored, next) ∧ i ≠ .plain .pushIdx ∧
      ((∃ target, i = .pointer .setIdx target ∧ Inner (c.code values) next) ∨ Leads doors next i.stored) := by
  obtain ⟨before, i, rest, split, rfl, guarded⟩ := (all address).mp door
  have lies := hasCode_of_link h.linked
  rw [split] at lies
  have found := lies.append.2.cons.1
  rw [Nat.zero_add] at found
  refine ⟨i, _, found, ?_⟩
  have short {op : ShortOp} {n : Int16} (same : i.stored = .short op n) : i = .short op n := by
    cases i <;> cases same
    rfl
  cases guarded with
  | enter target keeps later =>
    refine ⟨nofun, .inl ⟨target, rfl, before ++ [.pointer .setIdx target], _, _, ?_, ?_, keeps, later⟩⟩
    · rw [split, List.append_assoc, List.singleton_append]
    · rw [Code.size_append, Code.size_cons, Code.size_nil, Nat.add_zero]
  | cons other later =>
    refine ⟨other, .inr ?_⟩
    have closed := closed_of_link h.linked h.sound
    obtain ⟨_, _, again, leads⟩ := closed.leads before.size (Code.mem_starts.mpr ⟨before, i, rest, split, by simp⟩)
    rw [found] at again
    cases again
    rcases leads with ⟨n, same, -⟩ | ⟨further, leads⟩
    · exact .inl ⟨n, same, (all _).mpr (door_of_jump h (short same ▸ split) rfl)⟩
    · have next : before.size + i.size ∈ doors := by
        cases rest with
        | nil =>
          obtain ⟨first, j, _, parts, size⟩ := Code.mem_starts.mp further
          have same := congrArg Code.size (split.symm.trans parts)
          have some : 0 < j.size := Nat.succ_pos _
          rw [Code.size_append, Code.size_append, Code.size_cons, Code.size_cons, Code.size_nil] at same
          omega
        | cons j rest =>
          refine (all _).mpr ⟨before ++ [i], j, rest, ?_, ?_, later⟩
          · rw [split, List.append_assoc, List.singleton_append]
          · rw [Code.size_append, Code.size_cons, Code.size_nil, Nat.add_zero]
      refine .inr ⟨next, ?_⟩
      rcases leads with simple | same | ⟨op, n, same, jump, -⟩
      · exact .inl simple
      · exact .inr (.inl same)
      · exact .inr (.inr ⟨op, n, same, jump, (all _).mpr (door_of_jump h (short same ▸ split) jump)⟩)

/-- On the way to a PUSHIDX. -/
theorem step_of_inner {p : Program} (h : Finished c values p) {doors : List Nat}
    (all : ∀ address, address ∈ doors ↔ Door (c.code values) address) {address : Nat}
    (inner : Inner (c.code values) address) :
    ∃ (i : Instruction) (next : Nat), p.instructionAt address = .ok (i, next) ∧
      (i.keepsIdx = true ∨ i = .plain .pushIdx) ∧ (Inner (c.code values) next ∨ next ∈ doors) := by
  obtain ⟨before, kept, rest, split, rfl, keeps, guarded⟩ := inner
  have lies := hasCode_of_link h.linked
  cases kept with
  | nil =>
    rw [List.nil_append] at split
    rw [split] at lies
    refine ⟨_, _, Nat.zero_add before.size ▸ lies.append.2.cons.1, .inr rfl, .inr ?_⟩
    cases rest with
    | nil =>
      -- The code does not end with PUSHIDX.
      obtain ⟨setup, parts, -⟩ := entryCode_eq c.scopes.highWater c.texts.reverse values
      rw [code, entry, parts, ← List.append_assoc] at split
      have last := congrArg List.getLast? split
      simp at last
    | cons j rest =>
      refine (all _).mpr ⟨before ++ [.plain .pushIdx], j, rest, ?_, ?_, guarded⟩
      · rw [split, List.append_assoc, List.singleton_append]
      · rw [Code.size_append, Code.size_cons, Code.size_nil, Nat.add_zero]
  | cons i kept =>
    rw [List.all_cons, Bool.and_eq_true] at keeps
    rw [List.cons_append] at split
    rw [split] at lies
    refine ⟨_, _, Nat.zero_add before.size ▸ lies.append.2.cons.1, .inl ?_, .inl ⟨before ++ [i], kept, rest, ?_, ?_, keeps.2,
      guarded⟩⟩
    · have keeps := keeps.1
      unfold Instruction.keepsIdx at keeps
      split at keeps
      · rfl
      · rfl
      · cases keeps
    · rw [split, List.append_assoc, List.singleton_append]
    · rw [Code.size_append, Code.size_cons, Code.size_nil, Nat.add_zero]

end Context

end Language

/-- The program counter is at a door, or on the way to a PUSHIDX with an index that fits; calls return to doors. -/
structure Machine.Fenced (code : Code) (doors : List Nat) (m : Machine) : Prop where
  place : m.pc ∈ doors ∨ Inner code m.pc ∧ m.idx ≤ maxPointer
  calls : ∀ address ∈ m.calls.items, address ∈ doors
  start : m.status = .ready → m.start = none

/-- Where the machine is, and its index. -/
def Machine.stand (m : Machine) : Nat × Stack Nat × Status × Nat := (m.pc, m.calls, m.status, m.idx)

namespace Action

variable {stand : Nat × Stack Nat × Status × Nat}

theorem stands_push (v : Value) : Preserves (fun m : Machine => m.stand = stand) (fun _ => True) (push v) where
  ok kept same := by
    rw [push_apply] at same
    split at same <;> cases same
    exact ⟨kept, trivial⟩
  error kept same := by
    rw [push_apply] at same
    split at same <;> cases same
    exact kept

theorem stands_pop : Preserves (fun m : Machine => m.stand = stand) (fun _ => True) pop where
  ok kept same := by
    rw [pop_apply] at same
    split at same <;> cases same
    exact ⟨kept, trivial⟩
  error kept same := by
    rw [pop_apply] at same
    split at same <;> cases same
    exact kept

theorem stands_cell (address : Nat) : Preserves (fun m : Machine => m.stand = stand) (fun _ => True) (cell address) where
  ok kept same := by
    unfold cell at same
    split at same <;> cases same
    exact ⟨kept, trivial⟩
  error kept same := by
    unfold cell at same
    split at same <;> cases same
    exact kept

theorem stands_setCell (address : Nat) (v : Value) :
    Preserves (fun m : Machine => m.stand = stand) (fun _ => True) (setCell address v) where
  ok kept same := by
    unfold setCell at same
    split at same <;> cases same
    exact ⟨kept, trivial⟩
  error kept same := by
    unfold setCell at same
    split at same <;> cases same
    exact kept

/-- The instructions up to a PUSHIDX, and this one. -/
theorem stands_effect {interrupts : Interrupts} {i : Instruction} (keeps : i.keepsIdx = true ∨ i = .plain .pushIdx) :
    Preserves (fun m : Machine => m.stand = stand) (fun _ => True) (effect interrupts i) := by
  rcases keeps with keeps | rfl
  · unfold Instruction.keepsIdx at keeps
    split at keeps
    · exact .bind (stands_cell _) fun _ _ => stands_push _
    next n =>
      have indexed : Preserves (fun m : Machine => m.stand = stand) (fun _ => True) (indexed n) :=
        .bind .get fun _ _ => .ite (fun _ => .throw_bind) fun _ => .pure trivial
      exact .bind indexed fun _ _ => .bind stands_pop fun _ _ => stands_setCell _ _
    · cases keeps
  · exact .bind .get fun _ _ => stands_push _

end Action

namespace Session

variable {σ : Type} {env : Environment σ} {c : Context} {values : List Value} {p : Program} {doors : List Nat}

theorem fenced_advance (h : Finished c values p) (all : ∀ address, address ∈ doors ↔ Door (c.code values) address)
    (zero : 0 ∈ doors) {s : Session σ} (running : s.machine.status = .running)
    (fenced : s.machine.Fenced (c.code values) doors) (left : Nat) :
    (advance env p (left + 1) s).machine.Fenced (c.code values) doors := by
  rcases fenced.place with door | ⟨inner, small⟩
  · obtain ⟨i, next, found, -, ⟨target, rfl, inner⟩ | leads⟩ := Context.leads_of_door h all door
    · obtain ⟨op, fetched, decoded, rfl⟩ := instructionAt_eq_ok found
      obtain rfl := opcode_of_instructionOf decoded
      have after : (advance env p (left + 1) s).machine =
          { passed p (.pointer .setIdx) s.machine with idx := target % 0x200000 } := by
        rw [advance_step fetched nofun, step_decoded decoded, ← machine_watched env (.pointer .setIdx) s]
        rfl
      rw [after]
      exact ⟨.inr ⟨inner, Nat.le_of_lt_succ (Nat.mod_lt target (by decide))⟩, fenced.calls,
        fun ready => absurd (running.symm.trans ready) (by decide)⟩
    · have safe : (advance env p (left + 1) s).Safe doors :=
        safe_of_leads zero ⟨⟨door, fenced.calls⟩, running⟩ found leads (left + 1)
      cases went : advance env p (left + 1) s with
      | next left' s' =>
        rw [went] at safe
        exact ⟨.inl safe.pc, safe.calls, fun ready => absurd (safe.running.symm.trans ready) (by decide)⟩
      | stop why s' =>
        rw [went] at safe
        exact ⟨.inl safe.1.pc, safe.1.calls, safe.1.start⟩
  · obtain ⟨i, next, found, keeps, further⟩ := Context.step_of_inner h all inner
    obtain ⟨op, fetched, decoded, rfl⟩ := instructionAt_eq_ok found
    have other : op ≠ .plain .nop := by
      obtain rfl := opcode_of_instructionOf decoded
      rintro same
      cases i <;> cases same
      rcases keeps with impossible | impossible <;> cases impossible
    have next : i.progress = .next 0 := by
      rcases keeps with keeps | rfl
      · cases i <;> first | rfl | cases keeps
      · rfl
    have does : perform env left i = (do act (Action.effect env.interrupts i); return i.progress) := by
      cases i <;> first | rfl | (rcases keeps with impossible | impossible <;> cases impossible)
    have stands : Preserves (fun t : Session σ => t.machine.stand = (passed p op s.machine).stand) (· = .next 0)
        (perform env left i) := by
      rw [does]
      exact .bind (preserves_act (Action.stands_effect keeps)) fun _ _ => .pure next
    have start : (withMachine (passed p op) (watched env op s)).machine.stand = (passed p op s.machine).stand := by
      rw [machine_withMachine, machine_watched]
    -- Where the machine is, it is inside the fence, whether the instruction has failed or not.
    have inside {m : Machine} (same : m.stand = (passed p op s.machine).stand) :
        (m.pc ∈ doors ∨ Inner (c.code values) m.pc ∧ m.idx ≤ maxPointer) ∧ (∀ address ∈ m.calls.items, address ∈ doors) ∧
          m.status = .running := by
      simp only [Machine.stand, Prod.mk.injEq] at same
      obtain ⟨pc, calls, status, idx⟩ := same
      rw [pc, calls, status, idx]
      exact ⟨further.symm.imp_right fun inner => ⟨inner, small⟩, fenced.calls, running⟩
    rw [advance_step fetched other, step_decoded decoded]
    cases result : perform env left i (withMachine (passed p op) (watched env op s)) with
    | ok progress t =>
      obtain ⟨same, rfl⟩ := stands.ok start result
      obtain ⟨place, calls, running⟩ := inside same
      exact ⟨place, calls, fun ready => absurd (running.symm.trans ready) (by decide)⟩
    | error e t =>
      obtain ⟨place, calls, -⟩ := inside (stands.error start result)
      exact ⟨place, calls, nofun⟩

/-- The next instruction of a machine inside the fence. -/
theorem grants_of_fenced (h : Finished c values p) (all : ∀ address, address ∈ doors ↔ Door (c.code values) address)
    {m : Machine} {limit : Nat} (wide : maxPointer ≤ limit) (fenced : m.Fenced (c.code values) doors) :
    Grants p maxPointer limit m := by
  have operand {op : PointerOp} {address next : Nat} (other : op ≠ .load)
      (found : p.instructionAt m.pc = .ok (.pointer op address, next)) : address ≤ maxPointer := by
    rcases fenced.place with door | ⟨inner, -⟩
    · obtain ⟨i, _, again, -⟩ := Context.leads_of_door h all door
      rw [found] at again
      cases i <;> cases again
      exact Nat.le_of_lt_succ (Nat.mod_lt _ (by decide))
    · obtain ⟨i, _, again, keeps, -⟩ := Context.step_of_inner h all inner
      rw [found] at again
      cases again
      rcases keeps with keeps | impossible
      · cases op with
        | load => exact absurd rfl other
        | _ => cases keeps
      · cases impossible
  refine ⟨fun address next found => operand (by decide) found,
    fun address next found => Nat.le_trans (operand (by decide) found) wide, fun next found => ?_⟩
  rcases fenced.place with door | ⟨-, small⟩
  · obtain ⟨i, _, again, other, -⟩ := Context.leads_of_door h all door
    rw [found] at again
    cases i <;> cases again
    exact absurd rfl other
  · exact small

theorem upto_of_finished (h : Finished c values p) {config : Config} {m : Machine} (occurs : Occurs p config m) :
    m.Upto maxPointer (maxPointer + 1) := by
  obtain ⟨doors, all⟩ : ∃ doors : List Nat, ∀ address, address ∈ doors ↔ Door (c.code values) address := by
    classical
    refine ⟨((c.code values).starts 0).filter (Door (c.code values) ·), fun address => ?_⟩
    rw [List.mem_filter, decide_eq_true_iff, and_iff_right_iff_imp]
    rintro ⟨before, i, rest, split, rfl, -⟩
    exact Code.mem_starts.mpr ⟨before, i, rest, split, (Nat.zero_add _).symm⟩
  have zero : 0 ∈ doors := (all 0).mpr (Context.door_of_main (List.nil_append _).symm (guarded_commands _ _ _))
  have entry : p.entry ∈ doors := by
    obtain ⟨-, -, linked⟩ := link_eq_ok h.linked
    rw [linked, all]
    exact Context.door_of_main (List.append_nil _).symm .nil
  suffices both : m.Upto maxPointer (maxPointer + 1) ∧ m.Fenced (c.code values) doors from both.1
  refine @Occurs.invariant p config (fun m => m.Upto maxPointer (maxPointer + 1) ∧ m.Fenced (c.code values) doors)
    ⟨upto_new _ _ (Nat.min_le_right _ _) (Nat.min_le_right _ _), .inl zero, nofun, fun _ => rfl⟩ ?_ ?_ ?_ m occurs
  · rintro m m' ⟨kept, fenced⟩ went
    refine ⟨upto_begin kept went, ?_⟩
    unfold begin at went
    split at went
    · cases went
    · cases went
      exact fenced
    next ready =>
      split at went <;> cases went
      refine ⟨.inl ?_, fenced.calls, nofun⟩
      rw [fenced.start ready]
      exact entry
  · rintro m e m' ⟨kept, fenced⟩ went
    refine ⟨upto_refuse kept went, ?_⟩
    unfold begin at went
    split at went
    · cases went
      exact fenced
    · cases went
    · split at went <;> cases went
      exact ⟨fenced.place, fenced.calls, nofun⟩
  · rintro σ env left s handlers - running ⟨kept, fenced⟩
    exact ⟨upto_advance (Nat.le_refl _) (Nat.le_succ _) handlers kept (grants_of_fenced h all (Nat.le_succ _) fenced) _,
      fenced_advance h all zero running fenced left⟩

end Session

/-- The values in the registers, on the stack and in the memory. -/
def Machine.held (m : Machine) : List Value := m.a :: m.b :: m.c :: (m.stack.items.toList ++ m.memory.toList)

theorem Machine.Upto.held {limit reach : Nat} {m : Machine} (h : m.Upto limit reach) {address : Nat}
    (member : .pointer address ∈ m.held) : address ≤ limit := by
  simp only [Machine.held, List.mem_cons, List.mem_append, Array.mem_toList_iff] at member
  rcases member with same | same | same | member | member
  · exact (same ▸ h.a : (Value.pointer address).Upto limit)
  · exact (same ▸ h.b : (Value.pointer address).Upto limit)
  · exact (same ▸ h.c : (Value.pointer address).Upto limit)
  · exact h.stack _ member
  · exact h.memory _ member

open Session

/-- No pointer of a machine has more than 23 bits, whatever it runs. If the program is compiled, or if it comes to no
operand of more than 21 bits and the memory has a cell less than addresses can name, then all pointers have 21 bits and
are unchanged by packing. -/
theorem pointers_fit {p : Program} {config : Config} {m : Machine} (occurs : Occurs p config m) :
    (∀ address, .pointer address ∈ m.held → address ≤ 0x7fffff) ∧
      ((∃ source, compile source = .ok p) ∨ Points p config maxPointer ∧ config.memorySize ≤ maxPointer →
        ∀ address, .pointer address ∈ m.held →
          address ≤ maxPointer ∧ Value.ofWord (Value.pointer address).toWord = .pointer address) := by
  refine ⟨fun address => (upto_of_occurs (by decide) (points_all p config) ?_ occurs).held, fun known address member => ?_⟩
  · exact Nat.le_trans (Nat.min_le_right _ _) (by decide)
  have small : address ≤ maxPointer := by
    rcases known with ⟨source, compiled⟩ | ⟨points, room⟩
    · obtain ⟨lines, items, functions, values, c, split, gathered, declared, read, linked⟩ := compile_eq_ok compiled
      obtain ⟨finished, -⟩ := finished_of_readLines split gathered declared read linked
      exact (upto_of_finished finished occurs).held member
    · exact (upto_of_occurs (Nat.le_refl _) points (Nat.le_trans (Nat.min_le_left _ _) room) occurs).held member
  refine ⟨small, ?_⟩
  have less : address < 0x200000 := Nat.lt_succ_of_le small
  rw [Value.ofWord_toWord (by rintro _ ⟨⟩), Value.packed, Nat.mod_eq_of_lt less]

/-- The session so many instructions later, unless one of them stops the run. -/
def Session.later {σ : Type} (env : Environment σ) (p : Program) : (count left : Nat) → Session σ → Option (Session σ)
  | 0, left, s => if left = 0 then none else some s
  | count + 1, left, s =>
    match advance env p left s with
    | .next left' s' => later env p count left' s'
    | .stop _ _ => none

theorem Session.visits_of_later {σ : Type} {env : Environment σ} {p : Program} {count left : Nat} {s t : Session σ}
    (h : later env p count left s = some t) : Visits env p left s t := by
  induction count generalizing left s with
  | zero =>
    rw [later] at h
    split at h
    · cases h
    next some =>
      cases h
      obtain ⟨left, rfl⟩ := Nat.exists_eq_succ_of_ne_zero some
      exact .here left _
  | succ count ih =>
    rw [later] at h
    split at h
    next went => exact .next went (ih h)
    · cases h

/-- Functions of which one calls the other in its body. -/
def framedCalls : String := "10 DEF FN F(X)=X+1\n20 DEF FN G(X)=FN F(X*2)+X\n30 PRINT FN G(3),\"A\""

/-- In the midst of both calls. -/
theorem pointers_fit_framedCalls :
    ∃ p m, compile framedCalls = .ok p ∧ Occurs p { memorySize := 32 } m ∧ .pointer 4 ∈ m.held ∧
      4 ≤ maxPointer ∧ Value.ofWord (Value.pointer 4).toWord = .pointer 4 := by
  have found : (compile framedCalls).toOption.any (fun p =>
      match act (begin p) ⟨.new { memorySize := 32 }, ({} : Script)⟩ with
      | .ok _ s => (later { host := Script.host } p 31 99 s).any fun s => decide (Value.pointer 4 ∈ s.machine.held)
      | .error _ _ => false) = true := by
    decide +kernel
  cases compiled : compile framedCalls with
  | error e =>
    rw [compiled] at found
    cases found
  | ok p =>
    rw [compiled, Except.toOption, Option.any_some] at found
    split at found
    next start begun =>
      obtain ⟨s, reached, held⟩ := (Option.any_eq_true _ _).mp found
      have occurs := Occurs.visited .new { host := Script.host } rfl 99 {} begun (visits_of_later reached)
      have held := of_decide_eq_true held
      exact ⟨p, _, rfl, occurs, held, (pointers_fit occurs).2 (.inl ⟨framedCalls, compiled⟩) 4 held⟩
    · cases found

/-- The image of PUSHP with all bits of its operand set. -/
def wideImage : List UInt8 :=
  [0x42, 0x56, 0x4d, 0, 1, 0, 0, 0, 0, 0, 0, 0, 0, 0, 5, 0, 0, 0, 0xfc, 0x7d, 0x5f, 0x5e, 0x13, 0xff, 0xff, 0x7f, 1]

/-- An operand may have more bits than a packed pointer; and in a memory of all the cells that addresses can name, the
index of no cells is one past them. -/
theorem pointers_outgrow_words :
    (∃ p m, Program.ofImage wideImage = .ok p ∧ Occurs p {} m ∧ .pointer 0x7fffff ∈ m.held ∧
      Value.ofWord (Value.pointer 0x7fffff).toWord ≠ .pointer 0x7fffff) ∧
    ∃ p m, Assembly.assemble [.instruction (.short .alloc) (.short 0), .instruction (.plain .pushIdx) .none] = .ok p ∧
      Occurs p { memorySize := maxPointer + 1 } m ∧ .pointer 0x200000 ∈ m.held ∧
      Value.ofWord (Value.pointer 0x200000).toWord ≠ .pointer 0x200000 := by
  have begins {p : Program} (config : Config) (bare : p.staticSize = 0) :
      act (begin p) ⟨.new config, ({} : Script)⟩ =
        .ok () ⟨{ Machine.new config with pc := p.entry, status := .running }, {}⟩ := by
    simp only [act, begin, Machine.new, bare, Nat.not_lt_zero, if_false]
    rfl
  -- What is on the stack is held, and the memory need not be looked at.
  have top {m : Machine} {v : Value} (h : v ∈ m.stack.items) : v ∈ m.held := by simp [Machine.held, h]
  constructor
  · have read : Program.ofImage wideImage = .ok { code := #[0x13, 0xff, 0xff, 0x7f, 1] } := by decide +kernel
    have begun := begins (p := { code := #[0x13, 0xff, 0xff, 0x7f, 1] }) {} rfl
    have occurs := Occurs.visited .new { host := Script.host } rfl 2 {} begun (.next rfl (.here 0 _))
    exact ⟨_, _, read, occurs, top (by decide +kernel), by decide +kernel⟩
  · have made : Assembly.assemble [.instruction (.short .alloc) (.short 0), .instruction (.plain .pushIdx) .none] =
        .ok { code := #[0x2a, 0, 0, 0x27] } := by decide +kernel
    have begun := begins (p := { code := #[0x2a, 0, 0, 0x27] }) { memorySize := maxPointer + 1 } rfl
    have occurs := Occurs.visited .new { host := Script.host } rfl 3 {} begun (.next rfl (.next rfl (.here 0 _)))
    exact ⟨_, _, made, occurs, top (by decide +kernel), by decide +kernel⟩

end BasicMachine
