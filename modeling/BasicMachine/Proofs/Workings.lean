import BasicMachine.Proofs.Bookkeeping
import BasicMachine.Proofs.Nesting
import BasicMachine.Proofs.SourceNumbers

/-!
# The parts of a compiled program

The code of each command of a program lies behind that of the commands before it. A function is entered by its label
only: before it stands a jump around it, and its frame is a block that no other function has. So the functions of a
program whose cells fit a memory are ready to work.
-/
namespace BasicMachine.Language

/-- The size of the code of commands. -/
def codeSize (commands : List Command) : Nat := Steps.size (commands.flatMap Command.code)

@[simp] theorem codeSize_nil : codeSize [] = 0 := rfl

@[simp] theorem codeSize_cons (command : Command) (rest : List Command) :
    codeSize (command :: rest) = command.size + codeSize rest := by
  rw [codeSize, List.flatMap_cons, Steps.size_append]
  rfl

@[simp] theorem codeSize_append (first second : List Command) :
    codeSize (first ++ second) = codeSize first + codeSize second := by
  rw [codeSize, List.flatMap_append, Steps.size_append]
  rfl

namespace Grouped

variable {functions : List (String × Nat)} {commands newer older : List Command} {name : String}

theorem around_mark (h : Grouped functions commands) (split : commands = newer ++ .mark (.function name) :: older) :
    ∃ newest frame arity body around oldest, newer = newest ++ [.function frame arity body] ∧
      older = .jump around :: oldest ∧ functions.lookup name = some arity := by
  induction h generalizing newer with
  | nil => simp at split
  | @plain command rest plain grouped ih =>
    cases newer with
    | nil =>
      obtain ⟨rfl, -⟩ := List.cons.inj split
      cases plain
    | cons _ newer =>
      obtain ⟨rfl, rest⟩ := List.cons.inj split
      obtain ⟨newest, frame, arity, body, around, oldest, rfl, found⟩ := ih rest
      exact ⟨command :: newest, frame, arity, body, around, oldest, rfl, found⟩
  | @function other frame arity body around rest known grouped ih =>
    match newer, split with
    | [], split => cases split
    | [_], split =>
      cases split
      exact ⟨[], frame, arity, body, around, rest, rfl, rfl, known⟩
    | [_, _], split => cases split
    | first :: second :: third :: newer, split =>
      have ⟨_, rest⟩ := List.cons.inj (List.cons.inj (List.cons.inj split).2).2
      obtain ⟨newest, frame', arity', body', around', oldest, rfl, found⟩ := ih rest
      exact ⟨first :: second :: third :: newest, frame', arity', body', around', oldest, rfl, found⟩

theorem before_function {frame arity : Nat} {body : Expr} (h : Grouped functions commands)
    (split : commands = newer ++ .function frame arity body :: older) :
    ∃ name around oldest, older = .mark (.function name) :: .jump around :: oldest := by
  induction h generalizing newer with
  | nil => simp at split
  | @plain command rest plain grouped ih =>
    cases newer with
    | nil =>
      obtain ⟨rfl, -⟩ := List.cons.inj split
      cases plain
    | cons _ newer => exact ih (List.cons.inj split).2
  | @function other frame' arity' body' around rest known grouped ih =>
    match newer, split with
    | [], split =>
      obtain ⟨-, rfl⟩ := List.cons.inj split
      exact ⟨other, around, rest, rfl⟩
    | [_], split => cases split
    | [_, _], split => cases split
    | first :: second :: third :: newer, split => exact ih (List.cons.inj (List.cons.inj (List.cons.inj split).2).2).2

end Grouped

namespace Context

variable {c : Context} {before after : List Command} {command : Command} {name : String}

theorem program_eq_iff :
    c.program = before ++ command :: after ↔ .halt :: c.commands = after.reverse ++ command :: before.reverse := by
  rw [program, List.reverse_eq_iff]
  simp

/-- The mark of a function stands between a jump around it and the function. -/
theorem around_mark {functions : List (String × Nat)} (grouped : Grouped functions c.commands)
    (split : c.program = before ++ .mark (.function name) :: after) :
    ∃ first frame arity body around rest, before = first ++ [.jump around] ∧ after = .function frame arity body :: rest ∧
      functions.lookup name = some arity := by
  have whole : Grouped functions (.halt :: c.commands) := .plain rfl grouped
  obtain ⟨newest, frame, arity, body, around, oldest, newer, older, known⟩ := whole.around_mark (program_eq_iff.mp split)
  refine ⟨oldest.reverse, frame, arity, body, around, newest.reverse, ?_, ?_, known⟩
  · rw [← List.reverse_reverse before, older]
    simp
  · rw [← List.reverse_reverse after, newer]
    simp

theorem before_function {functions : List (String × Nat)} {frame arity : Nat} {body : Expr}
    (grouped : Grouped functions c.commands) (split : c.program = before ++ .function frame arity body :: after) :
    ∃ first around name, before = first ++ [.jump around, .mark (.function name)] := by
  have whole : Grouped functions (.halt :: c.commands) := .plain rfl grouped
  obtain ⟨name, around, oldest, older⟩ := whole.before_function (program_eq_iff.mp split)
  refine ⟨oldest.reverse, around, name, ?_⟩
  rw [← List.reverse_reverse before, older]
  simp

/-- What comes after a plain command that goes on is plain. -/
theorem isPlain_next {functions : List (String × Nat)} {next : Command} (grouped : Grouped functions c.commands)
    (split : c.program = before ++ command :: next :: after) (plain : command.isPlain = true)
    (goes : ∀ l, command ≠ .jump l) : next.isPlain = true := by
  have further : c.program = (before ++ [command]) ++ next :: after := by rw [split]; simp
  cases next with
  | function frame arity body =>
    obtain ⟨first, around, name, same⟩ := before_function grouped further
    have last := congrArg List.getLast? same
    simp at last
    rw [last] at plain
    cases plain
  | mark l =>
    cases l with
    | function name =>
      obtain ⟨first, _, _, _, around, _, same, -⟩ := around_mark grouped further
      exact absurd (List.append_inj' same rfl).2 (by simpa using goes around)
    | _ => rfl
  | _ => rfl

theorem isPlain_first {functions : List (String × Nat)} (grouped : Grouped functions c.commands)
    (split : c.program = command :: after) : command.isPlain = true := by
  cases command with
  | function frame arity body =>
    have ⟨first, around, name, same⟩ := before_function grouped (show c.program = [] ++ _ from split)
    simp at same
  | mark l =>
    cases l with
    | function name =>
      have ⟨first, _, _, _, around, _, same, _⟩ := around_mark grouped (show c.program = [] ++ _ from split)
      simp at same
    | _ => rfl
  | _ => rfl

theorem mem_program : command ∈ c.program ↔ command = .halt ∨ command ∈ c.commands := by
  simp [program, or_comm]

/-- A program ends with HALT. -/
theorem halt_last (split : c.program = before ++ [command]) : command = .halt := by
  have last := congrArg List.getLast? split
  simpa [program] using last.symm

end Context

theorem routineIn_eq_some {name : String} {commands : List Command} {r : Routine} (h : routineIn name commands = some r) :
    ∃ before after, commands = before ++ .mark (.function name) :: .function r.frame r.arity r.body :: after ∧
      .mark (.function name) ∉ before := by
  induction commands with
  | nil => cases h
  | cons command rest ih =>
    have later (other : command ≠ .mark (.function name)) (found : routineIn name rest = some r) :
        ∃ before after, command :: rest = before ++ .mark (.function name) :: .function r.frame r.arity r.body :: after ∧
          .mark (.function name) ∉ before := by
      obtain ⟨before, after, split, first⟩ := ih found
      exact ⟨command :: before, after, by rw [split]; rfl, List.not_mem_cons_of_ne_of_not_mem other.symm first⟩
    cases command with
    | mark l =>
      by_cases same : l = .function name
      · subst same
        have here := (if_pos rfl).symm.trans h
        split at here
        · cases here
          exact ⟨[], _, rfl, List.not_mem_nil⟩
        · cases here
      · exact later (fun other => same (Command.mark.inj other)) ((if_neg same).symm.trans h)
    | _ => exact later (by simp) h

theorem routineIn_of_split {name : String} {before after : List Command} {frame arity : Nat} {body : Expr}
    (first : .mark (.function name) ∉ before) :
    routineIn name (before ++ .mark (.function name) :: .function frame arity body :: after) =
      some ⟨frame, arity, body⟩ := by
  induction before with
  | nil => simp [routineIn]
  | cons command before ih =>
    have other := List.ne_of_not_mem_cons first
    have later := List.not_mem_of_not_mem_cons first
    cases command with
    | mark l => exact (if_neg fun same => other (congrArg Command.mark same.symm)).trans (ih later)
    | _ => exact ih later

/-- A context that all lines are read into, and the program that is linked from it. -/
structure Finished (c : Context) (values : List Value) (p : Program) : Prop where
  settled : c.Settled (.whole c c.functions values.length)
  sound : ∀ command ∈ c.commands, Steps.Sound c.Knows command.code
  named : ∀ v ∈ values, ∀ address ∈ (Instruction.push v).pointer?, address < c.scopes.highWater
  numbers : ∀ x, .float x ∈ values → x.isNaN = false
  linked : link c values = .ok p

/-- Sound steps call functions that are known. -/
theorem Steps.Sound.known_of_called {known : Label → Prop} {steps : Steps} (h : Steps.Sound known steps) {name : String}
    (member : name ∈ Steps.called steps) : known (.function name) := by
  obtain ⟨s, there, calls⟩ := List.mem_filterMap.mp member
  obtain ⟨before, after, split⟩ := List.append_of_mem there
  rcases h.cases split with ⟨i, rfl, -⟩ | ⟨op, l, rfl, -, found⟩ | ⟨op, distance, covered, rest, rfl, -⟩
  · cases calls
  · unfold Steps.callee at calls
    split at calls
    · next same =>
      cases same
      cases calls
      exact found
    · cases calls
  · cases calls

namespace Finished

variable {c : Context} {values : List Value} {p : Program} {before after : List Command} {command : Command}
  {name : String} {r : Routine}

theorem grouped (h : Finished c values p) : Grouped c.functions c.commands := h.settled.whole.2.1

theorem fine (h : Finished c values p) (member : command ∈ c.program) : command.Fine c.functions c := by
  rcases Context.mem_program.mp member with rfl | member
  · exact Command.fine_halt
  · exact h.settled.whole.2.2 command member

theorem soundness (h : Finished c values p) (member : command ∈ c.program) : Steps.Sound c.Knows command.code := by
  rcases Context.mem_program.mp member with rfl | member
  · exact Steps.sound_ofCode rfl
  · exact h.sound command member

theorem size_eq (h : Finished c values p) : p.staticSize = c.scopes.highWater := by
  obtain ⟨-, -, rfl⟩ := link_eq_ok h.linked
  rfl

/-- The code of a command lies behind the code of the commands before it. -/
theorem lies (h : Finished c values p) (split : c.program = before ++ command :: after) :
    command.Lies c p (codeSize before) := by
  obtain ⟨-, small, -⟩ := link_eq_ok h.linked
  have whole : c.main = before.flatMap Command.code ++ (command.code ++ after.flatMap Command.code) := by
    rw [Context.main, split, List.flatMap_append, List.flatMap_cons]
  have size : c.main.size = codeSize before + (command.size + codeSize after) := by
    rw [whole, Steps.size_append, Steps.size_append]
    rfl
  have main := (hasCode_of_link h.linked).append.1
  rw [whole] at main
  have behind := (Context.hasCode_append (Context.hasCode_append main).2).1
  rw [Nat.zero_add] at behind
  have reach := main_size_lt small
  exact ⟨behind, by omega, fun name member => (h.soundness (by rw [split]; simp)).known_of_called member⟩

/-- The function of a name, with the jump around it. -/
theorem routine_split (h : Finished c values p) (found : c.routine? name = some r) :
    ∃ before around after, c.program =
        before ++ .jump around :: .mark (.function name) :: .function r.frame r.arity r.body :: after ∧
      c.address (.function name) = codeSize before + 3 ∧ c.functions.lookup name = some r.arity := by
  obtain ⟨before, after, split, first⟩ := routineIn_eq_some found
  obtain ⟨older, frame, arity, body, around, rest, rfl, same, known⟩ := Context.around_mark h.grouped split
  obtain ⟨-, rfl, -⟩ := Command.function.inj (List.cons.inj same).1
  refine ⟨older, around, after, ?_, ?_, known⟩
  · rw [split]
    simp
  · rw [Context.address, Context.labels, split, lookup_labelsFrom first, Nat.zero_add]
    exact codeSize_append older [.jump around]

/-- The code of a function is where its calls go. -/
theorem routine_place (h : Finished c values p) (found : c.routine? name = some r) :
    ∃ before after, c.program = before ++ .function r.frame r.arity r.body :: after ∧
      c.address (.function name) = codeSize before := by
  obtain ⟨before, around, after, split, address, -⟩ := h.routine_split found
  refine ⟨before ++ [.jump around, .mark (.function name)], after, ?_, ?_⟩
  · rw [split]
    simp
  · rw [address, codeSize_append]
    rfl

theorem routine_lies (h : Finished c values p) (found : c.routine? name = some r) :
    (Command.function r.frame r.arity r.body).Lies c p (c.address (.function name)) := by
  obtain ⟨before, after, split, address⟩ := h.routine_place found
  rw [address]
  exact h.lies split

theorem routine_mem (h : Finished c values p) (found : c.routine? name = some r) :
    .function r.frame r.arity r.body ∈ c.program := by
  obtain ⟨before, after, split, -⟩ := h.routine_place found
  rw [split]
  simp

/-- A function that is known and has a number of parameters is defined. -/
theorem routine_of_known (h : Finished c values p) {arity : Nat} (known : c.Knows (.function name))
    (found : c.functions.lookup name = some arity) : ∃ r, c.routine? name = some r ∧ r.arity = arity := by
  obtain ⟨checked, -⟩ := link_eq_ok h.linked
  obtain ⟨before, after, split, -⟩ := mem_labelsFrom.mp (address_mem_labels checked known)
  obtain ⟨first, rest, again, fresh⟩ : ∃ first rest, c.program = first ++ .mark (.function name) :: rest ∧
      .mark (.function name) ∉ first :=
    List.eq_append_cons_of_mem (by rw [split]; simp)
  obtain ⟨older, frame, count, body, around, later, -, rfl, same⟩ := Context.around_mark h.grouped again
  refine ⟨⟨frame, count, body⟩, ?_, Option.some.inj (same.symm.trans found)⟩
  rw [Context.routine?, again]
  exact routineIn_of_split fresh

/-- A function shares no cells with a later one. -/
theorem not_holds_later (h : Finished c values p) {middle last : List Command} {r r' : Routine} {x : Nat}
    (split : c.program = before ++ .function r.frame r.arity r.body :: middle ++
      .function r'.frame r'.arity r'.body :: last) (holds : r.Holds x) : ¬ r'.Holds x := by
  obtain ⟨row, fills, perm⟩ := h.settled.whole.1.filled
  have apart : c.blocks.Pairwise Block.Apart := (perm.pairwise_iff fun h => Block.Apart.symm h).mp fills.pairwise
  have all : (frames c.commands).Pairwise Block.Apart :=
    (List.pairwise_append.mp (List.pairwise_append.mp apart).2.1).1
  have same : (frames c.program).Perm (frames c.commands) := (List.reverse_perm _).flatMap_right _
  have inOrder := (same.pairwise_iff fun h => Block.Apart.symm h).mpr all
  rw [split, frames, List.flatMap_append] at inOrder
  have first : ⟨r.frame, 1 + r.arity⟩ ∈ frames (before ++ .function r.frame r.arity r.body :: middle) :=
    List.mem_flatMap.mpr ⟨.function r.frame r.arity r.body, by simp, List.mem_singleton.mpr rfl⟩
  have second : ⟨r'.frame, 1 + r'.arity⟩ ∈ frames (.function r'.frame r'.arity r'.body :: last) :=
    List.mem_flatMap.mpr ⟨.function r'.frame r'.arity r'.body, by simp, List.mem_singleton.mpr rfl⟩
  rintro ⟨above', below'⟩
  obtain ⟨above, below⟩ := holds
  rcases (List.pairwise_append.mp inOrder).2.2 _ first _ second with apart | apart <;> dsimp only at apart <;> omega

/-- Functions that share a cell are one. -/
theorem same_of_holds (h : Finished c values p) {name' : String} {r r' : Routine} {x : Nat} {between after' : List Command}
    (split : c.program = before ++ .mark (.function name) :: .function r.frame r.arity r.body :: after)
    (rest : .mark (.function name) :: .function r.frame r.arity r.body :: after =
      between ++ .mark (.function name') :: .function r'.frame r'.arity r'.body :: after')
    (holds : r.Holds x) (holds' : r'.Holds x) : name = name' := by
  match between, rest with
  | [], rest => exact Label.function.inj (Command.mark.inj (List.cons.inj rest).1)
  | [_], rest => cases rest
  | _ :: _ :: between, rest =>
    cases rest
    have inOrder : c.program = (before ++ [.mark (.function name)]) ++ .function r.frame r.arity r.body ::
        (between ++ [.mark (.function name')]) ++ .function r'.frame r'.arity r'.body :: after' := by
      rw [split]
      simp
    exact absurd holds' (h.not_holds_later inOrder holds)

/-- A program whose cells fit a memory has all that its functions need. -/
theorem working (h : Finished c values p) (fits : c.scopes.highWater ≤ maxPointer + 1) : c.Working p where
  label l := by
    obtain ⟨-, small, -⟩ := link_eq_ok h.linked
    rw [Context.address]
    cases found : c.labels.lookup l with
    | none => exact Nat.pos_of_ne_zero (by decide)
    | some address =>
      obtain ⟨before, after, split, -⟩ := List.lookup_eq_some_iff.mp found
      have there : (l, address) ∈ c.labels := by
        rw [split]
        simp
      obtain ⟨first, rest, whole, rfl⟩ := boundary_of_mem_labels there
      have := main_size_lt small
      rw [whole, Steps.size_append] at this
      exact Nat.lt_of_le_of_lt (Nat.le_add_right _ _) this
  routine := h.routine_of_known
  lies found := (h.routine_lies found).code
  reach found := (h.routine_lies found).reach
  proper found := by
    cases (h.fine (h.routine_mem found)).proper with
    | function _ _ proper => exact proper
  known {name r} found other member := by
    refine (h.routine_lies found).known other ?_
    rw [Command.called, Command.code, Expr.codeBefore_eq, Steps.called_append, Steps.called_append]
    exact List.mem_append_right _ (List.mem_append_left _ member)
  frame {name r} found := by
    have block : ⟨r.frame, 1 + r.arity⟩ ∈ c.blocks := by
      refine List.mem_append_right _ (List.mem_append_left _ (List.mem_flatMap.mpr ⟨.function r.frame r.arity r.body, ?_,
        List.mem_singleton.mpr rfl⟩))
      exact (Context.mem_program.mp (h.routine_mem found)).resolve_left (by simp)
    have inside := h.settled.whole.1.inside block
    have : frameCell < dataBase := by decide
    have : dataBase + values.length ≤ r.frame := inside.1
    have : r.frame + (1 + r.arity) ≤ c.scopes.highWater := inside.2
    omega
  apart {name name' r r' x} found found' holds holds' := by
    obtain ⟨before, after, split, -⟩ := routineIn_eq_some found
    obtain ⟨before', after', split', -⟩ := routineIn_eq_some found'
    rcases List.append_eq_append_iff.mp (split.symm.trans split') with ⟨between, -, rest⟩ | ⟨between, -, rest⟩
    · exact h.same_of_holds split rest holds holds'
    · exact (h.same_of_holds split' rest holds' holds).symm

end Finished

/-- A number is no address. -/
theorem pointer?_of_isNumber {item : DataItem} {v : Value} (number : item.isNumber = true) (same : item = .number v) :
    (Instruction.push v).pointer? = none := by
  rw [same] at number
  cases v with
  | integer n => rfl
  | float x => rfl
  | unset => cases number
  | pointer address => cases number

/-- What the compiler has made is finished. -/
theorem finished_of_readLines {source : String} {lines : List SourceLine} {items : List DataItem}
    {functions : List (String × Nat)} {values : List Value} {c : Context} {p : Program}
    (split : sourceLines source = .ok lines) (gathered : sourceData lines = .ok items)
    (declared : sourceFunctions lines = .ok functions)
    (read : readLines lines items (.initial items functions) = .ok (values, c)) (linked : link c values = .ok p) :
    Finished c values p ∧ c.functions = functions ∧ values.length = items.length := by
  have numbers := isNumber_of_sourceData (isNumber_of_sourceLines split) gathered
  obtain ⟨settled, count, named⟩ :=
    settled_of_readLines declared (fun item member v => pointer?_of_isNumber (numbers item member)) read
  obtain ⟨orderly, -, fine⟩ := settled.whole
  obtain rfl : c.functions = functions := orderly.functions
  have sound : ∀ command ∈ c.commands, Steps.Sound c.Knows command.code := fun command member =>
    Steps.Sound.mono (fine command member).sound fun _ => knows_of_cites read
  obtain ⟨start, interned, -⟩ := readLines_eq_ok read
  exact ⟨⟨count ▸ settled, sound, named, isNumber_of_dataValues numbers interned, linked⟩, rfl, count⟩

end BasicMachine.Language
