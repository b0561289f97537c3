import BasicMachine.Machine.Scripted
import BasicMachine.Proofs.Definitions
import BasicMachine.Proofs.FramePointers
import Mathlib.Data.Finset.Card

/-!
# The calling convention

A call of a function gives the value of its body, with the parameters bound to the arguments, and leaves everything as it
was but the frames of the functions that it comes to. This holds of every call in a compiled program, in a function or
outside, whose functions do not come back to themselves. And in every call there are as many arguments as the only
definition of the function has parameters.
-/
namespace BasicMachine.Language

open Session

/-- The definitions of functions among tokens: the name, and what stands behind it. -/
def definitions : List Token → List (String × List Token)
  | [] => []
  | .word .DEF :: rest =>
    match rest with
    | .word .FN :: .ident name :: after => (name, after) :: definitions rest
    | _ => definitions rest
  | _ :: rest => definitions rest

/-- The definitions in the lines of a program. -/
def sourceDefinitions (lines : List SourceLine) : List (String × List Token) :=
  lines.flatMap fun s => definitions s.line.tokens

theorem mem_definitions {tokens after : List Token} {name : String}
    (h : (.word .DEF :: .word .FN :: .ident name :: after) <:+ tokens) : (name, after) ∈ definitions tokens := by
  fun_induction definitions tokens with
  | case1 => simp at h
  | case2 other rest ih =>
    rcases List.suffix_cons_iff.mp h with same | later
    · cases same
      exact List.mem_cons_self
    · exact List.mem_cons_of_mem _ (ih later)
  | case3 rest other ih =>
    rcases List.suffix_cons_iff.mp h with same | later
    · cases same
      exact absurd rfl (other _ _)
    · exact ih later
  | case4 t rest other ih =>
    rcases List.suffix_cons_iff.mp h with same | later
    · cases same
      exact absurd rfl other
    · exact ih later

section
variable {known functions : List (String × Nat)}

/-- The first reading finds all definitions, the last of them first. -/
theorem map_fst_functionsOfTokens {tokens : List Token} (h : functionsOfTokens known tokens = .ok functions) :
    functions.map Prod.fst = ((definitions tokens).map Prod.fst).reverse ++ known.map Prod.fst := by
  fun_induction functionsOfTokens known tokens with
  | case1 => cases h; rfl
  | case2 => cases h
  | case3 known name after fresh ih =>
    rw [ih h, definitions]
    simp
  | case4 => cases h
  | case5 known t rest other ih => rw [ih h, definitions.eq_4 _ _ other]

/-- No function is defined twice. -/
theorem nodup_functionsOfTokens {tokens : List Token} (h : functionsOfTokens known tokens = .ok functions)
    (distinct : (known.map Prod.fst).Nodup) : (functions.map Prod.fst).Nodup := by
  fun_induction functionsOfTokens known tokens with
  | case1 => cases h; exact distinct
  | case2 => cases h
  | case3 known name after fresh ih =>
    refine ih h (List.nodup_cons.mpr ⟨fun member => fresh ?_, distinct⟩)
    obtain ⟨⟨other, count⟩, there, same⟩ := List.mem_map.mp member
    obtain rfl : other = name := same
    cases found : known.lookup other with
    | some n => rfl
    | none => exact absurd (List.lookup_eq_none_iff.mp found _ there) (by simp)
  | case4 => cases h
  | case5 known t rest other ih => exact ih h distinct

theorem foldlM_functionsOfLine_names {lines : List SourceLine} (h : lines.foldlM functionsOfLine known = .ok functions)
    (distinct : (known.map Prod.fst).Nodup) :
    functions.map Prod.fst = ((sourceDefinitions lines).map Prod.fst).reverse ++ known.map Prod.fst ∧
      (functions.map Prod.fst).Nodup := by
  induction lines generalizing known with
  | nil =>
    cases h
    exact ⟨rfl, distinct⟩
  | cons s rest ih =>
    rw [List.foldlM_cons] at h
    cases first : functionsOfLine known s with
    | error e =>
      rw [first] at h
      cases h
    | ok more =>
      rw [first] at h
      have read := functionsOfLine_eq_ok first
      obtain ⟨names, all⟩ := ih h (nodup_functionsOfTokens read distinct)
      refine ⟨?_, all⟩
      rw [names, map_fst_functionsOfTokens read, sourceDefinitions, sourceDefinitions, List.flatMap_cons]
      simp

/-- A program has one definition of each function. -/
theorem filter_sourceDefinitions {lines : List SourceLine} (declared : sourceFunctions lines = .ok functions)
    {name : String} {after : List Token} (there : (name, after) ∈ sourceDefinitions lines) :
    (sourceDefinitions lines).filter (·.1 = name) = [(name, after)] := by
  obtain ⟨names, distinct⟩ := foldlM_functionsOfLine_names declared .nil
  rw [names, List.map_nil, List.append_nil, List.nodup_reverse] at distinct
  obtain ⟨before, behind, split⟩ := List.append_of_mem there
  rw [split, List.map_append, List.map_cons, List.nodup_middle] at distinct
  have others := (List.nodup_cons.mp distinct).1
  have none {part : List (String × List Token)} (absent : name ∉ part.map Prod.fst) : part.filter (·.1 = name) = [] := by
    refine List.filter_eq_nil_iff.mpr fun d member same => absent ?_
    exact of_decide_eq_true same ▸ List.mem_map_of_mem member
  rw [split, List.filter_append, List.filter_cons_of_pos (by simp), none, none, List.nil_append]
  · exact fun member => others (List.mem_append_right _ member)
  · exact fun member => others (List.mem_append_left _ member)

end

/-- The function has one definition in the lines, with these parameters, and `body` is what all of its tokens behind the
equals sign stand for, up to the end of the statement. -/
inductive OnlyDefines (last : Context) (lines : List SourceLine) (name : String) (parameters : List String) (body : Expr) :
    Prop
  | intro {header ts rest : List Token}
      (only : (sourceDefinitions lines).filter (·.1 = name) = [(name, header ++ .operator .equal :: (ts ++ rest))])
      (lists : Header parameters header) (distinct : parameters.Nodup) (words : Wording last parameters [body] ts)
      (ends : Ends rest)

theorem Defines.only {last : Context} {lines : List SourceLine} {name : String} {parameters : List String} {body : Expr}
    {functions : List (String × Nat)} (h : Defines last lines name parameters body)
    (declared : sourceFunctions lines = .ok functions) : OnlyDefines last lines name parameters body := by
  obtain ⟨member, tokens, lists, distinct, words, ends⟩ := h
  have there : (name, _) ∈ sourceDefinitions lines := List.mem_flatMap.mpr ⟨_, member, mem_definitions tokens⟩
  exact ⟨filter_sourceDefinitions declared there, lists, distinct, words, ends⟩

namespace Context

variable {c : Context} {names : List String}

/-- No function that calls of these functions come to comes back to itself. -/
def Acyclic (c : Context) (names : List String) : Prop :=
  ∀ name r, c.Calls names name → c.routine? name = some r → ¬ c.Calls r.called name

/-- With a finite number of functions, calls that do not come back come to an end. -/
theorem Acyclic.ends_of_within (all : Finset String) (h : c.Acyclic names)
    (within : ∀ name r, c.Calls names name → c.routine? name = some r → name ∈ all) : c.Ends names := by
  induction all using Finset.strongInduction generalizing names with
  | H all ih =>
    refine .intro fun name member r found => ?_
    have here : name ∈ all := within name r (.direct member) found
    refine ih (all.erase name) (Finset.erase_ssubset here) (fun other r' calls => h other r' (.deeper member found calls)) ?_
    intro other r' calls found'
    refine Finset.mem_erase.mpr ⟨?_, within other r' (.deeper member found calls) found'⟩
    rintro rfl
    exact h other r (.direct member) found calls

/-- The names of the functions of a program. -/
def routineNames (c : Context) : List String :=
  c.program.filterMap fun
    | .mark (.function name) => some name
    | _ => none

theorem Acyclic.ends (h : c.Acyclic names) : c.Ends names := by
  refine h.ends_of_within c.routineNames.toFinset fun name r _ found => ?_
  obtain ⟨before, after, split, -⟩ := routineIn_eq_some found
  refine List.mem_toFinset.mpr (List.mem_filterMap.mpr ⟨.mark (.function name), ?_, rfl⟩)
  rw [split]
  simp

end Context

/-- How many parameters a command can read. -/
def Command.arity : Command → Nat
  | .function _ arity _ => arity
  | _ => 0

/-- The cells of the frame of a function. -/
theorem Command.mem_frame {frame arity x : Nat} {body : Expr} :
    (∃ b ∈ (Command.function frame arity body).frame, b.Has x) ↔ (⟨frame, arity, body⟩ : Routine).Holds x := by
  simp only [Command.frame, List.mem_singleton, exists_eq_left, Block.Has, Routine.Holds]
  omega

/-- Places in a frame that a machine can count to. -/
theorem Expr.Sees.places {count : Nat} {e : Expr} (h : e.Sees count) (few : count < 0x8000) :
    ∀ k, (Expr.variable (.place k)).Part e → ∃ i < count, k.toInt = (i + 1 : Nat) := by
  intro k part
  obtain ⟨i, less, rfl⟩ := h k part
  exact ⟨i, less, Int16.toInt_ofNat_of_lt (by omega)⟩

namespace Finished

variable {c : Context} {values : List Value} {p : Program}

/-- A function has its frame among the static cells. -/
theorem frame_lt (h : Finished c values p) {frame arity : Nat} {body : Expr} (there : .function frame arity body ∈ c.program) :
    frame + arity < c.scopes.highWater := by
  have block : ⟨frame, 1 + arity⟩ ∈ c.blocks := by
    refine List.mem_append_right _ (List.mem_append_left _ (List.mem_flatMap.mpr ⟨.function frame arity body, ?_,
      List.mem_singleton.mpr rfl⟩))
    exact (Context.mem_program.mp there).resolve_left (by simp)
  have inside := (h.settled.whole.1.inside block).2
  change frame + (1 + arity) ≤ c.scopes.highWater at inside
  omega

/-- A frame is that of one function only. -/
theorem routine_of_holds (h : Finished c values p) {before after : List Command} {r r' : Routine} {name : String} {x : Nat}
    (split : c.program = before ++ .function r.frame r.arity r.body :: after) (found : c.routine? name = some r')
    (holds : r.Holds x) (holds' : r'.Holds x) : r' = r := by
  obtain ⟨before', after', split', -⟩ := routineIn_eq_some found
  have second : c.program = (before' ++ [.mark (.function name)]) ++ .function r'.frame r'.arity r'.body :: after' := by
    rw [split']
    simp
  rcases List.append_eq_append_iff.mp (split.symm.trans second) with ⟨between, same, rest⟩ | ⟨between, same, rest⟩
  · cases between with
    | nil =>
      cases r
      cases r'
      cases rest
      rfl
    | cons _ between =>
      cases rest
      rw [same] at second
      exact absurd holds' (h.not_holds_later second holds)
  · cases between with
    | nil =>
      cases r
      cases r'
      cases rest
      rfl
    | cons _ between =>
      cases rest
      rw [same] at split
      exact absurd holds (h.not_holds_later split holds')

end Finished

namespace Compilation

variable {source : String} {p : Program} (k : Compilation source p)

theorem sees {command : Command} {e : Expr} (there : command ∈ k.last.program) (member : e ∈ command.expressions) :
    e.Sees command.arity := by
  have fine := k.finished.fine there
  cases command with
  | function frame arity body =>
    obtain ⟨newer, older, split⟩ := List.append_of_mem ((Context.mem_program.mp there).resolve_left (by simp))
    obtain ⟨name, parameters, -, rfl, defines⟩ := k.traced frame arity body older (split ▸ List.suffix_append _ _)
    obtain ⟨-, -, -, -, words, -⟩ := defines
    obtain rfl := List.mem_singleton.mp member
    exact words.sees _ (List.mem_singleton.mpr rfl)
  | mark l => cases member
  | _ => exact fine.outer rfl e member

/-- What a command evaluates is apt, with the parameters that it can read. -/
theorem apt (fits : k.last.scopes.highWater ≤ maxPointer + 1) {command : Command} {e : Expr}
    (there : command ∈ k.last.program) (member : e ∈ command.expressions) (few : command.arity < 0x8000) :
    e.Apt k.last (Steps.called e.code) command.arity where
  proper := (k.finished.fine there).proper.expression member
  below := fun address found =>
    Nat.lt_of_lt_of_le ((k.finished.fine there).below.part (Command.infix_code member) address found) fits
  places := (k.sees there member).places few
  called := fun _ => id

theorem tidy (fits : k.last.scopes.highWater ≤ maxPointer + 1) : k.last.Tidy where
  inside found := k.finished.frame_lt (k.finished.routine_mem found)
  apt found few := k.apt fits (k.finished.routine_mem found) (List.mem_singleton.mpr rfl) few

/-- The body of a function is what its only definition stands for. -/
theorem onlyDefines {name : String} {r : Routine} (found : k.last.routine? name = some r) :
    ∃ parameters, r.arity = parameters.length ∧ OnlyDefines k.last k.lines name parameters r.body := by
  obtain ⟨before, around, after, split, -⟩ := k.finished.routine_split found
  have all : Traced k.last k.lines (.halt :: k.last.commands) := Traced.plain k.traced rfl
  have inOrder : k.last.program =
      (before ++ [.jump around, .mark (.function name)]) ++ .function r.frame r.arity r.body :: after := by
    rw [split]
    simp
  rw [Context.program_eq_iff.mp inOrder] at all
  obtain ⟨name', parameters, head, count, defines⟩ := all _ _ _ _ (List.suffix_append _ _)
  obtain rfl : name = name' := by simpa using head
  exact ⟨parameters, count, defines.only k.declared⟩

/-- A call in the code of a command. -/
structure CallSite where
  before : List Command
  command : Command
  after : List Command
  /-- The expression that the call is a part of. -/
  whole : Expr
  name : String
  arguments : List Expr
  /-- The code of the command before the call. -/
  first : Steps
  rest : Steps
  split : k.last.program = before ++ command :: after
  member : whole ∈ command.expressions
  part : (Expr.call name arguments).Part whole
  code : command.code = first ++ ((Expr.call name arguments).code ++ rest)

namespace CallSite

variable {k} (site : k.CallSite)

def expr : Expr := .call site.name site.arguments

def address : Nat := codeSize site.before + site.first.size

/-- The functions that the call and its arguments call. -/
def called : List String := Steps.called site.expr.code

/-- The parameters of the function that the call stands in have these values. A function with more parameters than fit 16
bits is in no program that calls it. -/
def Binds (args : List Value) (memory : Array Value) : Prop :=
  match site.command with
  | .function frame arity body => arity < 0x8000 ∧ args.length = arity ∧ Context.Active ⟨frame, arity, body⟩ args memory
  | _ => args = []

variable {σ : Type}

/-- A machine that nobody watches is at the call, in a memory that holds all static cells, with room for so many values and
return addresses. -/
structure Reached (room : Nat) (args : List Value) (s : Session σ) : Prop where
  pc : s.machine.pc = site.address
  off : s.machine.tracing = false
  size : p.staticSize ≤ s.machine.memory.size
  limit : s.machine.memory.size ≤ maxPointer + 1
  values : s.machine.stack.size + room ≤ s.machine.stack.limit
  calls : s.machine.calls.size + room ≤ s.machine.calls.limit
  binds : site.Binds args s.machine.memory

/-- The call has left its value, and nothing else has changed but the frames of the functions that it came to. -/
structure Returned (v : Value) (s s' : Session σ) : Prop where
  pc : s'.machine.pc = site.address + site.expr.code.size
  stack : s'.machine.stack = s.machine.stack.insert v
  calls : s'.machine.calls = s.machine.calls
  heap : s'.machine.heap = s.machine.heap
  pointer : s'.machine.memory[frameCell]? = s.machine.memory[frameCell]?
  size : s'.machine.memory.size = s.machine.memory.size
  globals : ∀ x, ¬ k.last.Uses site.called x → s'.machine.memory[x]? = s.machine.memory[x]?
  own : ∀ x, (∃ b ∈ site.command.frame, b.Has x) → s'.machine.memory[x]? = s.machine.memory[x]?

theorem there : site.command ∈ k.last.program := by
  rw [site.split]
  simp

/-- A call does not come back to the function that it stands in. -/
theorem not_uses (acyclic : k.last.Acyclic site.called) {x : Nat} (own : ∃ b ∈ site.command.frame, b.Has x) :
    ¬ k.last.Uses site.called x := by
  rintro ⟨name, r', calls, found, holds⟩
  have split := site.split
  have part := site.part
  have whole := site.member
  cases command : site.command with
  | function frame arity body =>
    rw [command] at own split whole
    obtain rfl := List.mem_singleton.mp whole
    obtain rfl := k.finished.routine_of_holds (r := ⟨frame, arity, site.whole⟩) split found (Command.mem_frame.mp own) holds
    exact acyclic name _ calls found (calls.mono fun _ => part.called)
  | _ =>
    rw [command] at own
    obtain ⟨b, member, -⟩ := own
    cases member

theorem ready (acyclic : k.last.Acyclic site.called) {room : Nat} {args : List Value} {s : Session σ}
    (reached : site.Reached room args s) : k.last.Ready site.called args s.world := by
  have size := k.finished.size_eq
  have binds := reached.binds
  refine ⟨size ▸ reached.size, ?_⟩
  unfold Binds at binds
  split at binds
  · next frame arity body command =>
    obtain ⟨-, count, active⟩ := binds
    refine .inr ⟨_, active, ?_, Nat.le_of_eq count, fun x holds => site.not_uses acyclic ?_⟩
    · have inside := k.finished.frame_lt (command ▸ site.there)
      have := reached.size
      have := reached.limit
      dsimp only
      omega
    · rw [command]
      exact Command.mem_frame.mpr holds
  · exact .inl binds

theorem apt {room : Nat} {args : List Value} {s : Session σ} (reached : site.Reached room args s) :
    site.expr.Apt k.last site.called args.length := by
  have size := k.finished.size_eq
  have fits : k.last.scopes.highWater ≤ maxPointer + 1 := by
    have := reached.size
    have := reached.limit
    omega
  have binds := reached.binds
  have both : site.command.arity < 0x8000 ∧ args.length = site.command.arity := by
    unfold Binds at binds
    split at binds
    · next command =>
      rw [command]
      exact ⟨binds.1, binds.2.1⟩
    · next other =>
      have none : site.command.arity = 0 := by
        cases command : site.command with
        | function frame arity body => exact absurd command (other frame arity body)
        | _ => rfl
      rw [none, binds]
      exact ⟨by decide, rfl⟩
  have part := (k.apt fits site.there site.member both.1).part site.part
  exact ⟨part.proper, part.below, both.2 ▸ part.places, fun _ => id⟩

theorem known : ∀ name ∈ site.called, k.last.Knows (.function name) := by
  intro name member
  refine (k.finished.lies site.split).known name ?_
  rw [Command.called, site.code, Steps.called_append, Steps.called_append]
  exact List.mem_append_right _ (List.mem_append_left _ member)

theorem poised {room calls : Nat} {args : List Value} {s : Session σ} (reached : site.Reached room args s)
    (enough : calls ≤ room) : Session.Poised k.last p site.expr.code room calls s := by
  have lies := k.finished.lies site.split
  have here := lies.code
  have reach := lies.reach
  rw [Command.size, site.code, Steps.size_append, Steps.size_append] at reach
  rw [site.code] at here
  have code := (Context.hasCode_append (Context.hasCode_append here).2).1
  have pc : s.machine.pc = codeSize site.before + site.first.size := reached.pc
  have room := reached.calls
  refine ⟨pc ▸ code, ?_, reached.off, reached.values, by omega⟩
  rw [pc]
  show codeSize site.before + site.first.size + (Expr.call site.name site.arguments).code.size < maxCode
  omega

/-- A call that comes to its end. -/
theorem returned (works : k.last.Working p) (acyclic : k.last.Acyclic site.called) {room idx clock : Nat}
    {args : List Value} {s : Session σ} {v a : Value} {w : World σ} (reached : site.Reached room args s)
    (keeps : s.world.Keeps (k.last.Uses site.called) w) :
    site.Returned v s (s.beyond site.expr.code.size (s.machine.stack.insert v) w a idx clock) where
  pc := congrArg (· + site.expr.code.size) reached.pc
  stack := rfl
  calls := rfl
  heap := rfl
  pointer := keeps.memory _ (Context.not_uses_frameCell works _)
  size := keeps.size
  globals := keeps.memory
  own x own := keeps.memory x (site.not_uses acyclic own)

end CallSite

/-- Every call in a command is that of a call site. -/
theorem exists_callSite {command : Command} {whole : Expr} {name : String} {arguments : List Expr}
    (there : command ∈ k.last.program) (member : whole ∈ command.expressions)
    (part : (Expr.call name arguments).Part whole) :
    ∃ site : k.CallSite, site.command = command ∧ site.name = name ∧ site.arguments = arguments := by
  obtain ⟨before, after, split⟩ := List.append_of_mem there
  obtain ⟨first, rest, code⟩ := part.isInfix.trans (Command.infix_code member)
  have placed : command.code = first ++ ((Expr.call name arguments).code ++ rest) := by rw [← code, List.append_assoc]
  exact ⟨⟨before, command, after, whole, name, arguments, first, rest, split, member, part, placed⟩, rfl, rfl, rfl⟩

/-- A call has as many arguments as the function has parameters. -/
theorem arguments_length {command : Command} {whole : Expr} {name : String} {arguments : List Expr}
    (there : command ∈ k.last.program) (member : whole ∈ command.expressions)
    (part : (Expr.call name arguments).Part whole) :
    ∃ r parameters, k.last.routine? name = some r ∧ OnlyDefines k.last k.lines name parameters r.body ∧
      arguments.length = parameters.length := by
  obtain ⟨site, -, rfl, rfl⟩ := k.exists_callSite there member part
  have proper := part.proper ((k.finished.fine there).proper.expression member)
  have known : k.last.functions.lookup site.name = some site.arguments.length := by
    cases proper with
    | call known _ => exact known
  have own : site.name ∈ site.called := by
    rw [CallSite.called, CallSite.expr, Expr.code_call, Steps.called_append]
    simp [Steps.called, Steps.callee]
  obtain ⟨r, found, count⟩ := k.finished.routine_of_known (site.known _ own) known
  obtain ⟨parameters, same, defines⟩ := k.onlyDefines found
  exact ⟨r, parameters, found, defines, count ▸ same⟩

end Compilation

/-- In a compiled program, a call has as many arguments as the only definition of its function has parameters. With enough
room, and if no function that it comes to comes back to itself, it gives the value of the body, where the parameters are
the values of the arguments, and leaves nothing but that, or it fails as the evaluation does. -/
theorem calls_bind_parameters {source : String} {p : Program} (compiled : compile source = .ok p) :
    ∃ k : Compilation source p,
      (∀ command ∈ k.last.program, ∀ whole ∈ command.expressions, ∀ name arguments,
        (Expr.call name arguments).Part whole →
          (∃ r parameters, k.last.routine? name = some r ∧ OnlyDefines k.last k.lines name parameters r.body ∧
            arguments.length = parameters.length) ∧
          ∃ site : k.CallSite, site.command = command ∧ site.name = name ∧ site.arguments = arguments) ∧
      ∀ site : k.CallSite, k.last.Acyclic site.called → ∃ room, ∀ {σ : Type} (env : Environment σ) (args : List Value)
        (s : Session σ) (depth : Nat), room ≤ depth → site.Reached room args s →
          match site.expr.eval env.host (k.last.apply env.host depth) args s.world with
          | .ok v w => ∃ n s', Goes env p n s s' ∧ s'.world = w ∧ site.Returned v s s'
          | .error e w => ∃ address, Breaks env p s (e.atAddress address) w.host := by
  obtain ⟨k⟩ := compilation_of_ok compiled
  refine ⟨k, fun command there whole member name arguments part =>
    ⟨k.arguments_length there member part, k.exists_callSite there member part⟩, fun site acyclic => ?_⟩
  have ends : k.last.Ends site.called := acyclic.ends
  by_cases fits : k.last.scopes.highWater ≤ maxPointer + 1
  · have works := k.finished.working fits
    obtain ⟨need, answers⟩ := Context.exists_answers works (k.tidy fits) ends site.known
    refine ⟨site.expr.code.size + need, fun {σ} env args s depth deep reached => ?_⟩
    have honest : site.expr.Honest k.last p env (k.last.apply env.host depth) site.called args need need :=
      (site.apt reached).honest works fun name member => answers name member env depth (by omega)
    have does := honest.does (site.poised reached (Nat.le_add_left _ _)) (site.ready acyclic reached)
    simp only [Functor.map, EStateM.map] at does
    cases result : site.expr.eval env.host (k.last.apply env.host depth) args s.world with
    | ok v w =>
      rw [result] at does
      obtain ⟨a, idx, n, clock, goes⟩ := does
      exact ⟨n, _, goes, rfl, site.returned works acyclic reached (honest.keeping.keeps result)⟩
    | error e w =>
      rw [result] at does
      exact does
  · refine ⟨0, fun {σ} env args s depth _ reached => absurd ?_ fits⟩
    have := reached.size
    have := reached.limit
    have := k.finished.size_eq
    omega

/-- Whether the functions and the call are those of `framedCalls`. -/
def Context.isFramed (c : Context) : Bool :=
  match c.routine? "F", c.routine? "G" with
  | some ⟨2, 1, .binary .plus (.variable (.place i)) (.integer n)⟩,
    some ⟨4, 1, .binary .plus (.call f [.binary .multiply (.variable (.place j)) (.integer k)]) (.variable (.place l))⟩ =>
    i == 1 && n == 1 && f == "F" && j == 1 && k == 2 && l == 1 && c.program.any fun
      | .print (.call g [.integer n]) => g == "G" && n == 3
      | _ => false
  | _, _ => false

theorem Context.of_isFramed {c : Context} (h : c.isFramed = true) :
    c.routine? "F" = some ⟨2, 1, .binary .plus (.variable (.place 1)) (.integer 1)⟩ ∧
    c.routine? "G" = some ⟨4, 1, .binary .plus
      (.call "F" [.binary .multiply (.variable (.place 1)) (.integer 2)]) (.variable (.place 1))⟩ ∧
    .print (.call "G" [.integer 3]) ∈ c.program := by
  unfold isFramed at h
  split at h
  · next inner outer =>
    simp only [Bool.and_eq_true, beq_iff_eq, List.any_eq_true] at h
    obtain ⟨⟨⟨⟨⟨⟨rfl, rfl⟩, rfl⟩, rfl⟩, rfl⟩, rfl⟩, command, member, shown⟩ := h
    refine ⟨inner, outer, ?_⟩
    split at shown
    · simp only [Bool.and_eq_true, beq_iff_eq] at shown
      obtain ⟨rfl, rfl⟩ := shown
      exact member
    · cases shown
  · cases h

/-- A function whose body calls another one. -/
theorem calls_bind_parameters_framedCalls :
    ∃ p, compile framedCalls = .ok p ∧ ∃ (k : Compilation framedCalls p) (site : k.CallSite) (n room : Nat)
      (s s' : Session Script), site.name = "G" ∧ k.last.Acyclic site.called ∧ site.Reached room [] s ∧
        Goes { host := Script.host } p n s s' ∧ site.Returned (.integer 10) s s' := by
  have found : (compile framedCalls).toOption.any (·.staticSize ≤ 32) = true := by decide +kernel
  have framed : (finalContext framedCalls).any Context.isFramed = true := by decide +kernel
  cases compiled : compile framedCalls with
  | error e =>
    rw [compiled] at found
    cases found
  | ok p =>
    rw [compiled] at found
    have size : p.staticSize ≤ 32 := of_decide_eq_true found
    obtain ⟨k, sites, binds⟩ := calls_bind_parameters compiled
    rw [k.finalContext_eq] at framed
    obtain ⟨inner, outer, shown⟩ := Context.of_isFramed framed
    obtain ⟨-, site, command, name, arguments⟩ := sites _ shown _ (List.mem_singleton.mpr rfl) _ _ .whole
    have expr : site.expr = .call "G" [.integer 3] := by rw [Compilation.CallSite.expr, name, arguments]
    have called : site.called = ["G"] := by
      rw [Compilation.CallSite.called, expr]
      rfl
    have ends : k.last.Ends site.called := by
      rw [called]
      refine .intro fun _ member r found => ?_
      obtain rfl := List.mem_singleton.mp member
      cases outer.symm.trans found
      refine .intro fun _ member r found => ?_
      obtain rfl := List.mem_singleton.mp member
      cases inner.symm.trans found
      exact .intro fun _ member => nomatch member
    have acyclic : k.last.Acyclic site.called := fun _ _ calls found => ends.not_calls calls found
    obtain ⟨room, does⟩ := binds site acyclic
    let s : Session Script :=
      ⟨{ Machine.new { memorySize := 32, stackSize := room, callDepth := room } with pc := site.address }, {}⟩
    have reached : site.Reached room [] s := by
      refine ⟨rfl, rfl, size, ?_, Nat.le_of_eq (Nat.zero_add _), Nat.le_of_eq (Nat.zero_add _), ?_⟩
      · exact (by decide : 32 ≤ maxPointer + 1)
      · rw [Compilation.CallSite.Binds, command]
    have value : ∃ w, site.expr.eval Script.host (k.last.apply Script.host (room + 2)) [] s.world = .ok (.integer 10) w := by
      rw [expr]
      simp only [Expr.eval, evalAll, Context.apply, outer, inner]
      exact ⟨_, rfl⟩
    obtain ⟨w, value⟩ := value
    have done := does { host := Script.host } [] s (room + 2) (Nat.le_add_right _ _) reached
    rw [value] at done
    obtain ⟨n, s', goes, -, returned⟩ := done
    exact ⟨p, rfl, k, site, n, room, s, s', name, acyclic, reached, goes, returned⟩

end BasicMachine.Language
