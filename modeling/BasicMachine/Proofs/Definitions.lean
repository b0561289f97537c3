import BasicMachine.Proofs.Simulation
import BasicMachine.Proofs.Wording

/-!
# Functions and their definitions

Every function of a program comes from a definition in its text: the body is what the tokens behind the equals sign stand
for, in the scope of the parameters. No other command reads a parameter.
-/
namespace BasicMachine.Language

/-- Tokens name no parameters but those in scope. -/
theorem Worded.sees {last : Context} {parameters : List String} {level : Level} {next : Option Operator} {es : List Expr}
    {ts : List Token} (h : Worded last parameters level next es ts) : ∀ e ∈ es, e.Sees parameters.length := by
  induction h with
  | integer n => exact List.forall_mem_singleton.mpr (sees_integer n)
  | float x => exact List.forall_mem_singleton.mpr (sees_float x)
  | text => exact List.forall_mem_singleton.mpr (sees_text _)
  | scalar names =>
    refine List.forall_mem_singleton.mpr ?_
    cases names with
    | «variable» => exact sees_cell _
    | @parameter i there =>
      rintro k ⟨⟩
      exact ⟨i, (List.getElem?_eq_some_iff.mp there).1, rfl⟩
  | element _ _ _ ih => exact List.forall_mem_singleton.mpr (sees_element ih)
  | group _ ih => exact ih
  | plus _ _ ih => exact ih
  | negate _ _ ih => exact List.forall_mem_singleton.mpr (sees_negate (List.forall_mem_singleton.mp ih))
  | not _ _ ih => exact List.forall_mem_singleton.mpr (sees_not (List.forall_mem_singleton.mp ih))
  | binary op _ _ _ _ first second =>
    exact List.forall_mem_singleton.mpr
      (sees_binary (List.forall_mem_singleton.mp first) (List.forall_mem_singleton.mp second))
  | rnd => exact List.forall_mem_singleton.mpr (sees_builtin (List.forall_mem_singleton.mpr (sees_integer 1)))
  | builtinAlone f _ => exact List.forall_mem_singleton.mpr (sees_builtin (List.forall_mem_nil _))
  | builtin f _ ih => exact List.forall_mem_singleton.mpr (sees_builtin ih)
  | callAlone name => exact List.forall_mem_singleton.mpr (sees_call (List.forall_mem_nil _))
  | call name _ ih => exact List.forall_mem_singleton.mpr (sees_call ih)
  | none => exact List.forall_mem_nil _
  | more _ _ _ first later => exact List.forall_mem_cons.mpr ⟨List.forall_mem_singleton.mp first, later⟩

/-- The tokens that list the parameters of a function. -/
inductive Header : List String → List Token → Prop
  | none : Header [] []
  | list (names : List String) : Header names (.lparen :: ((names.map Token.ident).intersperse .comma ++ [.rparen]))

/-- A line of the program defines the function, and the statement ends behind the body. -/
inductive Defines (last : Context) (lines : List SourceLine) (name : String) (parameters : List String) (body : Expr) : Prop
  | intro {s : SourceLine} {header ts rest : List Token} (member : s ∈ lines)
      (tokens : (.word .DEF :: .word .FN :: .ident name :: (header ++ .operator .equal :: (ts ++ rest))) <:+ s.line.tokens)
      (lists : Header parameters header) (distinct : parameters.Nodup) (words : Wording last parameters [body] ts)
      (ends : Ends rest)

/-- The functions among some commands, of which the newest is the first, stand behind the marks of their names, and lines
of the program define them. -/
def Traced (last : Context) (lines : List SourceLine) (commands : List Command) : Prop :=
  ∀ frame arity body older, (.function frame arity body :: older) <:+ commands →
    ∃ name parameters, older.head? = some (.mark (.function name)) ∧ arity = parameters.length ∧
      Defines last lines name parameters body

section
variable {last : Context} {lines : List SourceLine} {commands : List Command}

theorem Traced.cons {command : Command} (h : Traced last lines commands)
    (own : ∀ frame arity body, command = .function frame arity body →
      ∃ name parameters, commands.head? = some (.mark (.function name)) ∧ arity = parameters.length ∧
        Defines last lines name parameters body) : Traced last lines (command :: commands) := by
  intro frame arity body older found
  rcases List.suffix_cons_iff.mp found with same | found
  · cases same
    exact own frame arity body rfl
  · exact h frame arity body older found

theorem Traced.plain {command : Command} (h : Traced last lines commands) (other : command.isFunction = false) :
    Traced last lines (command :: commands) :=
  h.cons fun _ _ _ same => by rw [same] at other; cases other

theorem Traced.append {new : List Command} (h : Traced last lines commands)
    (others : ∀ command ∈ new, command.isFunction = false) : Traced last lines (new ++ commands) := by
  induction new with
  | nil => exact h
  | cons command new ih =>
    obtain ⟨first, rest⟩ := List.forall_mem_cons.mp others
    exact (ih rest).plain first

end

namespace Parser

section
variable {c c' : Context} {fuel : Nat}

theorem find?_foldl_define {names : List String} {outer : Scope} {name : String} {n : Nat}
    (h : (names.foldl Scope.define outer).find? name = some n) :
    (∃ i, names[i]? = some name ∧ n = outer.next + i) ∨ outer.find? name = some n := by
  induction names generalizing outer with
  | nil => exact .inr h
  | cons first rest ih =>
    rcases ih h with ⟨i, there, rfl⟩ | found
    · refine .inl ⟨i + 1, there, ?_⟩
      show outer.next + 1 + i = _
      omega
    · rw [Scope.find?, Scope.define, List.lookup_cons] at found
      split at found
      · next same =>
        cases found
        exact .inl ⟨0, congrArg some (beq_iff_eq.mp same).symm, rfl⟩
      · exact .inr found

theorem not_mem_of_find?_foldl_define {names : List String} {outer : Scope} {name : String}
    (h : (names.foldl Scope.define outer).find? name = none) : name ∉ names ∧ outer.find? name = none := by
  induction names generalizing outer with
  | nil => exact ⟨List.not_mem_nil, h⟩
  | cons first rest ih =>
    obtain ⟨others, new⟩ := ih h
    rw [Scope.find?, Scope.define, List.lookup_cons] at new
    split at new
    · cases new
    · next other => exact ⟨List.not_mem_cons_of_ne_of_not_mem (ne_of_beq_false other) others, new⟩

/-- The scope of a function knows its parameters. -/
theorem scoped_scopeOf (names : List String) : Scoped names [scopeOf names] where
  known {name slot} found := by
    rw [Scopes.findInner?] at found
    split at found
    · next n there =>
      cases found
      rcases find?_foldl_define there with ⟨i, member, rfl⟩ | none
      · exact ⟨i, member, by rw [Nat.add_comm]⟩
      · cases none
    · cases found
  unknown {name} found := by
    rw [Scopes.findInner?] at found
    split at found
    · cases found
    · next _ none => exact (not_mem_of_find?_foldl_define none).1

theorem parametersAfter_takes {before names : List String} (ran : parametersAfter fuel before c = .ok (names, c'))
    (distinct : before.Nodup) :
    names.Nodup ∧ ∃ new, new ≠ [] ∧ names = before ++ new ∧ c.Takes ((new.map Token.ident).intersperse .comma) c' := by
  induction fuel generalizing before c with
  | zero => exact absurd ran fail_ne_ok
  | succ fuel ih =>
    rw [parametersAfter] at ran
    obtain ⟨name, d, first, later⟩ := bind_eq_ok.mp ran
    obtain ⟨next, rfl⟩ := identifier_eq_ok.mp first
    have past := Context.Takes.past next
    dsimp only at later
    split at later
    · exact absurd later fail_bind_ne_ok
    · next fresh =>
      have longer : (before ++ [name]).Nodup := List.nodup_append_comm.mp (List.nodup_cons.mpr ⟨fresh, distinct⟩)
      rw [accept_bind] at later
      split at later
      · next comma =>
        obtain ⟨all, new, some, rfl, takes⟩ := ih later longer
        refine ⟨all, name :: new, List.cons_ne_nil _ _, by rw [List.append_assoc]; rfl, ?_⟩
        have whole := past.trans ((Context.Takes.past comma).trans takes)
        cases new with
        | nil => exact absurd rfl some
        | cons second rest => exact whole
      · obtain ⟨rfl, rfl⟩ := pure_eq_ok.mp later
        exact ⟨longer, [name], List.cons_ne_nil _ _, rfl, past⟩

theorem parameters_takes {names : List String} (ran : parameters fuel c = .ok (names, c')) :
    names.Nodup ∧ ∃ header, Header names header ∧ c.Takes header c' := by
  rw [parameters, accept_bind] at ran
  split at ran
  · next opens =>
    rw [if_pos rfl, accept_bind] at ran
    split at ran
    · next closes =>
      obtain ⟨rfl, rfl⟩ := pure_eq_ok.mp ran
      exact ⟨List.nodup_nil, _, .list [], (Context.Takes.past opens).trans (.past closes)⟩
    · obtain ⟨read, d, listed, ran⟩ := bind_eq_ok.mp ran
      obtain ⟨_, d', expected, ran⟩ := bind_eq_ok.mp ran
      obtain ⟨rfl, rfl⟩ := pure_eq_ok.mp ran
      obtain ⟨closes, rfl⟩ := expect_eq_ok.mp expected
      obtain ⟨distinct, _, -, rfl, takes⟩ := parametersAfter_takes listed List.nodup_nil
      exact ⟨distinct, _, .list _, (Context.Takes.past opens).trans (takes.trans (.past closes))⟩
  · obtain ⟨rfl, rfl⟩ := pure_eq_ok.mp ran
    exact ⟨List.nodup_nil, [], .none, .refl _⟩

/-- A definition, from the word FN on, and its commands. -/
theorem define_eq_ok (ran : define fuel c = .ok ((), c')) (root : c.scopes.inner = []) :
    ∃ name parameters header ts after frame body, Header parameters header ∧ parameters.Nodup ∧
      c.rest = .word .FN :: .ident name :: (header ++ .operator .equal :: (ts ++ c'.rest)) ∧
      c'.commands = .mark after :: .function frame parameters.length body :: .mark (.function name) :: .jump after ::
        c.commands ∧
      ∀ last, c'.Within last → Wording last parameters [body] ts := by
  obtain ⟨_, d, expected, ran⟩ := bind_eq_ok.mp ran
  obtain ⟨fn, rfl⟩ := expect_eq_ok.mp expected
  obtain ⟨name, d, named, ran⟩ := bind_eq_ok.mp ran
  obtain ⟨ident, rfl⟩ := identifier_eq_ok.mp named
  obtain ⟨names, d, listed, ran⟩ := bind_eq_ok.mp ran
  obtain ⟨distinct, header, lists, takes⟩ := parameters_takes listed
  obtain ⟨_, d', expected, ran⟩ := bind_eq_ok.mp ran
  obtain ⟨equals, rfl⟩ := expect_eq_ok.mp expected
  rw [freshLabel_bind, emit_bind, emit_bind, modify_bind, get_bind, allocate_bind, accountCode_bind] at ran
  obtain ⟨body, d', read, ran⟩ := bind_eq_ok.mp ran
  rw [modify_bind, emit_bind] at ran
  obtain ⟨-, rfl⟩ := place_eq_ok.mp ran
  have front := (Context.Takes.past fn).trans ((Context.Takes.past ident).trans (takes.trans (.past equals)))
  have scopes : names.foldl (fun s n => (s.define n).2) d.scopes.enter =
      { d.scopes with inner := scopeOf names :: d.scopes.inner } := foldl_define names rfl
  have outer : d.scopes.inner = [] := front.inner.trans root
  have scope : Scoped names (names.foldl (fun s n => (s.define n).2) d.scopes.enter).inner := by
    rw [scopes, outer]
    exact scoped_scopeOf names
  obtain ⟨ts, took, words⟩ := ((readsWords names fuel).expression readBy_zero scope read).all
  have rest := front.rest
  refine ⟨name, names, header, ts, .inside d.past.labelCount,
    (names.foldl (fun s n => (s.define n).2) d.scopes.enter).highWater, body, lists, distinct, ?_, ?_, ?_⟩
  · have behind : d.past.rest = ts ++ d'.rest := took.rest
    rw [rest, behind]
    show _ = _ :: _ :: (header ++ _ :: (ts ++ d'.rest))
    simp only [List.cons_append, List.nil_append, List.append_assoc]
  · have before : d.commands = c.commands := front.commands
    rw [← before]
    have during : d'.commands = .mark (.function name) :: .jump (.inside d.past.labelCount) :: d.commands := took.commands
    rw [← during]
    rfl
  · intro last inside
    refine words last ⟨inside.highWater, inside.names, inside.arrays, inside.texts, ?_, inside.cites, inside.dataCount⟩
    exact ((List.suffix_cons _ _).trans (List.suffix_cons _ _)).trans inside.commands

end

/-- Between two statements of a line, with functions that can be traced to the text. -/
structure Tracing (s : Setting) (lines : List SourceLine) (tokens : List Token) (c : Context) : Prop where
  settled : c.Settled s
  rest : c.rest <:+ tokens
  traced : Traced s.last lines c.commands

section
variable {s : Setting} {lines : List SourceLine} {tokens : List Token}

/-- Reading that makes no functions. -/
theorem Tracing.course {c c' : Context} (h : Tracing s lines tokens c) (settled : c'.Settled s)
    (course : c.Course ⟨(·.isFunction = false), True, True⟩ c') : Tracing s lines tokens c' where
  settled := settled
  rest := by
    obtain ⟨ts, same, -⟩ := course.tokens
    exact .trans ⟨ts, same.symm⟩ h.rest
  traced := by
    obtain ⟨new, same, others⟩ := course.commands
    exact same ▸ h.traced.append others

theorem Tracing.define {fuel : Nat} {c c' : Context} (h : Tracing s lines tokens c)
    (member : ∃ line ∈ lines, tokens = line.line.tokens) (next : c.rest.head? = some (.word .DEF))
    (ran : define fuel c.past = .ok ((), c')) (ends : Ends c'.rest) (settled : c'.Settled s) (inside : c'.Within s.last) :
    Tracing s lines tokens c' := by
  obtain ⟨commands, orderly, -⟩ := h.settled
  obtain ⟨name, parameters, header, ts, after, frame, body, lists, distinct, behind, made, words⟩ :=
    define_eq_ok ran orderly.inner
  obtain ⟨line, there, rfl⟩ := member
  obtain ⟨more, starts⟩ := List.head?_eq_some_iff.mp next
  have tokens := h.rest
  have past : c.past.rest = more := by rw [Context.past, starts]; rfl
  rw [starts, ← past, behind] at tokens
  refine ⟨settled, .trans ?_ tokens, ?_⟩
  · exact ⟨.word .DEF :: .word .FN :: .ident name :: (header ++ .operator .equal :: ts), by simp⟩
  · rw [made]
    refine (((h.traced.plain rfl).plain rfl).cons fun _ _ _ same => ?_).plain rfl
    cases same
    exact ⟨name, parameters, rfl, rfl, .intro there tokens lists distinct (words _ inside) ends⟩

/-- Reading that leads to functions of the text only. -/
structure Traces (s : Setting) (lines : List SourceLine) (tokens : List Token) (c c' : Context) : Prop where
  proceeds : Proceeds c c'
  traces : c'.Within s.last → Tracing s lines tokens c → Tracing s lines tokens c'

theorem Traces.of_keeping {α : Type} {p : Parser α} {a : α} {c c' : Context}
    (keeping : Keeping ⟨(·.isFunction = false), True, True⟩ (-1) .unknown p) (ran : p c = .ok (a, c'))
    (proceeds : Proceeds c c') : Traces s lines tokens c c' :=
  ⟨proceeds, fun inside h => h.course (proceeds.settled inside h.settled) (keeping.course trivial ran)⟩

theorem Traces.trans {c c' c'' : Context} (first : Traces s lines tokens c c') (second : Traces s lines tokens c' c'') :
    Traces s lines tokens c c'' :=
  ⟨first.proceeds.trans second.proceeds, fun inside h =>
    second.traces inside (first.traces (second.proceeds.within.trans inside) h)⟩

theorem strides_traces (member : ∃ line ∈ lines, tokens = line.line.tokens) : Strides (Traces s lines tokens) where
  refl c := ⟨strides_proceeds.refl c, fun _ => id⟩
  trans := Traces.trans
  past c := .of_keeping (a := ()) (keeping_skipAny trivial) rfl (strides_proceeds.past c)
  jump ran := .of_keeping (keeping_lineJump fun _ => rfl) ran (strides_proceeds.jump ran)
  assignment ran := .of_keeping (keeping_assignment (fun _ _ => rfl) _) ran (strides_proceeds.assignment ran)
  keyword {fuel k c c'} other next ran ends := by
    have proceeds := strides_proceeds.keyword other next ran ends
    by_cases isDef : k = .DEF
    · subst isDef
      exact ⟨proceeds, fun inside h => h.define member next ran ends (proceeds.settled inside h.settled) inside⟩
    have keeping : Keeping ⟨(·.isFunction = false), True, True⟩ (-1) .unknown (keyword (fuel + 1) k) := by
      by_cases isData : k = .DATA
      · exact isData ▸ keeping_data trivial
      · exact keeping_keyword (fun _ => id) trivial _ other isData fun same => absurd same isDef
    have whole : (do
        skip
        keyword (fuel + 1) k) c = .ok ((), c') := ran
    exact .of_keeping (keeping_bind (keeping_skipAny trivial) fun _ => keeping) whole proceeds
  ifThen branched _ _ ran := by
    refine ifThen_parts (R := Traces s lines tokens) Traces.trans
      (fun c => .of_keeping (a := ()) (keeping_skipAny trivial) rfl (strides_proceeds.past c))
      (fun tested => .of_keeping ?_ tested (spans_proceeds.condition tested))
      (fun ran => .of_keeping (keeping_lineJump fun _ => rfl) ran (strides_proceeds.jump ran))
      (fun inner turned => .of_keeping ?_ turned (spans_proceeds.alternative inner turned))
      (fun inner placed => .of_keeping (keeping_place rfl) placed (spans_proceeds.place inner placed)) branched ran
    · refine keeping_bind (keeping_expression _ 0) fun e => keeping_bind (keeping_freshLabel trivial) fun l => ?_
      exact keeping_bind (keeping_emit rfl) fun _ => keeping_pure l
    · refine keeping_bind (keeping_freshLabel trivial) fun done => keeping_bind (keeping_emit rfl) fun _ => ?_
      exact keeping_bind (keeping_place rfl) fun _ => keeping_pure done

end

end Parser

open Parser

/-- A line starts with all of its tokens, and with a mark at most. -/
theorem tracing_startLine {s : Setting} {lines : List SourceLine} {line : SourceLine} {c c' : Context}
    (h : Traced s.last lines c.commands) (begun : startLine line c = .ok ((), c')) (settled : c'.Settled s) :
    Tracing s lines line.line.tokens c' := by
  rw [startLine, modify_bind] at begun
  generalize line.line.number = number at begun
  split at begun
  · obtain ⟨-, rfl⟩ := markLine_eq_ok begun
    exact ⟨settled, List.suffix_refl _, h.plain rfl⟩
  · cases begun
    exact ⟨settled, List.suffix_refl _, h⟩

theorem traced_compileLines {s : Setting} {lines some : List SourceLine} {c c' : Context} (part : some ⊆ lines)
    (agrees : ∀ line ∈ some, Agrees s.functions line.line.tokens) (ran : some.forM compileLine c = .ok ((), c'))
    (inside : c'.Within s.last) (settled : c.Settled s) (traced : Traced s.last lines c.commands) :
    Traced s.last lines c'.commands := by
  induction some generalizing c with
  | nil =>
    cases ran
    exact traced
  | cons line rest ih =>
    obtain ⟨_, d, first, later⟩ := bind_eq_ok.mp ran
    obtain ⟨member, others⟩ := List.cons_subset.mp part
    obtain ⟨own, agree⟩ := List.forall_mem_cons.mp agrees
    obtain ⟨e, begun, read, -⟩ := compileLine_eq_ok first
    have goes : Traces s lines line.line.tokens e d :=
      (strides_traces ⟨line, member, rfl⟩).site .statements (show Site.parser .statements (fuelFor e.rest) e = _ from read)
        trivial
    have behind : d.Within s.last := (within_of_compileLines later).trans inside
    have starts : Adds s True (startLine line) fun _ => True := adds_startLine own
    have begins := (starts.keeps begun (goes.proceeds.within.trans behind) trivial settled).1
    have done := goes.traces behind (tracing_startLine traced begun begins)
    exact ih others agree later done.settled done.traced

/-- The functions of a program can be traced to its text. -/
theorem Compilation.traced {source : String} {p : Program} (k : Compilation source p) :
    Traced k.last k.lines k.last.commands := by
  have none : Traced k.last k.lines k.start.commands := by
    rw [((quiet_dataValues k.items).quiet k.interned).commands]
    intro frame arity body older found
    cases List.suffix_nil.mp found
  exact traced_compileLines (s := k.setting) (List.Subset.refl _) (agrees_of_sourceFunctions k.declared) k.compiled (.refl _)
    k.settled_start none

end BasicMachine.Language
