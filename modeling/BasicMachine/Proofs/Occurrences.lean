import BasicMachine.Proofs.Passage

/-!
# The statements of a program

Each statement adds its commands to those that are there, and the first of them is one that a machine can be at. A label
stands for the place of its only mark, and a FOR loop is closed by the NEXT that finds it open.
-/
namespace BasicMachine.Language

/-- What is read from here on can be looked at alone. -/
theorem Context.Settled.behind {s : Setting} {c : Context} (h : c.Settled s) :
    c.Settled { s with older := c.commands } := by
  obtain ⟨commands, orderly, -⟩ := h
  exact ⟨[], ⟨orderly.functions, orderly.inner, rfl, orderly.agrees, orderly.loops, orderly.whiles, orderly.short,
    orderly.distinct, orderly.filled⟩, .nil, List.forall_mem_nil _⟩

namespace Parser

variable {s : Setting} {pre : Prop}

theorem spans_proceeds : Spans Proceeds where
  refl c := ⟨.refl c, fun _ => id⟩
  trans first second := first.trans second
  past c := .of_aside (.past c)
  site := strides_proceeds.site
  condition ran := .of_adds (fun _ => adds_condition _) ran
  consequence {fuel _ _} ran := .of_adds (fun _ => adds_consequence (adds_site .branch fuel fun _ => trivial)) ran
  alternative inner ran := .of_adds (fun _ => adds_alternative fun _ => inner) ran
  place inner ran := .of_adds (fun _ => adds_place fun _ => inner) ran

end Parser

open Parser

/-- What has been read before a statement is settled, and so is what is read with it. -/
theorem Statement.settled {lines : List SourceLine} {s : Setting} {start c₁ c₂ : Context}
    (agrees : ∀ line ∈ lines, Agrees s.functions line.line.tokens) (begins : start.Settled s)
    (compiled : lines.forM compileLine start = .ok ((), s.last)) (h : Statement lines start c₁ c₂) :
    c₁.Settled s ∧ Proceeds c₁ c₂ ∧ c₂.Within s.last ∧ s.last.Settled { s with older := c₁.commands } := by
  obtain ⟨before, line, after, c, d, e, fuel, rfl, read, begun, above, ran, ends, below, later⟩ :=
    h.around spans_proceeds compiled
  have ⟨earlier, here, rest⟩ : (∀ l ∈ before, Agrees s.functions l.line.tokens) ∧ Agrees s.functions line.line.tokens ∧
      ∀ l ∈ after, Agrees s.functions l.line.tokens := by
    simpa only [List.forall_mem_append, List.forall_mem_cons] using agrees
  have own : Proceeds c₁ c₂ := strides_proceeds.site .statement ran ends
  have upper : Adds s True (before.forM compileLine) fun _ => True := adds_compileLines earlier
  have head : Adds s True (startLine line) fun _ => True := adds_startLine here
  have last (older : List Command) : Adds { s with older } True (after.forM compileLine) fun _ => True :=
    adds_compileLines rest
  have inside₂ : c₂.Within s.last := below.within.trans ((last []).within later)
  have inside₁ : c₁.Within s.last := own.within.trans inside₂
  have insideLine : d.Within s.last := above.within.trans inside₁
  have settled : c.Settled s := (upper.keeps read ((head.within begun).trans insideLine) trivial begins).1
  have settled₁ : c₁.Settled s := above.settled inside₁ (head.keeps begun insideLine trivial settled).1
  refine ⟨settled₁, own, inside₂, ?_⟩
  have settled₂ : c₂.Settled { s with older := c₁.commands } := own.settled inside₂ settled₁.behind
  exact ((last c₁.commands).keeps later (.refl _) trivial (below.settled ((last []).within later) settled₂)).1

/-- The address of the first instruction of what is read next. -/
def Context.place (c : Context) : Nat := codeSize c.commands.reverse

theorem Context.place_of_commands {c d : Context} (new : List Command) (h : d.commands = new ++ c.commands) :
    d.place = c.place + codeSize new.reverse := by
  rw [Context.place, h, List.reverse_append, codeSize_append]
  rfl

/-- The first of some commands is not a part of a function. -/
theorem Grouped.isPlain_first {functions : List (String × Nat)} {newer : List Command} {command : Command}
    (h : Grouped functions (newer ++ [command])) : command.isPlain = true := by
  cases command with
  | function frame arity body =>
    obtain ⟨name, around, oldest, impossible⟩ := h.before_function rfl
    cases impossible
  | mark l =>
    cases l with
    | function name =>
      obtain ⟨_, _, _, _, _, _, _, impossible, -⟩ := h.around_mark rfl
      cases impossible
    | _ => rfl
  | _ => rfl

/-- Where what is read from a context on can be looked at alone, a command starts. -/
theorem Finished.opens_place {c c₁ : Context} {values : List Value} {p : Program} (h : Finished c values p) {s : Setting}
    (settled : c.Settled { s with older := c₁.commands }) : c.Opens c₁.place := by
  obtain ⟨newer, orderly, grouped, -⟩ := settled
  have all : c.commands = newer ++ c₁.commands := orderly.commands
  have split : c.program = c₁.commands.reverse ++ (.halt :: newer).reverse := by
    rw [Context.program, all, ← List.cons_append, List.reverse_append]
  have whole : Grouped s.functions (.halt :: newer) := .plain rfl grouped
  cases first : (Command.halt :: newer).reverse with
  | nil => simp at first
  | cons command after =>
    rw [first] at split
    rw [List.reverse_eq_iff.mp first, List.reverse_cons] at whole
    exact h.opens_of_plain split whole.isPlain_first

/-- How a source becomes a program: its lines are read one after the other, behind its DATA items, and then linked. -/
structure Compilation (source : String) (p : Program) where
  lines : List SourceLine
  items : List DataItem
  functions : List (String × Nat)
  values : List Value
  /-- The context before the first line. -/
  start : Context
  /-- The context in which all lines are read. -/
  last : Context
  split : sourceLines source = .ok lines
  gathered : sourceData lines = .ok items
  declared : sourceFunctions lines = .ok functions
  interned : items.mapM dataValue (.initial items functions) = .ok (values, start)
  compiled : lines.forM compileLine start = .ok ((), last)
  read : readLines lines items (.initial items functions) = .ok (values, last)
  linked : link last values = .ok p

theorem compilation_of_ok {source : String} {p : Program} (h : compile source = .ok p) :
    Nonempty (Compilation source p) := by
  obtain ⟨lines, items, functions, values, last, split, gathered, declared, read, linked⟩ := compile_eq_ok h
  obtain ⟨start, interned, compiled, -⟩ := readLines_eq_ok read
  exact ⟨⟨lines, items, functions, values, start, last, split, gathered, declared, interned, compiled, read, linked⟩⟩

/-- The context after all lines of a source. -/
def finalContext (source : String) : Option Context :=
  match sourceLines source with
  | .error _ => none
  | .ok lines =>
    match sourceData lines, sourceFunctions lines with
    | .ok items, .ok functions => (readLines lines items (.initial items functions)).toOption.map Prod.snd
    | _, _ => none

namespace Compilation

variable {source : String} {p : Program} (k : Compilation source p)

theorem finalContext_eq : finalContext source = some k.last := by
  simp only [finalContext, k.split, k.gathered, k.declared, k.read]
  rfl

/-- A statement of the source that is read from one context into another. -/
abbrev Statement (c₁ c₂ : Context) : Prop := Language.Statement k.lines k.start c₁ c₂

/-- The setting of all statements. -/
def setting : Setting := .whole k.last k.functions k.items.length

theorem finished : Finished k.last k.values p :=
  (finished_of_readLines k.split k.gathered k.declared k.read k.linked).1

theorem settled_start : k.start.Settled k.setting := by
  have numbers := isNumber_of_sourceData (isNumber_of_sourceLines k.split) k.gathered
  have adds : Adds k.setting True (k.lines.forM compileLine) fun _ => True :=
    adds_compileLines (agrees_of_sourceFunctions k.declared)
  exact (settled_of_dataValues (fun item member v => pointer?_of_isNumber (numbers item member)) k.interned
    (adds.within k.compiled)).1

theorem settled_statement {c₁ c₂ : Context} (h : k.Statement c₁ c₂) :
    c₁.Settled k.setting ∧ Proceeds c₁ c₂ ∧ c₂.Within k.last ∧
      k.last.Settled { k.setting with older := c₁.commands } :=
  h.settled (agrees_of_sourceFunctions k.declared) k.settled_start k.compiled

theorem ends_statement {c₁ c₂ : Context} (h : k.Statement c₁ c₂) : Ends c₂.rest := by
  obtain ⟨-, -, -, -, -, -, -, -, -, -, -, -, ends, -⟩ := h.around spans_proceeds k.compiled
  exact ends

/-- What follows the word of a statement is read outside of functions. -/
theorem keyword_statement {c₁ c₂ : Context} {w : Keyword} (h : k.Statement c₁ c₂) (next : c₁.rest.head? = some (.word w)) :
    ∃ fuel, keyword (fuel + 1) w c₁.past = .ok ((), c₂) ∧ c₁.rest = .word w :: c₁.past.rest ∧ c₁.past.scopes.inner = [] := by
  obtain ⟨⟨_, orderly, -⟩, -⟩ := k.settled_statement h
  obtain ⟨-, -, -, -, ran⟩ := h
  obtain ⟨fuel, ran⟩ := keyword_of_statement ran next
  obtain ⟨rest, starts⟩ := List.head?_eq_some_iff.mp next
  exact ⟨fuel, ran, by rw [Context.past, starts]; rfl, orderly.inner⟩

/-- The first instruction of a statement is that of a command. -/
theorem opens_statement {c₁ c₂ : Context} (h : k.Statement c₁ c₂) : k.last.Opens c₁.place :=
  k.finished.opens_place (k.settled_statement h).2.2.2

/-- A label that is marked stands for the place of its mark. -/
theorem address_eq {before after : List Command} {l : Label} (split : k.last.program = before ++ .mark l :: after)
    (other : l.isFunction = false) : k.last.address l = codeSize before := by
  have once := (owes_of_readLines k.read).once l other
  have count : (k.last.program.filterMap Command.marked?).count l ≤ 1 := by
    have same : k.last.program.filterMap Command.marked? = k.last.marks.reverse := by
      rw [Context.program, List.filterMap_reverse]
      rfl
    rw [same, List.count_reverse]
    rw [Context.pledges] at once
    omega
  have first : .mark l ∉ before := by
    intro member
    have some : 0 < (before.filterMap Command.marked?).count l :=
      List.count_pos_iff.mpr (List.mem_filterMap.mpr ⟨_, member, rfl⟩)
    have own : ((Command.mark l :: after).filterMap Command.marked?).count l =
        (after.filterMap Command.marked?).count l + 1 := List.count_cons_self
    rw [split, List.filterMap_append, List.count_append, own] at count
    omega
  rw [Context.address, Context.labels, split, lookup_labelsFrom first, Nat.zero_add]
  rfl

/-- A loop that a statement leaves open is closed by the NEXT that finds it. -/
theorem closes {c₁ c₂ : Context} {loop : ForLoop} {outer : List ForLoop} (h : k.Statement c₁ c₂)
    (opened : c₂.forLoops = loop :: outer) :
    ∃ name d d', closeLoop name d = .ok ((), d') ∧ d.forLoops = loop :: outer ∧ c₂.commands <:+ d.commands ∧
      d'.commands <:+ k.last.commands := by
  have now : c₂.Pursues loop outer c₂.commands := @Context.Pursues.opened _ _ _ _ [] opened (List.suffix_refl _)
  obtain ⟨-, -, -, none, -⟩ := readLines_eq_ok k.read
  cases h.pursues k.compiled now with
  | @opened inner loops _ =>
    rw [none] at loops
    simp at loops
  | closed ran loops behind later => exact ⟨_, _, _, ran, loops, behind, later⟩

end Compilation

end BasicMachine.Language
