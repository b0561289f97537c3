import BasicMachine.Language.Compile

/-!
# Steps of a parser

What the small parsers do to the context of what follows them. A parser that cannot fail gives an equation, one that
can fail says what its success tells.
-/
namespace BasicMachine.Language

namespace Parser

variable {α β : Type} {c c' : Context}

theorem bind_eq_ok {p : Parser α} {f : α → Parser β} {b : β} :
    (p >>= f) c = .ok (b, c') ↔ ∃ a d, p c = .ok (a, d) ∧ f a d = .ok (b, c') := by
  simp only [bind, StateT.bind, Except.bind]
  cases p c with
  | error e => simp
  | ok r => exact ⟨fun h => ⟨r.1, r.2, rfl, h⟩, fun ⟨a, d, same, h⟩ => by cases same; exact h⟩

/-- A parser after another one that succeeds. -/
theorem bind_of_ok {p : Parser α} {f : α → Parser β} {a : α} {d : Context} (h : p c = .ok (a, d)) :
    (p >>= f) c = f a d := by
  simp only [bind, StateT.bind, Except.bind, h]

theorem pure_eq_ok {a b : α} : (pure a : Parser α) c = .ok (b, c') ↔ b = a ∧ c' = c := by
  change Except.ok (a, c) = Except.ok (b, c') ↔ _
  simp only [Except.ok.injEq, Prod.mk.injEq, eq_comm]

theorem fail_ne_ok {code : ErrorCode} {detail : String} {r : α × Context} :
    (fail code detail : Parser α) c ≠ .ok r := by
  intro h
  cases h

theorem fail_bind_ne_ok {code : ErrorCode} {detail : String} {f : α → Parser β} {r : β × Context} :
    ((fail code detail : Parser α) >>= f) c ≠ .ok r := by
  intro h
  cases h

theorem get_bind (f : Context → Parser α) : (get >>= f) c = f c c := rfl

theorem modify_bind (g : Context → Context) (f : Unit → Parser α) : (modify g >>= f) c = f () (g c) := rfl

theorem peek_bind (f : Option Token → Parser α) : (peek >>= f) c = f c.rest.head? c := rfl

/-- A parser that looks at the next token first. -/
theorem run_peek {p : Parser α} {f : Option Token → Parser α} {t : Token} (same : p = (peek >>= f))
    (next : c.rest.head? = some t) : p c = f (some t) c := by
  rw [same, peek_bind, next]

end Parser

namespace Context

/-- After the next token. -/
def past (c : Context) : Context := { c with rest := c.rest.tail }

/-- After the count of code that a command will hold. -/
def counting (c : Context) (code : Steps) : Context := { c with reach := c.reach + code.size }

/-- With one more command. -/
def emitting (c : Context) (command : Command) : Context :=
  { c with
    commands := command :: c.commands
    size := c.size + command.size
    reach := c.size + command.size }

/-- With one more label taken. -/
def labelling (c : Context) : Context := { c with labelCount := c.labelCount + 1 }

def referring (c : Context) (l : Label) : Context := { c with references := (l, c.line) :: c.references }

/-- With `n` more cells taken. -/
def allocating (c : Context) (n : Nat) : Context := { c with scopes := (c.scopes.allocate n).2 }

end Context

namespace Parser

variable {α β : Type} {c c' : Context}

theorem skip_bind (f : Unit → Parser α) : (skip >>= f) c = f () c.past := rfl

theorem account_bind (code : Steps) (f : Unit → Parser α) : (account code >>= f) c = f () (c.counting code) := rfl

theorem accountCode_bind (code : Code) (f : Unit → Parser α) :
    (accountCode code >>= f) c = f () (c.counting (Steps.ofCode code)) := rfl

theorem emit_eq (command : Command) : emit command c = .ok ((), c.emitting command) := rfl

theorem emit_bind (command : Command) (f : Unit → Parser α) :
    (emit command >>= f) c = f () (c.emitting command) := rfl

theorem freshLabel_bind (f : Label → Parser α) : (freshLabel >>= f) c = f (.inside c.labelCount) c.labelling := rfl

theorem allocate_bind (n : Nat) (f : Nat → Parser α) :
    (allocate n >>= f) c = f c.scopes.highWater (c.allocating n) := rfl

theorem unexpected_ne_ok {expected : String} {r : α × Context} : (unexpected expected : Parser α) c ≠ .ok r := by
  intro h
  rw [unexpected, peek_bind] at h
  cases next : c.rest.head? <;> rw [next] at h <;> cases h

theorem unexpected_bind_ne_ok {expected : String} {f : α → Parser β} {r : β × Context} :
    ((unexpected expected : Parser α) >>= f) c ≠ .ok r := by
  intro h
  obtain ⟨a, d, unexpected, -⟩ := bind_eq_ok.mp h
  exact unexpected_ne_ok unexpected

theorem accept_bind (t : Token) (f : Bool → Parser α) :
    (accept t >>= f) c = if c.rest.head? = some t then f true c.past else f false c := by
  rw [accept, bind_assoc, peek_bind]
  split <;> rfl

theorem expect_eq_ok {t : Token} {u : Unit} :
    expect t c = .ok (u, c') ↔ c.rest.head? = some t ∧ c' = c.past := by
  rw [expect, accept_bind]
  split
  · next found => simp [found, pure_eq_ok]
  · next other =>
    simp only [other, false_and, iff_false]
    exact unexpected_ne_ok

theorem identifier_eq_ok {name : String} :
    identifier c = .ok (name, c') ↔ c.rest.head? = some (.ident name) ∧ c' = c.past := by
  rw [identifier, peek_bind]
  cases next : c.rest.head? with
  | none => exact ⟨fun h => absurd h unexpected_ne_ok, fun h => absurd h.1 (by simp)⟩
  | some t =>
    cases t with
    | ident word =>
      dsimp only
      rw [skip_bind, pure_eq_ok]
      simp [eq_comm]
    | _ => exact ⟨fun h => absurd h unexpected_ne_ok, fun h => absurd h.1 (by simp)⟩

theorem checkReach_eq_ok {u : Unit} : checkReach c = .ok (u, c') ↔ c.reach < maxCode ∧ c' = c := by
  rw [checkReach, get_bind]
  split
  · next large =>
    refine ⟨fun h => absurd h fail_ne_ok, fun h => ?_⟩
    omega
  · next small => simp [pure_eq_ok, Nat.lt_of_not_le small]

theorem place_eq_ok {l : Label} {u : Unit} :
    place l c = .ok (u, c') ↔ c.reach < maxCode ∧ c' = c.emitting (.mark l) := by
  simp only [place, bind_eq_ok, checkReach_eq_ok, emit_eq]
  constructor
  · rintro ⟨_, d, ⟨small, rfl⟩, same⟩
    cases same
    exact ⟨small, rfl⟩
  · rintro ⟨small, rfl⟩
    exact ⟨(), c, ⟨small, rfl⟩, rfl⟩

theorem within_eq_ok {line : Nat} {p : Parser α} {r : α × Context} : within line p c = .ok r ↔ p c = .ok r := by
  rw [within]
  cases p c with
  | error e => exact iff_of_false (by rintro ⟨⟩) (by rintro ⟨⟩)
  | ok a => exact Iff.rfl

/-- What a success of NEXT tells: the innermost loop is closed. -/
theorem closeLoop_eq_ok {name : Option String} {u : Unit} (ran : closeLoop name c = .ok (u, c')) :
    ∃ loop outer, c.forLoops = loop :: outer ∧ (∀ n ∈ name, n = loop.name) ∧
      c' = ((({ c with forLoops := outer }.emitting
        (.assign (.scalar loop.slot) (.binary .plus (.variable loop.slot) (.variable (.cell loop.step))))).emitting
        (.jump loop.top)).emitting (.mark loop.exit)) := by
  rw [closeLoop, get_bind] at ran
  cases opened : c.forLoops with
  | nil =>
    rw [opened] at ran
    exact absurd ran fail_ne_ok
  | cons loop outer =>
    rw [opened] at ran
    dsimp only at ran
    rw [modify_bind] at ran
    refine ⟨loop, outer, rfl, ?_⟩
    cases name with
    | none =>
      dsimp only at ran
      rw [emit_bind, emit_bind] at ran
      exact ⟨by simp, (place_eq_ok.mp ran).2⟩
    | some n =>
      dsimp only at ran
      split at ran
      · exact absurd ran fail_bind_ne_ok
      · next same =>
        rw [emit_bind, emit_bind] at ran
        exact ⟨by simpa using same, (place_eq_ok.mp ran).2⟩

/-- What a success of WEND tells: the innermost loop is closed. -/
theorem wend_eq_ok {u : Unit} (ran : wend c = .ok (u, c')) :
    ∃ loop outer, c.whileLoops = loop :: outer ∧
      c' = ({ c with whileLoops := outer }.emitting (.jump loop.top)).emitting (.mark loop.exit) := by
  rw [wend, get_bind] at ran
  cases opened : c.whileLoops with
  | nil =>
    rw [opened] at ran
    exact absurd ran fail_ne_ok
  | cons loop outer =>
    rw [opened] at ran
    dsimp only at ran
    rw [modify_bind, emit_bind] at ran
    exact ⟨loop, outer, rfl, (place_eq_ok.mp ran).2⟩

end Parser

open Parser

theorem checkLoops_eq_ok {c c' : Context} {u : Unit} (h : checkLoops c = .ok (u, c')) :
    c.forLoops = [] ∧ c.whileLoops = [] ∧ c' = c := by
  rw [checkLoops, get_bind] at h
  cases lastFor : c.forLoops.getLast? with
  | some loop => rw [lastFor] at h; cases h
  | none =>
    cases lastWhile : c.whileLoops.getLast? with
    | some loop => rw [lastFor, lastWhile] at h; cases h
    | none =>
      rw [lastFor, lastWhile] at h
      exact ⟨List.getLast?_eq_none_iff.mp lastFor, List.getLast?_eq_none_iff.mp lastWhile, (pure_eq_ok.mp h).2⟩

theorem readLines_eq_ok {lines : List SourceLine} {items : List DataItem} {c c' : Context} {values : List Value}
    (h : readLines lines items c = .ok (values, c')) :
    ∃ start, items.mapM dataValue c = .ok (values, start) ∧ lines.forM compileLine start = .ok ((), c') ∧
      c'.forLoops = [] ∧ c'.whileLoops = [] := by
  rw [readLines] at h
  obtain ⟨_, start, interned, h⟩ := bind_eq_ok.mp h
  obtain ⟨_, c₂, compiled, h⟩ := bind_eq_ok.mp h
  obtain ⟨_, c₃, checked, h⟩ := bind_eq_ok.mp h
  obtain ⟨rfl, rfl⟩ := pure_eq_ok.mp h
  obtain ⟨noFor, noWhile, rfl⟩ := checkLoops_eq_ok checked
  exact ⟨start, interned, compiled, noFor, noWhile⟩

/-- The context before the first line. -/
def Context.initial (items : List DataItem) (functions : List (String × Nat)) : Context :=
  { scopes := .new (dataBase + items.length), functions, dataCount := items.length }

/-- What a success of the compiler tells. -/
theorem compile_eq_ok {source : String} {p : Program} (h : compile source = .ok p) :
    ∃ lines items functions values c, sourceLines source = .ok lines ∧ sourceData lines = .ok items ∧
      sourceFunctions lines = .ok functions ∧ readLines lines items (.initial items functions) = .ok (values, c) ∧
      link c values = .ok p := by
  simp only [compile, bind, Except.bind] at h
  split at h
  · cases h
  next lines split =>
  split at h
  · cases h
  next items gathered =>
  split at h
  · cases h
  next functions declared =>
  split at h
  · cases h
  next result read =>
  exact ⟨lines, items, functions, result.1, result.2, split, gathered, declared, read, h⟩

end BasicMachine.Language
