import BasicMachine.Proofs.Bookkeeping

/-!
# Expressions and their tokens

Which tokens an expression is read from. A name among the parameters stands for its place in the frame, and every other
name for the cell that it has in the whole program. Operators group as the levels of the grammar say, and a sign or NOT
may begin any operand.
-/
namespace BasicMachine.Language

/-- The name is a parameter, with the place of it, or else a variable of the program, with its cell. -/
inductive Slot.Names (last : Context) (parameters : List String) (name : String) : Slot → Prop
  | parameter {i : Nat} (there : parameters[i]? = some name) : Names last parameters name (.place (Int16.ofNat (i + 1)))
  | variable {address : Nat} (other : name ∉ parameters) (there : (name, address) ∈ last.scopes.root.names) :
      Names last parameters name (.cell address)

/-- The tokens stand for the expressions, between commas, in a program and in the scope of some parameters. Operators
outside parentheses are of the level or of a tighter one, and `next` is the operator that follows the tokens, if one does:
it takes nothing from an operand that it follows, since it is looser than the level of that operand. -/
inductive Worded (last : Context) (parameters : List String) : Level → Option Operator → List Expr → List Token → Prop
  | integer {level next} (n : Int16) : Worded last parameters level next [.integer n] [.integer n]
  | float {level next} (x : Float32) : Worded last parameters level next [.float x] [.float x]
  | text {level next} {s : String} {address : Nat} (there : (s, address) ∈ last.texts) :
      Worded last parameters level next [.text address] [.string s]
  | scalar {level next} {name : String} {slot : Slot} (names : slot.Names last parameters name) :
      Worded last parameters level next [.variable slot] [.ident name]
  | element {level next} {name : String} {array : ArrayBlock} {subscripts : List Expr} {ts : List Token}
      (there : (name, array) ∈ last.arrays) (some : subscripts ≠ [])
      (h : Worded last parameters .disjunction .none subscripts ts) :
      Worded last parameters level next [.element array subscripts] (.ident name :: .lparen :: (ts ++ [.rparen]))
  | group {level next} {e : Expr} {ts : List Token} (h : Worded last parameters .disjunction .none [e] ts) :
      Worded last parameters level next [e] (.lparen :: (ts ++ [.rparen]))
  | plus {level next} {e : Expr} {ts : List Token} (h : Worded last parameters .sign next [e] ts)
      (ends : ∀ op ∈ next, op.level < .sign) : Worded last parameters level next [e] (.operator .plus :: ts)
  | negate {level next} {e : Expr} {ts : List Token} (h : Worded last parameters .sign next [e] ts)
      (ends : ∀ op ∈ next, op.level < .sign) : Worded last parameters level next [.negate e] (.operator .minus :: ts)
  | not {level next} {e : Expr} {ts : List Token} (h : Worded last parameters .negation next [e] ts)
      (ends : ∀ op ∈ next, op.level < .negation) : Worded last parameters level next [.not e] (.not :: ts)
  | binary {level next} (op : Operator) {left right : Expr} {ts us : List Token} (holds : level ≤ op.level)
      (first : Worded last parameters level (some op) [left] ts)
      (second : Worded last parameters op.rightLevel next [right] us) (ends : ∀ o ∈ next, o.level < op.rightLevel) :
      Worded last parameters level next [.binary op left right] (ts ++ .operator op :: us)
  /-- RND alone is RND(1). -/
  | rnd {level next} : Worded last parameters level next [.builtin .rnd [.integer 1]] [.builtin .rnd]
  | builtinAlone {level next} (f : Builtin) (other : f ≠ .rnd) :
      Worded last parameters level next [.builtin f []] [.builtin f]
  | builtin {level next} (f : Builtin) {args : List Expr} {ts : List Token}
      (h : Worded last parameters .disjunction .none args ts) :
      Worded last parameters level next [.builtin f args] (.builtin f :: .lparen :: (ts ++ [.rparen]))
  | callAlone {level next} (name : String) : Worded last parameters level next [.call name []] [.word .FN, .ident name]
  | call {level next} (name : String) {args : List Expr} {ts : List Token}
      (h : Worded last parameters .disjunction .none args ts) :
      Worded last parameters level next [.call name args] (.word .FN :: .ident name :: .lparen :: (ts ++ [.rparen]))
  | none : Worded last parameters .disjunction .none [] []
  | more {e : Expr} {es : List Expr} {ts us : List Token} (first : Worded last parameters .disjunction .none [e] ts)
      (some : es ≠ []) (later : Worded last parameters .disjunction .none es us) :
      Worded last parameters .disjunction .none (e :: es) (ts ++ .comma :: us)

/-- The tokens are a whole expression, or several between commas. -/
abbrev Wording (last : Context) (parameters : List String) (es : List Expr) (ts : List Token) : Prop :=
  Worded last parameters .disjunction .none es ts

/-- The tokens behind a name make it a target. -/
inductive Target.Words (last : Context) (parameters : List String) (name : String) : Target → List Token → Prop
  | scalar {slot : Slot} (names : slot.Names last parameters name) : Words last parameters name (.scalar slot) []
  | element {array : ArrayBlock} {subscripts : List Expr} {ts : List Token} (there : (name, array) ∈ last.arrays)
      (some : subscripts ≠ []) (h : Wording last parameters subscripts ts) :
      Words last parameters name (.element array subscripts) (.lparen :: (ts ++ [.rparen]))

/-- The inner scopes know the parameters and no other name. -/
structure Scoped (parameters : List String) (inner : List Scope) : Prop where
  known : ∀ {name slot}, Scopes.findInner? name inner = some slot →
    ∃ i, parameters[i]? = some name ∧ slot = .place (Int16.ofNat (i + 1))
  unknown : ∀ {name}, Scopes.findInner? name inner = none → name ∉ parameters

/-- Outside functions there are no parameters. -/
theorem Scoped.root : Scoped [] [] where
  known found := by cases found
  unknown _ := List.not_mem_nil

namespace Context

/-- The operator that follows. -/
def operator? (c : Context) : Option Operator :=
  match c.rest.head? with
  | some (.operator op) => some op
  | _ => none

theorem operator?_of_next {c : Context} {op : Operator} (h : c.rest.head? = some (.operator op)) :
    c.operator? = some op := by
  rw [operator?, h]

/-- From one context to another the tokens `ts` have been read, and nothing made. -/
structure Takes (ts : List Token) (c c' : Context) : Prop where
  rest : c.rest = ts ++ c'.rest
  inner : c'.scopes.inner = c.scopes.inner
  commands : c'.commands = c.commands
  forLoops : c'.forLoops = c.forLoops
  whileLoops : c'.whileLoops = c.whileLoops
  within : c.Within c'

variable {ts us : List Token} {c c' c'' : Context}

theorem Takes.refl (c : Context) : c.Takes [] c := ⟨rfl, rfl, rfl, rfl, rfl, .refl c⟩

theorem Takes.trans (first : c.Takes ts c') (second : c'.Takes us c'') : c.Takes (ts ++ us) c'' where
  rest := by rw [first.rest, second.rest, List.append_assoc]
  inner := second.inner.trans first.inner
  commands := second.commands.trans first.commands
  forLoops := second.forLoops.trans first.forLoops
  whileLoops := second.whileLoops.trans first.whileLoops
  within := first.within.trans second.within

theorem Takes.past {t : Token} (next : c.rest.head? = some t) : c.Takes [t] c.past := by
  obtain ⟨rest, starts⟩ := List.head?_eq_some_iff.mp next
  exact ⟨by rw [Context.past, starts]; rfl, rfl, rfl, rfl, rfl, (Aside.past c).within⟩

theorem Takes.counting (c : Context) (code : Steps) : c.Takes [] (c.counting code) :=
  ⟨rfl, rfl, rfl, rfl, rfl, .of_same rfl rfl rfl rfl rfl fun _ => id⟩

theorem Takes.allocating (c : Context) (n : Nat) : c.Takes [] (c.allocating n) :=
  ⟨rfl, rfl, rfl, rfl, rfl, .allocating c n⟩

theorem Within.of_counting {code : Steps} (h : (c.counting code).Within c') : c.Within c' :=
  (Takes.counting c code).within.trans h

end Context

namespace Parser

variable {parameters : List String} {c c' : Context}

/-- A call with this power reads the operators of the level and the tighter ones. -/
def ReadBy (power : Nat) (level : Level) : Prop := ∀ op : Operator, power < op.power ↔ level ≤ op.level

theorem readBy_zero : ReadBy 0 .disjunction := by
  intro op
  cases op <;> decide

theorem readBy_signPower : ReadBy signPower .sign := by
  intro op
  cases op <;> decide

theorem readBy_notPower : ReadBy notPower .negation := by
  intro op
  cases op <;> decide

theorem readBy_rightPower (op : Operator) : ReadBy (rightPower op) op.rightLevel := by
  intro next
  cases op <;> cases next <;> decide

/-- Reading stops at looser operators. -/
def Stops (level : Level) (c : Context) : Prop := ∀ op ∈ c.operator?, op.level < level

theorem Stops.none {c : Context} (h : Stops .disjunction c) : c.operator? = .none := by
  cases next : c.operator? with
  | none => rfl
  | some op => exact absurd (h op next) (Nat.not_lt_zero _)

/-- Tokens for the expressions have been read, up to a looser operator. -/
def Wrote (parameters : List String) (level : Level) (es : List Expr) (c c' : Context) : Prop :=
  ∃ ts, c.Takes ts c' ∧ Stops level c' ∧ ∀ last, c'.Within last → Worded last parameters level c'.operator? es ts

/-- Tokens for whole expressions have been read. -/
def WroteAll (parameters : List String) (es : List Expr) (c c' : Context) : Prop :=
  ∃ ts, c.Takes ts c' ∧ ∀ last, c'.Within last → Wording last parameters es ts

theorem Wrote.all {es : List Expr} {c c' : Context} (h : Wrote parameters .disjunction es c c') :
    WroteAll parameters es c c' := by
  obtain ⟨ts, takes, stops, words⟩ := h
  exact ⟨ts, takes, fun last inside => by simpa only [stops.none] using words last inside⟩

theorem resolve_takes {name : String} {slot : Slot} (scope : Scoped parameters c.scopes.inner)
    (ran : resolve name c = .ok (slot, c')) :
    c.Takes [] c' ∧ ∀ last, c'.Within last → slot.Names last parameters name := by
  have same : resolve name c = .ok ((c.scopes.resolve name).1, { c with scopes := (c.scopes.resolve name).2 }) := rfl
  rw [same, Scopes.resolve, Scopes.find?] at ran
  cases found : Scopes.findInner? name c.scopes.inner with
  | some slot =>
    rw [found] at ran
    cases ran
    obtain ⟨i, there, rfl⟩ := scope.known found
    exact ⟨.refl _, fun last _ => .parameter there⟩
  | none =>
    rw [found] at ran
    cases root : c.scopes.root.find? name with
    | some address =>
      rw [root] at ran
      cases ran
      exact ⟨.refl _, fun last inside =>
        .variable (scope.unknown found) (inside.names.subset (mem_of_lookup root))⟩
    | none =>
      rw [root] at ran
      cases ran
      exact ⟨⟨rfl, rfl, rfl, rfl, rfl, .naming c name⟩, fun last inside =>
        .variable (scope.unknown found) (inside.names.subset List.mem_cons_self)⟩

theorem intern_takes {text : String} {address : Nat} (ran : intern text c = .ok (address, c')) :
    c.Takes [] c' ∧ ∀ last, c'.Within last → (text, address) ∈ last.texts := by
  rcases intern_cases ran with ⟨rfl, member⟩ | ⟨rfl, rfl, -⟩
  · exact ⟨.refl _, fun last inside => inside.texts.subset member⟩
  · exact ⟨⟨rfl, rfl, rfl, rfl, rfl, .interning c text⟩, fun last inside => inside.texts.subset List.mem_cons_self⟩

theorem arrayFor_takes {name : String} {known : Option ArrayBlock} {count : Nat} {array : ArrayBlock}
    (ran : arrayFor name known count c = .ok (array, c')) :
    c.Takes [] c' ∧ (known = some array ∨ (name, array) ∈ c'.arrays) := by
  cases known with
  | none =>
    obtain ⟨rfl, -⟩ := dimension_eq_ok ran
    exact ⟨⟨rfl, rfl, rfl, rfl, rfl, .dimensioning c name array⟩, .inr List.mem_cons_self⟩
  | some block =>
    rw [arrayFor] at ran
    split at ran
    · obtain ⟨rfl, rfl⟩ := pure_eq_ok.mp ran
      exact ⟨.refl _, .inl rfl⟩
    · exact absurd ran fail_ne_ok

theorem extentAt_takes {name : String} {known : Option ArrayBlock} {i : Nat} {extent : Int16}
    (ran : extentAt name known i c = .ok (extent, c')) : c' = c := by
  cases known with
  | none => exact (pure_eq_ok.mp ran).2
  | some array =>
    rw [extentAt] at ran
    cases found : array.extents[i]? with
    | some extent =>
      rw [found] at ran
      exact (pure_eq_ok.mp ran).2
    | none =>
      rw [found] at ran
      exact absurd ran fail_ne_ok

/-- Every parser of expressions, with the fuel given, reads tokens for what it answers. -/
structure ReadsWords (parameters : List String) (fuel : Nat) : Prop where
  expression : ∀ {power : Nat} {level : Level} {c c' : Context} {e : Expr}, ReadBy power level →
    Scoped parameters c.scopes.inner → expression fuel power c = .ok (e, c') → Wrote parameters level [e] c c'
  operators : ∀ {power : Nat} {level : Level} {c c' : Context} {left e : Expr}, ReadBy power level →
    Scoped parameters c.scopes.inner → operators fuel power left c = .ok (e, c') → ∃ us, c.Takes us c' ∧ Stops level c' ∧
      ∀ last ts, c'.Within last → Worded last parameters level c.operator? [left] ts →
        Worded last parameters level c'.operator? [e] (ts ++ us)
  operand : ∀ {c c' : Context} {e : Expr}, Scoped parameters c.scopes.inner → operand fuel c = .ok (e, c') →
    ∃ ts, c.Takes ts c' ∧ ∀ last level, c'.Within last → Worded last parameters level c'.operator? [e] ts
  target : ∀ {c c' : Context} {name : String} {t : Target}, Scoped parameters c.scopes.inner →
    target fuel name c = .ok (t, c') → ∃ ts, c.Takes ts c' ∧ ∀ last, c'.Within last → t.Words last parameters name ts
  subscriptsAfter : ∀ {c c' : Context} {name : String} {known : Option ArrayBlock} {i : Nat} {es : List Expr},
    Scoped parameters c.scopes.inner → subscriptsAfter fuel name known i c = .ok (es, c') →
      es ≠ [] ∧ WroteAll parameters es c c'
  expressions : ∀ {c c' : Context} {es : List Expr}, Scoped parameters c.scopes.inner →
    expressions fuel c = .ok (es, c') → es ≠ [] ∧ WroteAll parameters es c c'
  /-- The closing parenthesis is read too. -/
  arguments : ∀ {c c' : Context} {es : List Expr}, Scoped parameters c.scopes.inner →
    arguments fuel c = .ok (es, c') → ∃ ts, c.Takes (ts ++ [.rparen]) c' ∧
      ∀ last, c'.Within last → Wording last parameters es ts
  builtin : ∀ {c c' : Context} {f : Builtin} {e : Expr}, Scoped parameters c.scopes.inner →
    builtin fuel f c = .ok (e, c') → ∃ ts, c.Takes ts c' ∧
      ∀ last level next, c'.Within last → Worded last parameters level next [e] (.builtin f :: ts)
  call : ∀ {c c' : Context} {e : Expr}, Scoped parameters c.scopes.inner →
    call fuel c = .ok (e, c') → ∃ ts, c.Takes ts c' ∧
      ∀ last level next, c'.Within last → Worded last parameters level next [e] (.word .FN :: ts)

/-- One more expression, and others if a comma follows. -/
theorem words_row {d : Context} {more : Parser (List Expr)} {e : Expr} {es : List Expr} {ts : List Token}
    (before : c.Takes ts d) (first : ∀ last, d.Within last → Wording last parameters [e] ts)
    (scope : Scoped parameters c.scopes.inner)
    (later : ∀ {c c' : Context} {es : List Expr}, Scoped parameters c.scopes.inner → more c = .ok (es, c') →
      es ≠ [] ∧ WroteAll parameters es c c')
    (ran : (do if ← accept .comma then return e :: (← more) else return [e] : Parser (List Expr)) d = .ok (es, c')) :
    es ≠ [] ∧ WroteAll parameters es c c' := by
  rw [accept_bind] at ran
  split at ran
  · next comma =>
    obtain ⟨others, d', read, ran⟩ := bind_eq_ok.mp ran
    obtain ⟨rfl, rfl⟩ := pure_eq_ok.mp ran
    have past := Context.Takes.past comma
    obtain ⟨some, us, takes, words⟩ := later ((before.trans past).inner ▸ scope) read
    refine ⟨List.cons_ne_nil _ _, _, before.trans (past.trans takes), fun last inside => ?_⟩
    exact .more (first last ((past.trans takes).within.trans inside)) some (words last inside)
  · obtain ⟨rfl, rfl⟩ := pure_eq_ok.mp ran
    exact ⟨List.cons_ne_nil _ _, ts, before, first⟩

section
variable {fuel : Nat} (ih : ReadsWords parameters fuel)
include ih

theorem words_operators {power : Nat} {level : Level} {left e : Expr} (reads : ReadBy power level)
    (scope : Scoped parameters c.scopes.inner) (ran : operators (fuel + 1) power left c = .ok (e, c')) :
    ∃ us, c.Takes us c' ∧ Stops level c' ∧ ∀ last ts, c'.Within last →
      Worded last parameters level c.operator? [left] ts → Worded last parameters level c'.operator? [e] (ts ++ us) := by
  have stays (stops : Stops level c) (ran : (pure left : Parser Expr) c = .ok (e, c')) :
      ∃ us, c.Takes us c' ∧ Stops level c' ∧ ∀ last ts, c'.Within last →
        Worded last parameters level c.operator? [left] ts → Worded last parameters level c'.operator? [e] (ts ++ us) := by
    obtain ⟨rfl, rfl⟩ := pure_eq_ok.mp ran
    exact ⟨[], .refl _, stops, fun last ts _ h => by rwa [List.append_nil]⟩
  have idle (none : c.operator? = .none) : Stops level c := by
    intro op there
    rw [none] at there
    cases there
  rw [Parser.operators, peek_bind] at ran
  cases next : c.rest.head? with
  | none =>
    rw [next] at ran
    exact stays (idle (by rw [Context.operator?, next])) ran
  | some t =>
    rw [next] at ran
    cases t with
    | operator op =>
      dsimp only at ran
      have here := Context.operator?_of_next next
      split at ran
      · next stronger =>
        rw [skip_bind] at ran
        obtain ⟨right, d, first, ran⟩ := bind_eq_ok.mp ran
        rw [accountCode_bind] at ran
        have past := Context.Takes.past next
        obtain ⟨ts, takes, ends, words⟩ := ih.expression (readBy_rightPower op) (past.inner ▸ scope) first
        have counted : c.Takes ([.operator op] ++ ts ++ []) (d.counting (Steps.ofCode op.code)) :=
          (past.trans takes).trans (.counting d _)
        obtain ⟨us, takes', stops, words'⟩ := ih.operators reads (counted.inner ▸ scope) ran
        refine ⟨_, counted.trans takes', stops, fun last front inside h => ?_⟩
        have right := words last ((Context.Takes.counting d (Steps.ofCode op.code)).within.trans (takes'.within.trans inside))
        have both := words' last _ inside (.binary op ((reads op).mp stronger) (here ▸ h) right ends)
        simpa using both
      · next weaker =>
        refine stays (fun o there => ?_) ran
        obtain rfl := Option.some.inj (here.symm.trans there)
        exact Level.lt_of_not_le fun holds => weaker ((reads op).mpr holds)
    | _ => exact stays (idle (by rw [Context.operator?, next])) ran

theorem words_operand {e : Expr} (scope : Scoped parameters c.scopes.inner) (ran : operand (fuel + 1) c = .ok (e, c')) :
    ∃ ts, c.Takes ts c' ∧ ∀ last level, c'.Within last → Worded last parameters level c'.operator? [e] ts := by
  replace ran := (peek_bind _).symm.trans ran
  cases next : c.rest.head? with
  | none =>
    rw [next] at ran
    exact absurd ran unexpected_ne_ok
  | some t =>
    rw [next] at ran
    have past := Context.Takes.past next
    have scope' : Scoped parameters c.past.scopes.inner := scope
    cases t with
    | integer n =>
      obtain ⟨rfl, rfl⟩ := pure_eq_ok.mp ran
      exact ⟨_, past.trans (.counting _ _), fun last _ _ => .integer n⟩
    | float x =>
      obtain ⟨rfl, rfl⟩ := pure_eq_ok.mp ran
      exact ⟨_, past.trans (.counting _ _), fun last _ _ => .float x⟩
    | string s =>
      dsimp only at ran
      rw [skip_bind] at ran
      obtain ⟨address, d, interned, ran⟩ := bind_eq_ok.mp ran
      rw [accountCode_bind] at ran
      obtain ⟨rfl, rfl⟩ := pure_eq_ok.mp ran
      obtain ⟨takes, there⟩ := intern_takes interned
      exact ⟨_, (past.trans takes).trans (.counting _ _), fun last _ inside => .text (there last inside.of_counting)⟩
    | lparen =>
      dsimp only at ran
      rw [skip_bind] at ran
      obtain ⟨inner, d, read, ran⟩ := bind_eq_ok.mp ran
      obtain ⟨_, d', expected, ran⟩ := bind_eq_ok.mp ran
      obtain ⟨rfl, rfl⟩ := pure_eq_ok.mp ran
      obtain ⟨closes, rfl⟩ := expect_eq_ok.mp expected
      obtain ⟨ts, takes, words⟩ := (ih.expression readBy_zero scope' read).all
      have closed := Context.Takes.past closes
      exact ⟨_, past.trans (takes.trans closed), fun last _ inside => .group (words last (closed.within.trans inside))⟩
    | operator op =>
      cases op with
      | minus =>
        dsimp only at ran
        rw [skip_bind, accountCode_bind] at ran
        obtain ⟨inner, d, read, ran⟩ := bind_eq_ok.mp ran
        rw [accountCode_bind] at ran
        obtain ⟨rfl, rfl⟩ := pure_eq_ok.mp ran
        obtain ⟨ts, takes, ends, words⟩ := ih.expression (c := c.past.counting _) readBy_signPower scope' read
        have counted := takes.trans (.counting d (Steps.ofCode Operator.minus.code))
        rw [List.append_nil] at counted
        exact ⟨_, past.trans ((Context.Takes.counting _ _).trans counted), fun last _ inside =>
          .negate (words last inside.of_counting) ends⟩
      | plus =>
        obtain ⟨ts, takes, ends, words⟩ := ih.expression readBy_signPower scope' ran
        exact ⟨_, past.trans takes, fun last _ inside => .plus (words last inside) ends⟩
      | _ => exact absurd ran unexpected_ne_ok
    | not =>
      dsimp only at ran
      rw [skip_bind] at ran
      obtain ⟨inner, d, read, ran⟩ := bind_eq_ok.mp ran
      rw [accountCode_bind] at ran
      obtain ⟨rfl, rfl⟩ := pure_eq_ok.mp ran
      obtain ⟨ts, takes, ends, words⟩ := ih.expression readBy_notPower scope' read
      have counted := takes.trans (.counting d (Steps.ofCode [.plain (.unary .not)]))
      rw [List.append_nil] at counted
      exact ⟨_, past.trans counted, fun last _ inside => .not (words last inside.of_counting) ends⟩
    | ident name =>
      dsimp only at ran
      rw [skip_bind] at ran
      obtain ⟨t, d, read, ran⟩ := bind_eq_ok.mp ran
      obtain ⟨ts, takes, words⟩ := ih.target scope' read
      cases t with
      | scalar slot =>
        dsimp only at ran
        rw [accountCode_bind] at ran
        obtain ⟨rfl, rfl⟩ := pure_eq_ok.mp ran
        refine ⟨_, (past.trans takes).trans (.counting _ _), fun last _ inside => ?_⟩
        cases words last inside.of_counting with
        | scalar names => exact .scalar names
      | element array subscripts =>
        dsimp only at ran
        rw [accountCode_bind] at ran
        obtain ⟨rfl, rfl⟩ := pure_eq_ok.mp ran
        refine ⟨_, (past.trans takes).trans (.counting _ _), fun last _ inside => ?_⟩
        rw [List.append_nil]
        cases words last inside.of_counting with
        | element there some h => exact .element there some h
    | builtin f =>
      obtain ⟨ts, takes, words⟩ := ih.builtin scope' ran
      exact ⟨_, past.trans takes, fun last level => words last level _⟩
    | word k =>
      cases k with
      | FN =>
        obtain ⟨ts, takes, words⟩ := ih.call scope' ran
        exact ⟨_, past.trans takes, fun last level => words last level _⟩
      | _ => exact absurd ran unexpected_ne_ok
    | _ => exact absurd ran unexpected_ne_ok

theorem words_target {name : String} {t : Target} (scope : Scoped parameters c.scopes.inner)
    (ran : target (fuel + 1) name c = .ok (t, c')) :
    ∃ ts, c.Takes ts c' ∧ ∀ last, c'.Within last → t.Words last parameters name ts := by
  rw [Parser.target, accept_bind] at ran
  split at ran
  · next opens =>
    rw [if_pos rfl, get_bind] at ran
    obtain ⟨subscripts, d, read, ran⟩ := bind_eq_ok.mp ran
    obtain ⟨_, d', expected, ran⟩ := bind_eq_ok.mp ran
    obtain ⟨closes, rfl⟩ := expect_eq_ok.mp expected
    obtain ⟨array, d', chosen, ran⟩ := bind_eq_ok.mp ran
    rw [account_bind] at ran
    obtain ⟨_, d'', reached, ran⟩ := bind_eq_ok.mp ran
    obtain ⟨-, rfl⟩ := checkReach_eq_ok.mp reached
    obtain ⟨rfl, rfl⟩ := pure_eq_ok.mp ran
    have past := Context.Takes.past opens
    obtain ⟨some, ts, takes, words⟩ := ih.subscriptsAfter (c := c.past) scope read
    have closed := Context.Takes.past closes
    obtain ⟨taken, there⟩ := arrayFor_takes chosen
    have counted := (taken.trans (.counting d' array.checkSteps)).trans (.counting _ (Steps.ofCode array.baseCode))
    have whole := past.trans (takes.trans (closed.trans counted))
    have inside' (last : Context) (inside : Context.Within _ last) : d.Within last :=
      closed.within.trans (counted.within.trans inside)
    refine ⟨_, whole, fun last inside => ?_⟩
    refine .element (there.elim (fun known => ?_) fun member => inside.arrays.subset member) some
      (words last (inside' last inside))
    exact (takes.within.trans (inside' last inside)).arrays.subset (mem_of_lookup known)
  · rw [if_neg (by decide)] at ran
    obtain ⟨slot, d, resolved, ran⟩ := bind_eq_ok.mp ran
    obtain ⟨rfl, rfl⟩ := pure_eq_ok.mp ran
    obtain ⟨takes, names⟩ := resolve_takes scope resolved
    exact ⟨[], takes, fun last inside => .scalar (names last inside)⟩

theorem words_subscriptsAfter {name : String} {known : Option ArrayBlock} {i : Nat} {es : List Expr}
    (scope : Scoped parameters c.scopes.inner) (ran : subscriptsAfter (fuel + 1) name known i c = .ok (es, c')) :
    es ≠ [] ∧ WroteAll parameters es c c' := by
  have rest {c : Context} {code : Code} (scope : Scoped parameters c.scopes.inner) (ran : (do
      let e ← expression fuel 0
      accountCode code
      if ← accept .comma then return e :: (← subscriptsAfter fuel name known (i + 1)) else return [e] :
        Parser (List Expr)) c = .ok (es, c')) : es ≠ [] ∧ WroteAll parameters es c c' := by
    obtain ⟨e, d, read, ran⟩ := bind_eq_ok.mp ran
    rw [accountCode_bind] at ran
    obtain ⟨ts, takes, words⟩ := (ih.expression readBy_zero scope read).all
    have counted := takes.trans (.counting d (Steps.ofCode code))
    rw [List.append_nil] at counted
    exact words_row counted (fun last inside => words last inside.of_counting) scope ih.subscriptsAfter ran
  rw [Parser.subscriptsAfter] at ran
  split at ran
  · obtain ⟨extent, d, found, ran⟩ := bind_eq_ok.mp ran
    cases extentAt_takes found
    rw [accountCode_bind] at ran
    obtain ⟨some, ts, takes, words⟩ := rest (c := c.counting _) scope ran
    exact ⟨some, _, (Context.Takes.counting c _).trans takes, words⟩
  · exact rest scope ran

theorem words_expressions {es : List Expr} (scope : Scoped parameters c.scopes.inner)
    (ran : expressions (fuel + 1) c = .ok (es, c')) : es ≠ [] ∧ WroteAll parameters es c c' := by
  obtain ⟨e, d, read, ran⟩ := bind_eq_ok.mp ran
  obtain ⟨ts, takes, words⟩ := (ih.expression readBy_zero scope read).all
  exact words_row takes words scope ih.expressions ran

theorem words_arguments {es : List Expr} (scope : Scoped parameters c.scopes.inner)
    (ran : arguments (fuel + 1) c = .ok (es, c')) :
    ∃ ts, c.Takes (ts ++ [.rparen]) c' ∧ ∀ last, c'.Within last → Wording last parameters es ts := by
  rw [Parser.arguments, accept_bind] at ran
  split at ran
  · next closes =>
    obtain ⟨rfl, rfl⟩ := pure_eq_ok.mp ran
    exact ⟨[], .past closes, fun last _ => .none⟩
  · obtain ⟨args, d, read, ran⟩ := bind_eq_ok.mp ran
    obtain ⟨_, d', expected, ran⟩ := bind_eq_ok.mp ran
    obtain ⟨rfl, rfl⟩ := pure_eq_ok.mp ran
    obtain ⟨closes, rfl⟩ := expect_eq_ok.mp expected
    obtain ⟨-, ts, takes, words⟩ := ih.expressions scope read
    have closed := Context.Takes.past closes
    exact ⟨ts, takes.trans closed, fun last inside => words last (closed.within.trans inside)⟩

theorem words_builtin {f : Builtin} {e : Expr} (scope : Scoped parameters c.scopes.inner)
    (ran : builtin (fuel + 1) f c = .ok (e, c')) :
    ∃ ts, c.Takes ts c' ∧
      ∀ last level next, c'.Within last → Worded last parameters level next [e] (.builtin f :: ts) := by
  have checked {d : Context} {args : List Expr} (ran : (do
      if args.length ≠ f.arity then fail .illegalFunctionCall (f.name ++ " TAKES " ++ toString f.arity)
      accountCode f.code
      return .builtin f args : Parser Expr) d = .ok (e, c')) :
      e = .builtin f args ∧ c' = d.counting (Steps.ofCode f.code) := by
    split at ran
    · exact absurd ran fail_bind_ne_ok
    · exact pure_eq_ok.mp ran
  rw [Parser.builtin, accept_bind] at ran
  split at ran
  · next opens =>
    obtain ⟨args, d, read, ran⟩ := bind_eq_ok.mp ran
    obtain ⟨rfl, rfl⟩ := checked ran
    obtain ⟨ts, takes, words⟩ := ih.arguments (c := c.past) scope read
    have whole := ((Context.Takes.past opens).trans takes).trans (.counting d (Steps.ofCode f.code))
    rw [List.append_nil] at whole
    exact ⟨_, whole, fun last _ _ inside => .builtin f (words last inside.of_counting)⟩
  · rw [if_neg (by decide)] at ran
    split at ran
    · next random =>
      subst random
      rw [accountCode_bind, pure_bind] at ran
      obtain ⟨rfl, rfl⟩ := checked ran
      exact ⟨[], (Context.Takes.counting c _).trans (.counting _ _), fun last _ _ _ => .rnd⟩
    · next other =>
      rw [pure_bind] at ran
      obtain ⟨rfl, rfl⟩ := checked ran
      exact ⟨[], .counting c _, fun last _ _ _ => .builtinAlone f other⟩

theorem words_call {e : Expr} (scope : Scoped parameters c.scopes.inner) (ran : call (fuel + 1) c = .ok (e, c')) :
    ∃ ts, c.Takes ts c' ∧
      ∀ last level next, c'.Within last → Worded last parameters level next [e] (.word .FN :: ts) := by
  obtain ⟨name, d, named, ran⟩ := bind_eq_ok.mp ran
  obtain ⟨next, rfl⟩ := identifier_eq_ok.mp named
  have past := Context.Takes.past next
  rw [get_bind] at ran
  cases known : c.past.functions.lookup name with
  | none =>
    rw [known] at ran
    exact absurd ran fail_ne_ok
  | some arity =>
    rw [known] at ran
    have checked {d : Context} {args : List Expr} (ran : (do
        if args.length ≠ arity then fail .illegalFunctionCall ("FN " ++ name ++ " TAKES " ++ toString arity)
        account [.jump .call (.function name)]
        refer (.function name)
        return .call name args : Parser Expr) d = .ok (e, c')) : e = .call name args ∧ d.Takes [] c' := by
      split at ran
      · exact absurd ran fail_bind_ne_ok
      · obtain ⟨rfl, rfl⟩ := pure_eq_ok.mp ran
        exact ⟨rfl, rfl, rfl, rfl, rfl, rfl, .of_same rfl rfl rfl rfl rfl fun _ h => h.referring _⟩
    dsimp only at ran
    rw [accept_bind] at ran
    split at ran
    · next opens =>
      obtain ⟨args, d, read, ran⟩ := bind_eq_ok.mp ran
      obtain ⟨rfl, closed⟩ := checked ran
      obtain ⟨ts, takes, words⟩ := ih.arguments (c := c.past.past) scope read
      have whole := past.trans ((Context.Takes.past opens).trans (takes.trans closed))
      rw [List.append_nil] at whole
      exact ⟨_, whole, fun last _ _ inside => .call name (words last (closed.within.trans inside))⟩
    · rw [if_neg (by decide), pure_bind] at ran
      obtain ⟨rfl, closed⟩ := checked ran
      exact ⟨_, past.trans closed, fun last _ _ _ => .callAlone name⟩

end

theorem readsWords (parameters : List String) (fuel : Nat) : ReadsWords parameters fuel := by
  induction fuel with
  | zero =>
    constructor <;> intros <;> exact absurd ‹_› fail_ne_ok
  | succ fuel ih =>
    refine ⟨fun {power level c c' e} reads scope ran => ?_, words_operators ih, words_operand ih, words_target ih,
      words_subscriptsAfter ih, words_expressions ih, words_arguments ih, words_builtin ih, words_call ih⟩
    obtain ⟨left, d, first, ran⟩ := bind_eq_ok.mp ran
    obtain ⟨ts, takes, words⟩ := ih.operand scope first
    obtain ⟨us, takes', stops, words'⟩ := ih.operators reads (takes.inner ▸ scope) ran
    exact ⟨_, takes.trans takes', stops, fun last inside =>
      words' last ts inside (words last level (takes'.within.trans inside))⟩

end Parser

end BasicMachine.Language
