import BasicMachine.Proofs.Courses

/-!
# Where the reader comes to statements

The reader goes through a line from one statement to the next, and from an IF to the statements behind THEN and ELSE.
-/
namespace BasicMachine.Language

/-- A statement ends before the token. -/
def endsStatement : Token → Bool
  | .colon | .semicolon | .word .ELSE => true
  | _ => false

/-- No statement goes on with these tokens. -/
def Ends (rest : List Token) : Prop := ∀ t, rest.head? = some t → endsStatement t = true

namespace Parser

-- The equations of the mutual parsers are made here once, for all the theorems that rewrite with them.
attribute [local grind] Parser.statements Parser.statement Parser.ifThen Parser.branch

/-- The condition of an IF, with a jump to what is done otherwise. -/
def condition (fuel : Nat) : Parser Label := do
  let e ← expression fuel 0
  let otherwise ← freshLabel
  emit (.branchUnless e otherwise)
  return otherwise

/-- What is done if the condition holds. -/
def consequence (fuel : Nat) : Parser Unit := do
  if ← accept (.word .GOTO) then lineJump .jump
  else
    expect (.word .THEN)
    branch fuel

/-- The end of what is done if the condition holds, where something else is done otherwise. -/
def alternative (otherwise : Label) : Parser Label := do
  let done ← freshLabel
  emit (.jump done)
  place otherwise
  return done

theorem ifThen_eq (fuel : Nat) : ifThen (fuel + 1) = (do
    let otherwise ← condition fuel
    consequence fuel
    if ← accept (.word .ELSE) then
      let done ← alternative otherwise
      branch fuel
      place done
    else place otherwise : Parser Unit) := by
  simp only [ifThen, condition, consequence, alternative, bind_assoc, pure_bind]
  refine congrArg _ (funext fun e => congrArg _ (funext fun otherwise => congrArg _ (funext fun _ => ?_)))
  refine congrArg _ (funext fun goes => ?_)
  cases goes <;> simp

/-- What the reader can be at. -/
inductive Site
  /-- All statements up to the end of the line or an ELSE. -/
  | statements
  | statement
  /-- What follows the word IF. -/
  | ifThen
  /-- What follows THEN or ELSE. -/
  | branch

def Site.parser : Site → (fuel : Nat) → Parser Unit
  | statements => Parser.statements
  | statement => Parser.statement
  | ifThen => Parser.ifThen
  | branch => Parser.branch

/-- Where the reader leaves a site. Behind a statement nothing more of it can follow. -/
def Site.Leaves : Site → Context → Prop
  | statement, c => Ends c.rest
  | _, _ => True

/-- The next token belongs to a statement. -/
def Begins (c : Context) : Prop :=
  ∃ t, c.rest.head? = some t ∧ t ≠ .colon ∧ t ≠ .semicolon ∧ t ≠ .word .ELSE

/-- From one site the reader comes to another one inside it. -/
inductive Enters : Site → Nat → Context → Site → Nat → Context → Prop
  | separator {fuel : Nat} {c : Context} (h : c.rest.head? = some .colon ∨ c.rest.head? = some .semicolon) :
      Enters .statements (fuel + 1) c .statements fuel c.past
  | first {fuel : Nat} {c : Context} (begins : Begins c) : Enters .statements (fuel + 1) c .statement fuel c
  | later {fuel : Nat} {c d : Context} (begins : Begins c) (ran : Parser.statement fuel c = .ok ((), d)) :
      Enters .statements (fuel + 1) c .statements fuel d
  | ifThen {fuel : Nat} {c : Context} (h : c.rest.head? = some (.word .IF)) :
      Enters .statement (fuel + 2) c .ifThen fuel c.past
  | yes {fuel : Nat} {c d : Context} {l : Label} (tested : condition fuel c = .ok (l, d))
      (h : d.rest.head? = some (.word .THEN)) : Enters .ifThen (fuel + 1) c .branch fuel d.past
  | no {fuel : Nat} {c d d₁ d₂ : Context} {l l' : Label} (tested : condition fuel c = .ok (l, d))
      (done : consequence fuel d = .ok ((), d₁)) (h : d₁.rest.head? = some (.word .ELSE))
      (turned : alternative l d₁.past = .ok (l', d₂)) : Enters .ifThen (fuel + 1) c .branch fuel d₂
  | statements {fuel : Nat} {c : Context} (other : ∀ t, c.rest.head? = some t → (∀ n, t ≠ .integer n) ∧ ∀ x, t ≠ .float x) :
      Enters .branch (fuel + 1) c .statements fuel c

/-- On its way from a site, the reader comes to another one. -/
inductive Meets : Site → Nat → Context → Site → Nat → Context → Prop
  | here {site : Site} {fuel : Nat} {c : Context} : Meets site fuel c site fuel c
  | next {site site₁ site' : Site} {fuel fuel₁ fuel' : Nat} {c c₁ c' : Context} (enters : Enters site fuel c site₁ fuel₁ c₁)
      (later : Meets site₁ fuel₁ c₁ site' fuel' c') : Meets site fuel c site' fuel' c'

theorem condition_inner {fuel : Nat} {c c' : Context} {l : Label} (h : condition fuel c = .ok (l, c')) :
    l.isFunction = false := by
  obtain ⟨e, d, -, h⟩ := bind_eq_ok.mp h
  cases h
  rfl

theorem alternative_inner {c c' : Context} {l l' : Label} (h : alternative l c = .ok (l', c')) :
    l'.isFunction = false := by
  rw [alternative, freshLabel_bind] at h
  obtain ⟨_, d, -, h⟩ := bind_eq_ok.mp h
  obtain ⟨_, d, -, h⟩ := bind_eq_ok.mp h
  cases h
  rfl

theorem atEnd_eq_ok {c c' : Context} {b : Bool} (h : atEnd c = .ok (b, c')) : c' = c := by
  rw [atEnd, peek_bind] at h
  cases next : c.rest.head? with
  | none =>
    rw [next] at h
    exact (pure_eq_ok.mp h).2
  | some t =>
    rw [next] at h
    cases t with
    | word k => cases k <;> exact (pure_eq_ok.mp h).2
    | _ => exact (pure_eq_ok.mp h).2

theorem atEnd_ends {c : Context} (h : atEnd c = .ok (true, c)) : Ends c.rest := by
  intro t next
  rw [atEnd, peek_bind, next] at h
  cases t with
  | word k =>
    cases k with
    | ELSE => rfl
    | _ => cases h
  | colon => rfl
  | semicolon => rfl
  | _ => cases h

/-- A statement, and then others. -/
theorem statements_eq_ok {fuel : Nat} {c c' : Context} (begins : Begins c)
    (ran : Parser.statements (fuel + 1) c = .ok ((), c')) :
    ∃ d, Parser.statement fuel c = .ok ((), d) ∧ Parser.statements fuel d = .ok ((), c') ∧ Ends d.rest := by
  obtain ⟨t, next, colon, semicolon, otherwise⟩ := begins
  have parts : Parser.statements (fuel + 1) c = (do
      Parser.statement fuel
      unless ← atEnd do unexpected "EXPECTED END OF STATEMENT"
      Parser.statements fuel : Parser Unit) c := by
    rw [Parser.statements, peek_bind, next]
    refine congrFun ?_ c
    split <;> simp_all
  rw [parts] at ran
  obtain ⟨_, d, first, rest⟩ := bind_eq_ok.mp ran
  obtain ⟨ended, d', looked, rest⟩ := bind_eq_ok.mp rest
  cases atEnd_eq_ok looked
  cases ended with
  | true => exact ⟨d, first, rest, atEnd_ends looked⟩
  | false => exact absurd rest unexpected_bind_ne_ok

/-- A statement is an assignment, or a keyword begins it. -/
theorem statement_eq_ok {fuel : Nat} {c c' : Context} (ran : Parser.statement (fuel + 1) c = .ok ((), c')) :
    (∃ name, c.rest.head? = some (.ident name)) ∧ assignment fuel c = .ok ((), c') ∨
      ∃ k, c.rest.head? = some (.word k) ∧ keyword fuel k c.past = .ok ((), c') := by
  rw [Parser.statement, peek_bind] at ran
  cases next : c.rest.head? with
  | none =>
    rw [next] at ran
    exact absurd ran unexpected_ne_ok
  | some t =>
    rw [next] at ran
    cases t with
    | ident name => exact .inl ⟨⟨name, rfl⟩, ran⟩
    | word k =>
      refine .inr ⟨k, rfl, ?_⟩
      cases k with
      | ELSE | FN | REM | STEP | THEN | TO => exact absurd ran unexpected_ne_ok
      | _ => exact ran
    | _ => exact absurd ran unexpected_ne_ok

theorem keyword_of_statement {fuel : Nat} {c c' : Context} {k : Keyword} (ran : Parser.statement fuel c = .ok ((), c'))
    (next : c.rest.head? = some (.word k)) : ∃ n, keyword (n + 1) k c.past = .ok ((), c') := by
  cases fuel with
  | zero => exact absurd ran fail_ne_ok
  | succ fuel =>
    obtain ⟨⟨name, impossible⟩, -⟩ | ⟨k, first, ran⟩ := statement_eq_ok ran
    · cases next.symm.trans impossible
    · cases next.symm.trans first
      cases fuel with
      | zero => exact absurd ran fail_ne_ok
      | succ fuel => exact ⟨fuel, ran⟩

theorem statement_eq_ifThen {fuel : Nat} {c : Context} (next : c.rest.head? = some (.word .IF)) :
    Parser.statement (fuel + 2) c = Parser.ifThen fuel c.past := by
  rw [Parser.statement, peek_bind, next]
  rfl

/-- An IF, its condition and what is done by it. -/
theorem ifThen_eq_ok {fuel : Nat} {c c' : Context} (ran : Parser.ifThen (fuel + 1) c = .ok ((), c')) :
    ∃ l d d₁, condition fuel c = .ok (l, d) ∧ consequence fuel d = .ok ((), d₁) ∧
      if d₁.rest.head? = some (.word .ELSE) then ∃ l' d₂ d₃, alternative l d₁.past = .ok (l', d₂) ∧
        Parser.branch fuel d₂ = .ok ((), d₃) ∧ place l' d₃ = .ok ((), c')
      else place l d₁ = .ok ((), c') := by
  rw [ifThen_eq] at ran
  obtain ⟨l, d, tested, ran⟩ := bind_eq_ok.mp ran
  obtain ⟨_, d₁, done, ran⟩ := bind_eq_ok.mp ran
  refine ⟨l, d, d₁, tested, done, ?_⟩
  rw [accept_bind] at ran
  split at ran <;> rename_i next
  · rw [if_pos next]
    obtain ⟨l', d₂, turned, ran⟩ := bind_eq_ok.mp ran
    obtain ⟨_, d₃, done', placed⟩ := bind_eq_ok.mp ran
    exact ⟨l', d₂, d₃, turned, done', placed⟩
  · rw [if_neg next]
    exact ran

/-- A relation holds of an IF if it holds of its parts. -/
theorem ifThen_parts {R : Context → Context → Prop} (trans : ∀ {c c' c''}, R c c' → R c' c'' → R c c'')
    (past : ∀ c : Context, R c c.past) (tested : ∀ {fuel : Nat} {l c c'}, condition fuel c = .ok (l, c') → R c c')
    (jump : ∀ {c c'}, lineJump .jump c = .ok ((), c') → R c c')
    (turned : ∀ {l l' c c'}, l.isFunction = false → alternative l c = .ok (l', c') → R c c')
    (placed : ∀ {l c c'}, l.isFunction = false → place l c = .ok ((), c') → R c c') {fuel : Nat}
    (branched : ∀ {c c'}, Parser.branch fuel c = .ok ((), c') → R c c') {c c' : Context}
    (ran : Parser.ifThen (fuel + 1) c = .ok ((), c')) : R c c' := by
  obtain ⟨l, d, d₁, first, done, rest⟩ := ifThen_eq_ok ran
  have inner := condition_inner first
  have second : R d d₁ := by
    rw [consequence, accept_bind] at done
    split at done
    · exact trans (past d) (jump done)
    · obtain ⟨_, d', expected, done⟩ := bind_eq_ok.mp done
      obtain ⟨-, rfl⟩ := expect_eq_ok.mp expected
      exact trans (past d) (branched done)
  refine trans (tested first) (trans second ?_)
  split at rest
  · obtain ⟨l', d₂, d₃, other, done', ended⟩ := rest
    have otherwise := trans (past d₁) (turned inner other)
    exact trans otherwise (trans (branched done') (placed (alternative_inner other) ended))
  · exact placed inner rest

theorem branch_eq_statements {fuel : Nat} {c : Context}
    (other : ∀ t, c.rest.head? = some t → (∀ n, t ≠ .integer n) ∧ ∀ x, t ≠ .float x) :
    Parser.branch (fuel + 1) c = Parser.statements fuel c := by
  rw [Parser.branch, peek_bind]
  refine congrFun ?_ c
  split
  · next n next => exact absurd rfl ((other _ next).1 n)
  · next x next => exact absurd rfl ((other _ next).2 x)
  · rfl

/-- A relation that holds of every statement but IF, and of an IF if it holds of its branches. -/
structure Strides (R : Context → Context → Prop) : Prop where
  refl : ∀ c, R c c
  trans : ∀ {c c' c''}, R c c' → R c' c'' → R c c''
  past : ∀ c : Context, R c c.past
  jump : ∀ {c c'}, lineJump .jump c = .ok ((), c') → R c c'
  assignment : ∀ {fuel : Nat} {c c'}, Parser.assignment fuel c = .ok ((), c') → R c c'
  keyword : ∀ {fuel : Nat} {k : Keyword} {c c'}, k ≠ .IF → c.rest.head? = some (.word k) →
    Parser.keyword (fuel + 1) k c.past = .ok ((), c') → Ends c'.rest → R c c'
  ifThen : ∀ {fuel : Nat}, (∀ {c c'}, Parser.branch fuel c = .ok ((), c') → R c c') →
    ∀ {c c'}, Parser.ifThen (fuel + 1) c = .ok ((), c') → R c c'

/-- Such a relation holds of whatever the reader comes to. -/
theorem Strides.site {R : Context → Context → Prop} (h : Strides R) (site : Site) {fuel : Nat} {c c' : Context}
    (ran : site.parser fuel c = .ok ((), c')) (leaves : site.Leaves c') : R c c' := by
  -- From the word IF to what follows it there are two units of fuel.
  induction fuel using Nat.strongRecOn generalizing site c c' with
  | _ fuel ih =>
    cases fuel with
    | zero => cases site <;> exact absurd ran fail_ne_ok
    | succ fuel =>
      have less := Nat.lt_succ_self fuel
      cases site with
      | statements =>
        rw [Site.parser, Parser.statements, peek_bind] at ran
        generalize c.rest.head? = t at ran
        split at ran
        · exact (pure_eq_ok.mp ran).2 ▸ h.refl c
        · exact (pure_eq_ok.mp ran).2 ▸ h.refl c
        · exact h.trans (h.past c) (ih fuel less .statements ran trivial)
        · exact h.trans (h.past c) (ih fuel less .statements ran trivial)
        · obtain ⟨_, d, first, ran⟩ := bind_eq_ok.mp ran
          obtain ⟨ended, d', looked, ran⟩ := bind_eq_ok.mp ran
          cases atEnd_eq_ok looked
          cases ended with
          | true =>
            exact h.trans (ih fuel less .statement first (atEnd_ends looked)) (ih fuel less .statements ran trivial)
          | false => exact absurd ran unexpected_bind_ne_ok
      | statement =>
        obtain ⟨-, ran⟩ | ⟨k, next, ran⟩ := statement_eq_ok ran
        · exact h.assignment ran
        cases fuel with
        | zero => exact absurd ran fail_ne_ok
        | succ fuel =>
          by_cases same : k = .IF
          · subst same
            exact h.trans (h.past c) (ih fuel (Nat.lt_succ_of_lt (Nat.lt_succ_self fuel)) .ifThen ran trivial)
          · exact h.keyword same next ran leaves
      | ifThen => exact h.ifThen (fun ran => ih fuel less .branch ran trivial) ran
      | branch =>
        rw [Site.parser, Parser.branch, peek_bind] at ran
        generalize c.rest.head? = t at ran
        split at ran
        · exact h.jump ran
        · exact h.jump ran
        · exact ih fuel less .statements ran trivial

/-- A relation between the contexts before and behind something that is read. -/
structure Spans (R : Context → Context → Prop) : Prop where
  refl : ∀ c, R c c
  trans : ∀ {c c' c''}, R c c' → R c' c'' → R c c''
  past : ∀ c : Context, R c c.past
  site : ∀ (site : Site) {fuel : Nat} {c c'}, site.parser fuel c = .ok ((), c') → site.Leaves c' → R c c'
  condition : ∀ {fuel : Nat} {l : Label} {c c'}, condition fuel c = .ok (l, c') → R c c'
  consequence : ∀ {fuel : Nat} {c c'}, consequence fuel c = .ok ((), c') → R c c'
  alternative : ∀ {l l' : Label} {c c'}, l.isFunction = false → alternative l c = .ok (l', c') → R c c'
  place : ∀ {l : Label} {c c'}, l.isFunction = false → Parser.place l c = .ok ((), c') → R c c'

section
variable {R : Context → Context → Prop} (spans : Spans R)
include spans

/-- What is read inside a site is read to its end, and before what follows in the site. -/
theorem Enters.step {site site' : Site} {fuel fuel' : Nat} {c c' d : Context} (h : Enters site fuel c site' fuel' d)
    (ran : site.parser fuel c = .ok ((), c')) :
    ∃ d', site'.parser fuel' d = .ok ((), d') ∧ site'.Leaves d' ∧ R c d ∧ R d' c' := by
  cases h with
  | separator separates =>
    refine ⟨c', ?_, trivial, spans.past c, spans.refl c'⟩
    rw [Site.parser, Parser.statements, peek_bind] at ran
    rcases separates with next | next <;> rw [next] at ran <;> exact ran
  | first begins =>
    obtain ⟨d, first, later, ends⟩ := statements_eq_ok begins ran
    exact ⟨d, first, ends, spans.refl c, spans.site .statements later trivial⟩
  | later begins first =>
    obtain ⟨d', first', later, ends⟩ := statements_eq_ok begins ran
    cases first.symm.trans first'
    exact ⟨c', later, trivial, spans.site .statement first ends, spans.refl c'⟩
  | ifThen next => exact ⟨c', (statement_eq_ifThen next).symm.trans ran, trivial, spans.past c, spans.refl c'⟩
  | @yes _ _ d l tested next =>
    obtain ⟨l', d', d₁, tested', done, rest⟩ := ifThen_eq_ok ran
    cases tested.symm.trans tested'
    have branched : Parser.branch fuel' d.past = .ok ((), d₁) := by
      rw [Parser.consequence, accept_bind, if_neg (by rw [next]; simp)] at done
      obtain ⟨_, d', expected, done⟩ := bind_eq_ok.mp done
      obtain ⟨-, rfl⟩ := expect_eq_ok.mp expected
      exact done
    have inner := condition_inner tested
    refine ⟨d₁, branched, trivial, spans.trans (spans.condition tested) (spans.past d), ?_⟩
    split at rest
    · obtain ⟨l', d₂, d₃, turned, done', placed⟩ := rest
      have otherwise : R d₂ c' := spans.trans (spans.site .branch done' trivial) (spans.place (alternative_inner turned) placed)
      exact spans.trans (spans.past d₁) (spans.trans (spans.alternative inner turned) otherwise)
    · exact spans.place inner rest
  | @no _ _ d d₁ d₂ l l' tested done next turned =>
    obtain ⟨l₁, d', d₁', tested', done', rest⟩ := ifThen_eq_ok ran
    cases tested.symm.trans tested'
    cases done.symm.trans done'
    rw [if_pos next] at rest
    obtain ⟨l₂, d₂', d₃, turned', branched, placed⟩ := rest
    cases turned.symm.trans turned'
    refine ⟨d₃, branched, trivial, ?_, spans.place (alternative_inner turned) placed⟩
    have before : R c d₁ := spans.trans (spans.condition tested) (spans.consequence done)
    exact spans.trans before (spans.trans (spans.past d₁) (spans.alternative (condition_inner tested) turned))
  | statements other => exact ⟨c', (branch_eq_statements other).symm.trans ran, trivial, spans.refl c, spans.refl c'⟩

/-- So is what is read further inside. -/
theorem Meets.run {site site' : Site} {fuel fuel' : Nat} {c c' d : Context} (h : Meets site fuel c site' fuel' d)
    (ran : site.parser fuel c = .ok ((), c')) (leaves : site.Leaves c') :
    ∃ d', site'.parser fuel' d = .ok ((), d') ∧ site'.Leaves d' ∧ R c d ∧ R d' c' := by
  induction h generalizing c' with
  | @here _ _ c => exact ⟨c', ran, leaves, spans.refl c, spans.refl c'⟩
  | next enters _ ih =>
    obtain ⟨d₁, ran₁, leaves₁, first₁, rest₁⟩ := enters.step spans ran
    obtain ⟨d', ran', leaves', first, rest⟩ := ih ran₁ leaves₁
    exact ⟨d', ran', leaves', spans.trans first₁ first, spans.trans rest rest₁⟩

end

end Parser

open Parser

/-- The reader of lines comes to a statement with the context `c₁` and leaves it with `c₂`. -/
inductive Statement (lines : List SourceLine) (start c₁ c₂ : Context) : Prop
  | intro {before after : List SourceLine} {s : SourceLine} {c d : Context} {fuel : Nat} (split : lines = before ++ s :: after)
      (read : before.forM compileLine start = .ok ((), c)) (begun : startLine s c = .ok ((), d))
      (meets : Meets .statements (fuelFor d.rest) d .statement fuel c₁) (ran : Parser.statement fuel c₁ = .ok ((), c₂))

theorem compileLine_eq_ok {s : SourceLine} {c c' : Context} (h : compileLine s c = .ok ((), c')) :
    ∃ d, startLine s c = .ok ((), d) ∧ statements (fuelFor d.rest) d = .ok ((), c') ∧ c'.rest = [] := by
  rw [compileLine, within_eq_ok] at h
  obtain ⟨_, d, begun, h⟩ := bind_eq_ok.mp h
  rw [wholeLine, get_bind] at h
  obtain ⟨_, d', read, h⟩ := bind_eq_ok.mp h
  rw [peek_bind] at h
  refine ⟨d, begun, ?_⟩
  split at h
  · next ended =>
    cases h
    exact ⟨read, List.head?_eq_none_iff.mp (Option.isNone_iff_eq_none.mp ended)⟩
  · exact absurd h unexpected_ne_ok

end BasicMachine.Language
