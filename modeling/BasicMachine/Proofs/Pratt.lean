import BasicMachine.Proofs.Names

/-!
# Reading by binding powers

The reader of expressions knows only binding powers, the grammar only levels. A text of a level is read as its tree by
every call whose power the level's operators exceed, and reading stops exactly at the end of the text.
-/
namespace BasicMachine.Language

namespace Context

/-- All variables and text constants of a tree have cells. -/
structure Covers (c : Context) (e : Tree) : Prop where
  names : ∀ name ∈ e.names, ∃ b, c.block (.name name) = some b
  literals : ∀ s ∈ e.literals, ∃ b, c.block (.text s) = some b

end Context

/-- A tree with the cells of its variables and texts, as code needs it. -/
def Tree.resolved (c : Context) : Tree → Expr
  | integer n => .integer n
  | float x => .float x
  | text s => .text (c.textAt s)
  | scalar name => .variable (.cell (c.cell name))
  | plus e => e.resolved c
  | minus e => .negate (e.resolved c)
  | not e => .not (e.resolved c)
  | binary op l r => .binary op (l.resolved c) (r.resolved c)
  | call f e => .builtin f.builtin [e.resolved c]

namespace Context.Covers

variable {c c' : Context}

theorem left {op : Operator} {l r : Tree} (h : c.Covers (.binary op l r)) : c.Covers l :=
  ⟨fun n m => h.names n (List.mem_append_left _ m), fun s m => h.literals s (List.mem_append_left _ m)⟩

theorem right {op : Operator} {l r : Tree} (h : c.Covers (.binary op l r)) : c.Covers r :=
  ⟨fun n m => h.names n (List.mem_append_right _ m), fun s m => h.literals s (List.mem_append_right _ m)⟩

theorem binary (op : Operator) {l r : Tree} (left : c.Covers l) (right : c.Covers r) : c.Covers (.binary op l r) where
  names n m := (List.mem_append.mp m).elim (left.names n) (right.names n)
  literals s m := (List.mem_append.mp m).elim (left.literals s) (right.literals s)

theorem later {e : Tree} (h : c.Covers e) (grows : c.Extends c') : c'.Covers e where
  names n m := (h.names n m).imp fun b => grows.kept _ b
  literals s m := (h.literals s m).imp fun b => grows.kept _ b

/-- A tree whose names have cells keeps them while more names get theirs. -/
theorem resolved_eq {e : Tree} (h : c.Covers e) (grows : c.Extends c') : e.resolved c' = e.resolved c := by
  induction e with
  | integer n => rfl
  | float x => rfl
  | text s =>
    obtain ⟨b, known⟩ := h.literals s (List.mem_singleton.mpr rfl)
    have same := (block_text_eq_some known).symm.trans (block_text_eq_some (grows.kept _ _ known))
    rw [Tree.resolved, Tree.resolved, (Block.mk.inj same).1]
  | scalar name =>
    obtain ⟨b, known⟩ := h.names name (List.mem_singleton.mpr rfl)
    have same := (block_name_eq_some known).symm.trans (block_name_eq_some (grows.kept _ _ known))
    rw [Tree.resolved, Tree.resolved, (Block.mk.inj same).1]
  | plus e ih => exact ih ⟨h.names, h.literals⟩
  | minus e ih => rw [Tree.resolved, Tree.resolved, ih ⟨h.names, h.literals⟩]
  | not e ih => rw [Tree.resolved, Tree.resolved, ih ⟨h.names, h.literals⟩]
  | binary op l r ihl ihr => rw [Tree.resolved, Tree.resolved, ihl h.left, ihr h.right]
  | call f e ih => rw [Tree.resolved, Tree.resolved, ih ⟨h.names, h.literals⟩]

end Context.Covers

namespace Level

/-- Calls with a lower power read the operators of a level. -/
def below : Level → Nat
  | disjunction => 10
  | conjunction => 20
  | negation => 30
  | equality => 30
  | comparison => 40
  | term => 50
  | factor => 60
  | sign => 70
  | power => 70
  | primary => 80

/-- Operators that may follow a text of a level hold no more than this. -/
def above : Level → Nat
  | disjunction => 10
  | conjunction => 20
  | negation => 20
  | equality => 30
  | comparison => 40
  | term => 50
  | factor => 60
  | sign => 60
  | power => 60
  | primary => 80

theorem below_le_tighter (level : Level) : level.below ≤ level.tighter.below := by
  cases level <;> decide

theorem above_le_tighter (level : Level) : level.above ≤ level.tighter.above := by
  cases level <;> decide

/-- The operators of a level hold just enough to be read, and what is read to their right is of the next level. -/
theorem power_of_mem (level : Level) :
    ∀ op ∈ level.operators, op.power = level.below ∧ op.power = level.above ∧ Parser.rightPower op = op.power ∧
      op.power < level.tighter.below := by
  cases level <;> decide

end Level

/-- What may follow a text: no operator that holds more than `bound`, and no parenthesis that would turn a name at the
end of the text into an array element. -/
structure Follows (bound : Nat) (ts more : List Token) : Prop where
  operator : ∀ op, more.head? = some (.operator op) → op.power ≤ bound
  element : more.head? = some .lparen → ∀ name, ts.getLast? ≠ some (.ident name)

namespace Follows

theorem mono {bound bound' : Nat} {ts more : List Token} (h : Follows bound ts more) (le : bound ≤ bound') :
    Follows bound' ts more :=
  ⟨fun op next => Nat.le_trans (h.operator op next) le, h.element⟩

theorem suffix {bound : Nat} {ts us more : List Token} (h : Follows bound (ts ++ us) more) :
    Follows bound us more := by
  refine ⟨h.operator, fun next name last => h.element next name ?_⟩
  rw [List.getLast?_append, last, Option.some_or]

theorem tail {bound : Nat} {t : Token} {us more : List Token} (h : Follows bound (t :: us) more) :
    Follows bound us more :=
  @suffix bound [t] us more h

theorem of_operator {op : Operator} {ts more : List Token} : Follows op.power ts (.operator op :: more) := by
  constructor
  · intro other next
    cases next
    exact Nat.le_refl _
  · intro next
    cases next

theorem of_rparen {ts more : List Token} : Follows 0 ts (.rparen :: more) := by
  constructor
  · intro op next
    cases next
  · intro next
    cases next

end Follows

namespace Parser

open Context

variable {c : Context}

/-- From one context to another, the tokens of a tree have been read. -/
structure Took (c c' : Context) (e : Tree) (more : List Token) : Prop where
  grows : c.Grows c'
  rest : c'.rest = more
  covers : c'.Covers e

/-- Tokens are read as an operand of a tree and then as operators after it, up to what follows them. Of the fuel, less
is spent than there are tokens. -/
def Read (level : Level) (e : Tree) (ts : List Token) : Prop :=
  ∃ spent, spent < ts.length ∧ ∀ fuel power more (c : Context), 4 * ts.length ≤ fuel → power < level.below →
    Follows level.above ts more → c.scopes.inner = [] → c.rest = ts ++ more →
    ∃ c', Took c c' e more ∧
      (operand fuel >>= operators fuel power) c = operators (fuel - spent) power (e.resolved c') c'

theorem operators_stop {fuel power : Nat} {left : Expr} (room : 0 < fuel)
    (h : ∀ op, c.rest.head? = some (.operator op) → op.power ≤ power) :
    operators fuel power left c = .ok (left, c) := by
  obtain ⟨fuel, rfl⟩ := Nat.exists_eq_add_of_lt room
  rw [Nat.zero_add, operators, peek_bind]
  cases next : c.rest.head? with
  | none => rfl
  | some t =>
    cases t with
    | operator op =>
      dsimp only
      rw [if_neg (Nat.not_lt.mpr (h op next))]
      rfl
    | _ => rfl

theorem operators_next {fuel power : Nat} {left : Expr} {op : Operator}
    (next : c.rest.head? = some (.operator op)) (h : power < op.power) :
    operators (fuel + 1) power left c = (do
      let right ← expression fuel (rightPower op)
      accountCode op.code
      operators fuel power (.binary op left right)) c.past := by
  rw [operators, peek_bind, next]
  dsimp only
  rw [if_pos h, skip_bind]

/-- What reads as an operand and its operators reads as an expression. -/
theorem Read.expression {level : Level} {e : Tree} {ts : List Token} (h : Read level e ts)
    (fuel power : Nat) (c : Context) {bound : Nat} {more : List Token} (room : 4 * ts.length < fuel) (low : power < level.below)
    (follows : Follows bound ts more) (loose : bound ≤ level.above) (stops : bound ≤ power)
    (root : c.scopes.inner = []) (rest : c.rest = ts ++ more) :
    ∃ c', Took c c' e more ∧ expression fuel power c = .ok (e.resolved c', c') := by
  obtain ⟨spent, few, h⟩ := h
  obtain ⟨fuel, rfl⟩ := Nat.exists_eq_add_of_lt (Nat.zero_lt_of_lt room)
  rw [Nat.zero_add] at room ⊢
  obtain ⟨c', took, same⟩ := h fuel power more c (Nat.le_of_lt_succ room) low (follows.mono loose) root rest
  refine ⟨c', took, ?_⟩
  rw [Parser.expression, same, operators_stop (by omega)]
  rw [took.rest]
  exact fun op next => Nat.le_trans (follows.operator op next) stops

namespace Took

variable {c' : Context} {e : Tree} {more : List Token}

theorem root (h : Took c c' e more) (inner : c.scopes.inner = []) : c'.scopes.inner = [] := h.grows.root inner

theorem counting (h : Took c c' e more) (code : Steps) : Took c (c'.counting code) e more :=
  ⟨h.grows.trans (.counting c' code), h.rest, h.covers.later (Grows.counting c' code).toExtends⟩

theorem resolved_counting (h : Took c c' e more) (code : Steps) : e.resolved (c'.counting code) = e.resolved c' :=
  h.covers.resolved_eq (Grows.counting c' code).toExtends

/-- What was read after a token was read with it. -/
theorem of_past (h : Took c.past c' e more) : Took c c' e more := ⟨(Grows.past c).trans h.grows, h.rest, h.covers⟩

/-- Signs, NOT and functions have the names of their operand. -/
theorem wrap {e' : Tree} (h : Took c c' e more) (names : e'.names = e.names) (literals : e'.literals = e.literals) :
    Took c c' e' more :=
  ⟨h.grows, h.rest, names ▸ h.covers.names, literals ▸ h.covers.literals⟩

end Took

/-- Two operands and the operator between them. -/
theorem Read.binary {outer left right : Level} {op : Operator} {l r : Tree} {ts us : List Token}
    (hl : Read left l ts) (hr : Read right r us) (low : outer.below ≤ left.below) (holds : outer.below ≤ op.power)
    (ends : op.power ≤ left.above) (high : rightPower op < right.below) (loose : outer.above ≤ right.above)
    (stops : outer.above ≤ rightPower op) :
    Read outer (.binary op l r) (ts ++ .operator op :: us) := by
  obtain ⟨spent, few, hl⟩ := hl
  refine ⟨spent + 1, by simp only [List.length_append, List.length_cons]; omega, ?_⟩
  intro fuel power more c room small follows root rest
  simp only [List.length_append, List.length_cons] at room
  obtain ⟨c₁, took₁, same⟩ := hl fuel power (.operator op :: us ++ more) c (by omega) (by omega)
    (Follows.of_operator.mono ends) root (by rw [rest, List.append_assoc])
  obtain ⟨left, some_left⟩ : ∃ k, fuel - spent = k + 1 := ⟨fuel - spent - 1, by omega⟩
  obtain ⟨c₂, took₂, read⟩ := hr.expression left (rightPower op) c₁.past (by omega) high follows.suffix.tail loose
    stops (took₁.root root) (by rw [past, took₁.rest]; rfl)
  have grows : c₁.Grows (c₂.counting (Steps.ofCode op.code)) := (took₂.counting _).of_past.grows
  refine ⟨c₂.counting (Steps.ofCode op.code), ⟨took₁.grows.trans grows, took₂.rest, ?_⟩, ?_⟩
  · exact .binary op (took₁.covers.later grows.toExtends) (took₂.counting _).covers
  · rw [same, some_left, operators_next (by rw [took₁.rest]; rfl) (by omega), bind_of_ok read, accountCode_bind,
      Tree.resolved, took₁.covers.resolved_eq grows.toExtends, took₂.resolved_counting]
    congr 1
    omega

/-- What reads as an operand alone. -/
theorem Read.of_operand {level : Level} {e : Tree} {t : Token} {ts : List Token}
    (h : ∀ fuel more (c : Context), 4 * ts.length + 3 ≤ fuel → Follows level.above (t :: ts) more →
      c.scopes.inner = [] → c.rest = t :: (ts ++ more) →
      ∃ c', Took c c' e more ∧ operand (fuel + 1) c = .ok (e.resolved c', c')) :
    Read level e (t :: ts) := by
  refine ⟨0, by simp, ?_⟩
  intro fuel power more c room small follows root rest
  rw [List.length_cons] at room
  obtain ⟨fuel, rfl⟩ : ∃ k, fuel = k + 1 := ⟨fuel - 1, by omega⟩
  obtain ⟨c', took, same⟩ := h fuel more c (by omega) follows root rest
  exact ⟨c', took, by rw [bind_of_ok same, Nat.sub_zero]⟩

theorem Read.not {e : Tree} {ts : List Token} (h : Read .negation e ts) :
    Read .negation (.not e) (.not :: ts) := by
  refine .of_operand fun fuel more c room follows root rest => ?_
  obtain ⟨c', took, read⟩ := h.expression fuel notPower c.past (by omega) (by decide) follows.tail
    (Nat.le_refl _) (by decide) root (by rw [past, rest]; rfl)
  refine ⟨_, (took.of_past.counting (Steps.ofCode [.plain (.unary .not)])).wrap rfl rfl, ?_⟩
  refine (run_peek (t := .not) rfl (by rw [rest]; rfl)).trans ?_
  dsimp only
  rw [skip_bind, bind_of_ok read, accountCode_bind, Tree.resolved, took.resolved_counting]
  rfl

theorem Read.plus {e : Tree} {ts : List Token} (h : Read .sign e ts) :
    Read .sign (.plus e) (.operator .plus :: ts) := by
  refine .of_operand fun fuel more c room follows root rest => ?_
  obtain ⟨c', took, read⟩ := h.expression fuel signPower c.past (by omega) (by decide) follows.tail
    (Nat.le_refl _) (by decide) root (by rw [past, rest]; rfl)
  refine ⟨c', took.of_past.wrap rfl rfl, ?_⟩
  refine (run_peek (t := .operator .plus) rfl (by rw [rest]; rfl)).trans ?_
  dsimp only
  rw [skip_bind, read]
  rfl

theorem Read.minus {e : Tree} {ts : List Token} (h : Read .sign e ts) :
    Read .sign (.minus e) (.operator .minus :: ts) := by
  refine .of_operand fun fuel more c room follows root rest => ?_
  obtain ⟨c', took, read⟩ := h.expression fuel signPower (c.past.counting (Steps.ofCode [.short .pushI 0]))
    (by omega) (by decide) follows.tail (Nat.le_refl _) (by decide) root
    (by rw [counting, past, rest]; rfl)
  have took : Took c.past c' e more := ⟨(Grows.counting c.past _).trans took.grows, took.rest, took.covers⟩
  refine ⟨_, (took.of_past.counting (Steps.ofCode Operator.minus.code)).wrap rfl rfl, ?_⟩
  refine (run_peek (t := .operator .minus) rfl (by rw [rest]; rfl)).trans ?_
  dsimp only
  rw [skip_bind, accountCode_bind, bind_of_ok read, accountCode_bind, Tree.resolved, took.resolved_counting]
  rfl

theorem Read.integer (n : Int16) : Read .primary (.integer n) [.integer n] := by
  refine .of_operand fun fuel more c room follows root rest => ?_
  refine ⟨c.past.counting (Steps.ofCode [.short .pushI n]), ⟨(Grows.past c).trans (.counting _ _), by rw [counting, past, rest]; rfl,
    ⟨by simp [Tree.names], by simp [Tree.literals]⟩⟩, ?_⟩
  exact run_peek (t := .integer n) rfl (by rw [rest]; rfl)

theorem Read.float (x : Float32) : Read .primary (.float x) [.float x] := by
  refine .of_operand fun fuel more c room follows root rest => ?_
  refine ⟨c.past.counting (Steps.ofCode [.pushF x.toBits]), ⟨(Grows.past c).trans (.counting _ _), by rw [counting, past, rest]; rfl,
    ⟨by simp [Tree.names], by simp [Tree.literals]⟩⟩, ?_⟩
  exact run_peek (t := .float x) rfl (by rw [rest]; rfl)

theorem Read.text (s : String) : Read .primary (.text s) [.string s] := by
  refine .of_operand fun fuel more c room follows root rest => ?_
  obtain ⟨c', interned, grows, keeps, -, known⟩ := @intern_eq c.past s
  have took : Took c c' (.text s) more := by
    refine ⟨(Grows.past c).trans grows, by rw [keeps, past, rest]; rfl, by simp [Tree.names], ?_⟩
    intro other member
    rw [List.mem_singleton.mp member]
    exact ⟨_, known⟩
  refine ⟨_, took.counting (Steps.ofCode [.pointer .pushP (c'.textAt s)]), ?_⟩
  refine (run_peek (t := .string s) rfl (by rw [rest]; rfl)).trans ?_
  dsimp only
  rw [took.resolved_counting]
  rw [skip_bind, bind_of_ok interned, accountCode_bind]
  rfl

/-- A name is a scalar variable, since no parenthesis follows it. -/
theorem Read.scalar (name : String) : Read .primary (.scalar name) [.ident name] := by
  refine .of_operand fun fuel more c room follows root rest => ?_
  obtain ⟨fuel, rfl⟩ : ∃ k, fuel = k + 1 := ⟨fuel - 1, by omega⟩
  obtain ⟨c', resolved, grows, keeps, -, known⟩ := @resolve_eq c.past name root
  have took : Took c c' (.scalar name) more := by
    refine ⟨(Grows.past c).trans grows, by rw [keeps, past, rest]; rfl, ?_, by simp [Tree.literals]⟩
    intro other member
    rw [List.mem_singleton.mp member]
    exact ⟨_, known⟩
  have alone : c.past.rest.head? ≠ some .lparen := by
    rw [past, rest]
    exact fun next => follows.element next name rfl
  have found : target (fuel + 1) name c.past = .ok (.scalar (.cell (c'.cell name)), c') := by
    rw [target, accept_bind, if_neg alone]
    rw [if_neg Bool.false_ne_true, bind_of_ok resolved]
    rfl
  refine ⟨_, took.counting (Steps.ofCode (Slot.cell (c'.cell name)).load), ?_⟩
  refine (run_peek (t := .ident name) rfl (by rw [rest]; rfl)).trans ?_
  dsimp only
  rw [took.resolved_counting]
  rw [skip_bind, bind_of_ok found]
  rfl

/-- Between parentheses, everything is read up to the closing one. -/
theorem Read.inParentheses {e : Tree} {ts : List Token} (h : Read .disjunction e ts) (fuel : Nat) (c : Context)
    {more : List Token} (room : 4 * ts.length < fuel) (root : c.scopes.inner = [])
    (rest : c.rest = ts ++ .rparen :: more) :
    ∃ c' : Context, Took c c'.past e more ∧ c'.rest = .rparen :: more ∧
      Parser.expression fuel 0 c = .ok (e.resolved c'.past, c') := by
  obtain ⟨c', took, read⟩ := h.expression fuel 0 c room (by decide) Follows.of_rparen (by decide) (Nat.le_refl _) root
    rest
  refine ⟨c', ⟨took.grows.trans (.past c'), by rw [past, took.rest]; rfl, took.covers.later (Grows.past c').toExtends⟩, took.rest, ?_⟩
  rw [read, took.covers.resolved_eq (Grows.past c').toExtends]

theorem Read.group {e : Tree} {ts : List Token} (h : Read .disjunction e ts) :
    Read .primary e (.lparen :: (ts ++ [.rparen])) := by
  refine .of_operand fun fuel more c room follows root rest => ?_
  rw [List.append_assoc] at rest
  simp only [List.length_append, List.length_singleton] at room
  obtain ⟨c', took, closing, read⟩ := h.inParentheses fuel c.past (by omega) root (by rw [past, rest]; rfl)
  refine ⟨c'.past, took.of_past, ?_⟩
  have close : expect .rparen c' = .ok ((), c'.past) := expect_eq_ok.mpr ⟨by rw [closing]; rfl, rfl⟩
  refine (run_peek (t := .lparen) rfl (by rw [rest]; rfl)).trans ?_
  dsimp only
  rw [skip_bind, bind_of_ok read, bind_of_ok close]
  rfl

theorem arguments_single {fuel : Nat} {e : Expr} {c' : Context} (first : c.rest.head? ≠ some .rparen)
    (read : expression fuel 0 c = .ok (e, c')) (close : c'.rest.head? = some .rparen) :
    arguments (fuel + 2) c = .ok ([e], c'.past) := by
  have one : expressions (fuel + 1) c = .ok ([e], c') := by
    rw [expressions, bind_of_ok read, accept_bind, if_neg (by rw [close]; simp), if_neg Bool.false_ne_true]
    rfl
  have closed : expect .rparen c' = .ok ((), c'.past) := expect_eq_ok.mpr ⟨close, rfl⟩
  rw [arguments, accept_bind, if_neg first, if_neg Bool.false_ne_true, bind_of_ok one, bind_of_ok closed]
  rfl

end Parser

/-- Tokens that an expression can start with. -/
def Token.opens : Token → Bool
  | integer _ | float _ | string _ | ident _ | lparen | not | builtin _ => true
  | operator op => op = .plus || op = .minus
  | _ => false

theorem Derives.opens {level : Level} {e : Tree} {ts : List Token} (h : Derives level e ts) :
    ∃ t us, ts = t :: us ∧ t.opens = true := by
  induction h with
  | lift _ ih => exact ih
  | chain _ _ _ ih _ | power _ _ ih _ =>
    obtain ⟨t, us, rfl, opens⟩ := ih
    exact ⟨t, _, rfl, opens⟩
  | _ => exact ⟨_, _, rfl, rfl⟩

namespace Parser

open Context

theorem Read.call (f : Function) {e : Tree} {ts : List Token} (derives : Derives .disjunction e ts)
    (h : Read .disjunction e ts) : Read .primary (.call f e) (.builtin f.builtin :: .lparen :: (ts ++ [.rparen])) := by
  refine .of_operand fun fuel more c room follows root rest => ?_
  rw [List.cons_append, List.append_assoc] at rest
  simp only [List.length_append, List.length_cons, List.length_nil] at room
  obtain ⟨fuel, rfl⟩ : ∃ k, fuel = k + 3 := ⟨fuel - 3, by omega⟩
  have open_rest : c.past.rest = .lparen :: (ts ++ .rparen :: more) := by rw [past, rest]; rfl
  obtain ⟨c', took, closing, read⟩ := h.inParentheses fuel c.past.past (by omega) root
    (show c.past.past.rest = _ by rw [past, open_rest]; rfl)
  have first : c.past.past.rest.head? ≠ some .rparen := by
    obtain ⟨t, us, rfl, opens⟩ := derives.opens
    rw [past, open_rest]
    rintro ⟨⟩
    cases opens
  have args := arguments_single first read (by rw [closing]; rfl)
  refine ⟨_, (took.of_past.of_past.counting (Steps.ofCode f.builtin.code)).wrap rfl rfl, ?_⟩
  have arity : f.builtin.arity = 1 := by cases f <;> rfl
  refine (run_peek (t := .builtin f.builtin) rfl (by rw [rest]; rfl)).trans ?_
  dsimp only
  rw [skip_bind, builtin, accept_bind, if_pos (by rw [open_rest]; rfl), if_pos rfl, bind_of_ok args, arity]
  rw [Tree.resolved, took.resolved_counting]
  rfl

/-- Every text of the grammar reads as its tree. -/
theorem read_of_derives {level : Level} {e : Tree} {ts : List Token} (h : Derives level e ts) : Read level e ts := by
  induction h with
  | @lift level e ts _ ih =>
    obtain ⟨spent, few, read⟩ := ih
    refine ⟨spent, few, fun fuel power more c room low follows => ?_⟩
    exact read fuel power more c room (Nat.lt_of_lt_of_le low level.below_le_tighter)
      (follows.mono level.above_le_tighter)
  | @chain level op l r ts us member _ _ left right =>
    obtain ⟨below, above, rightPower, tighter⟩ := level.power_of_mem op member
    exact left.binary right (Nat.le_refl _) (Nat.le_of_eq below.symm) (Nat.le_of_eq above) (by omega)
      level.above_le_tighter (by omega)
  | not _ ih => exact ih.not
  | plus _ ih => exact ih.plus
  | minus _ ih => exact ih.minus
  | power _ _ left right =>
    exact left.binary right (by decide) (by decide) (by decide) (by decide) (by decide) (by decide)
  | integer n => exact .integer n
  | float x => exact .float x
  | text s => exact .text s
  | scalar name => exact .scalar name
  | group _ ih => exact ih.group
  | call f derives ih => exact .call f derives ih

end Parser

end BasicMachine.Language
