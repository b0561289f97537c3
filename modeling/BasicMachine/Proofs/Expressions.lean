import BasicMachine.Machine.Scripted
import BasicMachine.Proofs.Evaluation

/-!
# Expressions from text to value

The reader takes exactly the tokens that the grammar derives, and what it makes of them computes the value of the tree.
-/
namespace BasicMachine.Language

open Session

/-- Nothing follows that could go on with an expression: no operator, and no parenthesis after a name. -/
def EndsExpression (more : List Token) : Prop := ∀ t, more.head? = some t → t ≠ .lparen ∧ ∀ op, t ≠ .operator op

theorem EndsExpression.follows {ts more : List Token} (h : EndsExpression more) : Follows 0 ts more where
  operator op next := absurd rfl ((h _ next).2 op)
  element next := absurd rfl (h _ next).1

/-- The cells that a text constant fills, but for the zero at its end. -/
def textContents (s : String) : List Int16 := ((Utf8.encode s).filter (· != 0)).map fun b => Int16.ofNat b.toNat

theorem lt_size_of_string {memory : Array Value} {address : Nat} {cells : List Int16}
    (h : Value.string memory address = .ok cells) : address < memory.size := by
  rcases Nat.lt_or_ge address memory.size with inside | outside
  · exact inside
  · rw [Value.string, Nat.sub_eq_zero_of_le outside, Value.stringFrom] at h
    cases h

/-- Whatever its budget, the machine goes on after `cycles` cycles with one value more on its stack and its program
counter `size` bytes further on, or it fails. Only who watches the machine may see more of it. -/
def Delivers {σ : Type} (env : Environment σ) (p : Program) (m : Machine) (cycles size : Nat) (h : σ) :
    Except Error Value → Prop
  | .ok v => ∃ h', (m.tracing = false → h' = h) ∧
      ∀ left, loop env p (cycles + left) ⟨m, h⟩ = loop env p left ⟨{ m with
        stack := m.stack.insert v
        pc := m.pc + size
        clock := m.clock + cycles }, h'⟩
  | .error e => ∃ least address s, (m.tracing = false → s.host = h) ∧
      ∀ left, least < left → loop env p left ⟨m, h⟩ = .error (e.atAddress address) s

theorem delivers_of_computes {σ : Type} {env : Environment σ} {p : Program} {m : Machine} {code : Code} {room : Nat}
    {r : Except Error Value} (computes : Computes env p m code room (m.stack.insert <$> r))
    (lies : p.HasCode m.pc code) (enough : m.stack.size + room ≤ m.stack.limit) (h : σ) :
    Delivers env p m code.length code.size h r := by
  rcases computes.outcome lies with arrives | ⟨full, -⟩
  · cases r with
    | ok v =>
      obtain ⟨h', same, goes⟩ := Reaches.course arrives h
      refine ⟨h', same, fun left => ?_⟩
      rw [loop_eq_course, loop_eq_course, goes]
      rfl
    | error err =>
      obtain ⟨address, fails⟩ := arrives
      obtain ⟨n, s, same, stops⟩ := fails.course h
      refine ⟨n, address, s, same, fun left more => ?_⟩
      rw [loop_eq_course, stops left more]
      rfl
  · omega

/-- A text that the grammar derives, with a continuation that cannot be part of it, is read to its end and no further.
On every machine whose memory holds the variables and texts and whose stack has room, the code of what was read adds
the value of the tree to the stack, and changes nothing else but the program counter and the clock; where the tree has
no value, the machine fails with its error. -/
theorem expression_computes {e : Tree} {ts more : List Token} (derives : Derives .disjunction e ts)
    (ends : EndsExpression more) (fuel : Nat) (enough : 4 * ts.length < fuel) (c : Context)
    (outside : c.scopes.isRoot = true) (rest : c.rest = ts ++ more) :
    ∃ e' c', Parser.expression fuel 0 c = .ok (e', c') ∧ c'.rest = more ∧
      ∀ {σ : Type} (env : Environment σ) (p : Program) (link : Label → Nat) (m : Machine) (values : String → Value),
        p.HasCode m.pc (e'.code.place link m.pc) → m.memory.size ≤ maxPointer + 1 →
        (∀ name ∈ e.names, m.memory[c'.cell name]? = some (values name)) →
        (∀ t ∈ e.literals, Value.string m.memory (c'.textAt t) = .ok (textContents t)) →
        m.stack.size + e.room ≤ m.stack.limit →
        ∃ cycles, ∀ h, Delivers env p m cycles e'.code.size h (e.eval ⟨m.memory, values, c'.textAt⟩) := by
  have root : c.scopes.inner = [] := List.isEmpty_iff.mp outside
  obtain ⟨c', took, read⟩ := (Parser.read_of_derives derives).expression fuel 0 c enough (by decide) ends.follows
    (by decide) (Nat.le_refl 0) root rest
  refine ⟨e.resolved c', c', read, took.rest, ?_⟩
  intro σ env p link m values lies small held texts room
  have holds : (Surroundings.mk m.memory values c'.textAt).Holds c' e :=
    ⟨held, fun t member => ⟨rfl, lt_size_of_string (texts t member)⟩⟩
  have evaluates : Evaluates env p m.memory (e.resolved c') e.room _ := evaluates_resolved small holds
  obtain ⟨code, same, computes⟩ := evaluates.computes
  have placed : (e.resolved c').code.place link m.pc = code := by rw [same, Steps.place_ofCode]
  have size : (e.resolved c').code.size = code.size := by rw [← placed, Steps.size_place]
  rw [placed] at lies
  rw [size]
  exact ⟨code.length, delivers_of_computes (computes m rfl) lies room⟩

/-- A primary stands at every level. -/
theorem Derives.of_primary {level : Level} {e : Tree} {ts : List Token} (h : Derives .primary e ts) :
    Derives level e ts := by
  cases level <;> repeat first | exact h | apply Derives.lift

/-- The tree of `2 - A - 3 * -A OR LEN("HI")`. -/
def mixedTree : Tree :=
  .binary .or
    (.binary .minus (.binary .minus (.integer 2) (.scalar "A"))
      (.binary .multiply (.integer 3) (.minus (.scalar "A"))))
    (.call .len (.text "HI"))

def mixedTokens : List Token :=
  [.integer 2, .operator .minus, .ident "A", .operator .minus, .integer 3, .operator .multiply, .operator .minus,
    .ident "A", .operator .or, .builtin .len, .lparen, .string "HI", .rparen]

theorem derives_mixed : Derives .disjunction mixedTree mixedTokens := by
  have difference : Derives .term (.binary .minus (.integer 2) (.scalar "A")) _ :=
    .chain (by decide) (Derives.integer 2).of_primary (Derives.scalar "A").of_primary
  have product : Derives .factor (.binary .multiply (.integer 3) (.minus (.scalar "A"))) _ :=
    .chain (by decide) (Derives.integer 3).of_primary (Derives.minus (Derives.scalar "A").of_primary)
  have sum : Derives .term (.binary .minus (.binary .minus (.integer 2) (.scalar "A")) _) _ :=
    .chain (by decide) difference product
  have length : Derives .conjunction (.call .len (.text "HI")) _ :=
    (Derives.call .len (Derives.text "HI").of_primary).of_primary
  have equality : Derives .equality _ _ := .lift (show Derives .comparison _ _ from .lift sum)
  have left : Derives .disjunction _ _ :=
    .lift (show Derives .conjunction _ _ from .lift (show Derives .negation _ _ from .lift equality))
  exact .chain (show Operator.or ∈ Level.disjunction.operators by decide) left length

theorem expression_computes_mixed :
    let c : Context := { rest := mixedTokens ++ [.colon], scopes := .new dataBase }
    let code : Code := [.short .pushI 2, .pointer .load 2, .plain (.binary .subtract), .short .pushI 3,
      .short .pushI 0, .pointer .load 2, .plain (.binary .subtract), .plain (.binary .multiply),
      .plain (.binary .subtract), .pointer .pushP 3, .plain .len, .plain (.binary .or)]
    let p : Program := { code := code.bytes.toArray }
    let memory := #[.pointer 0, .integer 0, .integer 5, .integer 72, .integer 73, .integer 0]
    let m : Machine := { Machine.new { memorySize := 6, stackSize := 4 } with memory }
    ∃ e' c', Parser.expression 60 0 c = .ok (e', c') ∧ c'.rest = [.colon] ∧
      ∃ cycles, Delivers { host := Script.host } p m cycles e'.code.size {} (.ok (.integer 14)) := by
  intro c code p memory m
  obtain ⟨e', c', read, rest, delivers⟩ := @expression_computes mixedTree mixedTokens [.colon] derives_mixed
    (by rintro t ⟨⟩; exact ⟨by decide, by simp⟩) 60 (by decide) c rfl rfl
  refine ⟨e', c', read, rest, ?_⟩
  have known : ((Parser.expression 60 0 c).toOption.map fun r =>
      (r.1.code.place (fun _ => 0) 0, r.2.cell "A", r.2.textAt "HI")) = some (code, 2, 3) := by decide +kernel
  rw [read] at known
  simp only [Except.toOption, Option.map_some, Option.some.injEq, Prod.mk.injEq] at known
  obtain ⟨placed, cell, text⟩ := known
  obtain ⟨cycles, delivers⟩ := delivers { host := Script.host } p (fun _ => 0) m (fun _ => .integer 5)
    (by rw [show m.pc = 0 from rfl, placed]; exact ⟨[], [], by simp [p], rfl⟩) (by decide)
    (by simp [mixedTree, Tree.names, cell, m, memory])
    (by simp only [mixedTree, Tree.literals, List.nil_append, List.mem_singleton, forall_eq, text]; rfl) (by decide)
  refine ⟨cycles, ?_⟩
  have value : mixedTree.eval ⟨m.memory, fun _ => .integer 5, c'.textAt⟩ = .ok (.integer 14) := by
    simp only [mixedTree, Tree.eval, text]
    rfl
  exact value ▸ delivers {}

end BasicMachine.Language
