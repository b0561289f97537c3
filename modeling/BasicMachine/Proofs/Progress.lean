import BasicMachine.Proofs.ErrorLines

/-!
# Progress of the parsers

Every parser goes forward in the tokens of its line: an expression, an array element and a statement take a token at least.
So a parser calls others to a depth that is linear in the tokens before it. Each call spends a unit of fuel, and the fuel
that a line gets is more than its parsers can spend.
-/
namespace BasicMachine.Language

/-- The context has gone past the first `pos` tokens of its line. -/
def Context.At (c : Context) (tokens : List Token) (pos : Nat) : Prop :=
  pos ≤ tokens.length ∧ c.rest = tokens.drop pos

namespace Parser

variable {α : Type} {tokens : List Token} {pos : Nat} {c : Context} {view : Outlook} {p : Parser α}

/-- Where the parser succeeds, it has gone past the first `least` tokens, and not past the last one. -/
def Goes (p : Parser α) (c : Context) (tokens : List Token) (least : Nat) : Prop :=
  ∀ a c', p c = .ok (a, c') → ∃ pos, least ≤ pos ∧ c'.At tokens pos

/-- The parser comes to an end, with an answer or with an error in the source. -/
def Finishes (p : Parser α) (c : Context) : Prop := ∀ e, p c = .error e → e.code ≠ .internalError

/-- The tokens that are left are the last ones of the line. -/
theorem Keeping.goes (h : Keeping everything (-1) view p) (shows : view.Shows c) (here : c.At tokens pos) :
    p.Goes c tokens pos := by
  intro a c' ran
  obtain ⟨ts, same, -⟩ := (h.course shows ran).tokens
  have lengths := congrArg List.length (same.symm.trans here.2)
  rw [List.length_append, List.length_drop] at lengths
  have bound := here.1
  refine ⟨pos + ts.length, Nat.le_add_right _ _, by omega, ?_⟩
  rw [← List.drop_drop, ← here.2, same, List.drop_left]

theorem Takes.goes (takes : Takes view p) (h : Keeping everything (-1) view p) (shows : view.Shows c)
    (here : c.At tokens pos) : p.Goes c tokens (pos + 1) := by
  intro a c' ran
  obtain ⟨after, later, there⟩ := h.goes shows here a c' ran
  have shorter := takes.shorter shows ran
  rw [here.2, there.2, List.length_drop, List.length_drop] at shorter
  exact ⟨after, by omega, there⟩

theorem Keeping.finishes {n : Int} (h : Keeping everything n .unknown p) (few : c.rest.length ≤ n) : p.Finishes c :=
  fun _ failed => (h.errors trivial failed).2 few

/-- Whatever the tokens and the state of the compiler: an expression, an array element and a statement end further on than
they begin; statements, a branch and NEXT do not go back; all stay within the tokens. Eight levels of calls
and eight for each token that is left are enough for every parser. So the compiler ends with a program or an error in the
source. -/
theorem parsers_progress {tokens : List Token} {pos : Nat} {c : Context} (here : c.At tokens pos) :
    (∀ fuel, (∀ power, (expression fuel power).Goes c tokens (pos + 1)) ∧
      (∀ name, c.rest.head? = some .lparen → (target fuel name).Goes c tokens (pos + 1)) ∧
      (statement fuel).Goes c tokens (pos + 1) ∧
      (statements fuel).Goes c tokens pos ∧ (branch fuel).Goes c tokens pos ∧ (next fuel).Goes c tokens pos) ∧
    (∀ fuel, 8 * (tokens.length - pos) + 8 ≤ fuel → (∀ power, (expression fuel power).Finishes c) ∧
      (∀ name, (target fuel name).Finishes c) ∧ (statement fuel).Finishes c ∧
      (statements fuel).Finishes c ∧ (branch fuel).Finishes c ∧ (next fuel).Finishes c) ∧
    ∀ source e, compile source = .error e → e.code ≠ .internalError := by
  have reads (fuel : Nat) : KeepsStatements everything fuel :=
    keepsStatements (fun _ => trivial) trivial trivial fuel
  have free : Outlook.unknown.Shows c := trivial
  refine ⟨fun fuel => ⟨fun power => ?_, fun name opens => ?_, ?_, ?_, ?_, ?_⟩, fun fuel enough => ?_,
    fun source e failed => ?_⟩
  · exact (takes_expression fuel power).goes (keeping_expression fuel power) free here
  · exact (takes_element fuel name).goes (keeping_target fuel name) opens here
  · exact (reads fuel).taking.goes ((reads fuel).statement (by omega)) free here
  · exact ((reads fuel).statements (by omega)).goes free here
  · exact ((reads fuel).branch (by omega)).goes free here
  · exact (keeping_next (fun _ _ => trivial) trivial fuel).goes free here
  · have length : c.rest.length = tokens.length - pos := by rw [here.2, List.length_drop]
    have few : (c.rest.length : Int) ≤ c.rest.length := Int.le_refl _
    exact ⟨fun power => (keeping_expression fuel power).finishes few, fun name => (keeping_target fuel name).finishes few,
      ((reads fuel).statement (by omega)).finishes few, ((reads fuel).statements (by omega)).finishes few,
      ((reads fuel).branch (by omega)).finishes few,
      (keeping_next (fun _ _ => trivial) trivial fuel).finishes few⟩
  · by_cases large : e.code = .outOfMemory
    · rw [large]
      decide
    · exact (line_of_compile failed large).2

/-- IF 1 THEN FOR I=1 TO 2:IF I THEN NEXT -/
def nestedLine : List Token :=
  [.word .IF, .integer 1, .word .THEN, .word .FOR, .ident "I", .operator .equal, .integer 1, .word .TO, .integer 2, .colon,
    .word .IF, .ident "I", .word .THEN, .word .NEXT]

/-- All tokens of a line are taken, through the statements inside of others. -/
theorem parsers_progress_nestedLine :
    ∃ c c' : Context, c.At nestedLine 0 ∧ statements 120 c = .ok ((), c') ∧ c'.At nestedLine 14 ∧
      (statement 120).Goes c nestedLine 1 ∧ (statements 120).Finishes c := by
  have here : ({ Context.initial [] [] with rest := nestedLine } : Context).At nestedLine 0 := ⟨by decide, rfl⟩
  have progress := parsers_progress here
  have taken : (statements 120 { Context.initial [] [] with rest := nestedLine }).toOption.map (·.2.rest) = some [] := by
    decide +kernel
  cases ran : statements 120 { Context.initial [] [] with rest := nestedLine } with
  | error e =>
    rw [ran] at taken
    cases taken
  | ok result =>
    rw [ran] at taken
    exact ⟨_, result.2, here, ran, ⟨by decide, Option.some.inj taken⟩, (progress.1 120).2.2.1,
      (progress.2.1 120 (by decide)).2.2.2.1⟩

end Parser

end BasicMachine.Language
