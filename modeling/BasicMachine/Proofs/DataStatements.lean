import BasicMachine.Proofs.DataItems
import BasicMachine.Proofs.Occurrences

/-!
# The DATA statements of a program

DATA is read twice: the items are gathered from the tokens of all lines before any statement is read, and the reader of
statements goes past them. Both come to the same DATA statements, in the order of the text.
-/
namespace BasicMachine.Language

namespace Parser

variable {site : Site} {fuel : Nat} {c c' : Context} {ts : List Token}

theorem data_eq (c : Context) : data c = .ok ((), { c with rest := afterData c.rest }) := by
  have same : (fun t : Token => t ≠ .colon && t ≠ .semicolon && t ≠ .word .ELSE) = fun t => !endsStatement t := by
    funext t
    unfold endsStatement
    split <;> simp_all
  unfold afterData
  rw [← same]
  rfl

/-- On its way from a site, the reader comes to the DATA statement of these tokens. -/
def Finds (site : Site) (fuel : Nat) (c : Context) (ts : List Token) : Prop :=
  ∃ fuel' c₁, Meets site fuel c .statement fuel' c₁ ∧ c₁.rest = .word .DATA :: ts

theorem Finds.of_enters {site' : Site} {fuel' : Nat} (enters : Enters site fuel c site' fuel' c')
    (there : Finds site' fuel' c' ts) : Finds site fuel c ts := by
  obtain ⟨fuel'', c₁, later, here⟩ := there
  exact ⟨fuel'', c₁, .next enters later, here⟩

/-- A DATA statement is here, or it is further inside. -/
theorem Finds.cases (h : Finds site fuel c ts) : site = .statement ∧ c.rest = .word .DATA :: ts ∨
    ∃ site' fuel' c', Enters site fuel c site' fuel' c' ∧ Finds site' fuel' c' ts := by
  obtain ⟨fuel', c₁, meets, here⟩ := h
  cases meets with
  | here => exact .inl ⟨rfl, here⟩
  | next enters later => exact .inr ⟨_, _, _, enters, _, _, later, here⟩

theorem Finds.inside (h : Finds site fuel c ts) (other : site ≠ .statement) :
    ∃ site' fuel' c', Enters site fuel c site' fuel' c' ∧ Finds site' fuel' c' ts :=
  h.cases.resolve_left fun here => other here.1

/-- What a site reads holds these DATA statements, which are those that the reader comes to. -/
def Holds (site : Site) (fuel : Nat) (c c' : Context) (start : Bool) : Prop :=
  ∃ own, dataPlaces start c.rest = own ++ dataPlaces true c'.rest ∧ ∀ ts, ts ∈ own ↔ Finds site fuel c ts

theorem holds_of_none (none : ∀ ts, ¬ Finds site fuel c ts) {start : Bool}
    (same : dataPlaces start c.rest = dataPlaces true c'.rest) : Holds site fuel c c' start :=
  ⟨[], same, fun ts => ⟨fun member => absurd member List.not_mem_nil, fun found => absurd found (none ts)⟩⟩

/-- The licence for everything but to go past DATA. -/
def sparing : Licence := ⟨fun _ => True, True, False⟩

/-- A parser that never takes DATA goes past none of them. -/
theorem Keeping.dataPlaces_eq {α : Type} {p : Parser α} {a : α} (spares : Keeping sparing (-1) .unknown p)
    (ran : p c = .ok (a, c')) (ends : Ends c'.rest) (start : Bool) : dataPlaces start c.rest = dataPlaces true c'.rest := by
  obtain ⟨ts, same, none⟩ := (spares.course trivial ran).tokens
  rw [same, dataPlaces_append none ends]

theorem Keeping.dataPlaces_next {α : Type} {p : Parser α} {a : α} (spares : Keeping sparing (-1) .unknown p)
    (ran : p c = .ok (a, c')) {t : Token} (next : c'.rest.head? = some t) (other : t ≠ .word .DATA)
    (start : Bool) : dataPlaces start c.rest = dataPlaces (opensStatement t) c'.past.rest := by
  obtain ⟨ts, same, none⟩ := (spares.course trivial ran).tokens
  obtain ⟨rest, first⟩ := List.head?_eq_some_iff.mp next
  rw [same, Context.past, first, dataPlaces_append_cons none other, List.tail_cons]

theorem spares_condition (fuel : Nat) : Keeping sparing (-1) .unknown (condition fuel) :=
  keeping_bind (keeping_expression fuel 0) fun _ => keeping_bind (keeping_freshLabel trivial) fun _ =>
    keeping_bind (keeping_emit trivial) fun _ => keeping_pure _

theorem spares_lineJump : Keeping sparing (-1) .unknown (lineJump .jump) := keeping_lineJump fun _ => trivial

/-- Nothing is read between ELSE and what follows it. -/
theorem alternative_rest {l l' : Label} (h : alternative l c = .ok (l', c')) : c'.rest = c.rest := by
  rw [alternative, freshLabel_bind, emit_bind] at h
  obtain ⟨_, d, placed, h⟩ := bind_eq_ok.mp h
  obtain ⟨-, rfl⟩ := pure_eq_ok.mp h
  obtain ⟨-, rfl⟩ := place_eq_ok.mp placed
  rfl

theorem place_rest {l : Label} (h : place l c = .ok ((), c')) : c'.rest = c.rest := by
  obtain ⟨-, rfl⟩ := place_eq_ok.mp h
  rfl

theorem begins_of_not_endsStatement {t : Token} (next : c.rest.head? = some t) (h : endsStatement t = false) : Begins c := by
  refine ⟨t, next, ?_, ?_, ?_⟩ <;>
    rintro rfl <;> cases h

/-- Where no statement begins there is a separator, or the end of the line or an ELSE. -/
theorem statements_of_not_begins (ran : statements (fuel + 1) c = .ok ((), c')) (idle : ¬ Begins c) :
    (c.rest.head? = some .colon ∨ c.rest.head? = some .semicolon) ∧ statements fuel c.past = .ok ((), c') ∨
      (c.rest.head? = none ∨ c.rest.head? = some (.word .ELSE)) ∧ c' = c := by
  rw [statements, peek_bind] at ran
  cases next : c.rest.head? with
  | none =>
    rw [next] at ran
    exact .inr ⟨.inl rfl, (pure_eq_ok.mp ran).2⟩
  | some t =>
    rw [next] at ran
    cases ended : endsStatement t with
    | false => exact absurd (begins_of_not_endsStatement next ended) idle
    | true =>
      unfold endsStatement at ended
      split at ended
      · exact .inl ⟨.inl rfl, ran⟩
      · exact .inl ⟨.inr rfl, ran⟩
      · exact .inr ⟨.inr rfl, (pure_eq_ok.mp ran).2⟩
      · cases ended

/-- What is known of the DATA statements that are read with some fuel. -/
structure HoldsAll (fuel : Nat) : Prop where
  statements : ∀ {c c'}, statements fuel c = .ok ((), c') → Holds .statements fuel c c' true
  statement : ∀ {c c'}, statement fuel c = .ok ((), c') → Ends c'.rest → Holds .statement fuel c c' true
  ifThen : ∀ {c c'}, ifThen fuel c = .ok ((), c') → Ends c'.rest → Holds .ifThen fuel c c' false
  branch : ∀ {c c'}, branch fuel c = .ok ((), c') → Ends c'.rest → Holds .branch fuel c c' true

theorem dataPlaces_past {t : Token} (next : c.rest.head? = some t) (other : t ≠ .word .DATA) (start : Bool) :
    dataPlaces start c.rest = dataPlaces (opensStatement t) c.past.rest := by
  obtain ⟨rest, same⟩ := List.head?_eq_some_iff.mp next
  rw [Context.past, same, dataPlaces_cons other, List.tail_cons]

section
variable (later : HoldsAll fuel)
include later

theorem holds_statements (ran : Parser.statements (fuel + 1) c = .ok ((), c')) : Holds .statements (fuel + 1) c c' true := by
  by_cases begins : Begins c
  · obtain ⟨d, first, rest, ended⟩ := statements_eq_ok begins ran
    obtain ⟨own, same, found⟩ := later.statement first ended
    obtain ⟨own', same', found'⟩ := later.statements rest
    refine ⟨own ++ own', by rw [same, same', List.append_assoc], fun ts => ?_⟩
    rw [List.mem_append, found, found']
    constructor
    · exact fun found => found.elim (.of_enters (.first begins)) (.of_enters (.later begins first))
    · intro found
      obtain ⟨_, _, _, enters, there⟩ := found.inside (by simp)
      cases enters with
      | separator separates =>
        obtain ⟨t, next, colon, semicolon, -⟩ := begins
        rcases separates with separates | separates <;> cases next.symm.trans separates
        · exact absurd rfl colon
        · exact absurd rfl semicolon
      | first => exact .inl there
      | later _ first' =>
        cases first.symm.trans first'
        exact .inr there
  obtain ⟨separates, rest⟩ | ⟨ended, rfl⟩ := statements_of_not_begins ran begins
  · obtain ⟨own, same, found⟩ := later.statements rest
    refine ⟨own, ?_, fun ts => ?_⟩
    · rw [← same]
      rcases separates with next | next <;> exact dataPlaces_past next (by simp) true
    · rw [found]
      refine ⟨.of_enters (.separator separates), fun found => ?_⟩
      obtain ⟨_, _, _, enters, there⟩ := found.inside (by simp)
      cases enters with
      | separator => exact there
      | first begins' => exact absurd begins' begins
      | later begins' => exact absurd begins' begins
  · refine holds_of_none (fun ts found => ?_) rfl
    obtain ⟨_, _, _, enters, there⟩ := found.inside (by simp)
    cases enters with
    | separator separates =>
      rcases ended with ended | ended <;> rcases separates with next | next <;> cases ended.symm.trans next
    | first begins' => exact begins begins'
    | later begins' => exact begins begins'

/-- Behind THEN or ELSE stand statements, or the number of a line. -/
theorem holds_branch (ran : Parser.branch (fuel + 1) c = .ok ((), c')) (ends : Ends c'.rest) :
    Holds .branch (fuel + 1) c c' true := by
  by_cases other : ∀ t, c.rest.head? = some t → (∀ n, t ≠ .integer n) ∧ ∀ x, t ≠ .float x
  · rw [branch_eq_statements other] at ran
    obtain ⟨own, same, found⟩ := later.statements ran
    refine ⟨own, same, fun ts => ?_⟩
    rw [found]
    refine ⟨.of_enters (.statements other), fun found => ?_⟩
    obtain ⟨_, _, _, enters, there⟩ := found.inside (by simp)
    cases enters with
    | statements => exact there
  · refine holds_of_none (fun ts found => ?_) ?_
    · obtain ⟨_, _, _, enters, there⟩ := found.inside (by simp)
      cases enters with
      | statements other' => exact other other'
    · have jumps : Parser.branch (fuel + 1) c = lineJump .jump c := by
        rw [Parser.branch, peek_bind]
        refine congrFun ?_ c
        split
        · rfl
        · rfl
        · next integer float =>
          refine absurd (fun t next => ?_) other
          exact ⟨fun n same => integer n (same ▸ next), fun x same => float x (same ▸ next)⟩
      have goes := spares_lineJump
      exact goes.dataPlaces_eq (jumps.symm.trans ran) ends true

/-- What is done if the condition of an IF holds. -/
theorem holds_consequence {d d₁ : Context} {l : Label} (tested : condition fuel c = .ok (l, d))
    (ran : consequence fuel d = .ok ((), d₁)) (ends : Ends d₁.rest) :
    ∃ own, dataPlaces false c.rest = own ++ dataPlaces true d₁.rest ∧
      ∀ ts, ts ∈ own ↔ d.rest.head? = some (.word .THEN) ∧ Finds .branch fuel d.past ts := by
  have tests := spares_condition fuel
  have goes := spares_lineJump
  rw [consequence, accept_bind] at ran
  split at ran
  · next jumps =>
    refine ⟨[], ?_, fun ts => iff_of_false List.not_mem_nil fun found => ?_⟩
    · rw [tests.dataPlaces_next tested jumps (by simp)]
      exact goes.dataPlaces_eq ran ends _
    · cases jumps.symm.trans found.1
  · obtain ⟨_, d', expected, ran⟩ := bind_eq_ok.mp ran
    obtain ⟨next, rfl⟩ := expect_eq_ok.mp expected
    obtain ⟨own, same, found⟩ := later.branch ran ends
    refine ⟨own, ?_, fun ts => ?_⟩
    · rw [tests.dataPlaces_next tested next (by simp), ← same]
      rfl
    · rw [found, and_iff_right next]

theorem holds_ifThen (ran : Parser.ifThen (fuel + 1) c = .ok ((), c')) (ends : Ends c'.rest) :
    Holds .ifThen (fuel + 1) c c' false := by
  obtain ⟨l, d, d₁, tested, done, rest⟩ := ifThen_eq_ok ran
  have yes {ts : List Token} (h : d.rest.head? = some (.word .THEN) ∧ Finds .branch fuel d.past ts) :
      Finds .ifThen (fuel + 1) c ts := .of_enters (.yes tested h.1) h.2
  split at rest
  · next next =>
    obtain ⟨l', d₂, d₃, turned, branched, placed⟩ := rest
    have ended : Ends d₁.rest := fun t first => by cases next.symm.trans first; rfl
    obtain ⟨own, same, found⟩ := holds_consequence later tested done ended
    obtain ⟨own', same', found'⟩ := later.branch branched (place_rest placed ▸ ends)
    have between : dataPlaces true d₁.rest = dataPlaces true d₂.rest := by
      rw [dataPlaces_past next (by simp), alternative_rest turned]
      rfl
    refine ⟨own ++ own', ?_, fun ts => ?_⟩
    · rw [same, between, same', place_rest placed, List.append_assoc]
    rw [List.mem_append, found, found']
    refine ⟨fun found => found.elim yes (.of_enters (.no tested done next turned)), fun found => ?_⟩
    obtain ⟨_, _, _, enters, there⟩ := found.inside (by simp)
    cases enters with
    | yes tested' next' =>
      cases tested.symm.trans tested'
      exact .inl ⟨next', there⟩
    | no tested' done' _ turned' =>
      cases tested.symm.trans tested'
      cases done.symm.trans done'
      cases turned.symm.trans turned'
      exact .inr there
  · next none =>
    obtain ⟨own, same, found⟩ := holds_consequence later tested done (place_rest rest ▸ ends)
    refine ⟨own, by rw [same, place_rest rest], fun ts => ?_⟩
    rw [found]
    refine ⟨yes, fun found => ?_⟩
    obtain ⟨_, _, _, enters, there⟩ := found.inside (by simp)
    cases enters with
    | yes tested' next' =>
      cases tested.symm.trans tested'
      exact ⟨next', there⟩
    | no tested' done' next =>
      cases tested.symm.trans tested'
      cases done.symm.trans done'
      exact absurd next none

end

/-- Only IF has statements inside. -/
theorem not_finds_statement (noIf : c.rest.head? ≠ some (.word .IF)) (noData : c.rest.head? ≠ some (.word .DATA)) :
    ¬ Finds .statement fuel c ts := by
  intro found
  obtain ⟨-, here⟩ | ⟨_, _, _, enters, -⟩ := found.cases
  · rw [here] at noData
    exact noData rfl
  · cases enters with
    | ifThen next => exact noIf next

theorem holds_statement (later : ∀ n < fuel, HoldsAll n) (ran : statement fuel c = .ok ((), c')) (ends : Ends c'.rest) :
    Holds .statement fuel c c' true := by
  cases fuel with
  | zero => exact absurd ran fail_ne_ok
  | succ fuel =>
    obtain ⟨⟨name, next⟩, ran⟩ | ⟨k, next, ran⟩ := statement_eq_ok ran
    · have assigns : Keeping sparing (-1) .unknown (assignment fuel) := keeping_assignment (fun _ _ => trivial) fuel
      refine holds_of_none (fun ts => not_finds_statement ?_ ?_) (assigns.dataPlaces_eq ran ends true)
      · rw [next]
        simp
      · rw [next]
        simp
    cases fuel with
    | zero => exact absurd ran fail_ne_ok
    | succ fuel =>
      by_cases isData : k = .DATA
      · subst isData
        obtain ⟨rest, same⟩ := List.head?_eq_some_iff.mp next
        rw [keyword, data_eq] at ran
        cases ran
        refine ⟨[rest], ?_, fun ts => ?_⟩
        · rw [same, dataPlaces_data, dataPlaces_of_ends (ends_afterData rest), Context.past, same]
          rfl
        · rw [List.mem_singleton]
          constructor
          · rintro rfl
            exact ⟨fuel + 2, c, .here, same⟩
          · intro found
            obtain ⟨-, here⟩ | ⟨_, _, _, enters, -⟩ := found.cases
            · cases same.symm.trans here
              rfl
            · cases enters with
              | ifThen impossible => cases next.symm.trans impossible
      by_cases isIf : k = .IF
      · subst isIf
        obtain ⟨own, same, found⟩ := (later fuel (by omega)).ifThen ran ends
        refine ⟨own, by rw [← same]; exact dataPlaces_past next (by simp) true, fun ts => ?_⟩
        rw [found]
        refine ⟨.of_enters (.ifThen next), fun found => ?_⟩
        obtain ⟨-, here⟩ | ⟨_, _, _, enters, there⟩ := found.cases
        · rw [here] at next
          cases next
        · cases enters with
          | ifThen => exact there
      · have other : Keeping sparing (-1) .unknown (keyword (fuel + 1) k) :=
          keeping_keyword (fun _ _ => trivial) trivial _ isIf isData fun _ _ _ _ => trivial
        refine holds_of_none (fun ts => not_finds_statement ?_ ?_) ?_
        · simpa [next] using isIf
        · simpa [next] using isData
        · rw [dataPlaces_past next (by simpa using isData)]
          exact other.dataPlaces_eq ran ends _

theorem holdsAll (fuel : Nat) : HoldsAll fuel := by
  induction fuel using Nat.strong_induction_on with
  | _ fuel later =>
    refine ⟨?_, holds_statement later, ?_, ?_⟩ <;> intro c c' ran
    all_goals
      cases fuel with
      | zero => exact absurd ran fail_ne_ok
      | succ fuel => ?_
    · exact holds_statements (later fuel (Nat.lt_succ_self fuel)) ran
    · exact holds_ifThen (later fuel (Nat.lt_succ_self fuel)) ran
    · exact holds_branch (later fuel (Nat.lt_succ_self fuel)) ran

/-- The reader goes past a DATA statement up to its end. -/
theorem statement_data (next : c.rest = .word .DATA :: ts) (ran : statement fuel c = .ok ((), c')) :
    c'.rest = afterData ts := by
  obtain ⟨n, ran⟩ := keyword_of_statement (k := .DATA) ran (next ▸ rfl)
  rw [keyword, data_eq] at ran
  cases ran
  rw [Context.past, next]
  rfl

end Parser

open Parser

/-- On a line that is read with the context `c` before it, the reader comes to a statement with `c₁` and leaves it with
`c₂`. -/
def LineStatement (s : SourceLine) (c c₁ c₂ : Context) : Prop :=
  ∃ d fuel, startLine s c = .ok ((), d) ∧ Meets .statements (fuelFor d.rest) d .statement fuel c₁ ∧
    Parser.statement fuel c₁ = .ok ((), c₂)

theorem startLine_rest {s : SourceLine} {c d : Context} (h : startLine s c = .ok ((), d)) : d.rest = s.line.tokens := by
  rw [startLine, modify_bind] at h
  cases number : s.line.number with
  | none =>
    rw [number] at h
    cases h
    rfl
  | some n =>
    rw [number] at h
    change markLine n _ = _ at h
    rw [markLine, get_bind] at h
    split at h
    · exact absurd h fail_bind_ne_ok
    · cases h
      rfl

/-- The DATA statements of a line are those that the reader comes to. -/
theorem mem_dataPlaces_iff {s : SourceLine} {c c' : Context} (h : compileLine s c = .ok ((), c')) (ts : List Token) :
    ts ∈ dataPlaces true s.line.tokens ↔
      ∃ c₁ c₂, LineStatement s c c₁ c₂ ∧ c₁.rest = .word .DATA :: ts ∧ c₂.rest = afterData ts := by
  obtain ⟨d, begun, read, ended⟩ := compileLine_eq_ok h
  obtain ⟨own, same, found⟩ := (holdsAll _).statements read
  rw [ended, dataPlaces_nil, List.append_nil, startLine_rest begun] at same
  rw [same, found]
  constructor
  · rintro ⟨fuel, c₁, meets, here⟩
    obtain ⟨c₂, ran, -⟩ := meets.run spans_proceeds read trivial
    exact ⟨c₁, c₂, ⟨d, fuel, begun, meets, ran⟩, here, statement_data here ran⟩
  · rintro ⟨c₁, c₂, ⟨d', fuel, begun', meets, -⟩, here, -⟩
    cases begun.symm.trans begun'
    exact ⟨fuel, c₁, meets, here⟩

namespace Compilation

variable {source : String} {p : Program}

/-- The tokens behind the word of each DATA statement, in the order of the text. -/
def places (k : Compilation source p) : List (List Token) := k.lines.flatMap fun s => dataPlaces true s.line.tokens

/-- How the items of a program come from its DATA statements. -/
structure DataAgrees (k : Compilation source p) : Prop where
  /-- Reader and gathering come to the same DATA statements, and the reader goes past each up to its end. -/
  statements : ∀ {before s after c}, k.lines = before ++ s :: after → before.forM compileLine k.start = .ok ((), c) →
    ∀ ts, ts ∈ dataPlaces true s.line.tokens ↔
      ∃ c₁ c₂, LineStatement s c c₁ c₂ ∧ c₁.rest = .word .DATA :: ts ∧ c₂.rest = afterData ts
  /-- On a line they stand in the order in which they are listed. -/
  ordered : ∀ s ∈ k.lines, (dataPlaces true s.line.tokens).Pairwise fun ts us => us <:+ ts ∧ us.length < ts.length
  /-- The items are those of one DATA statement after the other. -/
  gathered : ∃ groups : List (List DataItem), k.items = groups.flatten ∧
    List.Forall₂ (fun ts own => Gathers true (.word .DATA :: dataTokens ts) own) k.places groups
  /-- Where each DATA statement is all one list, the items are those of the lists. -/
  delivered : ∀ lists : List (List DataItem), List.Forall₂ (fun ts items => DataItem.Listed items (dataTokens ts)) k.places lists →
    k.items = lists.flatten

end Compilation

/-- The items of a program are those of its DATA statements in the order of the text, where each is all one list. -/
theorem data_statements_delivered {source : String} {p : Program} (compiled : compile source = .ok p) :
    ∃ k : Compilation source p, k.DataAgrees := by
  obtain ⟨k⟩ := compilation_of_ok compiled
  obtain ⟨groups, items, each⟩ := gathers_of_sourceData k.gathered
  refine ⟨k, fun {before s after c} split read ts => ?_, fun s _ => pairwise_dataPlaces true s.line.tokens,
    ⟨groups, items, each⟩, fun lists listed => ?_⟩
  · have compiled := k.compiled
    rw [split] at compiled
    obtain ⟨c', d, read', ran, -⟩ := forM_append_cons compiled
    cases read.symm.trans read'
    exact mem_dataPlaces_iff ran ts
  · -- Each statement gives one list at most, so that the groups are the lists.
    rw [items]
    exact congrArg List.flatten (eq_of_forall₂_listed each listed)

/-- DATA statements at all places where a statement may begin. -/
def scatteredData : String :=
  "10 IF A THEN DATA 1, -2 ELSE DATA A: DATA \"B C\"\n20 PRINT \"DATA 9\"; DATA 7"

theorem data_statements_delivered_scatteredData :
    ∃ p, compile scatteredData = .ok p ∧ ∃ k : Compilation scatteredData p, k.DataAgrees ∧
      k.items = [.number (.integer 1), .number (.integer (-2)), .text "A", .text "B C", .number (.integer 7)] := by
  have found : (compile scatteredData).toOption.isSome = true := by decide +kernel
  have places : (sourceLines scatteredData).toOption.map
      (fun lines => (lines.flatMap fun s => dataPlaces true s.line.tokens).map dataTokens) =
      some [[.integer 1, .comma, .operator .minus, .integer 2], [.ident "A"], [.string "B C"], [.integer 7]] := by
    decide +kernel
  cases compiled : compile scatteredData with
  | error e =>
    rw [compiled] at found
    cases found
  | ok p =>
    obtain ⟨k, agrees⟩ := data_statements_delivered compiled
    rw [k.split] at places
    replace places : k.places.map dataTokens = _ := Option.some.inj places
    have lists : List.Forall₂ (fun ts items => DataItem.Listed items ts) (k.places.map dataTokens)
        [[.number (.integer 1), .number (.integer (-2))], [.text "A"], [.text "B C"], [.number (.integer 7)]] := by
      rw [places]
      exact .cons (.more (.integer 1) (.last (.negativeInteger 2))) (.cons (.last (.ident "A"))
        (.cons (.last (.string "B C")) (.cons (.last (.integer 7)) .nil)))
    exact ⟨p, rfl, k, agrees, agrees.delivered _ (List.forall₂_map_left_iff.mp lists)⟩

/-- A number behind the list of a DATA statement is dropped. -/
theorem data_tokens_dropped :
    ∃ p, compile "10 DATA 1 2" = .ok p ∧ ∃ k : Compilation "10 DATA 1 2" p, k.items = [.number (.integer 1)] ∧
      k.places = [[.integer 1, .integer 2]] ∧ ∀ items, ¬ DataItem.Listed items [.integer 1, .integer 2] := by
  have found : (compile "10 DATA 1 2").toOption.isSome = true := by decide +kernel
  have places : (sourceLines "10 DATA 1 2").toOption.map (fun lines => lines.flatMap fun s => dataPlaces true s.line.tokens) =
      some [[.integer 1, .integer 2]] := by
    decide +kernel
  have items : (sourceLines "10 DATA 1 2").toOption.map (fun lines => (sourceData lines).toOption) =
      some (some [.number (.integer 1)]) := by
    decide +kernel
  cases compiled : compile "10 DATA 1 2" with
  | error e =>
    rw [compiled] at found
    cases found
  | ok p =>
    obtain ⟨k⟩ := compilation_of_ok compiled
    rw [k.split] at places items
    refine ⟨p, rfl, k, ?_, Option.some.inj places, fun items listed => ?_⟩
    · replace items : (sourceData k.lines).toOption = _ := Option.some.inj items
      rw [k.gathered] at items
      exact Option.some.inj items
    · have both : [Token.integer 1, .integer 2] ++ [] = [.integer 1] ++ [.integer 2] := rfl
      obtain ⟨-, impossible⟩ := listed.eq_of_append (.last (.integer 1)) (by simp) (by simp) both
      cases impossible

end BasicMachine.Language
