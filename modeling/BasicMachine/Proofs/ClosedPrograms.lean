import BasicMachine.Proofs.Occurrences
import BasicMachine.Proofs.Wording

/-!
# Compiled programs are closed

The code of a compiled program is a row of instructions from its first byte to its last, its jumps and its references
to lines end at instructions, and no run leaves them.
-/
namespace BasicMachine

open Language Session

variable {σ : Type} {p : Program} {starts : List Nat}

/-- Instructions start before the end of the code. -/
theorem Program.Tiles.lt_size {start : Nat} (tiles : p.Tiles start starts) :
    start ≤ p.size ∧ ∀ address ∈ starts, address < p.size := by
  induction tiles with
  | done => simp
  | @next address after i starts decoded later ih =>
    obtain ⟨op, -, -, rfl⟩ := instructionAt_eq_ok decoded
    have inside : address < p.size := by omega
    refine ⟨Nat.le_of_lt inside, fun other member => ?_⟩
    rcases List.mem_cons.mp member with rfl | member
    · exact inside
    · exact ih.2 other member

/-- The operand of a jump is one of the starts. -/
theorem Program.Closed.operand (closed : p.Closed starts) {address next : Nat} {op : ShortOp} {n : Int16}
    (member : address ∈ starts) (decoded : p.instructionAt address = .ok (.short op n, next)) (jump : jumps op = true) :
    Action.jumpAddress n ∈ starts := by
  obtain ⟨i, after, found, leads⟩ := closed.leads address member
  rw [found] at decoded
  cases decoded
  rcases leads with ⟨k, same, there⟩ | ⟨-, simple | same | ⟨other, k, same, -, there⟩⟩
  · cases same
    exact there
  · cases op with
    | jmp | jz | jnz | call => cases simple
    | _ => cases jump
  · cases same
  · cases same
    exact there

/-- A run that halts has visited the session whose next instruction halts it. -/
theorem visits_of_halted {env : Environment σ} {left : Nat} {s t : Session σ} (h : course env p left s = (.halted, t)) :
    ∃ v left', Visits env p left s v ∧ advance env p left' v = .stop .halted t := by
  fun_induction course env p left s with
  | case1 left s why t stopped =>
    cases h
    cases left with
    | zero => cases stopped
    | succ left => exact ⟨s, left + 1, .here left s, stopped⟩
  | case2 left s left' s' went less ih =>
    obtain ⟨v, last, visits, stopped⟩ := ih h
    exact ⟨v, last, .next went visits, stopped⟩

theorem answer_eq_true {why : Stop} {s t : Session σ} (h : why.answer s = .ok true t) : why = .halted ∧ s = t := by
  cases why <;> cases h
  exact ⟨rfl, rfl⟩

/-- No run of the program leaves `starts`. -/
structure Program.Confines (p : Program) (starts : List Nat) : Prop where
  /-- Between runs, the program counter and the return addresses are among the starts. -/
  reached : ∀ m, Reached p m → m.Inside starts
  /-- So they are before every instruction of a run. -/
  visited : ∀ m, Reached p m → ∀ {σ : Type} (env : Environment σ) budget t s v, act (begin p) ⟨m, t⟩ = .ok () s →
    Visits env p budget s v → v.machine.Inside starts
  /-- Every instruction is known, and so is every host call and every register. -/
  usual : ∀ m, Reached p m → ∀ {σ : Type} (env : Environment σ) budget t e s,
    run env p budget ⟨m, t⟩ = .error e s → e.Usual
  /-- A run that halts has come to an instruction of the code that halts it. -/
  halts : ∀ m, Reached p m → ∀ {σ : Type} (env : Environment σ) budget t s s', act (begin p) ⟨m, t⟩ = .ok () s →
    run env p budget ⟨m, t⟩ = .ok true s' → ∃ v left, Visits env p budget s v ∧ v.machine.pc < p.size ∧
      advance env p left v = .stop .halted s'

theorem Program.Closed.confines (closed : p.Closed starts) : p.Confines starts := by
  refine ⟨fun m reached => (rests_of_reached closed reached).toInside, ?_, ?_, ?_⟩
  · intro m reached σ env budget t s v begun visits
    have roams := stays_begin (t := t) closed (rests_of_reached closed reached)
    rw [begun] at roams
    exact (roams_of_visits closed visits roams).toInside
  · intro m reached σ env budget t e s failed
    have rests := rests_run closed env (rests_of_reached closed reached) budget t
    rw [failed] at rests
    exact rests.2
  · intro m reached σ env budget t s s' begun halted
    have roams := stays_begin (t := t) closed (rests_of_reached closed reached)
    rw [begun] at roams
    rw [run_eq_course begun] at halted
    obtain ⟨why, rfl⟩ := answer_eq_true halted
    obtain ⟨v, left, visits, stopped⟩ := visits_of_halted (Prod.ext why rfl)
    exact ⟨v, left, visits, closed.tiles.lt_size.2 _ (roams_of_visits closed visits roams).pc, stopped⟩

namespace Language

/-- Digits that spell a line number stand for that line: at the start of a line they are its number, and elsewhere they
are one token, from 32768 on a single, that stands for the line. -/
structure NamesLine (n : UInt16) (ds : List Char) : Prop where
  heads : ∀ after, EndsNumber after →
    Line.ofText (ds ++ after) = (Line.tokensOf after).map fun tokens => { number := some n, tokens }
  read : ∀ after, EndsNumber after →
    Line.tokensOf (ds ++ after) = (Line.tokensOf after).map (numberToken n.toNat :: ·)
  large : 32767 < n.toNat → ∃ x, numberToken n.toNat = .float x
  names : (numberToken n.toNat).line? = some n

theorem namesLine {n : UInt16} {ds : List Char} (digits : Digits ds) (value : Numeral.ofDigits ds = n.toNat) :
    NamesLine n ds := by
  have bound := n.toNat_lt
  refine ⟨fun after ends => ofText_digits digits ends value, fun after ends => ?_, fun large => ?_, line?_numberToken n⟩
  · rw [tokensOf_digits digits ends (by omega), value]
  · exact ⟨_, if_neg (by omega)⟩

/-- The lines that ON lists, up to `rest`, and behind its value at `address` a jump or a call to each of them. -/
inductive Picks (p : Program) (calls : Bool) : (address : Nat) → List Token → (rest : List Token) → Prop
  | last {address : Nat} {t : Token} {n : UInt16} {rest : List Token} (line : t.line? = some n)
      (goes : GoesTo p (address + if calls then 11 else 8) (if calls then .call else .jz) n)
      (ends : rest.head? ≠ some .comma) : Picks p calls address (t :: rest) rest
  | more {address : Nat} {t : Token} {n : UInt16} {ts rest : List Token} (line : t.line? = some n)
      (goes : GoesTo p (address + if calls then 11 else 8) (if calls then .call else .jz) n)
      (later : Picks p calls (address + if calls then 17 else 11) ts rest) : Picks p calls address (t :: .comma :: ts) rest

namespace Compilation

variable {source : String} (k : Compilation source p)

open Parser

/-- Every statement that names a line has a jump or a call to that line. -/
structure Refers : Prop where
  jumps : ∀ {c₁ c₂ w op}, k.Statement c₁ c₂ → (w, op) ∈ [(Keyword.GOTO, ShortOp.jmp), (.GOSUB, .call)] →
    c₁.rest.head? = some (.word w) → ∃ t n, c₁.rest = .word w :: t :: c₂.rest ∧ t.line? = some n ∧ GoesTo p c₁.place op n
  /-- A line may stand behind the GOTO or the THEN of an IF, and behind its ELSE. -/
  branches : ∀ {c₁ c₂}, k.Statement c₁ c₂ → c₁.rest.head? = some (.word .IF) →
    ∃ fuel l d d₁ e ts, condition fuel c₁.past = .ok (l, d) ∧ consequence fuel d = .ok ((), d₁) ∧
      c₁.rest = .word .IF :: (ts ++ d.rest) ∧ Wording k.last [] [e] ts ∧
      (∀ t n, d.past.rest.head? = some t → t.line? = some n → GoesTo p d.place .jmp n) ∧
      (d₁.rest.head? = some (.word .ELSE) → ∃ l' d₂, alternative l d₁.past = .ok (l', d₂) ∧
        ∀ t n, d₂.rest.head? = some t → t.line? = some n → GoesTo p d₂.place .jmp n)
  choices : ∀ {c₁ c₂}, k.Statement c₁ c₂ → c₁.rest.head? = some (.word .ON) →
    ∃ cell e ts calls us, c₁.rest = .word .ON :: (ts ++ .word (if calls then .GOSUB else .GOTO) :: us) ∧
      Wording k.last [] [e] ts ∧ Picks p calls (c₁.place + (Command.assign (.scalar (.cell cell)) e).size) us c₂.rest

theorem linked_lines : Linked k.lines k.start k.last p :=
  linked_of_lines k.linked k.compiled k.finished.sound

/-- A jump to a line among the commands of the program. -/
theorem goesTo (first : Steps) {command : Command} {older : List Command} {rest : Steps} {op : ShortOp} {n : UInt16}
    (made : (command :: older) <:+ k.last.commands) (code : command.code = first ++ .jump op (.line n) :: rest) :
    GoesTo p (codeSize older.reverse + first.size) op n := by
  obtain ⟨newer, split⟩ := made
  have main : k.last.main = (older.reverse.flatMap Command.code ++ first) ++ .jump op (.line n) ::
      (rest ++ (newer.reverse ++ [Command.halt]).flatMap Command.code) := by
    rw [Context.main, Context.program, ← split]
    simp [code]
  have jump := k.linked_lines.patched _ _ _ _ main
  rwa [Steps.size_append] at jump

theorem goesTo_lineJump {command : Label → Command} {op : ShortOp} {c c' : Context}
    (plain : ∀ l, (command l).code = [.jump op l]) (ran : lineJump command c = .ok ((), c')) (inside : c'.Within k.last) :
    ∃ t n, c.rest = t :: c'.rest ∧ t.line? = some n ∧ GoesTo p c.place op n := by
  obtain ⟨t, n, rest, line, made⟩ := lineJump_eq_ok ran
  exact ⟨t, n, rest, line, k.goesTo [] (made ▸ inside.commands) (plain _)⟩

theorem goesTo_of_next {c c' : Context} {t : Token} {n : UInt16} (ran : lineJump .jump c = .ok ((), c'))
    (inside : c'.Within k.last) (next : c.rest.head? = some t) (line : t.line? = some n) : GoesTo p c.place .jmp n := by
  obtain ⟨t', n', rest, line', goes⟩ := k.goesTo_lineJump (fun _ => rfl) ran inside
  rw [rest] at next
  cases next
  cases line.symm.trans line'
  exact goes

theorem goesTo_branch {fuel : Nat} {c c' : Context} {t : Token} {n : UInt16} (ran : branch fuel c = .ok ((), c'))
    (inside : c'.Within k.last) (next : c.rest.head? = some t) (line : t.line? = some n) : GoesTo p c.place .jmp n := by
  cases fuel with
  | zero => exact absurd ran fail_ne_ok
  | succ fuel =>
    refine k.goesTo_of_next ?_ inside next line
    rw [branch, peek_bind, next] at ran
    cases t with
    | integer | float => exact ran
    | _ => cases line

theorem words_condition {fuel : Nat} {l : Label} {c c' : Context} (root : c.scopes.inner = [])
    (ran : condition fuel c = .ok (l, c')) (inside : c'.Within k.last) :
    ∃ e ts, c.rest = ts ++ c'.rest ∧ Wording k.last [] [e] ts := by
  obtain ⟨e, d, read, ran⟩ := bind_eq_ok.mp ran
  cases ran
  obtain ⟨ts, takes, words⟩ := ((readsWords [] fuel).expression readBy_zero (root ▸ Scoped.root) read).all
  have within : d.Within d.labelling := .of_same rfl rfl rfl rfl rfl fun _ h => h.labelling
  exact ⟨e, ts, takes.rest, words _ (within.trans ((Context.Within.emitting d.labelling _).trans inside))⟩

theorem within_choices {fuel cell : Nat} {gosubEnd : Option Label} {choice : Int16} {c c' : Context}
    (ran : choices fuel cell gosubEnd choice c = .ok ((), c')) : c.Within c' := by
  have keeps : Keeping everything (-1) .unknown (choices fuel cell gosubEnd choice) :=
    keeping_choices (fun _ _ => trivial) trivial fuel cell gosubEnd choice
  exact (keeps.course trivial ran).within

theorem picks_choices {fuel cell : Nat} {gosubEnd : Option Label} {choice : Int16} {c c' : Context}
    (ran : choices fuel cell gosubEnd choice c = .ok ((), c')) (inside : c'.Within k.last) :
    Picks p gosubEnd.isSome c.place c.rest c'.rest := by
  induction fuel generalizing choice c with
  | zero => exact absurd ran fail_ne_ok
  | succ fuel ih =>
    obtain ⟨n, d, read, ran⟩ := bind_eq_ok.mp ran
    obtain ⟨t, next, line, rfl⟩ := lineNumber_eq_ok read
    have starts : c.rest = t :: c.past.rest := (Context.Takes.past next).rest
    -- One line, and then the others behind a comma.
    have others {d : Context} (same : d.rest = c.past.rest)
        (wide : d.place = c.place + if gosubEnd.isSome then 17 else 11)
        (own : d.commands <:+ k.last.commands →
          GoesTo p (c.place + if gosubEnd.isSome then 11 else 8) (if gosubEnd.isSome then .call else .jz) n)
        (ran : (do if ← accept .comma then choices fuel cell gosubEnd (choice + 1) : Parser Unit) d = .ok ((), c')) :
        Picks p gosubEnd.isSome c.place c.rest c'.rest := by
      rw [starts, ← same]
      rw [accept_bind] at ran
      split at ran
      · next comma =>
        have behind : d.rest = .comma :: d.past.rest := (Context.Takes.past comma).rest
        rw [behind]
        exact .more line (own ((within_choices ran).commands.trans inside.commands)) (wide ▸ ih ran)
      · next none =>
        cases ran
        exact .last line (own inside.commands) none
    cases gosubEnd with
    | none =>
      refine others (d := (c.past.emitting (.branchOn cell choice true (.line n))).referring (.line n)) rfl ?_
        (fun made => ?_) ran
      · exact Context.place_of_commands (c := c) [.branchOn cell choice true (.line n)] rfl
      · exact k.goesTo (Steps.ofCode [.pointer .load cell, .short .pushI choice, .plain .cmp]) made rfl
    | some done =>
      dsimp only at ran
      rw [freshLabel_bind, emit_bind, emit_bind] at ran
      obtain ⟨_, d, referred, ran⟩ := bind_eq_ok.mp ran
      cases referred
      rw [emit_bind] at ran
      obtain ⟨_, d, placed, ran⟩ := bind_eq_ok.mp ran
      obtain ⟨-, same⟩ := place_eq_ok.mp placed
      have commands : d.commands = .mark (.inside c.labelCount) :: .jump done :: .call (.line n) ::
        .branchOn cell choice false (.inside c.labelCount) :: c.commands := by rw [same]; rfl
      refine others (by rw [same]; rfl) (Context.place_of_commands [_, _, _, _] commands) (fun made => ?_) ran
      rw [commands] at made
      have goes := k.goesTo [] (((List.suffix_cons _ _).trans (List.suffix_cons _ _)).trans made) rfl
      rwa [List.reverse_cons, codeSize_append] at goes

theorem picks_on {fuel : Nat} {c c' : Context} (root : c.scopes.inner = []) (ran : on fuel c = .ok ((), c'))
    (inside : c'.Within k.last) :
    ∃ cell e ts calls us, c.rest = ts ++ .word (if calls then .GOSUB else .GOTO) :: us ∧ Wording k.last [] [e] ts ∧
      Picks p calls (c.place + (Command.assign (.scalar (.cell cell)) e).size) us c'.rest := by
  rw [on, allocate_bind] at ran
  obtain ⟨e, d, read, ran⟩ := bind_eq_ok.mp ran
  obtain ⟨ts, takes, words⟩ :=
    ((readsWords [] fuel).expression (c := c.allocating 1) readBy_zero (root ▸ Scoped.root) read).all
  rw [emit_bind, accept_bind] at ran
  generalize made : (Command.assign (.scalar (.cell c.scopes.highWater)) e) = command at ran
  -- The lines behind the word, whichever it is.
  have listed {w : Keyword} {gosubEnd : Option Label} {x y : Context} (next : d.rest.head? = some (.word w))
      (same : w = if gosubEnd.isSome then .GOSUB else .GOTO) (rest : x.rest = d.past.rest)
      (commands : x.commands = command :: d.commands) (between : (d.emitting command).Within x)
      (ran : choices fuel c.scopes.highWater gosubEnd 1 x = .ok ((), y)) (behind : y.Within k.last) :
      ∃ cell e ts calls us, c.rest = ts ++ .word (if calls then .GOSUB else .GOTO) :: us ∧ Wording k.last [] [e] ts ∧
        Picks p calls (c.place + (Command.assign (.scalar (.cell cell)) e).size) us y.rest := by
    have picks := k.picks_choices ran behind
    have within := (Context.Within.emitting d _).trans (between.trans ((within_choices ran).trans behind))
    refine ⟨c.scopes.highWater, e, ts, gosubEnd.isSome, d.past.rest, ?_, words _ within, ?_⟩
    · rw [← same]
      exact takes.rest.trans (congrArg (ts ++ ·) (Context.Takes.past next).rest)
    · have before : d.commands = c.commands := takes.commands
      have place : x.place = c.place + command.size := by
        simpa using Context.place_of_commands [command] (before ▸ commands)
      rwa [place, rest, ← made] at picks
  split at ran
  · next gosub =>
    rw [if_pos rfl, freshLabel_bind] at ran
    obtain ⟨_, d', listed', ran⟩ := bind_eq_ok.mp ran
    obtain ⟨-, rfl⟩ := place_eq_ok.mp ran
    exact listed (x := (d.emitting command).past.labelling) (y := d') gosub rfl rfl rfl
      (.of_same rfl rfl rfl rfl rfl fun _ h => h.labelling) listed' ((Context.Within.emitting d' _).trans inside)
  · obtain ⟨_, d', expected, ran⟩ := bind_eq_ok.mp ran
    obtain ⟨goto, rfl⟩ := expect_eq_ok.mp expected
    exact listed (x := (d.emitting command).past) goto rfl rfl rfl (Context.Aside.past _).within ran inside

theorem refers : k.Refers where
  jumps {c₁ c₂ w op} h member next := by
    obtain ⟨-, -, inside, -⟩ := k.settled_statement h
    obtain ⟨fuel, ran, starts, -⟩ := k.keyword_statement h next
    have goes : ∃ t n, c₁.past.rest = t :: c₂.rest ∧ t.line? = some n ∧ GoesTo p c₁.place op n := by
      simp only [List.mem_cons, Prod.mk.injEq, List.not_mem_nil, or_false] at member
      rcases member with ⟨rfl, rfl⟩ | ⟨rfl, rfl⟩
      · exact k.goesTo_lineJump (fun _ => rfl) ran inside
      · exact k.goesTo_lineJump (fun _ => rfl) ran inside
    obtain ⟨t, n, behind, line, goes⟩ := goes
    exact ⟨t, n, by rw [starts, behind], line, goes⟩
  branches {c₁ c₂} h next := by
    obtain ⟨-, -, inside, -⟩ := k.settled_statement h
    obtain ⟨fuel, ran, starts, root⟩ := k.keyword_statement h next
    cases fuel with
    | zero => exact absurd ran fail_ne_ok
    | succ fuel =>
      obtain ⟨l, d, d₁, tested, done, rest⟩ := ifThen_eq_ok ran
      have inner := condition_inner tested
      -- What stands behind ELSE, and that the condition and what it decides lie within the whole.
      have otherwise : d₁.Within k.last ∧ (d₁.rest.head? = some (.word .ELSE) → ∃ l' d₂,
          alternative l d₁.past = .ok (l', d₂) ∧
            ∀ t n, d₂.rest.head? = some t → t.line? = some n → GoesTo p d₂.place .jmp n) := by
        split at rest
        · next other =>
          obtain ⟨l', d₂, d₃, turned, done', placed⟩ := rest
          have last : d₃.Within k.last := (spans_proceeds.place (alternative_inner turned) placed).within.trans inside
          have turns := (spans_proceeds.past d₁).within.trans (spans_proceeds.alternative inner turned).within
          have within := turns.trans ((spans_proceeds.site .branch done' trivial).within.trans last)
          exact ⟨within, fun _ => ⟨l', d₂, turned, fun t n => k.goesTo_branch done' last⟩⟩
        · next other => exact ⟨(spans_proceeds.place inner rest).within.trans inside, fun next => absurd next other⟩
      obtain ⟨e, ts, reads, words⟩ := k.words_condition root tested
        ((spans_proceeds.consequence done).within.trans otherwise.1)
      refine ⟨fuel, l, d, d₁, e, ts, tested, done, by rw [starts, reads], words, fun t n head line => ?_,
        otherwise.2⟩
      rw [consequence, accept_bind] at done
      split at done
      · exact k.goesTo_of_next (c := d.past) done otherwise.1 head line
      · obtain ⟨_, d', expected, done⟩ := bind_eq_ok.mp done
        obtain ⟨-, rfl⟩ := expect_eq_ok.mp expected
        exact k.goesTo_branch (c := d.past) done otherwise.1 head line
  choices {c₁ c₂} h next := by
    obtain ⟨-, -, inside, -⟩ := k.settled_statement h
    obtain ⟨fuel, ran, starts, root⟩ := k.keyword_statement h next
    obtain ⟨cell, e, ts, calls, us, behind, words, picks⟩ := k.picks_on root ran inside
    exact ⟨cell, e, ts, calls, us, by rw [starts, behind], words, picks⟩

end Compilation

end Language

/-- The code of a compiled program is a row of instructions; the entry point, the labels and the jumps of the program
are among their starts; a statement that names a line has a jump to where the code of the line begins; and no run leaves
the starts, meets an unknown instruction or halts behind the last one. -/
theorem compiled_code_closed {source : String} {p : Program} (h : compile source = .ok p) :
    ∃ starts, p.Tiles 0 starts ∧ p.size ≤ 0x10000 ∧ p.entry ∈ starts ∧
      (∀ name address, p.label name = .ok address → address ∈ starts) ∧
      (∀ address ∈ starts, ∀ op n next, p.instructionAt address = .ok (.short op n, next) → jumps op = true →
        Action.jumpAddress n ∈ starts) ∧
      (∃ k : Compilation source p, Linked k.lines k.start k.last p ∧ k.Refers) ∧
      (∀ (n : UInt16) ds, Digits ds → Numeral.ofDigits ds = n.toNat → NamesLine n ds) ∧ p.Confines starts := by
  obtain ⟨k⟩ := compilation_of_ok h
  have closed := closed_of_link k.linked k.finished.sound
  refine ⟨(k.last.code k.values).starts 0, closed.tiles, closed.small, closed.entry, fun name address found => ?_,
    fun address member op n next => closed.operand member, ⟨k, k.linked_lines, k.refers⟩, fun n ds => namesLine,
    closed.confines⟩
  refine closed.labels name address ?_
  rw [Program.label] at found
  split at found
  · next there =>
    cases found
    obtain ⟨before, after, parts, -⟩ := List.lookup_eq_some_iff.mp there
    rw [parts]
    simp
  · cases found

/-- A loop around a choice of subroutines, and each other way to name a line. One number is read as a single. -/
def chosenLines : String :=
  "10 FOR I=1 TO 3\n20 ON I GOSUB 40000,40000\n30 NEXT\n40 ON I-3 GOTO 60,20\n50 IF I THEN 10 ELSE 40\n60 GOSUB 40000\n" ++
    "70 END\n40000 RETURN"

/-- The program of `chosenLines`. -/
def chosenLinesProgram : Program where
  code := #[17, 1, 0, 33, 2, 0, 0, 17, 3, 0, 33, 3, 0, 0, 17, 1, 0, 33, 4, 0, 0, 32, 2, 0, 0, 32, 3, 0, 0, 70, 32, 4,
    0, 0, 17, 0, 0, 70, 50, 17, 1, 0, 65, 97, 104, 0, 32, 2, 0, 0, 33, 5, 0, 0, 32, 5, 0, 0, 17, 1, 0, 70, 98, 71, 0,
    99, 158, 0, 96, 88, 0, 32, 5, 0, 0, 17, 2, 0, 70, 98, 88, 0, 99, 158, 0, 96, 88, 0, 32, 2, 0, 0, 32, 4, 0, 0, 48,
    33, 2, 0, 0, 96, 21, 0, 32, 2, 0, 0, 17, 3, 0, 49, 33, 6, 0, 0, 32, 6, 0, 0, 17, 1, 0, 70, 97, 154, 0, 32, 6, 0,
    0, 17, 2, 0, 70, 97, 46, 0, 32, 2, 0, 0, 97, 151, 0, 96, 0, 0, 96, 154, 0, 96, 104, 0, 99, 158, 0, 1, 100, 1, 19,
    0, 0, 0, 33, 0, 0, 0, 17, 0, 0, 33, 1, 0, 0, 38, 2, 0, 0, 44, 5, 0, 96, 0, 0]
  labels := [("10", 0), ("20", 46), ("30", 88), ("40", 104), ("50", 138), ("60", 154), ("70", 157), ("40000", 158)]
  entry := 160
  staticSize := 7

theorem compiled_code_closed_chosenLines :
    compile chosenLines = .ok chosenLinesProgram ∧
      ∃ starts, chosenLinesProgram.Tiles 0 starts ∧ chosenLinesProgram.size ≤ 0x10000 ∧
        (∃ k : Compilation chosenLines chosenLinesProgram, k.Refers) ∧ chosenLinesProgram.Confines starts := by
  have compiled : compile chosenLines = .ok chosenLinesProgram := by
    have found : (compile chosenLines).toOption = some chosenLinesProgram := by decide +kernel
    cases result : compile chosenLines with
    | error e => rw [result] at found; cases found
    | ok p => rw [result] at found; cases found; rfl
  obtain ⟨starts, tiles, small, -, -, -, ⟨k, -, refers⟩, -, confines⟩ := compiled_code_closed compiled
  exact ⟨compiled, starts, tiles, small, ⟨k, refers⟩, confines⟩

end BasicMachine
