import BasicMachine.Proofs.Courses
import BasicMachine.Proofs.SourceNumbers

/-!
# Lines that errors name

Whatever a program is refused for, if not for its size, the error names a line of it: the number that the line starts with,
or its row if it has none. Only a line that cannot be split into tokens is named by its row even if it has a number.
-/
namespace BasicMachine.Language

/-- The rows of a source text, counted from one. -/
def sourceRows (source : String) : List (List Char × Nat) := (Text.lines source.toList).zipIdx 1

/-- The number that a row starts with, or else the row itself. -/
def rowId (row : List Char × Nat) : Nat :=
  let digits := (Text.trimStart row.1).takeWhile Char.isDigit
  if digits.isEmpty then row.2 else (Numeral.unsigned? 0xffff digits).getD row.2

/-- The row can be split into tokens. -/
def Lexes (row : List Char × Nat) : Prop := ∃ line, Line.ofText row.1 = .ok line

namespace Line

/-- Errors in the source that name no line yet. -/
def Unplaced {α : Type} (r : Except Error α) : Prop := ∀ e, r = .error e → e.line = none ∧ e.code ≠ .internalError

theorem unplaced_quotedText (before cs : List Char) : Unplaced (quotedText before cs) := by
  intro e failed
  fun_induction quotedText before cs with
  | case1 => cases failed; exact ⟨rfl, by rintro ⟨⟩⟩
  | case2 => cases failed
  | _ => rename_i ih; exact ih failed

theorem unplaced_next (c : Char) (rest : List Char) : Unplaced (next c rest) := by
  have number (s : List Char) : Unplaced (numberToken s) := by
    intro e failed
    unfold numberToken at failed
    dsimp only at failed
    split at failed <;> cases failed
    exact ⟨rfl, by rintro ⟨⟩⟩
  have mark : Unplaced (mark c rest) := by
    intro e failed
    unfold Line.mark at failed
    split at failed <;> cases failed
    exact ⟨rfl, by rintro ⟨⟩⟩
  have map {α β : Type} {r : Except Error α} (f : α → β) (h : Unplaced r) : Unplaced (do return f (← r)) := by
    intro e failed
    cases r with
    | error e' => cases failed; exact h _ rfl
    | ok a => cases failed
  intro e failed
  unfold next at failed
  repeat' split at failed
  all_goals first
    | cases failed
    | exact map _ (number _) e failed
    | exact map _ (unplaced_quotedText _ _) e failed
    | exact map _ mark e failed

theorem unplaced_tokensOf (cs : List Char) : Unplaced (tokensOf cs) := by
  intro e failed
  fun_induction tokensOf cs with
  | case1 => cases failed
  | case2 c rest e' found => cases failed; exact unplaced_next c rest e found
  | case3 c rest ts after found shorter e' later ih => cases failed; exact ih later
  | case4 => cases failed

theorem unplaced_ofText (cs : List Char) : Unplaced (ofText cs) := by
  intro e failed
  unfold ofText at failed
  dsimp only at failed
  cases read : tokensOf ((Text.trimStart cs).dropWhile Char.isDigit) with
  | error e' =>
    have unplaced := unplaced_tokensOf _ e' read
    rw [read] at failed
    repeat' split at failed
    all_goals cases failed
    all_goals first | exact unplaced | exact ⟨rfl, by rintro ⟨⟩⟩
  | ok ts =>
    rw [read] at failed
    repeat' split at failed
    all_goals cases failed
    exact ⟨rfl, by rintro ⟨⟩⟩

/-- A line that has tokens goes by the number that it starts with, or by its row. -/
theorem id_of_ofText {row : List Char × Nat} {line : Line} (h : ofText row.1 = .ok line) :
    SourceLine.id ⟨row.2, line⟩ = rowId row := by
  unfold ofText at h
  rw [rowId]
  dsimp only at h ⊢
  cases read : tokensOf ((Text.trimStart row.1).dropWhile Char.isDigit) with
  | error e =>
    rw [read] at h
    repeat' split at h
    all_goals cases h
  | ok ts =>
    rw [read] at h
    split at h
    · next none =>
      cases h
      rw [if_pos none]
      rfl
    · next some =>
      rw [if_neg some]
      split at h
      · next n found =>
        cases h
        have small : n ≤ 0xffff := by
          unfold Numeral.unsigned? at found
          exact of_decide_eq_true (Option.filter_eq_some_iff.mp found).2
        rw [found]
        exact Nat.mod_eq_of_lt (Nat.lt_of_le_of_lt small (by decide))
      · cases h

end Line

/-- All answers are there where there is an answer. -/
theorem mapM_ok_mem {α β ε : Type} {f : α → Except ε β} {as : List α} {bs : List β} (h : as.mapM f = .ok bs) :
    ∀ a ∈ as, ∃ b, f a = .ok b := by
  induction as generalizing bs with
  | nil => exact List.forall_mem_nil _
  | cons a as ih =>
    rw [List.mapM_cons] at h
    cases first : f a with
    | error e => rw [first] at h; cases h
    | ok b =>
      cases rest : as.mapM f with
      | error e => rw [first, rest] at h; cases h
      | ok more => exact List.forall_mem_cons.mpr ⟨⟨b, first⟩, ih rest⟩

/-- The first failure among several is the answer. -/
theorem mapM_eq_error {α β ε : Type} {f : α → Except ε β} {as : List α} {e : ε} (h : as.mapM f = .error e) :
    ∃ before a after, as = before ++ a :: after ∧ (∀ b ∈ before, ∃ r, f b = .ok r) ∧ f a = .error e := by
  induction as with
  | nil => cases h
  | cons a as ih =>
    rw [List.mapM_cons] at h
    cases first : f a with
    | error e' =>
      rw [first] at h
      cases h
      exact ⟨[], a, as, rfl, List.forall_mem_nil _, first⟩
    | ok b =>
      cases rest : as.mapM f with
      | ok more => rw [first, rest] at h; cases h
      | error e' =>
        rw [first, rest] at h
        cases h
        obtain ⟨before, x, after, rfl, all, failed⟩ := ih rest
        exact ⟨a :: before, x, after, rfl, List.forall_mem_cons.mpr ⟨⟨b, first⟩, all⟩, failed⟩

theorem line_inLine {e : Error} {n : Nat} (h : e.line = none) : (e.inLine n).line = some n := by
  rw [Error.inLine, h]
  rfl

/-- The source is refused for the first row that cannot be split into tokens. -/
theorem line_of_sourceLines {source : String} {e : Error} (h : sourceLines source = .error e) :
    ∃ before row after, sourceRows source = before ++ row :: after ∧ (∀ earlier ∈ before, Lexes earlier) ∧
      ¬ Lexes row ∧ e.line = some row.2 ∧ e.code ≠ .internalError := by
  cases read : (sourceRows source).mapM SourceLine.ofText with
  | ok lines => rw [sourceLines, ← sourceRows, read] at h; cases h
  | error e' =>
    rw [sourceLines, ← sourceRows, read] at h
    cases h
    obtain ⟨before, row, after, split, all, failed⟩ := mapM_eq_error read
    refine ⟨before, row, after, split, fun earlier member => ?_, ?_, ?_⟩
    · obtain ⟨s, made⟩ := all earlier member
      rw [SourceLine.ofText] at made
      cases line : Line.ofText earlier.1 with
      | error e' => rw [line] at made; cases made
      | ok l => exact ⟨l, line⟩
    all_goals
      rw [SourceLine.ofText] at failed
      cases line : Line.ofText row.1 with
      | ok l => rw [line] at failed; cases failed
      | error e' => ?_
    · rintro ⟨l, found⟩
      cases line.symm.trans found
    · rw [line] at failed
      cases failed
      obtain ⟨unplaced, ordinary⟩ := Line.unplaced_ofText row.1 e' line
      exact ⟨line_inLine unplaced, ordinary⟩

/-- The lines go by the numbers of their rows. -/
theorem id_of_sourceLines {source : String} {lines : List SourceLine} (h : sourceLines source = .ok lines) :
    (∀ row ∈ sourceRows source, Lexes row) ∧ ∀ s ∈ lines, ∃ row ∈ sourceRows source, s.id = rowId row := by
  cases read : (sourceRows source).mapM SourceLine.ofText with
  | error e => rw [sourceLines, ← sourceRows, read] at h; cases h
  | ok all =>
    rw [sourceLines, ← sourceRows, read] at h
    cases h
    refine ⟨fun row member => ?_, fun s member => ?_⟩
    · obtain ⟨s, made⟩ := mapM_ok_mem read row member
      rw [SourceLine.ofText] at made
      cases line : Line.ofText row.1 with
      | error e => rw [line] at made; cases made
      | ok l => exact ⟨l, line⟩
    · obtain ⟨row, there, made⟩ := mem_mapM_ok read s (List.mem_filter.mp member).1
      rw [SourceLine.ofText] at made
      cases line : Line.ofText row.1 with
      | error e => rw [line] at made; cases made
      | ok l => rw [line] at made; cases made; exact ⟨row, there, Line.id_of_ofText line⟩

/-- The lines of a program that an error can name. -/
def Named (lines : List SourceLine) (n : Nat) : Prop := ∃ s ∈ lines, n = s.id

theorem line_of_sourceData {lines : List SourceLine} {e : Error} (h : sourceData lines = .error e)
    (other : e.code ≠ .outOfMemory) : ∃ s ∈ lines, e.line = some s.id ∧ e.code ≠ .internalError := by
  cases read : lines.mapM dataOfLine with
  | ok items =>
    rw [sourceData, read] at h
    simp only [bind, Except.bind] at h
    split at h <;> cases h
    exact absurd rfl other
  | error e' =>
    rw [sourceData, read] at h
    cases h
    obtain ⟨before, s, after, rfl, -, failed⟩ := mapM_eq_error read
    refine ⟨s, by simp, ?_⟩
    rw [dataOfLine] at failed
    split at failed <;> cases failed
    exact ⟨rfl, by rintro ⟨⟩⟩

theorem line_of_functionsOfTokens {known : List (String × Nat)} {ts : List Token} {e : Error}
    (h : functionsOfTokens known ts = .error e) : e.line = none ∧ e.code ≠ .internalError := by
  fun_induction functionsOfTokens known ts with
  | case1 => cases h
  | case2 => cases h; exact ⟨rfl, by rintro ⟨⟩⟩
  | case4 => cases h; exact ⟨rfl, by rintro ⟨⟩⟩
  | _ => rename_i ih; exact ih h

theorem line_of_sourceFunctions {lines : List SourceLine} {known : List (String × Nat)} {e : Error}
    (h : lines.foldlM functionsOfLine known = .error e) : ∃ s ∈ lines, e.line = some s.id ∧ e.code ≠ .internalError := by
  induction lines generalizing known with
  | nil => cases h
  | cons s rest ih =>
    rw [List.foldlM_cons] at h
    cases first : functionsOfTokens known s.line.tokens with
    | error e' =>
      rw [functionsOfLine, first] at h
      cases h
      obtain ⟨unplaced, ordinary⟩ := line_of_functionsOfTokens first
      exact ⟨s, List.mem_cons_self, line_inLine unplaced, ordinary⟩
    | ok more =>
      rw [functionsOfLine, first] at h
      obtain ⟨t, member, same⟩ := ih h
      exact ⟨t, List.mem_cons_of_mem _ member, same⟩

/-- What the context refers to, and the loops that it has open, belong to lines of the program. -/
structure Context.Located (lines : List SourceLine) (c : Context) : Prop where
  references : ∀ r ∈ c.references, Named lines r.2 ∧ ∀ n, r.1 ≠ .inside n
  forLoops : ∀ loop ∈ c.forLoops, Named lines loop.line
  whileLoops : ∀ loop ∈ c.whileLoops, Named lines loop.line

namespace Parser

variable {lines : List SourceLine} {c c' : Context}

theorem located_of_course {may : Licence} (h : c.Located lines) (named : Named lines c.line) (course : c.Course may c') :
    c'.Located lines where
  references r member := (course.references r member).elim (h.references r) fun ⟨same, outer⟩ => ⟨same ▸ named, outer⟩
  forLoops loop member := (course.forLines loop member).elim (h.forLoops loop) fun same => same ▸ named
  whileLoops loop member := (course.whileLines loop member).elim (h.whileLoops loop) fun same => same ▸ named

/-- An error from a line names it. -/
structure Places (lines : List SourceLine) (p : Parser α) : Prop where
  located : ∀ {c a c'}, c.Located lines → p c = .ok (a, c') → c'.Located lines
  named : ∀ {c e}, c.Located lines → p c = .error e → ∃ s ∈ lines, e.line = some s.id ∧ e.code ≠ .internalError

theorem places_bind {p : Parser α} {f : α → Parser β} (first : Places lines p) (second : ∀ a, Places lines (f a)) :
    Places lines (p >>= f) where
  located h ran := by
    obtain ⟨a, d, ran, later⟩ := bind_eq_ok.mp ran
    exact (second a).located (first.located h ran) later
  named {c e} h failed := by
    cases ran : p c with
    | error e' =>
      simp only [bind, StateT.bind, ran, Except.bind] at failed
      cases failed
      exact first.named h ran
    | ok r => exact (second r.1).named (first.located h ran) ((bind_of_ok ran).symm.trans failed)

theorem places_pure (a : α) : Places lines (pure a : Parser α) where
  located h ran := by
    obtain ⟨-, rfl⟩ := pure_eq_ok.mp ran
    exact h
  named _ failed := by cases failed

/-- A line leaves what belongs to lines of the program, or its error names it. -/
theorem places_compileLine {s : SourceLine} (member : s ∈ lines) : Places lines (compileLine s) := by
  obtain ⟨p, keeping, same⟩ := compileLine_eq s s.line.tokens.length
  let entered (c : Context) : Context := { c with rest := s.line.tokens, line := s.id }
  constructor
  · intro c a c' h compiled
    rw [same, within_eq_ok] at compiled
    have located : (entered c).Located lines := ⟨h.references, h.forLoops, h.whileLoops⟩
    exact located_of_course located ⟨s, member, rfl⟩ (keeping.course trivial compiled)
  · intro c e h failed
    rw [same, within] at failed
    cases ran : p (entered c) with
    | error e =>
      rw [ran] at failed
      cases failed
      obtain ⟨unplaced, ordinary⟩ := keeping.errors trivial ran
      exact ⟨s, member, line_inLine unplaced, ordinary (Int.le_refl _)⟩
    | ok r => rw [ran] at failed; cases failed

theorem places_compileLines {rest : List SourceLine} (all : ∀ s ∈ rest, s ∈ lines) :
    Places lines (rest.forM compileLine) := by
  induction rest with
  | nil => exact places_pure ()
  | cons s rest ih =>
    rw [List.forall_mem_cons] at all
    exact places_bind (places_compileLine all.1) fun _ => ih all.2

/-- A DATA item needs no more than room for its text. -/
theorem places_dataValues (items : List DataItem) : Places lines (items.mapM dataValue) := by
  induction items with
  | nil => exact places_pure []
  | cons item rest ih =>
    rw [List.mapM_cons]
    refine places_bind ?_ fun _ => places_bind ih fun _ => places_pure _
    cases item with
    | number v => exact places_pure v
    | text t =>
      refine places_bind ⟨fun {c a c'} h ran => ?_, fun {c e} h failed => ?_⟩ fun _ => places_pure _
      · rw [intern, get_bind] at ran
        cases found : c.texts.lookup t with
        | none => rw [found] at ran; cases ran; exact ⟨h.references, h.forLoops, h.whileLoops⟩
        | some address => rw [found] at ran; cases ran; exact h
      · rw [intern, get_bind] at failed
        cases found : c.texts.lookup t <;> rw [found] at failed <;> cases failed

theorem places_checkLoops : Places lines checkLoops where
  located {c _ c'} h ran := by
    rw [checkLoops, get_bind] at ran
    cases fors : c.forLoops.getLast? <;> cases whiles : c.whileLoops.getLast? <;> rw [fors, whiles] at ran <;> cases ran
    exact h
  named {c e} h failed := by
    rw [checkLoops, get_bind] at failed
    cases fors : c.forLoops.getLast? with
    | some loop =>
      rw [fors] at failed
      cases failed
      obtain ⟨s, member, same⟩ := h.forLoops loop (List.mem_of_getLast? fors)
      exact ⟨s, member, congrArg some same, by rintro ⟨⟩⟩
    | none =>
      cases whiles : c.whileLoops.getLast? with
      | some loop =>
        rw [fors, whiles] at failed
        cases failed
        obtain ⟨s, member, same⟩ := h.whileLoops loop (List.mem_of_getLast? whiles)
        exact ⟨s, member, congrArg some same, by rintro ⟨⟩⟩
      | none => rw [fors, whiles] at failed; cases failed

theorem places_readLines (items : List DataItem) : Places lines (readLines lines items) :=
  places_bind (places_dataValues items) fun _ => places_bind (places_compileLines fun _ => id) fun _ =>
    places_bind places_checkLoops fun _ => places_pure _

end Parser

theorem line_of_checkReferences {lines : List SourceLine} {labels references : List (Label × Nat)} {e : Error}
    (h : ∀ r ∈ references, Named lines r.2 ∧ ∀ n, r.1 ≠ .inside n) (failed : checkReferences labels references = .error e)
    (other : e.code ≠ .outOfMemory) : ∃ s ∈ lines, e.line = some s.id ∧ e.code ≠ .internalError := by
  fun_induction checkReferences labels references with
  | case1 => cases failed
  | case2 l line rest missing =>
    cases failed
    obtain ⟨⟨s, member, same⟩, outer⟩ := h _ List.mem_cons_self
    refine ⟨s, member, ?_⟩
    cases l with
    | inside n => exact absurd rfl (outer n)
    | _ => exact ⟨congrArg some same, by rintro ⟨⟩⟩
  | case3 => cases failed; exact absurd rfl other
  | case4 l line rest address _ _ ih => exact ih (fun r member => h r (List.mem_cons_of_mem _ member)) failed

theorem line_of_link {lines : List SourceLine} {c : Context} {items : List Value} {e : Error} (h : c.Located lines)
    (failed : link c items = .error e) (other : e.code ≠ .outOfMemory) :
    ∃ s ∈ lines, e.line = some s.id ∧ e.code ≠ .internalError := by
  simp only [link, bind, Except.bind] at failed
  split at failed
  next e' refused =>
    cases failed
    exact line_of_checkReferences (fun r member => h.references r (List.mem_reverse.mp member)) refused other
  · split at failed
    · cases failed; exact absurd rfl other
    · cases failed

/-- An error that is not for the size of the program is for a line of it. -/
theorem line_of_compile {source : String} {e : Error} (failed : compile source = .error e)
    (other : e.code ≠ .outOfMemory) :
    ((∃ before row after, sourceRows source = before ++ row :: after ∧ (∀ r ∈ before, Lexes r) ∧ ¬ Lexes row ∧
        e.line = some row.2) ∨
      (∀ row ∈ sourceRows source, Lexes row) ∧ ∃ row ∈ sourceRows source, e.line = some (rowId row)) ∧
    e.code ≠ .internalError := by
  simp only [compile, bind, Except.bind] at failed
  split at failed
  next e' unread =>
    cases failed
    obtain ⟨before, row, after, split, lexed, stuck, line, ordinary⟩ := line_of_sourceLines unread
    exact ⟨.inl ⟨before, row, after, split, lexed, stuck, line⟩, ordinary⟩
  next lines read =>
  obtain ⟨lexed, ids⟩ := id_of_sourceLines read
  suffices named : ∃ s ∈ lines, e.line = some s.id ∧ e.code ≠ .internalError by
    obtain ⟨s, member, line, ordinary⟩ := named
    obtain ⟨row, there, same⟩ := ids s member
    exact ⟨.inr ⟨lexed, row, there, line.trans (congrArg some same)⟩, ordinary⟩
  split at failed
  next e' refused => cases failed; exact line_of_sourceData refused other
  next items gathered =>
  split at failed
  next e' refused => cases failed; exact line_of_sourceFunctions refused
  next functions declared =>
  have start : (Context.initial items functions).Located lines := by constructor <;> intro _ member <;> cases member
  split at failed
  next e' refused => cases failed; exact (Parser.places_readLines items).named start refused
  next r ran => exact line_of_link ((Parser.places_readLines items).located start ran) failed other

/-- A line that cannot be read into tokens is named by its row, the first such line alone; any other error that a line is
to blame for is named by the number that the line has, or by its row where it has none. -/
theorem compile_error_line {source : String} {e : Error} (failed : compile source = .error e)
    (other : e.code ≠ .outOfMemory) :
    (∃ before row after, sourceRows source = before ++ row :: after ∧ (∀ r ∈ before, Lexes r) ∧ ¬ Lexes row ∧
        e.line = some row.2) ∨
      (∀ row ∈ sourceRows source, Lexes row) ∧ ∃ row ∈ sourceRows source, e.line = some (rowId row) :=
  (line_of_compile failed other).1

/-- The second line has no number, so that the jump from it to a line that is not there is in line 2. -/
theorem compile_error_line_unnumbered :
    ∃ e, compile "10 PRINT 1\nGOTO 7" = .error e ∧ e.line = some 2 ∧
      ((∃ before row after, sourceRows "10 PRINT 1\nGOTO 7" = before ++ row :: after ∧ (∀ r ∈ before, Lexes r) ∧
          ¬ Lexes row ∧ e.line = some row.2) ∨
        (∀ row ∈ sourceRows "10 PRINT 1\nGOTO 7", Lexes row) ∧
          ∃ row ∈ sourceRows "10 PRINT 1\nGOTO 7", e.line = some (rowId row)) := by
  have failed : compile "10 PRINT 1\nGOTO 7" = .error ((Error.of .undefinedLine "7").inLine 2) := by decide +kernel
  exact ⟨_, failed, rfl, compile_error_line failed (by decide)⟩

/-- A text that is not closed puts its line under its row, though the line has a number. -/
theorem unread_line_named_by_row :
    compile "10 PRINT \"A" = .error ((Error.of .syntaxError "UNTERMINATED STRING").inLine 1) ∧
      ∀ row ∈ sourceRows "10 PRINT \"A", rowId row = 10 := by
  decide +kernel

end BasicMachine.Language
