import BasicMachine.Proofs.Courses
import BasicMachine.Proofs.Singles

/-!
# References to lines

The digits of a line number are read as that number, also where they are too large for an integer, and a jump to the
line ends at the address that the label table shows for it, which is where the code of the line begins.
-/
namespace BasicMachine

/-- Digits, of which there is at least one. -/
structure Digits (ds : List Char) : Prop where
  some : ds ≠ []
  all : ∀ c ∈ ds, c.isDigit = true

/-- A text that does not go on with a number. -/
def EndsNumber (after : List Char) : Prop := ∀ c ∈ after.head?, c.isDigit = false ∧ c ≠ '.'

section
variable {ds after : List Char}

theorem takeWhile_digits (digits : Digits ds) (ends : EndsNumber after) : (ds ++ after).takeWhile Char.isDigit = ds := by
  rw [List.takeWhile_append_of_pos digits.all]
  cases after with
  | nil => simp
  | cons c rest => simp [(ends c rfl).1]

theorem dropWhile_digits (digits : Digits ds) (ends : EndsNumber after) : (ds ++ after).dropWhile Char.isDigit = after := by
  rw [List.dropWhile_append_of_pos digits.all]
  cases after with
  | nil => rfl
  | cons c rest => simp [(ends c rfl).1]

theorem endsNumber_nil : EndsNumber [] := by
  intro c member
  simp at member

theorem digits?_eq (digits : Digits ds) : Numeral.digits? ds = some (Numeral.ofDigits ds) := by
  have all : ds.all Char.isDigit = true := List.all_eq_true.mpr digits.all
  simp [Numeral.digits?, all, digits.some]

/-- Signs are no digits. -/
theorem head_ne_of_digits {c : Char} {rest : List Char} (digits : Digits (c :: rest)) {d : Char}
    (other : d.isDigit = false) : c ≠ d := by
  rintro rfl
  exact absurd (digits.all c (by simp)) (by simp [other])

theorem signed?_eq (digits : Digits ds) : Numeral.signed? ds = some (Numeral.ofDigits ds : Int) := by
  unfold Numeral.signed?
  split
  · exact absurd rfl (head_ne_of_digits digits (d := '-') rfl)
  · exact absurd rfl (head_ne_of_digits digits (d := '+') rfl)
  · rw [digits?_eq digits]
    rfl

theorem unsigned?_eq {limit : Nat} (digits : Digits ds) (bound : Numeral.ofDigits ds ≤ limit) :
    Numeral.unsigned? limit ds = some (Numeral.ofDigits ds) := by
  have same : Numeral.unsigned? limit ds = (Numeral.digits? ds).filter (· ≤ limit) := by
    unfold Numeral.unsigned?
    split
    · exact absurd rfl (head_ne_of_digits digits (d := '+') rfl)
    · rfl
  rw [same, digits?_eq digits]
  simp [bound]

end

theorem isDigit_bounds {c : Char} (digit : c.isDigit = true) : 48 ≤ c.toNat ∧ c.toNat ≤ 57 := by
  simp only [Char.isDigit, Bool.and_eq_true, decide_eq_true_eq] at digit
  exact ⟨UInt32.le_iff_toNat_le.mp digit.1, UInt32.le_iff_toNat_le.mp digit.2⟩

theorem toLower_digit {c : Char} (digit : c.isDigit = true) : c.toLower = c := by
  obtain ⟨-, high⟩ := isDigit_bounds digit
  rw [Char.toLower]
  split
  · next letter =>
    have above : 65 ≤ c.toNat := UInt32.le_iff_toNat_le.mp letter.1
    omega
  · rfl

namespace Single

/-- Digits are not the name of an infinity or of NaN. -/
theorem magnitude?_digits {ds : List Char} (digits : Digits ds) : magnitude? ds = (digits? ds).map Float32.toBits := by
  have other {name : String} {letter : Char} {rest : List Char} (spelled : name.toList = letter :: rest)
      (noDigit : letter.isDigit = false) : (String.ofList (ds.map Char.toLower) == name) = false := by
    rw [beq_eq_false_iff_ne]
    rintro rfl
    cases ds with
    | nil => exact absurd rfl digits.some
    | cons c more =>
      rw [String.toList_ofList, List.map_cons, List.cons.injEq, toLower_digit (digits.all c (by simp))] at spelled
      exact head_ne_of_digits digits noDigit spelled.1
  have inf := other (show "inf".toList = ['i', 'n', 'f'] from rfl) rfl
  have infinity := other (show "infinity".toList = 'i' :: "nfinity".toList from rfl) rfl
  have nan := other (show "nan".toList = ['n', 'a', 'n'] from rfl) rfl
  simp only [magnitude?, inf, infinity, nan]
  rfl

/-- The digits of a whole number as a single. -/
theorem read?_digits {ds : List Char} (digits : Digits ds) (pos : 0 < Numeral.ofDigits ds)
    (small : Numeral.ofDigits ds < 0x800000) :
    read? ds = some (Float32.ofScientific (Numeral.ofDigits ds) false 0) := by
  have whole : digits? ds = some (ofDecimal (Numeral.ofDigits ds) 0) := by
    have all := takeWhile_digits digits endsNumber_nil
    have rest := dropWhile_digits digits endsNumber_nil
    rw [List.append_nil] at all rest
    simp [digits?, all, rest, digits.some, exponent?]
  have decimal : ofDecimal (Numeral.ofDigits ds) 0 = Float32.ofScientific (Numeral.ofDigits ds) false 0 := by
    have length : (Nat.toDigits 10 (Numeral.ofDigits ds)).length ≤ 60 :=
      (Nat.length_toDigits_le_iff (by decide) (by decide)).mpr (by omega)
    rw [ofDecimal, if_neg (by omega), if_neg (by omega), if_pos (by decide)]
    rfl
  have unsigned : word? ds = magnitude? ds := by
    unfold word?
    split
    · exact absurd rfl (head_ne_of_digits digits (d := '-') rfl)
    · exact absurd rfl (head_ne_of_digits digits (d := '+') rfl)
    · rfl
  rw [read?, unsigned, magnitude?_digits digits, whole, decimal]
  simp only [Option.map_some, ofBits_toBits]

end Single

namespace Language

/-- The token of a line number. -/
def numberToken (n : Nat) : Token :=
  if n ≤ 32767 then .integer (Int16.ofNat n) else .float (Float32.ofScientific n false 0)

theorem numberToken_digits {ds : List Char} (digits : Digits ds) (small : Numeral.ofDigits ds < 0x800000) :
    Line.numberToken ds = .ok (numberToken (Numeral.ofDigits ds)) := by
  have all := takeWhile_digits digits endsNumber_nil
  rw [List.append_nil] at all
  have rest : ds.drop (ds.length + 1) = [] := List.drop_eq_nil_of_le (by omega)
  simp only [Line.numberToken, all, rest, List.isEmpty_nil, if_true, Numeral.int16?, signed?_eq digits, numberToken]
  by_cases short : Numeral.ofDigits ds ≤ 32767
  · rw [if_pos (by omega), if_pos short]
    rfl
  · rw [if_neg (by omega), if_neg short, Single.read?_digits digits (by omega) small]

theorem numeral_digits {ds after : List Char} (digits : Digits ds) (ends : EndsNumber after) :
    Line.numeral (ds ++ after) = (ds, after) := by
  simp only [Line.numeral, takeWhile_digits digits ends, dropWhile_digits digits ends]
  split
  · exact absurd rfl (ends '.' rfl).2
  · rfl

/-- The text of a number is one token. -/
theorem tokensOf_digits {ds after : List Char} (digits : Digits ds) (ends : EndsNumber after)
    (small : Numeral.ofDigits ds < 0x800000) :
    Line.tokensOf (ds ++ after) = (Line.tokensOf after).map (numberToken (Numeral.ofDigits ds) :: ·) := by
  cases ds with
  | nil => exact absurd rfl digits.some
  | cons c rest =>
    have digit : c.isDigit = true := digits.all c (by simp)
    have blank : Line.isBlank c = false := by
      simp [Line.isBlank, head_ne_of_digits digits (show ' '.isDigit = false from rfl),
        head_ne_of_digits digits (show '\t'.isDigit = false from rfl),
        head_ne_of_digits digits (show '\r'.isDigit = false from rfl)]
    have numeral := numeral_digits digits ends
    have next : Line.next c (rest ++ after) = .ok ([numberToken (Numeral.ofDigits (c :: rest))], after) := by
      rw [List.cons_append] at numeral
      simp only [Line.next, blank, digit, Bool.true_or, if_true, numeral, numberToken_digits digits small]
      rfl
    rw [List.cons_append, Line.tokensOf]
    split
    · next failed => simp [next] at failed
    · next found =>
      rw [next] at found
      cases found
      cases Line.tokensOf after <;> rfl

theorem trimStart_digits {ds after : List Char} (digits : Digits ds) : Text.trimStart (ds ++ after) = ds ++ after := by
  cases ds with
  | nil => exact absurd rfl digits.some
  | cons c rest =>
    obtain ⟨low, high⟩ := isDigit_bounds (digits.all c (by simp))
    have dark : Text.isSpace c = false := by
      simp only [Text.isSpace, Bool.or_eq_false_iff, Bool.and_eq_false_iff, decide_eq_false_iff_not, beq_eq_false_iff_ne]
      omega
    rw [Text.trimStart, List.cons_append, List.dropWhile_cons, dark]
    rfl

/-- Digits at the start of a line are its number. -/
theorem ofText_digits {ds after : List Char} {n : UInt16} (digits : Digits ds) (ends : EndsNumber after)
    (value : Numeral.ofDigits ds = n.toNat) :
    Line.ofText (ds ++ after) = (Line.tokensOf after).map fun tokens => { number := some n, tokens } := by
  have bound := n.toNat_lt
  have number := unsigned?_eq digits (show Numeral.ofDigits ds ≤ 0xffff by omega)
  simp only [Line.ofText, trimStart_digits digits, takeWhile_digits digits ends, dropWhile_digits digits ends,
    List.isEmpty_eq_false_iff.mpr digits.some, number, value, UInt16.ofNat_toNat]
  cases Line.tokensOf after <;> rfl

/-- The line that a token stands for, where a line is wanted. -/
def Token.line? : Token → Option UInt16
  | .integer n => if 0 ≤ n then some n.toUInt16 else none
  | .float x =>
    if Single.isWhole x ∧ 0 ≤ x ∧ x ≤ 65535 then some (UInt16.ofNat (Single.truncate x).toNat) else none
  | _ => none

/-- The token of a number stands for the line of that number. -/
theorem line?_numberToken (n : UInt16) : (numberToken n.toNat).line? = some n := by
  have bound := n.toNat_lt
  rw [numberToken]
  by_cases short : n.toNat ≤ 32767
  · have nonneg : 0 ≤ Int16.ofNat n.toNat := by
      rw [Int16.le_iff_toInt_le, Int16.toInt_ofNat_of_lt (by omega)]
      simp
    have same : (Int16.ofNat n.toNat).toUInt16 = n := UInt16.ofNat_toNat
    rw [if_pos short, Token.line?, if_pos nonneg, same]
  · have pos : 0 < n.toNat := by omega
    have small : n.toNat < 0x800000 := by omega
    have fits : Single.isWhole (Float32.ofScientific n.toNat false 0) = true ∧
        0 ≤ Float32.ofScientific n.toNat false 0 ∧ Float32.ofScientific n.toNat false 0 ≤ 65535 :=
      ⟨Single.isWhole_ofScientific pos small, Single.ofScientific_nonneg pos small,
        Single.ofScientific_le pos (show n.toNat ≤ 65535 by omega) (by decide)⟩
    rw [if_neg short, Token.line?, if_pos fits, Single.truncate_ofScientific pos small, Int.toNat_natCast,
      UInt16.ofNat_toNat]

namespace Parser

variable {c c' : Context}

theorem lineNumber_eq_ok {n : UInt16} (ran : lineNumber c = .ok (n, c')) :
    ∃ t, c.rest.head? = some t ∧ t.line? = some n ∧ c' = c.past := by
  rw [lineNumber, peek_bind] at ran
  cases next : c.rest.head? with
  | none =>
    rw [next] at ran
    exact absurd ran unexpected_ne_ok
  | some t =>
    rw [next] at ran
    cases t with
    | integer | float =>
      dsimp only at ran
      split at ran
      · next fits =>
        obtain ⟨rfl, rfl⟩ := pure_eq_ok.mp ran
        exact ⟨_, rfl, if_pos fits, rfl⟩
      · exact absurd ran unexpected_ne_ok
    | _ => exact absurd ran unexpected_ne_ok

/-- A jump to a line, and the token of the line. -/
theorem lineJump_eq_ok {command : Label → Command} (ran : lineJump command c = .ok ((), c')) :
    ∃ t n, c.rest = t :: c'.rest ∧ t.line? = some n ∧ c'.commands = command (.line n) :: c.commands := by
  obtain ⟨n, d, read, ran⟩ := bind_eq_ok.mp ran
  obtain ⟨t, next, line, rfl⟩ := lineNumber_eq_ok read
  cases ran
  obtain ⟨rest, starts⟩ := List.head?_eq_some_iff.mp next
  exact ⟨t, n, by rw [starts]; exact congrArg (t :: ·.tail) starts.symm, line, rfl⟩

end Parser

section
variable {labels : List (Label × Nat)}

theorem toString_toNat_inj {m n : UInt16} (h : toString m.toNat = toString n.toNat) : m = n := by
  have digits := congrArg String.toList h
  simp only [Nat.toString_eq_repr, Nat.toList_repr] at digits
  have same := congrArg (Nat.ofDigitChars 10 · 0) digits
  simp only [Nat.ofDigitChars_ten_toDigits] at same
  exact UInt16.toNat_inj.mp same

/-- Names of functions are no numbers. -/
theorem function_name_ne (name : String) (n : UInt16) : "FN:" ++ name ≠ toString n.toNat := by
  intro h
  have digits := congrArg String.toList h
  rw [String.toList_append, Nat.toString_eq_repr, Nat.toList_repr] at digits
  have member : 'F' ∈ Nat.toDigits 10 n.toNat := by
    rw [← digits]
    simp
  have digit := Nat.isDigit_of_mem_toDigits (by decide) (by decide) member
  simp at digit

theorem name?_eq_toString {l : Label} {n : UInt16} : l.name? = some (toString n.toNat) ↔ l = .line n := by
  cases l with
  | line m =>
    rw [Label.name?, Option.some.injEq, Label.line.injEq]
    exact ⟨toString_toNat_inj, fun h => h ▸ rfl⟩
  | function name => simpa [Label.name?] using function_name_ne name n
  | inside id => simp [Label.name?]

/-- The table of a program shows the address of a line under its number. -/
theorem lookup_shownLabels (n : UInt16) : (shownLabels labels).lookup (toString n.toNat) = labels.lookup (.line n) := by
  induction labels with
  | nil => rfl
  | cons first rest ih =>
    obtain ⟨l, address⟩ := first
    by_cases same : l = .line n
    · subst same
      simp [shownLabels, Label.name?]
    · have other : l.name? ≠ some (toString n.toNat) := fun h => same (name?_eq_toString.mp h)
      have skipped : List.lookup (Label.line n) ((l, address) :: rest) = rest.lookup (.line n) := by
        rw [List.lookup_cons, beq_eq_false_iff_ne.mpr (Ne.symm same)]
      rw [skipped, ← ih]
      cases shown : l.name? with
      | none => simp [shownLabels, shown]
      | some name =>
        rw [shown, ne_eq, Option.some.injEq] at other
        have hidden : (toString n.toNat == name) = false := beq_eq_false_iff_ne.mpr (Ne.symm other)
        simp only [shownLabels, List.filterMap_cons, shown, Option.map_some, List.lookup_cons, hidden]

end

/-- The marks of lines that stand before a line are those of other lines. -/
theorem markLine_eq_ok {n : UInt16} {c c' : Context} {u : Unit} (h : markLine n c = .ok (u, c')) :
    .mark (.line n) ∉ c.commands ∧ c' = c.emitting (.mark (.line n)) := by
  rw [markLine, Parser.get_bind] at h
  split at h
  · exact absurd h Parser.fail_bind_ne_ok
  · next fresh =>
    cases h
    refine ⟨fun member => fresh (List.any_eq_true.mpr ⟨_, member, ?_⟩), rfl⟩
    exact decide_eq_true rfl

open Parser

/-- The mark of a numbered line comes before its commands. -/
theorem commands_of_compileLine {s : SourceLine} {n : UInt16} {c c' : Context} {u : Unit}
    (h : compileLine s c = .ok (u, c')) (numbered : s.line.number = some n) :
    .mark (.line n) ∉ c.commands ∧ ∃ new, c'.commands = new ++ .mark (.line n) :: c.commands := by
  rw [compileLine, within_eq_ok] at h
  obtain ⟨_, d, marked, h⟩ := bind_eq_ok.mp h
  rw [startLine, modify_bind, numbered] at marked
  obtain ⟨fresh, rfl⟩ := markLine_eq_ok marked
  obtain ⟨new, commands⟩ := ((keeping_wholeLine (n := 0)).course trivial h).within.commands
  exact ⟨fresh, new, commands.symm⟩

theorem forM_append_cons {before after : List SourceLine} {s : SourceLine} {c c' : Context} {u : Unit}
    (h : (before ++ s :: after).forM compileLine c = .ok (u, c')) :
    ∃ d e, before.forM compileLine c = .ok ((), d) ∧ compileLine s d = .ok ((), e) ∧
      after.forM compileLine e = .ok ((), c') := by
  change forM (before ++ s :: after) compileLine c = _ at h
  rw [List.forM_append, List.forM_cons] at h
  obtain ⟨_, d, first, h⟩ := bind_eq_ok.mp h
  obtain ⟨_, e, second, third⟩ := bind_eq_ok.mp h
  exact ⟨d, e, first, second, third⟩

/-- The jump at an address goes to where the label table has line `n`. -/
def GoesTo (p : Program) (address : Nat) (op : ShortOp) (n : UInt16) : Prop :=
  ∃ k, p.instructionAt address = .ok (.short op k, address + 3) ∧ p.label (toString n.toNat) = .ok (Action.jumpAddress k)

/-- The references to lines in a linked program: where the code of each numbered line begins and where jumps end. -/
structure Linked (lines : List SourceLine) (start c : Context) (p : Program) : Prop where
  /-- The address of a line is the size of the code of the lines before it. -/
  recorded : ∀ before s after n, lines = before ++ s :: after → s.line.number = some n →
    ∃ d, before.forM compileLine start = .ok ((), d) ∧
      p.label (toString n.toNat) = .ok (Steps.size (d.commands.reverse.flatMap Command.code))
  /-- A jump to a line ends at the address of the line. -/
  patched : ∀ (before : Steps) op n after, c.main = before ++ .jump op (.line n) :: after → GoesTo p before.size op n

/-- A jump to a label in its place. -/
theorem instructionAt_jump {c : Context} {items : List Value} {p : Program} (h : link c items = .ok p)
    {before after : Steps} {op : ShortOp} {l : Label} (split : c.main = before ++ .jump op l :: after) :
    p.instructionAt before.size = .ok (.short op (jumpOperand (c.address l)), before.size + 3) := by
  have lies := hasCode_of_link h
  rw [Context.code, split, Steps.place_append, List.append_assoc] at lies
  have jump := lies.append.2
  rw [Steps.size_place, Nat.zero_add] at jump
  exact jump.cons.1

theorem label_eq {c : Context} {items : List Value} {p : Program} (h : link c items = .ok p) {n : UInt16}
    {address : Nat} (found : c.labels.lookup (.line n) = some address) : p.label (toString n.toNat) = .ok address := by
  obtain ⟨-, -, rfl⟩ := link_eq_ok h
  rw [Program.label, Labels.find?, lookup_shownLabels, found]

/-- Lines that are read and linked have their references resolved. -/
theorem linked_of_lines {lines : List SourceLine} {start c : Context} {items : List Value} {p : Program}
    (h : link c items = .ok p) (read : lines.forM compileLine start = .ok ((), c))
    (sound : ∀ command ∈ c.commands, Steps.Sound c.Knows command.code) : Linked lines start c p := by
  obtain ⟨checked, small, -⟩ := link_eq_ok h
  constructor
  · rintro before s after n rfl numbered
    obtain ⟨d, e, first, second, third⟩ := forM_append_cons read
    obtain ⟨fresh, new, commands⟩ := commands_of_compileLine second numbered
    obtain ⟨more, later⟩ := (within_of_compileLines third).commands
    refine ⟨d, first, label_eq h ?_⟩
    have program : c.program = d.commands.reverse ++ .mark (.line n) :: (new.reverse ++ more.reverse ++ [.halt]) := by
      rw [Context.program, ← later, commands]
      simp
    rw [Context.labels, program, lookup_labelsFrom (by simpa using fresh), Nat.zero_add]
  · intro before op n after split
    have known : c.Knows (.line n) := by
      rcases (sound_main sound).cases split with ⟨_, impossible, -⟩ | ⟨_, _, same, -, known⟩ | ⟨_, _, _, _, impossible, -⟩
      · cases impossible
      · cases same
        exact known
      · cases impossible
    have below : c.address (.line n) < maxCode := by
      obtain ⟨first, rest, parts, size⟩ := boundary_of_mem_labels (address_mem_labels checked known)
      have main := main_size_lt small
      rw [parts, Steps.size_append] at main
      omega
    refine ⟨_, instructionAt_jump h split, ?_⟩
    rw [jumpAddress_jumpOperand below]
    exact label_eq h (lookup_address checked known)

end Language

end BasicMachine
