import BasicMachine.Proofs.Disassembly

/-!
# Tokens that are read back

A line written from tokens, with a blank between any two of them, is read as these tokens: no token takes a character
of the next, and none is taken for another.
-/
namespace BasicMachine

/-- Zero without a sign, or a number that is large and small enough to be written without an exponent. -/
def Single.isOrdinary (x : Float32) : Bool := x.toBits == 0 || (1e-4 ≤ x && x < 1e16)

/-- The literal of a single has digits on both sides of a point and is read as that single. -/
structure Single.Pointed (x : Float32) : Prop where
  form : ∃ whole fraction, Digits whole ∧ Digits fraction ∧ (literal x).toList = whole ++ '.' :: fraction
  reads : ReadsBack (literal x) x.toBits

namespace Language

/-- A letter, then letters and digits, and at most one dollar sign at the end. -/
structure IsName (cs : List Char) : Prop where
  form : ∃ c letters tail, cs = c :: letters ++ tail ∧ c.isAlpha = true ∧ letters.all Char.isAlphanum = true ∧
    tail ∈ [[], ['$']]

namespace Token

/-- How a source writes a character of a string. -/
def escaped : Char → List Char
  | '\\' => ['\\', '\\']
  | '"' => ['\\', '"']
  | '\n' => ['\\', 'n']
  | '\t' => ['\\', 't']
  | c => [c]

/-- How a source writes the token. -/
def source : Token → List Char
  | .string s => '"' :: (s.toList.flatMap escaped ++ ['"'])
  | t => t.text.toList

def startsNumber : Token → Bool
  | .integer _ => true
  | .float _ => true
  | _ => false

/-- A source can write the token: it has no sign, and a name is neither reserved nor taken for that of a function. -/
def Writable : Token → Prop
  | .integer n => 0 ≤ n
  | .float x => Single.isOrdinary x = true
  | .ident s =>
    IsName s.toList ∧ ofWord? (String.ofList (s.toList.map Char.toUpper)) = none ∧
      ¬ (2 < s.toList.length ∧ (s.toList.map Char.toUpper).take 2 = ['F', 'N'])
  | .word k => k ≠ .REM
  | _ => True

end Token

namespace Line

/-- The text of a line: its number and its tokens with a blank between any two. -/
def source (line : Line) : List Char :=
  [' '].intercalate (line.number.toList.map (fun n => (toString n.toNat).toList) ++ line.tokens.map Token.source)

/-- The next token is parted from the text before by a blank. -/
def Parted (after : List Char) : Prop := ∀ c ∈ after.head?, c = ' '

theorem parted_flatMap (tokens : List Token) : Parted (tokens.flatMap fun t => ' ' :: t.source) := by
  intro c first
  cases tokens with
  | nil => cases first
  | cons t tokens => exact (Option.some.inj first).symm

theorem tokensOf_next {c : Char} {rest after : List Char} {ts : List Token} (h : next c rest = .ok (ts, after)) :
    tokensOf (c :: rest) = (tokensOf after).map (ts ++ ·) := by
  rw [tokensOf]
  split
  next failed => rw [h] at failed; cases failed
  next found =>
    rw [h] at found
    cases found
    cases tokensOf after <;> rfl

theorem tokensOf_blank (rest : List Char) : tokensOf (' ' :: rest) = tokensOf rest := by
  have skipped : next ' ' rest = .ok ([], rest) := rfl
  rw [tokensOf_next skipped]
  cases tokensOf rest <;> rfl

theorem isBlank_of_visible {c : Char} (visible : 33 ≤ c.toNat) : isBlank c = false := by
  have other {d : Char} (low : d.toNat < 33) : (c == d) = false :=
    beq_eq_false_iff_ne.mpr fun same => by subst same; omega
  rw [isBlank, other (d := ' ') (by decide), other (d := '\t') (by decide), other (d := '\r') (by decide)]
  rfl

theorem quotedText_escaped (c : Char) (before rest : List Char) :
    quotedText before (Token.escaped c ++ rest) = quotedText (c :: before) rest := by
  unfold Token.escaped
  split
  · rfl
  · rfl
  · rfl
  · rfl
  next slash quote _ _ =>
    rw [List.cons_append, List.nil_append, quotedText]
    all_goals first | exact quote | (intros; exact absurd ‹_› slash)

theorem quotedText_source (cs before rest : List Char) :
    quotedText before (cs.flatMap Token.escaped ++ '"' :: rest) = .ok (before.reverse ++ cs, rest) := by
  induction cs generalizing before with
  | nil => rw [List.flatMap_nil, List.nil_append, List.append_nil, quotedText]
  | cons c cs ih =>
    rw [List.flatMap_cons, List.append_assoc, quotedText_escaped, ih]
    simp

theorem tokensOf_string (s : String) (after : List Char) :
    tokensOf ((Token.string s).source ++ after) = (tokensOf after).map (.string s :: ·) := by
  have found : next '"' (s.toList.flatMap Token.escaped ++ '"' :: after) = .ok ([.string s], after) := by
    show (quotedText [] _ >>= fun r => pure ([Token.string (String.ofList r.1)], r.2)) = _
    rw [quotedText_source, List.reverse_nil, List.nil_append]
    show Except.ok ([Token.string (String.ofList s.toList)], after) = _
    rw [String.ofList_toList]
  rw [Token.source, List.cons_append, List.append_assoc, List.singleton_append, tokensOf_next found]
  rfl

theorem tokensOf_mark {t : Token} {c : Char} {rest after : List Char} (spelled : t.source = c :: rest)
    (found : next c (rest ++ after) = .ok ([t], after)) :
    tokensOf (t.source ++ after) = (tokensOf after).map (t :: ·) := by
  rw [spelled, List.cons_append, tokensOf_next found]
  rfl

theorem isName_of_all {cs : List Char} (first : cs.head?.any Char.isAlpha = true)
    (all : cs.all Char.isAlphanum = true) : IsName cs := by
  cases cs with
  | nil => cases first
  | cons c letters =>
    rw [List.all_cons, Bool.and_eq_true] at all
    exact ⟨⟨c, letters, [], (List.append_nil _).symm, first, all.2, List.mem_cons_self⟩⟩

/-- Each keyword, each operator that is spelled as a word and each function can be looked up by its name. -/
theorem reserved_table : ∀ t ∈ Token.reserved.map (·.2),
    (t.text.toList.head?.any Char.isAlpha = true ∧ t.text.toList.all Char.isAlphanum = true) ∧
      Token.ofWord? (String.ofList (t.text.toList.map Char.toUpper)) = some t := by
  decide +kernel

section
variable {after : List Char} (parted : Parted after)
include parted

theorem endsNumber_of_parted : EndsNumber after := by
  intro c first
  rw [parted c first]
  decide

theorem tokensOf_integer {n : Int16} (sign : 0 ≤ n) :
    tokensOf ((Token.integer n).source ++ after) = (tokensOf after).map (.integer n :: ·) := by
  have low : 0 ≤ n.toInt := by simpa [Int16.le_iff_toInt_le] using sign
  have high := n.toInt_lt
  obtain ⟨k, value⟩ := Int.eq_ofNat_of_zero_le low
  have text : (Token.integer n).source = Nat.toDigits 10 k := by
    rw [Token.source, Token.text, value]
    · exact toList_toString k
    · nofun
  have token : Language.numberToken k = .integer n := by
    rw [Language.numberToken, if_pos (by omega)]
    refine congrArg Token.integer (Int16.toInt_inj.mp ?_)
    rw [Int16.toInt_ofNat_of_lt (by omega), value]
  rw [text, tokensOf_digits (digits_toDigits k) (endsNumber_of_parted parted) (by rw [ofDigits_toDigits]; omega),
    ofDigits_toDigits, token]

theorem tokensOf_float {x : Float32} (pointed : Single.Pointed x) :
    tokensOf ((Token.float x).source ++ after) = (tokensOf after).map (.float x :: ·) := by
  obtain ⟨⟨whole, fraction, first, second, text⟩, reads⟩ := pointed
  have ends := endsNumber_of_parted parted
  have numeral : numeral (whole ++ '.' :: (fraction ++ after)) = (whole ++ '.' :: fraction, after) := by
    simp only [Line.numeral, List.takeWhile_append_of_pos first.all, List.dropWhile_append_of_pos first.all,
      List.takeWhile_cons, List.dropWhile_cons, show '.'.isDigit = false from rfl, Bool.false_eq_true, if_false,
      takeWhile_digits second ends, dropWhile_digits second ends, List.append_nil]
  have token : Line.numberToken (whole ++ '.' :: fraction) = .ok (.float x) := by
    have taken : (whole ++ '.' :: fraction).takeWhile Char.isDigit = whole := by
      simp [List.takeWhile_append_of_pos first.all]
    have rest : (whole ++ '.' :: fraction).drop (whole.length + 1) = fraction := by simp
    have read : Single.read? (whole ++ '.' :: fraction) = some x := by
      rw [← text, Single.read?, show Single.word? _ = _ from reads, Option.map_some, Single.ofBits_toBits]
    simp only [Line.numberToken, taken, rest, read, List.isEmpty_eq_false_iff.mpr second.some, Bool.false_eq_true,
      if_false]
  cases whole with
  | nil => exact absurd rfl first.some
  | cons c more =>
    have digit : c.isDigit = true := first.all c List.mem_cons_self
    have blank : isBlank c = false := isBlank_of_visible (by have bounds := isDigit_bounds digit; omega)
    have found : next c (more ++ '.' :: (fraction ++ after)) = .ok ([.float x], after) := by
      rw [List.cons_append] at numeral
      simp only [next, blank, digit, Bool.true_or, Bool.false_eq_true, if_false, if_true, numeral, token]
      rfl
    rw [Token.source, Token.text, text, List.append_assoc, List.cons_append, List.cons_append, tokensOf_next found]
    · rfl
    · simp

theorem name_append {cs : List Char} (named : IsName cs) : name (cs ++ after) = (cs, after) := by
  obtain ⟨c, letters, tail, rfl, first, others, last⟩ := named.form
  have inside : ∀ d ∈ c :: letters, d.isAlphanum = true := by
    intro d found
    rcases List.mem_cons.mp found with rfl | found
    · rw [Char.isAlphanum, first, Bool.true_or]
    · exact List.all_eq_true.mp others d found
  have blank : ∀ d ∈ after.head?, d.isAlphanum = false ∧ d ≠ '$' := by
    intro d found
    rw [parted d found]
    decide
  simp only [List.mem_cons, List.not_mem_nil, or_false] at last
  rcases last with rfl | rfl
  · have stops : after.takeWhile Char.isAlphanum = [] ∧ after.dropWhile Char.isAlphanum = after := by
      cases after with
      | nil => exact ⟨rfl, rfl⟩
      | cons d rest => simp [(blank d rfl).1]
    rw [List.append_nil, name, List.takeWhile_append_of_pos inside, List.dropWhile_append_of_pos inside, stops.1,
      stops.2, List.append_nil]
    split
    · exact absurd rfl (blank '$' rfl).2
    · rfl
  · rw [List.append_assoc, List.singleton_append, name, List.takeWhile_append_of_pos inside,
      List.dropWhile_append_of_pos inside]
    simp [show '$'.isAlphanum = false from rfl]

/-- A name is read as far as the next blank, and looked up among the reserved words. -/
theorem next_name {cs : List Char} (named : IsName cs) :
    ∃ c rest, cs = c :: rest ∧ next c (rest ++ after) =
      match Token.ofWord? (String.ofList (cs.map Char.toUpper)) with
      | some (.word .REM) => .ok ([], [])
      | some token => .ok ([token], after)
      | none => .ok (identifier cs, after) := by
  have cut := name_append parted named
  obtain ⟨c, letters, tail, rfl, first, -, -⟩ := named.form
  refine ⟨c, letters ++ tail, rfl, ?_⟩
  have bounds := isAlpha_bounds first
  have other {d : Char} (far : c.toNat ≠ d.toNat) : (c == d) = false :=
    beq_eq_false_iff_ne.mpr fun same => far (congrArg Char.toNat same)
  rw [List.cons_append, List.cons_append] at cut
  simp only [next, isBlank_of_visible (c := c) (by omega), isDigit_of_isAlpha first, other (d := '.') (by simp; omega),
    other (d := '"') (by simp; omega), other (d := '\x27') (by simp; omega), first, Bool.or_self, Bool.false_eq_true,
    if_false, if_true, cut, List.cons_append]
  all_goals rfl

/-- A reserved word other than REM is read as its token. -/
theorem tokensOf_reserved {t : Token} (plain : t.source = t.text.toList) (named : IsName t.text.toList)
    (listed : Token.ofWord? (String.ofList (t.text.toList.map Char.toUpper)) = some t) (other : t ≠ .word .REM) :
    tokensOf (t.source ++ after) = (tokensOf after).map (t :: ·) := by
  obtain ⟨c, rest, split, found⟩ := next_name parted named
  rw [listed] at found
  have read : next c (rest ++ after) = .ok ([t], after) := by
    rw [found]
    split
    next same => exact absurd (Option.some.inj same) other
    next same => rw [Option.some.inj same]
    next same => cases same
  rw [plain, split, List.cons_append, tokensOf_next read]
  rfl

theorem tokensOf_ident {s : String} (writable : (Token.ident s).Writable) :
    tokensOf ((Token.ident s).source ++ after) = (tokensOf after).map (.ident s :: ·) := by
  obtain ⟨named, free, other⟩ := writable
  obtain ⟨c, rest, split, found⟩ := next_name parted named
  rw [free] at found
  have read : next c (rest ++ after) = .ok ([.ident s], after) := by
    rw [found]
    dsimp only
    rw [identifier, if_neg other, String.ofList_toList]
  have text : (Token.ident s).source = s.toList := by
    rw [Token.source, Token.text]
    nofun
  rw [text, split, List.cons_append, tokensOf_next read]
  rfl

theorem tokensOf_listed {t : Token} (plain : t.source = t.text.toList) (listed : t ∈ Token.reserved.map (·.2))
    (other : t ≠ .word .REM) : tokensOf (t.source ++ after) = (tokensOf after).map (t :: ·) := by
  obtain ⟨⟨first, all⟩, found⟩ := reserved_table t listed
  exact tokensOf_reserved parted plain (isName_of_all first all) found other

/-- A token is read as far as the next blank. -/
theorem tokensOf_source {t : Token} (writable : t.Writable)
    (pointed : ∀ x, t = .float x → Single.isOrdinary x = true → Single.Pointed x) :
    tokensOf (t.source ++ after) = (tokensOf after).map (t :: ·) := by
  cases t with
  | integer n => exact tokensOf_integer parted writable
  | float x => exact tokensOf_float parted (pointed x rfl writable)
  | string s => exact tokensOf_string s after
  | ident s => exact tokensOf_ident parted writable
  | word k => exact tokensOf_listed parted rfl (by cases k <;> decide) (by rintro ⟨⟩; exact writable rfl)
  | operator op =>
    cases op with
    | modulus | and | or => exact tokensOf_listed parted rfl (by decide) (by decide)
    | less | greater =>
      refine @tokensOf_mark _ _ [] _ rfl ?_
      -- only here does the next character matter
      cases after with
      | nil => rfl
      | cons c rest => obtain rfl := parted c rfl; rfl
    | _ => exact tokensOf_mark rfl rfl
  | not => exact tokensOf_listed parted rfl (by decide) (by decide)
  | builtin f => exact tokensOf_listed parted rfl (by cases f <;> decide) nofun
  | _ => exact tokensOf_mark rfl rfl

end

/-- Tokens with a blank before each. -/
theorem tokensOf_flatMap {tokens : List Token} (writable : ∀ t ∈ tokens, t.Writable)
    (pointed : ∀ x, .float x ∈ tokens → Single.isOrdinary x = true → Single.Pointed x) :
    tokensOf (tokens.flatMap fun t => ' ' :: t.source) = .ok tokens := by
  induction tokens with
  | nil => rw [List.flatMap_nil, tokensOf]
  | cons t tokens ih =>
    have later := ih (fun u member => writable u (List.mem_cons_of_mem t member))
      fun x member => pointed x (List.mem_cons_of_mem t member)
    rw [List.flatMap_cons, List.cons_append, tokensOf_blank,
      tokensOf_source (parted_flatMap tokens) (writable t List.mem_cons_self)
        (fun x same => pointed x (same ▸ List.mem_cons_self)), later]
    rfl

/-- The text of a token other than a number begins neither with white space nor with a digit. -/
theorem head_source {t : Token} (writable : t.Writable) (other : t.startsNumber = false) :
    ∃ c rest, t.source = c :: rest ∧ Text.isSpace c = false ∧ c.isDigit = false := by
  cases t with
  | integer n => cases other
  | float x => cases other
  | ident s =>
    obtain ⟨c, letters, tail, split, first, -, -⟩ := writable.1.form
    have inside := Assembly.isWordChar_of_isAlphanum (c := c) (by rw [Char.isAlphanum, first, Bool.true_or])
    simp only [Assembly.isWordChar, Bool.not_eq_true', Bool.or_eq_false_iff] at inside
    exact ⟨c, letters ++ tail, split, inside.1.1.1, isDigit_of_isAlpha first⟩
  | string s => exact ⟨'"', _, rfl, by decide, by decide⟩
  | word k => cases k <;> exact ⟨_, _, rfl, by decide, by decide⟩
  | operator op => cases op <;> exact ⟨_, _, rfl, by decide, by decide⟩
  | builtin f => cases f <;> exact ⟨_, _, rfl, by decide, by decide⟩
  | _ => exact ⟨_, _, rfl, by decide, by decide⟩

theorem intercalate_cons (first : List Char) (others : List (List Char)) :
    [' '].intercalate (first :: others) = first ++ others.flatMap (' ' :: ·) := by
  induction others generalizing first with
  | nil => simp [List.intercalate]
  | cons second others ih =>
    rw [List.intercalate, List.intersperse_cons_cons, List.flatten_cons, List.flatten_cons, ← List.intercalate, ih]
    simp

/-- A line written from a number and tokens is read as this number and these tokens, if without a number it does not
begin with one. -/
theorem source_read_back {line : Line} (writable : ∀ t ∈ line.tokens, t.Writable)
    (pointed : ∀ x, .float x ∈ line.tokens → Single.isOrdinary x = true → Single.Pointed x)
    (unnumbered : line.number = none → ∀ t ∈ line.tokens.head?, t.startsNumber = false) :
    ofText line.source = .ok line := by
  obtain ⟨number, tokens⟩ := line
  dsimp only at writable pointed unnumbered
  cases number with
  | some n =>
    have text : source ⟨some n, tokens⟩ = Nat.toDigits 10 n.toNat ++ tokens.flatMap fun t => ' ' :: t.source := by
      simp [source, intercalate_cons, List.flatMap_map]
    rw [text, ofText_digits (digits_toDigits n.toNat) (endsNumber_of_parted (parted_flatMap tokens))
      (ofDigits_toDigits n.toNat), tokensOf_flatMap writable pointed]
    rfl
  | none =>
    cases tokens with
    | nil => decide +kernel
    | cons t tokens =>
      obtain ⟨c, rest, spelled, dark, other⟩ := head_source (writable t List.mem_cons_self) (unnumbered rfl t rfl)
      have text : source ⟨none, t :: tokens⟩ = t.source ++ tokens.flatMap fun t => ' ' :: t.source := by
        simp [source, intercalate_cons, List.flatMap_map]
      have read : tokensOf (source ⟨none, t :: tokens⟩) = .ok (t :: tokens) := by
        rw [text, tokensOf_source (parted_flatMap tokens) (writable t List.mem_cons_self)
          (fun x same => pointed x (same ▸ List.mem_cons_self)),
          tokensOf_flatMap (fun u member => writable u (List.mem_cons_of_mem t member))
            fun x member => pointed x (List.mem_cons_of_mem t member)]
        rfl
      have first : source ⟨none, t :: tokens⟩ = c :: (rest ++ tokens.flatMap fun t => ' ' :: t.source) := by
        rw [text, spelled, List.cons_append]
      simp only [ofText, Text.trimStart, first, List.dropWhile_cons, List.takeWhile_cons, dark, other,
        Bool.false_eq_true, if_false, List.isEmpty_nil, if_true]
      rw [← first, read]
      rfl

/-- A line with tokens of every kind, two names among them that are almost reserved. -/
def mixedLine : Line where
  tokens := [.ident "F$", .lparen, .ident "Print2", .rparen, .operator .less, .operator .equal, .integer 32767, .comma,
    .float (Float32.ofBits 0x3f000000), .word .FN, .ident "A", .operator .modulus, .not, .builtin .inkey, .colon,
    .string "tab\t\\ \"x\"\n", .semicolon]

theorem source_read_back_mixedLine : ofText mixedLine.source = .ok mixedLine := by
  refine source_read_back ?_ ?_ ?_
  · have named (c : Char) (letters tail : List Char) (first : c.isAlpha = true)
        (others : letters.all Char.isAlphanum = true) (last : tail ∈ [[], ['$']]) : IsName (c :: letters ++ tail) :=
      ⟨⟨c, letters, tail, rfl, first, others, last⟩⟩
    intro t member
    simp only [mixedLine, List.mem_cons, List.not_mem_nil, or_false] at member
    rcases member with rfl | rfl | rfl | rfl | rfl | rfl | rfl | rfl | rfl | rfl | rfl | rfl | rfl | rfl | rfl | rfl | rfl
    · exact ⟨named 'F' [] ['$'] rfl rfl (by decide), by decide +kernel, by decide⟩
    · trivial
    · exact ⟨named 'P' "rint2".toList [] rfl (by decide) (by decide), by decide +kernel, by decide⟩
    · trivial
    · trivial
    · trivial
    · exact show (0 : Int16) ≤ 32767 by decide
    · trivial
    · exact show Single.isOrdinary (Float32.ofBits 0x3f000000) = true by decide +kernel
    · exact show Keyword.FN ≠ .REM by decide
    · exact ⟨named 'A' [] [] rfl rfl (by decide), by decide +kernel, by decide⟩
    all_goals trivial
  · intro x member _
    have same : x = Float32.ofBits 0x3f000000 := by simpa [mixedLine] using member
    subst same
    exact ⟨⟨['0'], ['5'], ⟨by simp, by simp⟩, ⟨by simp, by simp⟩, by decide +kernel⟩, by decide +kernel⟩
  · rintro - t ⟨⟩
    rfl

end Line

end Language

end BasicMachine
