import BasicMachine.Language.Token
import BasicMachine.Single.Read
import BasicMachine.Text.Space

/-!
# Source lines

A line is an optional number and its tokens. What follows an apostrophe or REM is a remark and gives no tokens.
-/
namespace BasicMachine.Language

structure Line where
  number : Option UInt16 := none
  tokens : List Token := []
  deriving DecidableEq

namespace Line

def isBlank (c : Char) : Bool := c == ' ' || c == '\t' || c == '\r'

/-- The text up to the closing quote, and what follows it; `before` holds what is read of it, the last first. A
backslash before any other character stands for itself. -/
def quotedText (before : List Char) : List Char → Except Error (List Char × List Char)
  | [] => .error (.of .syntaxError "UNTERMINATED STRING")
  | '"' :: rest => .ok (before.reverse, rest)
  | '\\' :: 'n' :: rest => quotedText ('\n' :: before) rest
  | '\\' :: 't' :: rest => quotedText ('\t' :: before) rest
  | '\\' :: '\\' :: rest => quotedText ('\\' :: before) rest
  | '\\' :: '"' :: rest => quotedText ('"' :: before) rest
  | '\\' :: c :: rest => quotedText (c :: '\\' :: before) rest
  | c :: rest => quotedText (c :: before) rest

/-- Digits that may hold one point, and what follows them. -/
def numeral (cs : List Char) : List Char × List Char :=
  let whole := cs.takeWhile Char.isDigit
  match cs.dropWhile Char.isDigit with
  | '.' :: rest => (whole ++ '.' :: rest.takeWhile Char.isDigit, rest.dropWhile Char.isDigit)
  | rest => (whole, rest)

/-- A numeral is an integer if no digit follows its point and it fits 16 bits, and otherwise a single. -/
def numberToken (s : List Char) : Except Error Token :=
  let whole := s.takeWhile Char.isDigit
  let asInteger := if (s.drop (whole.length + 1)).isEmpty then Numeral.int16? whole else none
  match asInteger, Single.read? s with
  | some n, _ => .ok (.integer n)
  | none, some x => .ok (.float x)
  | none, none => .error (.of .syntaxError ("BAD NUMBER " ++ String.ofList s))

/-- Letters and digits and at most one dollar sign after them, and what follows. -/
def name (cs : List Char) : List Char × List Char :=
  let letters := cs.takeWhile Char.isAlphanum
  match cs.dropWhile Char.isAlphanum with
  | '$' :: rest => (letters ++ ['$'], rest)
  | rest => (letters, rest)

/-- The tokens of a name that is not reserved. FN may stand directly before the name of a function. -/
def identifier (s : List Char) : List Token :=
  let upper := s.map Char.toUpper
  if 2 < s.length ∧ upper.take 2 = ['F', 'N'] then [.word .FN, .ident (String.ofList (s.drop 2))]
  else [.ident (String.ofList s)]

/-- The mark at the start of a text, and what follows it. -/
def mark : Char → List Char → Except Error (Token × List Char)
  | '<', '=' :: rest => .ok (.operator .lessEqual, rest)
  | '<', '>' :: rest => .ok (.operator .notEqual, rest)
  | '>', '=' :: rest => .ok (.operator .greaterEqual, rest)
  | '+', rest => .ok (.operator .plus, rest)
  | '-', rest => .ok (.operator .minus, rest)
  | '*', rest => .ok (.operator .multiply, rest)
  | '/', rest => .ok (.operator .divide, rest)
  | '\\', rest => .ok (.operator .divideWhole, rest)
  | '^', rest => .ok (.operator .caret, rest)
  | '=', rest => .ok (.operator .equal, rest)
  | '<', rest => .ok (.operator .less, rest)
  | '>', rest => .ok (.operator .greater, rest)
  | '(', rest => .ok (.lparen, rest)
  | ')', rest => .ok (.rparen, rest)
  | ',', rest => .ok (.comma, rest)
  | ':', rest => .ok (.colon, rest)
  | ';', rest => .ok (.semicolon, rest)
  | '?', rest => .ok (.word .PRINT, rest)
  | c, _ => .error (.of .syntaxError ("UNEXPECTED " ++ Text.quotedChar c))

/-- The tokens that a text begins with, and what follows them. A remark takes all. -/
def next (c : Char) (rest : List Char) : Except Error (List Token × List Char) :=
  if isBlank c then .ok ([], rest)
  else if c.isDigit || c == '.' then do
    let (s, after) := numeral (c :: rest)
    return ([← numberToken s], after)
  else if c == '"' then do
    let (s, after) ← quotedText [] rest
    return ([.string (String.ofList s)], after)
  else if c == '\x27' then .ok ([], [])
  else if c.isAlpha then
    let (s, after) := name (c :: rest)
    match Token.ofWord? (String.ofList (s.map Char.toUpper)) with
    | some (.word .REM) => .ok ([], [])
    | some token => .ok ([token], after)
    | none => .ok (identifier s, after)
  else do
    let (token, after) ← mark c rest
    return ([token], after)

theorem quotedText_shorter {before cs s after : List Char} (h : quotedText before cs = .ok (s, after)) :
    after.length < cs.length := by
  fun_induction quotedText before cs with
  | case1 => simp at h
  | case2 before rest => simp only [Except.ok.injEq, Prod.mk.injEq] at h; simp [h.2]
  | _ =>
    rename_i ih
    have := ih h
    simp only [List.length_cons]
    omega

theorem numeral_shorter {c : Char} (rest : List Char) (h : c.isDigit = true ∨ c = '.') :
    (numeral (c :: rest)).2.length ≤ rest.length := by
  have tail (l : List Char) : (l.dropWhile Char.isDigit).length ≤ l.length :=
    (List.dropWhile_sublist _).length_le
  by_cases digit : c.isDigit = true
  · have bound := tail rest
    simp only [numeral, List.dropWhile_cons, digit, if_true]
    split
    · rename_i more eq
      rw [eq, List.length_cons] at bound
      exact Nat.le_trans (tail more) (by omega)
    · exact bound
  · obtain rfl := h.resolve_left digit
    exact tail rest

theorem name_shorter {c : Char} (rest : List Char) (h : c.isAlpha = true) :
    (name (c :: rest)).2.length ≤ rest.length := by
  have bound : (rest.dropWhile Char.isAlphanum).length ≤ rest.length :=
    (List.dropWhile_sublist _).length_le
  have letter : c.isAlphanum = true := by simp [Char.isAlphanum, h]
  simp only [name, List.dropWhile_cons, letter, if_true]
  split
  · rename_i more eq
    rw [eq, List.length_cons] at bound
    exact Nat.le_of_succ_le bound
  · exact bound

theorem mark_shorter {c : Char} {rest after : List Char} {t : Token} (h : mark c rest = .ok (t, after)) :
    after.length ≤ rest.length := by
  unfold mark at h
  split at h <;> simp_all

theorem next_shorter {c : Char} {rest after : List Char} {ts : List Token} (h : next c rest = .ok (ts, after)) :
    after.length ≤ rest.length := by
  unfold next at h
  split at h
  · simp_all
  split at h
  · rename_i numeric
    have bound := numeral_shorter rest (c := c) (by simpa using numeric)
    simp only [bind, Except.bind] at h
    split at h
    · simp at h
    · simp only [pure, Except.pure, Except.ok.injEq, Prod.mk.injEq] at h
      rwa [← h.2]
  split at h
  · simp only [bind, Except.bind] at h
    split at h
    · simp at h
    · rename_i found eq
      simp only [pure, Except.pure, Except.ok.injEq, Prod.mk.injEq] at h
      rw [← h.2]
      exact Nat.le_of_lt (quotedText_shorter (s := found.1) eq)
  split at h
  · simp_all
  split at h
  · rename_i letter
    have bound := name_shorter rest letter
    rcases name (c :: rest) with ⟨s, final⟩
    dsimp only at bound h
    split at h <;> simp_all
  · simp only [bind, Except.bind] at h
    split at h
    · simp at h
    · rename_i found eq
      simp only [pure, Except.pure, Except.ok.injEq, Prod.mk.injEq] at h
      rw [← h.2]
      exact mark_shorter (t := found.1) eq

/-- The tokens of a text. The first error ends it. -/
def tokensOf (cs : List Char) : Except Error (List Token) :=
  match cs with
  | [] => .ok []
  | c :: rest =>
    match h : next c rest with
    | .error e => .error e
    | .ok (ts, after) =>
      have := next_shorter h
      match tokensOf after with
      | .error e => .error e
      | .ok more => .ok (ts ++ more)
termination_by cs.length
decreasing_by simp only [List.length_cons]; omega

/-- A line from its text. Digits at the start are its number. -/
def ofText (cs : List Char) : Except Error Line :=
  let trimmed := Text.trimStart cs
  let digits := trimmed.takeWhile Char.isDigit
  let rest := trimmed.dropWhile Char.isDigit
  if digits.isEmpty then do return { tokens := ← tokensOf rest }
  else
    match Numeral.unsigned? 0xffff digits with
    | some n => do return { number := some (UInt16.ofNat n), tokens := ← tokensOf rest }
    | none => .error (.of .overflow "INVALID LINE NUMBER")

end Line

end BasicMachine.Language
