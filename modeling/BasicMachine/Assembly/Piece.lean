import BasicMachine.Error
import BasicMachine.Text.Quoted
import BasicMachine.Text.Space

/-!
# Pieces of an assembly line

A line falls into words, quoted texts and commas; a semicolon begins a comment. A word ends at white space, a comma,
a quote or a semicolon.
-/
namespace BasicMachine.Assembly

inductive Piece
  | word (s : String)
  | text (s : String)
  | comma
  deriving DecidableEq, Repr

def Piece.show : Piece → String
  | word s => s
  | text s => Text.quoted s
  | comma => ","

def badEscape (shown : String) : Error := .of .syntaxError ("BAD ESCAPE" ++ shown)

/-- The character that an escape stands for, after its backslash, and what follows it. -/
def escape : List Char → Except Error (Char × List Char)
  | 'n' :: rest => .ok ('\n', rest)
  | 't' :: rest => .ok ('\t', rest)
  | 'r' :: rest => .ok ('\r', rest)
  | '\\' :: rest => .ok ('\\', rest)
  | '"' :: rest => .ok ('"', rest)
  | '\x27' :: rest => .ok ('\x27', rest)
  | 'u' :: '\x7b' :: rest =>
    let digits := rest.takeWhile (· != '\x7d')
    match rest.dropWhile (· != '\x7d') with
    | [] => .error (badEscape "")
    | _ :: after =>
      match (Numeral.hexadecimal? digits).filter Nat.isValidChar with
      | some n => .ok (Char.ofNat n, after)
      | none => .error (badEscape (" \\u\x7b" ++ String.ofList digits ++ "\x7d"))
  | 'u' :: _ => .error (badEscape "")
  | c :: _ => .error (badEscape (" \\" ++ c.toString))
  | [] => .error (badEscape "")

theorem escape_shorter {cs rest : List Char} {c : Char} (h : escape cs = .ok (c, rest)) :
    rest.length < cs.length := by
  unfold escape at h
  split at h <;> try simp_all
  · rename_i more
    have bound := (List.dropWhile_sublist (· != '\x7d') (l := more)).length_le
    split at h
    · simp at h
    · rename_i after dropped
      split at h
      · simp only [Except.ok.injEq, Prod.mk.injEq] at h
        rw [dropped, List.length_cons, h.2] at bound
        omega
      · simp at h

/-- The text up to the closing quote, and what follows it; `before` holds what is read of it, the last first. -/
def quotedText (before cs : List Char) : Except Error (List Char × List Char) :=
  match cs with
  | [] => .error (.of .syntaxError "UNTERMINATED STRING")
  | '"' :: rest => .ok (before.reverse, rest)
  | '\\' :: rest =>
    match h : escape rest with
    | .error e => .error e
    | .ok (c, after) =>
      have := escape_shorter h
      quotedText (c :: before) after
  | c :: rest => quotedText (c :: before) rest
termination_by cs.length
decreasing_by all_goals simp only [List.length_cons]; omega

theorem quotedText_shorter {before cs s rest : List Char} (h : quotedText before cs = .ok (s, rest)) :
    rest.length < cs.length := by
  fun_induction quotedText before cs with
  | case1 => simp at h
  | case2 before after => simp only [Except.ok.injEq, Prod.mk.injEq] at h; simp [h.2]
  | case3 => simp at h
  | case4 before more c after escaped shorter ih =>
    have := ih h
    rw [List.length_cons]
    omega
  | case5 before c more _ _ ih =>
    have := ih h
    rw [List.length_cons]
    omega

/-- Whether a character belongs to a word. -/
def isWordChar (c : Char) : Bool := !(Text.isSpace c || c == ',' || c == '"' || c == ';')

/-- The pieces of a line. -/
def pieces (cs : List Char) : Except Error (List Piece) :=
  match cs with
  | [] => .ok []
  | c :: rest =>
    if Text.isSpace c then pieces rest
    else if c = ';' then .ok []
    else if c = ',' then do return .comma :: (← pieces rest)
    else if c = '"' then
      match h : quotedText [] rest with
      | .error e => .error e
      | .ok (s, after) =>
        have := quotedText_shorter h
        do return .text (String.ofList s) :: (← pieces after)
    else
      have := (List.dropWhile_sublist isWordChar (l := rest)).length_le
      do return .word (String.ofList (c :: rest.takeWhile isWordChar)) :: (← pieces (rest.dropWhile isWordChar))
termination_by cs.length
decreasing_by all_goals simp only [List.length_cons]; omega

end BasicMachine.Assembly
