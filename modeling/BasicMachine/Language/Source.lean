import BasicMachine.Language.Line

/-!
# Source texts

The lines of a program, and what the compiler takes from all of them before it reads any statement: the items of DATA
and the names of functions, so that both may be used before they stand.
-/
namespace BasicMachine.Language

/-- A line of a source, with its row counted from one. -/
structure SourceLine where
  row : Nat
  line : Line
  deriving DecidableEq

/-- The number that errors name: the line's own, or else its row. -/
def SourceLine.id (s : SourceLine) : Nat :=
  match s.line.number with
  | some n => n.toNat
  | none => s.row

/-- A line from its text and row. An error names the row. -/
def SourceLine.ofText (text : List Char × Nat) : Except Error SourceLine := do
  return { row := text.2, line := ← (Line.ofText text.1).mapError (·.inLine text.2) }

/-- A line without number and tokens does not count. -/
def SourceLine.isEmpty (s : SourceLine) : Bool := s.line.number.isNone && s.line.tokens.isEmpty

def sourceLines (source : String) : Except Error (List SourceLine) := do
  let lines ← ((Text.lines source.toList).zipIdx 1).mapM SourceLine.ofText
  return lines.filter (!·.isEmpty)

/-- An item of DATA. -/
inductive DataItem
  | number (v : Value)
  | text (s : String)
  deriving DecidableEq

namespace DataItem

/-- The item at the start of a list of tokens, and what follows it. -/
def next? : List Token → Option (DataItem × List Token)
  | .operator .minus :: .integer n :: rest => some (number (.integer (-n)), rest)
  | .operator .minus :: .float x :: rest => some (number (.float (-x)), rest)
  | .integer n :: rest => some (number (.integer n), rest)
  | .float x :: rest => some (number (.float x), rest)
  | .string s :: rest => some (text s, rest)
  | .ident s :: rest => some (text s, rest)
  | _ => none

theorem next?_shorter {ts rest : List Token} {item : DataItem} (h : next? ts = some (item, rest)) :
    rest.length < ts.length := by
  unfold next? at h
  split at h
  case h_7 => simp at h
  all_goals
    simp only [Option.some.injEq, Prod.mk.injEq] at h
    rw [← h.2]
    simp only [List.length_cons]
    omega

/-- The items after DATA, and what follows them. -/
def list? (ts : List Token) : Option (List DataItem × List Token) :=
  match h : next? ts with
  | none => none
  | some (item, .comma :: rest) =>
    have : rest.length < ts.length := Nat.lt_trans (by simp) (next?_shorter h)
    match list? rest with
    | none => none
    | some (items, after) => some (item :: items, after)
  | some (item, rest) => some ([item], rest)
termination_by ts.length

theorem list?_shorter {ts rest : List Token} {items : List DataItem} (h : list? ts = some (items, rest)) :
    rest.length < ts.length := by
  fun_induction list? ts generalizing items with
  | case1 => simp at h
  | case2 => simp at h
  | case3 ts item after found shorter more last scanned ih =>
    simp only [Option.some.injEq, Prod.mk.injEq] at h
    have := ih (h.2 ▸ scanned)
    omega
  | case4 ts item after _ found =>
    simp only [Option.some.injEq, Prod.mk.injEq] at h
    exact h.2 ▸ next?_shorter found

end DataItem

/-- Whether a statement may begin after a token. -/
def opensStatement : Token → Bool
  | .colon | .semicolon | .word .THEN | .word .ELSE => true
  | _ => false

/-- The DATA items of a line. `start` tells whether a statement may begin here. -/
def dataItems? (start : Bool) (ts : List Token) : Option (List DataItem) :=
  match ts with
  | [] => some []
  | t :: rest =>
    if start && t == .word .DATA then
      match h : DataItem.list? rest with
      | none => none
      | some (items, after) =>
        have := DataItem.list?_shorter h
        (dataItems? false after).map (items ++ ·)
    else dataItems? (opensStatement t) rest
termination_by ts.length
decreasing_by all_goals simp only [List.length_cons]; omega

def dataOfLine (s : SourceLine) : Except Error (List DataItem) :=
  match dataItems? true s.line.tokens with
  | some items => .ok items
  | none => .error ((Error.of .syntaxError "BAD DATA").inLine s.id)

/-- The DATA items of a program in their order. -/
def sourceData (lines : List SourceLine) : Except Error (List DataItem) := do
  let items := (← lines.mapM dataOfLine).flatten
  if 32767 < items.length then throw (.of .outOfMemory "TOO MUCH DATA")
  return items

/-- Names before the closing parenthesis. -/
def parameterCount : List Token → Nat
  | .lparen :: rest =>
    (rest.takeWhile (· ≠ .rparen)).countP fun t => match t with
      | .ident _ => true
      | _ => false
  | _ => 0

/-- Functions with their numbers of parameters, those that the tokens of a line define before `known`. -/
def functionsOfTokens (known : List (String × Nat)) : List Token → Except Error (List (String × Nat))
  | [] => .ok known
  | .word .DEF :: rest =>
    match rest with
    | .word .FN :: .ident name :: after =>
      if (known.lookup name).isSome then .error (.of .syntaxError "DUPLICATE FUNCTION")
      else functionsOfTokens ((name, parameterCount after) :: known) rest
    | _ => .error (.of .syntaxError "EXPECTED FN NAME")
  | _ :: rest => functionsOfTokens known rest

def functionsOfLine (known : List (String × Nat)) (s : SourceLine) : Except Error (List (String × Nat)) :=
  (functionsOfTokens known s.line.tokens).mapError (·.inLine s.id)

/-- The functions of a program with their numbers of parameters. -/
def sourceFunctions (lines : List SourceLine) : Except Error (List (String × Nat)) := lines.foldlM functionsOfLine []

end BasicMachine.Language
