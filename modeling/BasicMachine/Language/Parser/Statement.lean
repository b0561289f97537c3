import BasicMachine.Language.Parser.Expression

/-!
# Reading statements

Each statement turns into commands. A line holds statements between colons or semicolons; those after THEN and ELSE
reach to the end of the line or the next ELSE. Fuel is spent as for expressions.
-/
namespace BasicMachine.Language

namespace Parser

def defaultColour : Int16 := 15

/-- A number of a line; from 32768 on it is a single. -/
def lineNumber : Parser UInt16 := do
  match ← peek with
  | some (.integer n) =>
    if 0 ≤ n then
      skip
      return n.toUInt16
    else unexpected "EXPECTED LINE NUMBER"
  | some (.float x) =>
    if Single.isWhole x ∧ 0 ≤ x ∧ x ≤ 65535 then
      skip
      return UInt16.ofNat (Single.truncate x).toNat
    else unexpected "EXPECTED LINE NUMBER"
  | _ => unexpected "EXPECTED LINE NUMBER"

/-- A jump or a call to the line that follows. -/
def lineJump (command : Label → Command) : Parser Unit := do
  let label := .line (← lineNumber)
  emit (command label)
  refer label

def assignment (fuel : Nat) : Parser Unit := do
  let name ← identifier
  let t ← target fuel name
  expect (.operator .equal)
  emit (.assign t (← expression fuel 0))

/-- Whether a token begins a statement, so that a semicolon before it does not belong to PRINT. -/
def startsStatement : Option Token → Bool
  | some (.word k) => k ≠ .ELSE && k ≠ .FN
  | _ => false

/-- What PRINT shows. `ending` tells whether a line end follows so far. -/
def printItems : (fuel : Nat) → (ending : Bool) → Parser Bool
  | 0, _ => outOfFuel
  | fuel + 1, ending => do
    match (← get).rest with
    | [] | .colon :: _ | .word .ELSE :: _ => return ending
    | .semicolon :: rest =>
      if startsStatement rest.head? then return ending
      else
        skip
        printItems fuel false
    | .comma :: _ =>
      skip
      emit (.write '\t'.toUInt8)
      printItems fuel false
    | _ =>
      emit (.print (← expression fuel 0))
      printItems fuel true

def print (fuel : Nat) : Parser Unit := do
  if ← printItems fuel true then emit (.write '\n'.toUInt8)

def inputTargets : (fuel : Nat) → Parser Unit
  | 0 => outOfFuel
  | fuel + 1 => do
    let name ← identifier
    let t ← target fuel name
    emit (.input t (name.toList.getLast? = some '$'))
    if ← accept .comma then inputTargets fuel

/-- A prompt may come first. -/
def input (fuel : Nat) : Parser Unit := do
  let text ← match ← peek with
    | some (.string s) => do
      skip
      unless ← accept .semicolon do expect .comma
      pure s
    | _ => pure "? "
  emit (.prompt (← intern text))
  inputTargets fuel

def read : (fuel : Nat) → Parser Unit
  | 0 => outOfFuel
  | fuel + 1 => do
    let name ← identifier
    let t ← target fuel name
    let count := (← get).dataCount
    account (Command.remainingSteps count)
    checkReach
    emit (.read t count)
    if ← accept .comma then read fuel

/-- The extents of an array in DIM. -/
def extents : (fuel : Nat) → Parser (List Int16)
  | 0 => outOfFuel
  | fuel + 1 => do
    match ← peek with
    | some (.integer n) =>
      skip
      if ← accept .comma then return n :: (← extents fuel)
      else return [n]
    | _ => unexpected "EXPECTED DIMENSION"

def dim : (fuel : Nat) → Parser Unit
  | 0 => outOfFuel
  | fuel + 1 => do
    let name ← identifier
    expect .lparen
    let sizes ← extents fuel
    expect .rparen
    let _ ← dimension name sizes
    if ← accept .comma then dim fuel

def whileLoop (fuel : Nat) : Parser Unit := do
  let top ← freshLabel
  emit (.mark top)
  let e ← expression fuel 0
  let exit ← freshLabel
  emit (.branchUnless e exit)
  modify fun c => { c with whileLoops := { top, exit, line := c.line } :: c.whileLoops }

def wend : Parser Unit := do
  match (← get).whileLoops with
  | [] => fail .wendWithoutWhile
  | loop :: outer =>
    modify fun c => { c with whileLoops := outer }
    emit (.jump loop.top)
    place loop.exit

/-- A variable that is no array element, after its name. -/
def simple (name : String) : Parser Slot := do
  if (← peek) = some .lparen then unexpected "EXPECTED SIMPLE VARIABLE"
  resolve name

/-- The end of FOR: the step is kept, and the loop is open from its test on. -/
def openLoop (name : String) (slot : Slot) (limit step : Nat) (increment : Expr) : Parser Unit := do
  emit (.assign (.scalar (.cell step)) increment)
  let top ← freshLabel
  emit (.mark top)
  let exit ← freshLabel
  emit (.testLoop slot limit step exit)
  modify fun c => { c with forLoops := { name, slot, step, top, exit, line := c.line } :: c.forLoops }

/-- The limit and the step are kept in cells of their own. -/
def forLoop (fuel : Nat) : Parser Unit := do
  let name ← identifier
  let slot ← simple name
  expect (.operator .equal)
  emit (.assign (.scalar slot) (← expression fuel 0))
  expect (.word .TO)
  let limit ← allocate 1
  let step ← allocate 1
  emit (.assign (.scalar (.cell limit)) (← expression fuel 0))
  openLoop name slot limit step (← if ← accept (.word .STEP) then expression fuel 0 else pure (.integer 1))

/-- Closes the innermost loop, which must be that of `name` where there is one. -/
def closeLoop (name : Option String) : Parser Unit := do
  match (← get).forLoops with
  | [] => fail .nextWithoutFor
  | loop :: outer =>
    modify fun c => { c with forLoops := outer }
    match name with
    | some n => if n ≠ loop.name then fail .nextWithoutFor n
    | none => pure ()
    emit (.assign (.scalar loop.slot) (.binary .plus (.variable loop.slot) (.variable (.cell loop.step))))
    emit (.jump loop.top)
    place loop.exit

def next : (fuel : Nat) → Parser Unit
  | 0 => outOfFuel
  | fuel + 1 => do
    match ← peek with
    | some (.ident name) =>
      skip
      closeLoop (some name)
      if ← accept .comma then next fuel
    | _ => closeLoop none

/-- Gives up `n` turns to the host. -/
def wait (fuel : Nat) : Parser Unit := do
  let cell ← allocate 1
  let counter : Expr := .variable (.cell cell)
  emit (.assign (.scalar (.cell cell)) (← expression fuel 0))
  let top ← freshLabel
  let done ← freshLabel
  emit (.mark top)
  emit (.branchUnless (.binary .greater counter (.integer 0)) done)
  emit .yield
  emit (.assign (.scalar (.cell cell)) (.binary .minus counter (.integer 1)))
  emit (.jump top)
  place done

/-- The lines of ON, of which the first has number `choice`. -/
def choices : (fuel : Nat) → (cell : Nat) → (gosubEnd : Option Label) → (choice : Int16) → Parser Unit
  | 0, _, _, _ => outOfFuel
  | fuel + 1, cell, gosubEnd, choice => do
    let label := .line (← lineNumber)
    match gosubEnd with
    | some done =>
      let other ← freshLabel
      emit (.branchOn cell choice false other)
      emit (.call label)
      refer label
      emit (.jump done)
      place other
    | none =>
      emit (.branchOn cell choice true label)
      refer label
    if ← accept .comma then choices fuel cell gosubEnd (choice + 1)

def on (fuel : Nat) : Parser Unit := do
  let cell ← allocate 1
  emit (.assign (.scalar (.cell cell)) (← expression fuel 0))
  if ← accept (.word .GOSUB) then
    let done ← freshLabel
    choices fuel cell (some done) 1
    place done
  else
    expect (.word .GOTO)
    choices fuel cell none 1

/-- Parameters of a function, of which `before` are read. -/
def parametersAfter : (fuel : Nat) → (before : List String) → Parser (List String)
  | 0, _ => outOfFuel
  | fuel + 1, before => do
    let name ← identifier
    if name ∈ before then fail .syntaxError ("DUPLICATE PARAMETER " ++ name)
    if ← accept .comma then parametersAfter fuel (before ++ [name])
    else return before ++ [name]

def parameters (fuel : Nat) : Parser (List String) := do
  if ← accept .lparen then
    if ← accept .rparen then return []
    else
      let names ← parametersAfter fuel []
      expect .rparen
      return names
  else return []

/-- The body is skipped where it stands. Its parameters live in a frame that is the function's own. -/
def define (fuel : Nat) : Parser Unit := do
  expect (.word .FN)
  let name ← identifier
  let names ← parameters fuel
  expect (.operator .equal)
  let after ← freshLabel
  emit (.jump after)
  emit (.mark (.function name))
  modify fun c => { c with scopes := names.foldl (fun s n => (s.define n).2) c.scopes.enter }
  let frame ← allocate (← get).scopes.frameSize
  accountCode (Command.enterCode frame names.length)
  let body ← expression fuel 0
  modify fun c => { c with scopes := c.scopes.leave }
  emit (.function frame names.length body)
  place after

def poke (fuel : Nat) : Parser Unit := do
  let address ← expression fuel 0
  accountCode [.plain (.unary .toPointer)]
  expect .comma
  emit (.poke address (← expression fuel 0))

def swap : Parser Unit := do
  let left ← identifier
  expect .comma
  let right ← identifier
  if (← peek) = some .lparen then unexpected "EXPECTED SIMPLE VARIABLE"
  let left ← resolve left
  let right ← resolve right
  emit (.swap left right)

def randomize (fuel : Nat) : Parser Unit := do
  if ← atEnd then emit (.seed none) else emit (.seed (some (← expression fuel 0)))

/-- One more expression after a comma, or else `n`. -/
def orElse (fuel : Nat) (n : Int16) : Parser Expr := do
  if ← accept .comma then expression fuel 0
  else
    accountCode [.short .pushI n]
    return .integer n

/-- A call of the host with `n` arguments. -/
def hostCall (fuel : Nat) (request : Syscall) (n : Nat) : Parser Unit := do
  emit (.host request (← expressionsN fuel n))

/-- A call of the host whose last argument is `default` where it is left out. -/
def hostCallOr (fuel : Nat) (request : Syscall) (n : Nat) (default : Int16) : Parser Unit := do
  let args ← expressionsN fuel n
  emit (.host request (args ++ [← orElse fuel default]))

/-- A line, or the border of a box if B follows the colour. -/
def line (fuel : Nat) : Parser Unit := do
  let ends ← expressionsN fuel 4
  if ← accept .comma then
    let colour ← expression fuel 0
    if ← accept .comma then
      let mode ← identifier
      if mode = "B" ∨ mode = "b" then emit (.host .box (ends ++ [colour]))
      else fail .syntaxError "EXPECTED B"
    else emit (.host .line (ends ++ [colour]))
  else emit (.host .line (ends ++ [.integer defaultColour]))

def put (fuel : Nat) : Parser Unit := do
  let x ← expression fuel 0
  expect .comma
  let y ← expression fuel 0
  expect .comma
  let name ← identifier
  match (← get).arrays.lookup name with
  | some array => emit (.blit x y array)
  | none => fail .undefinedVariable name

/-- DATA is read before everything else. -/
def data : Parser Unit :=
  modify fun c =>
    { c with rest := c.rest.dropWhile fun t => t ≠ .colon && t ≠ .semicolon && t ≠ .word .ELSE }

mutual

/-- Statements up to the end of the line or ELSE. -/
def statements : (fuel : Nat) → Parser Unit
  | 0 => outOfFuel
  | fuel + 1 => do
    match ← peek with
    | none | some (.word .ELSE) => return ()
    | some .colon | some .semicolon =>
      skip
      statements fuel
    | some _ =>
      statement fuel
      unless ← atEnd do unexpected "EXPECTED END OF STATEMENT"
      statements fuel

def statement : (fuel : Nat) → Parser Unit
  | 0 => outOfFuel
  | fuel + 1 => do
    match ← peek with
    | some (.ident _) => assignment fuel
    | some (.word k) =>
      match k with
      | .ELSE | .FN | .REM | .STEP | .THEN | .TO => unexpected "EXPECTED STATEMENT"
      | _ =>
        skip
        keyword fuel k
    | _ => unexpected "EXPECTED STATEMENT"

/-- The statement that a keyword begins. -/
def keyword : (fuel : Nat) → Keyword → Parser Unit
  | 0, _ => outOfFuel
  | fuel + 1, k => do
    match k with
    | .BEEP => emit (.host .sound [.integer 0, .integer 800, .integer 250])
    | .CLS => emit (.host .cls [])
    | .COLOR => hostCallOr fuel .colours 1 0
    | .DATA => data
    | .DEF => define fuel
    | .DIM => dim fuel
    | .END => emit .halt
    | .FOR => forLoop fuel
    | .GOSUB => lineJump .call
    | .GOTO => lineJump .jump
    | .IF => ifThen fuel
    | .INPUT => input fuel
    | .LET => assignment fuel
    | .LINE => line fuel
    | .LOCATE => hostCall fuel .cursor 2
    | .NEXT => next fuel
    | .ON => on fuel
    | .POKE => poke fuel
    | .PRINT => print fuel
    | .PSET => hostCallOr fuel .setPixel 2 defaultColour
    | .PUT => put fuel
    | .RANDOMIZE => randomize fuel
    | .READ => read fuel
    | .RESTORE => emit (.assign (.scalar (.cell cursorCell)) (.integer 0))
    | .RETURN => emit .ret
    | .SOUND => hostCall fuel .sound 3
    | .SWAP => swap
    | .VOICE => hostCall fuel .voice 7
    | .WAIT => wait fuel
    | .WEND => wend
    | .WHILE => whileLoop fuel
    | .ELSE | .FN | .REM | .STEP | .THEN | .TO => unexpected "EXPECTED STATEMENT"

/-- An ELSE belongs to the nearest IF before it. -/
def ifThen : (fuel : Nat) → Parser Unit
  | 0 => outOfFuel
  | fuel + 1 => do
    let e ← expression fuel 0
    let otherwise ← freshLabel
    emit (.branchUnless e otherwise)
    if ← accept (.word .GOTO) then lineJump .jump
    else
      expect (.word .THEN)
      branch fuel
    if ← accept (.word .ELSE) then
      let done ← freshLabel
      emit (.jump done)
      place otherwise
      branch fuel
      place done
    else place otherwise

/-- A line number stands for a jump to the line. -/
def branch : (fuel : Nat) → Parser Unit
  | 0 => outOfFuel
  | fuel + 1 => do
    match ← peek with
    | some (.integer _) | some (.float _) => lineJump .jump
    | _ => statements fuel

end

/-- More than the tokens of a line can use. -/
def fuelFor (tokens : List Token) : Nat := 8 * tokens.length + 16

/-- The statements of a whole line. -/
def wholeLine : Parser Unit := do
  statements (fuelFor (← get).rest)
  unless (← peek).isNone do unexpected "EXPECTED END OF LINE"

end Parser

end BasicMachine.Language
