import BasicMachine.Language.Context

/-!
# Reading expressions

Operators bind by their powers, to the left except for the caret. Every call spends one unit of fuel, of which a line
gets more than its tokens can use.
-/
namespace BasicMachine.Language

namespace Parser

/-- The extent of each dimension of an array that is used before it is dimensioned. -/
def implicitExtent : Int16 := 11

/-- How strongly signs and NOT hold the operand after them. -/
def signPower : Nat := 60

def notPower : Nat := 20

/-- A caret takes a caret to its right first. -/
def rightPower : Operator → Nat
  | .caret => Operator.caret.power - 1
  | op => op.power

/-- The fuel of a line is spent only if some call takes no token. -/
def outOfFuel : Parser α := fail .internalError "EXPRESSION TOO DEEP"

/-- The extent of dimension `i`, of an array that may not be dimensioned yet. -/
def extentAt (name : String) (known : Option ArrayBlock) (i : Nat) : Parser Int16 :=
  match known with
  | none => return implicitExtent
  | some array =>
    match array.extents[i]? with
    | some extent => return extent
    | none => fail .subscriptOutOfRange name

/-- The array that `count` subscripts belong to. -/
def arrayFor (name : String) (known : Option ArrayBlock) (count : Nat) : Parser ArrayBlock :=
  match known with
  | some array => if array.extents.length = count then return array else fail .subscriptOutOfRange name
  | none => dimension name (List.replicate count implicitExtent)

mutual

/-- An expression of operators that hold more strongly than `power`. -/
def expression : (fuel : Nat) → (power : Nat) → Parser Expr
  | 0, _ => outOfFuel
  | fuel + 1, power => do operators fuel power (← operand fuel)

/-- The operators after a left operand. -/
def operators : (fuel : Nat) → (power : Nat) → (left : Expr) → Parser Expr
  | 0, _, _ => outOfFuel
  | fuel + 1, power, left => do
    match ← peek with
    | some (.operator op) =>
      if power < op.power then
        skip
        let right ← expression fuel (rightPower op)
        accountCode op.code
        operators fuel power (.binary op left right)
      else return left
    | _ => return left

def operand : (fuel : Nat) → Parser Expr
  | 0 => outOfFuel
  | fuel + 1 => do
    match ← peek with
    | some (.integer n) =>
      skip
      accountCode [.short .pushI n]
      return .integer n
    | some (.float x) =>
      skip
      accountCode [.pushF x.toBits]
      return .float x
    | some (.string s) =>
      skip
      let address ← intern s
      accountCode [.pointer .pushP address]
      return .text address
    | some .lparen =>
      skip
      let e ← expression fuel 0
      expect .rparen
      return e
    | some (.operator .minus) =>
      skip
      accountCode [.short .pushI 0]
      let e ← expression fuel signPower
      accountCode Operator.minus.code
      return .negate e
    | some (.operator .plus) =>
      skip
      expression fuel signPower
    | some .not =>
      skip
      let e ← expression fuel notPower
      accountCode [.plain (.unary .not)]
      return .not e
    | some (.ident name) =>
      skip
      match ← target fuel name with
      | .scalar slot =>
        accountCode slot.load
        return .variable slot
      | .element array subscripts =>
        accountCode fetchCode
        return .element array subscripts
    | some (.builtin f) =>
      skip
      builtin fuel f
    | some (.word .FN) =>
      skip
      call fuel
    | _ => unexpected "EXPECTED EXPRESSION"

/-- A variable or an array element whose name is read. -/
def target : (fuel : Nat) → (name : String) → Parser Target
  | 0, _ => outOfFuel
  | fuel + 1, name => do
    if ← accept .lparen then
      let known := (← get).arrays.lookup name
      let subscripts ← subscriptsAfter fuel name known 0
      expect .rparen
      let array ← arrayFor name known subscripts.length
      account array.checkSteps
      checkReach
      accountCode array.baseCode
      return .element array subscripts
    else return .scalar (← resolve name)

/-- Subscripts from number `i` on. -/
def subscriptsAfter : (fuel : Nat) → (name : String) → (known : Option ArrayBlock) → (i : Nat) → Parser (List Expr)
  | 0, _, _, _ => outOfFuel
  | fuel + 1, name, known, i => do
    if 0 < i then accountCode (ArrayBlock.scaleCode (← extentAt name known i))
    let e ← expression fuel 0
    accountCode (if 0 < i then ArrayBlock.addCode else ArrayBlock.firstCode)
    if ← accept .comma then
      return e :: (← subscriptsAfter fuel name known (i + 1))
    else return [e]

/-- Expressions between commas, at least one. -/
def expressions : (fuel : Nat) → Parser (List Expr)
  | 0 => outOfFuel
  | fuel + 1 => do
    let e ← expression fuel 0
    if ← accept .comma then return e :: (← expressions fuel)
    else return [e]

/-- Arguments after an opening parenthesis. -/
def arguments : (fuel : Nat) → Parser (List Expr)
  | 0 => outOfFuel
  | fuel + 1 => do
    if ← accept .rparen then return []
    else
      let args ← expressions fuel
      expect .rparen
      return args

/-- A call of a built-in function whose name is read. RND alone is RND(1). -/
def builtin : (fuel : Nat) → (f : Builtin) → Parser Expr
  | 0, _ => outOfFuel
  | fuel + 1, f => do
    let args ←
      if ← accept .lparen then arguments fuel
      else if f = .rnd then
        accountCode [.short .pushI 1]
        pure [.integer 1]
      else pure []
    if args.length ≠ f.arity then
      fail .illegalFunctionCall (f.name ++ " TAKES " ++ toString f.arity)
    accountCode f.code
    return .builtin f args

/-- A call of a user function, after FN. -/
def call : (fuel : Nat) → Parser Expr
  | 0 => outOfFuel
  | fuel + 1 => do
    let name ← identifier
    match (← get).functions.lookup name with
    | none => fail .undefinedUserFunction name
    | some arity =>
      let args ← if ← accept .lparen then arguments fuel else pure []
      if args.length ≠ arity then
        fail .illegalFunctionCall ("FN " ++ name ++ " TAKES " ++ toString arity)
      account [.jump .call (.function name)]
      refer (.function name)
      return .call name args

end

/-- `n` expressions between commas. -/
def expressionsN (fuel : Nat) : (n : Nat) → Parser (List Expr)
  | 0 => return []
  | 1 => return [← expression fuel 0]
  | n + 2 => do
    let e ← expression fuel 0
    expect .comma
    return e :: (← expressionsN fuel (n + 1))

end Parser

end BasicMachine.Language
