import BasicMachine.Language.Compile

/-!
# Expressions as the grammar has them

Syntax trees of expressions over literals, scalar variables and the built-in functions that only compute, which texts
stand for which trees, and what a tree means. Neither the grammar nor the meaning knows of code.
-/
namespace BasicMachine.Language

/-- Built-in functions whose result depends on their argument alone. -/
inductive Function
  | abs
  | atn
  | cos
  | exp
  | int
  | len
  | log
  | sgn
  | sin
  | sqr
  | tan
  deriving DecidableEq, Repr

namespace Function

/-- The function among all the built-in ones. -/
def builtin : Function → Builtin
  | abs => .abs
  | atn => .atn
  | cos => .cos
  | exp => .exp
  | int => .int
  | len => .len
  | log => .log
  | sgn => .sgn
  | sin => .sin
  | sqr => .sqr
  | tan => .tan

/-- The single nearest to Euler's number. -/
def euler : Value := .float (Float32.ofBits Builtin.eulerWord)

/-- The length of the string at an address. -/
def length (memory : Array Value) (v : Value) : Except Error Value := do
  let cells ← Value.string memory (← v.asPointer)
  if 32767 < cells.length then throw (.of .overflow)
  return .integer (Int16.ofNat cells.length)

/-- The value of a function. Strings lie in memory. -/
def apply (memory : Array Value) : Function → Value → Except Error Value
  | abs, v => v.abs
  | atn, v => v.ofNumber Float32.atan
  | cos, v => v.ofNumber Float32.cos
  | exp, v => euler.power v
  | int, v => v.floor
  | len, v => length memory v
  | log, v => v.log
  | sgn, v => Value.rank memory v (.integer 0)
  | sin, v => v.ofNumber Float32.sin
  | sqr, v => v.sqr
  | tan, v => v.ofNumber Float32.tan

end Function

/-- Whether two values stand as the relation asks. An integer may stand beside a single; NaN compares with nothing. -/
def compared (memory : Array Value) (relation : Relation) (l r : Value) : Except Error Value := do
  match ← Value.order memory true l r with
  | some o => return .ofBool (relation.holds (some o))
  | none => throw (.of .illegalFunctionCall "NAN")

/-- The value of an operator between two values. -/
def Operator.apply (memory : Array Value) : Operator → Value → Value → Except Error Value
  | caret, l, r => l.power r
  | multiply, l, r => l.multiply r
  | divide, l, r => l.divide r
  | divideWhole, l, r => l.divideWhole r
  | modulus, l, r => l.remainder r
  | plus, l, r => l.add r
  | minus, l, r => l.subtract r
  | equal, l, r => compared memory .equal l r
  | notEqual, l, r => compared memory .notEqual l r
  | less, l, r => compared memory .less l r
  | lessEqual, l, r => compared memory .lessEqual l r
  | greater, l, r => compared memory .greater l r
  | greaterEqual, l, r => compared memory .greaterEqual l r
  | and, l, r => do return .integer ((← l.bits) &&& (← r.bits))
  | or, l, r => do return .integer ((← l.bits) ||| (← r.bits))

inductive Tree
  | integer (n : Int16)
  | float (x : Float32)
  | text (s : String)
  | scalar (name : String)
  | plus (e : Tree)
  | minus (e : Tree)
  | not (e : Tree)
  | binary (op : Operator) (left right : Tree)
  | call (f : Function) (e : Tree)
  deriving DecidableEq

/-- What an expression is evaluated in: memory, the values of variables and the addresses of text constants. -/
structure Surroundings where
  memory : Array Value
  values : String → Value
  texts : String → Nat

namespace Tree

/-- The value of a tree, from left to right; the first error decides. A sign takes its operand off zero. -/
def eval (s : Surroundings) : Tree → Except Error Value
  | integer n => .ok (.integer n)
  | float x => .ok (.float x)
  | text t => .ok (.pointer (s.texts t))
  | scalar name => .ok (s.values name)
  | plus e => e.eval s
  | minus e => do (Value.integer 0).subtract (← e.eval s)
  | not e => do Unary.not.apply (← e.eval s)
  | binary op left right => do
    let l ← left.eval s
    let r ← right.eval s
    op.apply s.memory l r
  | call f e => do f.apply s.memory (← e.eval s)

/-- Values that the evaluation of a tree needs room for. -/
def room : Tree → Nat
  | integer _ | float _ | text _ | scalar _ => 1
  | plus e | not e => e.room
  | minus e => e.room + 1
  | binary _ left right => max left.room (right.room + 1)
  | call _ e => max e.room 2

/-- Variables of a tree. -/
def names : Tree → List String
  | integer _ | float _ | text _ => []
  | scalar name => [name]
  | plus e | minus e | not e | call _ e => e.names
  | binary _ left right => left.names ++ right.names

/-- Text constants of a tree. -/
def literals : Tree → List String
  | integer _ | float _ | scalar _ => []
  | text s => [s]
  | plus e | minus e | not e | call _ e => e.literals
  | binary _ left right => left.literals ++ right.literals

end Tree

/-- Levels of the grammar, the loosest first. -/
inductive Level
  | disjunction
  | conjunction
  | negation
  | equality
  | comparison
  | term
  | factor
  | sign
  | power
  | primary
  deriving DecidableEq, Repr

namespace Level

def tighter : Level → Level
  | disjunction => conjunction
  | conjunction => negation
  | negation => equality
  | equality => comparison
  | comparison => term
  | term => factor
  | factor => sign
  | sign => power
  | power => primary
  | primary => primary

/-- The operators that stand between operands of the next level and associate to the left. -/
def operators : Level → List Operator
  | disjunction => [.or]
  | conjunction => [.and]
  | equality => [.equal, .notEqual]
  | comparison => [.less, .lessEqual, .greater, .greaterEqual]
  | term => [.plus, .minus]
  | factor => [.multiply, .divide, .divideWhole, .modulus]
  | negation | sign | power | primary => []

/-- A tighter level is a higher one. -/
instance : LE Level := ⟨fun a b => a.ctorIdx ≤ b.ctorIdx⟩

instance : LT Level := ⟨fun a b => a.ctorIdx < b.ctorIdx⟩

instance (a b : Level) : Decidable (a ≤ b) := inferInstanceAs (Decidable (a.ctorIdx ≤ b.ctorIdx))

instance (a b : Level) : Decidable (a < b) := inferInstanceAs (Decidable (a.ctorIdx < b.ctorIdx))

theorem lt_of_not_le {a b : Level} (h : ¬ a ≤ b) : b < a := Nat.lt_of_not_le h

end Level

namespace Operator

/-- The level of the texts that the operator joins. -/
def level : Operator → Level
  | or => .disjunction
  | and => .conjunction
  | equal | notEqual => .equality
  | less | lessEqual | greater | greaterEqual => .comparison
  | plus | minus => .term
  | multiply | divide | divideWhole | modulus => .factor
  | caret => .power

/-- The level of the right operand. Operators associate to the left, but for the caret, which also takes a sign. -/
def rightLevel : Operator → Level
  | caret => .sign
  | op => op.level.tighter

end Operator

/-- The texts of a level and their trees. -/
inductive Derives : Level → Tree → List Token → Prop
  | lift {level : Level} {e : Tree} {ts : List Token} (h : Derives level.tighter e ts) : Derives level e ts
  | chain {level : Level} {op : Operator} {l r : Tree} {ts us : List Token} (member : op ∈ level.operators)
      (left : Derives level l ts) (right : Derives level.tighter r us) :
      Derives level (.binary op l r) (ts ++ .operator op :: us)
  | not {e : Tree} {ts : List Token} (h : Derives .negation e ts) : Derives .negation (.not e) (.not :: ts)
  | plus {e : Tree} {ts : List Token} (h : Derives .sign e ts) : Derives .sign (.plus e) (.operator .plus :: ts)
  | minus {e : Tree} {ts : List Token} (h : Derives .sign e ts) : Derives .sign (.minus e) (.operator .minus :: ts)
  | power {l r : Tree} {ts us : List Token} (left : Derives .primary l ts) (right : Derives .sign r us) :
      Derives .power (.binary .caret l r) (ts ++ .operator .caret :: us)
  | integer (n : Int16) : Derives .primary (.integer n) [.integer n]
  | float (x : Float32) : Derives .primary (.float x) [.float x]
  | text (s : String) : Derives .primary (.text s) [.string s]
  | scalar (name : String) : Derives .primary (.scalar name) [.ident name]
  | group {e : Tree} {ts : List Token} (h : Derives .disjunction e ts) :
      Derives .primary e (.lparen :: (ts ++ [.rparen]))
  | call (f : Function) {e : Tree} {ts : List Token} (h : Derives .disjunction e ts) :
      Derives .primary (.call f e) (.builtin f.builtin :: .lparen :: (ts ++ [.rparen]))

end BasicMachine.Language
