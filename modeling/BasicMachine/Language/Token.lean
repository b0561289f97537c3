import BasicMachine.Language.Builtin

/-!
# Tokens

The words, operators and marks of the language. Keywords are named as they are spelled.
-/
namespace BasicMachine.Language

inductive Keyword
  | BEEP
  | CLS
  | COLOR
  | DATA
  | DEF
  | DIM
  | ELSE
  | END
  | FN
  | FOR
  | GOSUB
  | GOTO
  | IF
  | INPUT
  | LET
  | LINE
  | LOCATE
  | NEXT
  | ON
  | POKE
  | PRINT
  | PSET
  | PUT
  | RANDOMIZE
  | READ
  | REM
  | RESTORE
  | RETURN
  | SOUND
  | STEP
  | SWAP
  | THEN
  | TO
  | VOICE
  | WAIT
  | WEND
  | WHILE
  deriving DecidableEq, Repr

namespace Keyword

def all : List Keyword :=
  [BEEP, CLS, COLOR, DATA, DEF, DIM, ELSE, END, FN, FOR, GOSUB, GOTO, IF, INPUT, LET, LINE, LOCATE, NEXT, ON, POKE,
    PRINT, PSET, PUT, RANDOMIZE, READ, REM, RESTORE, RETURN, SOUND, STEP, SWAP, THEN, TO, VOICE, WAIT, WEND, WHILE]

def name : Keyword → String
  | BEEP => "BEEP"
  | CLS => "CLS"
  | COLOR => "COLOR"
  | DATA => "DATA"
  | DEF => "DEF"
  | DIM => "DIM"
  | ELSE => "ELSE"
  | END => "END"
  | FN => "FN"
  | FOR => "FOR"
  | GOSUB => "GOSUB"
  | GOTO => "GOTO"
  | IF => "IF"
  | INPUT => "INPUT"
  | LET => "LET"
  | LINE => "LINE"
  | LOCATE => "LOCATE"
  | NEXT => "NEXT"
  | ON => "ON"
  | POKE => "POKE"
  | PRINT => "PRINT"
  | PSET => "PSET"
  | PUT => "PUT"
  | RANDOMIZE => "RANDOMIZE"
  | READ => "READ"
  | REM => "REM"
  | RESTORE => "RESTORE"
  | RETURN => "RETURN"
  | SOUND => "SOUND"
  | STEP => "STEP"
  | SWAP => "SWAP"
  | THEN => "THEN"
  | TO => "TO"
  | VOICE => "VOICE"
  | WAIT => "WAIT"
  | WEND => "WEND"
  | WHILE => "WHILE"

end Keyword

/-- Operators between two operands. -/
inductive Operator
  | caret
  | multiply
  | divide
  | divideWhole
  | modulus
  | plus
  | minus
  | equal
  | notEqual
  | less
  | lessEqual
  | greater
  | greaterEqual
  | and
  | or
  deriving DecidableEq, Repr

namespace Operator

def all : List Operator :=
  [caret, multiply, divide, divideWhole, modulus, plus, minus, equal, notEqual, less, lessEqual, greater,
    greaterEqual, and, or]

def name : Operator → String
  | caret => "^"
  | multiply => "*"
  | divide => "/"
  | divideWhole => "\\"
  | modulus => "MOD"
  | plus => "+"
  | minus => "-"
  | equal => "="
  | notEqual => "<>"
  | less => "<"
  | lessEqual => "<="
  | greater => ">"
  | greaterEqual => ">="
  | and => "AND"
  | or => "OR"

/-- How strongly the operator holds its operands. -/
def power : Operator → Nat
  | or => 10
  | and => 20
  | equal | notEqual => 30
  | less | lessEqual | greater | greaterEqual => 40
  | plus | minus => 50
  | multiply | divide | divideWhole | modulus => 60
  | caret => 70

/-- Takes the three-way order of two values from the stack and tests it against `k`. -/
def relation (k : Int16) (test : Relation) : Code := [.plain .cmp, .short .pushI k, .plain (.relation test)]

/-- The code that turns both operands, the right one on top, into the result. Comparisons go through the three-way
order, which takes an integer beside a single. -/
def code : Operator → Code
  | caret => [.plain (.binary .power)]
  | multiply => [.plain (.binary .multiply)]
  | divide => [.plain (.binary .divide)]
  | divideWhole => [.plain (.binary .divideWhole)]
  | modulus => [.plain (.binary .remainder)]
  | plus => [.plain (.binary .add)]
  | minus => [.plain (.binary .subtract)]
  | equal => relation 0 .equal
  | notEqual => relation 0 .notEqual
  | less => relation (-1) .equal
  | lessEqual => relation 1 .notEqual
  | greater => relation 1 .equal
  | greaterEqual => relation (-1) .notEqual
  | and => [.plain (.binary .and)]
  | or => [.plain (.binary .or)]

end Operator

inductive Token
  | integer (n : Int16)
  | float (x : Float32)
  | string (s : String)
  | ident (name : String)
  | word (k : Keyword)
  | operator (op : Operator)
  | not
  | builtin (f : Builtin)
  | lparen
  | rparen
  | comma
  | colon
  | semicolon
  deriving DecidableEq

namespace Token

/-- Operators that are spelled as words. -/
def operatorWords : List Token := [operator .modulus, not, operator .and, operator .or]

/-- The token as a message shows it. -/
def text : Token → String
  | integer n => toString n.toInt
  | float x => Single.literal x
  | string s => Text.quoted s
  | ident name => name
  | word k => k.name
  | operator op => op.name
  | not => "NOT"
  | builtin f => f.name
  | lparen => "("
  | rparen => ")"
  | comma => ","
  | colon => ":"
  | semicolon => ";"

/-- Only operators between two operands hold to what stands before them. -/
def power : Token → Nat
  | operator op => op.power
  | _ => 0

/-- Every word that cannot be a name. INKEY may end in a dollar sign. -/
def reserved : List (String × Token) :=
  Keyword.all.map (fun k => (k.name, word k)) ++ operatorWords.map (fun t => (t.text, t)) ++
    Builtin.all.map (fun f => (f.name, builtin f)) ++ [("INKEY$", builtin .inkey)]

/-- The token of a reserved word in upper case. -/
def ofWord? (s : String) : Option Token := reserved.lookup s

end Token

end BasicMachine.Language
