import BasicMachine.Text.Numeral

/-!
# Errors

Every failure carries a numbered code and, where they are known, the source line and the code address.
The first line and the first address that an error is given stay.
-/
namespace BasicMachine

/-- What went wrong. Numbers below 70 follow the classic BASIC table; the others belong to the machine and the
assembler. -/
inductive ErrorCode
  | nextWithoutFor
  | syntaxError
  | returnWithoutGosub
  | outOfData
  | illegalFunctionCall
  | overflow
  | outOfMemory
  | undefinedLine
  | subscriptOutOfRange
  | redimensionedArray
  | divisionByZero
  | typeMismatch
  | undefinedUserFunction
  | forWithoutNext
  | whileWithoutWend
  | wendWithoutWhile
  | internalError
  | undefinedVariable
  | unknownMnemonic
  | undefinedLabel
  | unknownOpcode
  | stackUnderflow
  | stackOverflow
  | memoryFault
  | badImage
  deriving DecidableEq, Repr

namespace ErrorCode

def all : List ErrorCode :=
  [nextWithoutFor, syntaxError, returnWithoutGosub, outOfData, illegalFunctionCall, overflow, outOfMemory,
    undefinedLine, subscriptOutOfRange, redimensionedArray, divisionByZero, typeMismatch, undefinedUserFunction,
    forWithoutNext, whileWithoutWend, wendWithoutWhile, internalError, undefinedVariable, unknownMnemonic,
    undefinedLabel, unknownOpcode, stackUnderflow, stackOverflow, memoryFault, badImage]

def number : ErrorCode → Int16
  | nextWithoutFor => 1
  | syntaxError => 2
  | returnWithoutGosub => 3
  | outOfData => 4
  | illegalFunctionCall => 5
  | overflow => 6
  | outOfMemory => 7
  | undefinedLine => 8
  | subscriptOutOfRange => 9
  | redimensionedArray => 10
  | divisionByZero => 11
  | typeMismatch => 13
  | undefinedUserFunction => 18
  | forWithoutNext => 26
  | whileWithoutWend => 29
  | wendWithoutWhile => 30
  | internalError => 51
  | undefinedVariable => 70
  | unknownMnemonic => 71
  | undefinedLabel => 72
  | unknownOpcode => 73
  | stackUnderflow => 74
  | stackOverflow => 75
  | memoryFault => 76
  | badImage => 77

def text : ErrorCode → String
  | nextWithoutFor => "NEXT WITHOUT FOR"
  | syntaxError => "SYNTAX ERROR"
  | returnWithoutGosub => "RETURN WITHOUT GOSUB"
  | outOfData => "OUT OF DATA"
  | illegalFunctionCall => "ILLEGAL FUNCTION CALL"
  | overflow => "OVERFLOW"
  | outOfMemory => "OUT OF MEMORY"
  | undefinedLine => "UNDEFINED LINE"
  | subscriptOutOfRange => "SUBSCRIPT OUT OF RANGE"
  | redimensionedArray => "REDIMENSIONED ARRAY"
  | divisionByZero => "DIVISION BY ZERO"
  | typeMismatch => "TYPE MISMATCH"
  | undefinedUserFunction => "UNDEFINED USER FUNCTION"
  | forWithoutNext => "FOR WITHOUT NEXT"
  | whileWithoutWend => "WHILE WITHOUT WEND"
  | wendWithoutWhile => "WEND WITHOUT WHILE"
  | internalError => "INTERNAL ERROR"
  | undefinedVariable => "UNDEFINED VARIABLE"
  | unknownMnemonic => "UNKNOWN MNEMONIC"
  | undefinedLabel => "UNDEFINED LABEL"
  | unknownOpcode => "UNKNOWN OPCODE"
  | stackUnderflow => "STACK UNDERFLOW"
  | stackOverflow => "STACK OVERFLOW"
  | memoryFault => "MEMORY FAULT"
  | badImage => "BAD IMAGE"

def ofNumber? (n : Int16) : Option ErrorCode := all.find? (·.number == n)

theorem ofNumber?_number (code : ErrorCode) : ofNumber? code.number = some code := by
  cases code <;> rfl

end ErrorCode

structure Error where
  code : ErrorCode
  line : Option Nat := none
  address : Option Nat := none
  detail : String := ""
  deriving DecidableEq, Repr

namespace Error

/-- An error that does not know its place yet. -/
def of (code : ErrorCode) (detail : String := "") : Error := { code, detail }

def inLine (e : Error) (line : Nat) : Error := { e with line := e.line <|> some line }

def atAddress (e : Error) (address : Nat) : Error := { e with address := e.address <|> some address }

/-- Code, line, address and detail, each only where there is one. -/
def text (e : Error) : String :=
  let line := match e.line with
    | some n => " IN " ++ toString n
    | none => ""
  let address := match e.address with
    | some n => " AT " ++ Numeral.hex 4 n
    | none => ""
  let detail := if e.detail.isEmpty then "" else "; " ++ e.detail
  e.code.text ++ line ++ address ++ detail

/-- The text between braces, as a debugger shows it. -/
def inspect (e : Error) : String := "Error \x7b " ++ e.text ++ " \x7d"

@[simp] theorem inLine_inLine (e : Error) (m n : Nat) : (e.inLine m).inLine n = e.inLine m := by
  cases e with | mk code line address detail => cases line <;> rfl

@[simp] theorem atAddress_atAddress (e : Error) (m n : Nat) :
    (e.atAddress m).atAddress n = e.atAddress m := by
  cases e with | mk code line address detail => cases address <;> rfl

end Error

end BasicMachine
