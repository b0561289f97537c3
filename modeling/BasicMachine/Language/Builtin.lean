import BasicMachine.Instruction.Basic

/-!
# Built-in functions

A call leaves its arguments on the stack, the last on top, and the function's code turns them into the result.
-/
namespace BasicMachine.Language

inductive Builtin
  | abs
  | atn
  | cos
  | exp
  | inkey
  | int
  | key
  | len
  | log
  | peek
  | point
  | rnd
  | sgn
  | sin
  | sqr
  | tan
  deriving DecidableEq, Repr

namespace Builtin

def all : List Builtin :=
  [abs, atn, cos, exp, inkey, int, key, len, log, peek, point, rnd, sgn, sin, sqr, tan]

def name : Builtin → String
  | abs => "ABS"
  | atn => "ATN"
  | cos => "COS"
  | exp => "EXP"
  | inkey => "INKEY"
  | int => "INT"
  | key => "KEY"
  | len => "LEN"
  | log => "LOG"
  | peek => "PEEK"
  | point => "POINT"
  | rnd => "RND"
  | sgn => "SGN"
  | sin => "SIN"
  | sqr => "SQR"
  | tan => "TAN"

def arity : Builtin → Nat
  | inkey => 0
  | point => 2
  | _ => 1

/-- The single nearest to Euler's number. -/
def eulerWord : UInt32 := 0x402df854

def code : Builtin → Code
  | abs => [.plain (.unary .abs)]
  | atn => [.plain (.unary .atn)]
  | cos => [.plain (.unary .cos)]
  | exp => [.pushF eulerWord, .plain .swap, .plain (.binary .power)]
  | inkey => [.syscall .readKey .a, .plain (.pushReg .a)]
  | int => [.plain (.unary .floor)]
  | key => [.plain (.popReg .a), .syscall .keySet .a, .plain (.pushReg .a)]
  | len => [.plain .len]
  | log => [.plain (.unary .log)]
  | peek => [.plain (.unary .toPointer), .plain .popIdx, .plain .loadI]
  | point => [.syscall .getPixel .a, .plain (.pushReg .a)]
  | rnd => [.plain .rnd]
  | sgn => [.short .pushI 0, .plain .cmp]
  | sin => [.plain (.unary .sin)]
  | sqr => [.plain (.unary .sqr)]
  | tan => [.plain (.unary .tan)]

end Builtin

end BasicMachine.Language
