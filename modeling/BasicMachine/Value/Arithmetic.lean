import BasicMachine.Value.Basic

/-!
# Arithmetic

Operations on one and on two values. A sum, difference, product, power or negation of integers that leaves 16 bits
becomes a single; whole-number division that does so is an error. An integer may be added to or taken off an
address.
-/
namespace BasicMachine

/-- Operations on one value. -/
inductive Unary
  | negate
  | not
  | floor
  | toFloat
  | toPointer
  | abs
  | sqr
  | log
  | sin
  | cos
  | tan
  | atn
  deriving DecidableEq, Repr

/-- Operations on two values. -/
inductive Binary
  | add
  | subtract
  | multiply
  | divide
  | divideWhole
  | remainder
  | power
  | and
  | or
  deriving DecidableEq, Repr

namespace Value

def mismatch : Except Error Value := .error (.of .typeMismatch)

def fits16 (n : Int) : Bool := -32768 ≤ n && n ≤ 32767

/-- An integer if it fits 16 bits, otherwise the nearest single. -/
def ofInt (n : Int) : Value :=
  if fits16 n then integer (Int16.ofInt n) else float (Float32.ofInt n)

/-- The address `n` cells further on, negative where there is none. Addresses are words of 64 bits, and those with the
top bit set lie below zero. -/
def shifted (address : Nat) (n : Int) : Int :=
  if address ≤ 0x7fffffffffffffff then address + n else address + n - 0x10000000000000000

/-- A pointer moved by `n` cells. -/
def offset (address : Nat) (n : Int) : Except Error Value :=
  let target := shifted address n
  if target < 0 ∨ (maxPointer : Int) < target then .error (.of .memoryFault "POINTER ARITHMETIC")
  else .ok (pointer target.toNat)

def single (n : Int16) : Float32 := Float32.ofInt n.toInt

def negate : Value → Except Error Value
  | integer n => .ok (ofInt (-n.toInt))
  | float x => .ok (float (-x))
  | _ => mismatch

def add : Value → Value → Except Error Value
  | integer l, integer r => .ok (ofInt (l.toInt + r.toInt))
  | integer l, float r => .ok (float (single l + r))
  | float l, integer r => .ok (float (l + single r))
  | float l, float r => .ok (float (l + r))
  | pointer p, integer n => offset p n.toInt
  | integer n, pointer p => offset p n.toInt
  | _, _ => mismatch

def subtract : Value → Value → Except Error Value
  | integer l, integer r => .ok (ofInt (l.toInt - r.toInt))
  | integer l, float r => .ok (float (single l - r))
  | float l, integer r => .ok (float (l - single r))
  | float l, float r => .ok (float (l - r))
  | pointer p, integer n => offset p (-n.toInt)
  | _, _ => mismatch

def multiply : Value → Value → Except Error Value
  | integer l, integer r => .ok (ofInt (l.toInt * r.toInt))
  | integer l, float r => .ok (float (single l * r))
  | float l, integer r => .ok (float (l * single r))
  | float l, float r => .ok (float (l * r))
  | _, _ => mismatch

/-- Always a single; division by zero gives an infinity or NaN. -/
def divide (l r : Value) : Except Error Value := do
  let x ← l.asNumber
  let y ← r.asNumber
  return float (x / y)

def toInt16 (x : Float32) : Except Error Int16 :=
  match Single.int16? x with
  | some n => .ok n
  | none => .error (.of .overflow)

/-- Division of truncated operands, truncated. -/
def divideWhole : Value → Value → Except Error Value
  | integer l, integer r =>
    if r = 0 then .error (.of .divisionByZero)
    else
      let quotient := Int.tdiv l.toInt r.toInt
      if fits16 quotient then .ok (integer (Int16.ofInt quotient)) else .error (.of .overflow)
  | l, r => do
    let x := Single.trunc (← l.asNumber)
    let y := Single.trunc (← r.asNumber)
    if y == 0 then throw (.of .divisionByZero)
    return integer (← toInt16 (x / y))

/-- What division towards zero leaves, with the sign of the left operand. -/
def remainder : Value → Value → Except Error Value
  | integer l, integer r =>
    if r = 0 then .error (.of .divisionByZero) else .ok (integer (Int16.ofInt (Int.tmod l.toInt r.toInt)))
  | l, r => do
    let y ← r.asNumber
    if y == 0 then throw (.of .divisionByZero)
    let x ← l.asNumber
    return float (Single.remainder x y)

/-- `result · base^n` in double precision, by squaring. -/
def powerFrom (base result : Float) (n : Nat) : Float :=
  let result := if n % 2 = 1 then result * base else result
  if n < 2 then result else powerFrom (base * base) result (n / 2)
termination_by n

/-- A power with a whole exponent from zero on is an integer where it fits, computed in double precision. -/
def power : Value → Value → Except Error Value
  | integer l, integer r =>
    if 0 ≤ r then
      let result := powerFrom (Float.ofInt l.toInt) 1 r.toInt.toNat
      if -32768 ≤ result ∧ result ≤ 32767 then .ok (integer (Int16.ofInt (Int.pow l.toInt r.toInt.toNat)))
      else .ok (float result.toFloat32)
    else .ok (float ((single l).pow (single r)))
  | l, r => do
    let x ← l.asNumber
    let y ← r.asNumber
    return float (x.pow y)

/-- The 16 bits that AND and OR work on. -/
def bits : Value → Except Error Int16
  | integer n => .ok n
  | float x => toInt16 x
  | _ => .error (.of .typeMismatch)

/-- The greatest whole number not above the value, as an integer where it fits. -/
def floor : Value → Except Error Value
  | integer n => .ok (integer n)
  | float x =>
    match Single.int16? (Single.floor x) with
    | some n => .ok (integer n)
    | none => .ok (float (Single.floor x))
  | pointer p => if p ≤ 32767 then .ok (integer (Int16.ofNat p)) else .error (.of .overflow)
  | unset => mismatch

def toPointer : Value → Except Error Value
  | pointer p => .ok (pointer p)
  | integer n => if 0 ≤ n then .ok (pointer n.toInt.toNat) else .error (.of .illegalFunctionCall "NOT AN ADDRESS")
  | float x =>
    if 0 ≤ x ∧ x ≤ Float32.ofNat maxPointer then .ok (pointer (Single.truncate x).toNat)
    else .error (.of .illegalFunctionCall "NOT AN ADDRESS")
  | unset => mismatch

def abs : Value → Except Error Value
  | integer n => .ok (ofInt n.toInt.natAbs)
  | float x => .ok (float x.abs)
  | _ => mismatch

def sqr (v : Value) : Except Error Value := do
  let x ← v.asNumber
  if x < 0 then throw (.of .illegalFunctionCall "SQR")
  return float x.sqrt

def log (v : Value) : Except Error Value := do
  let x ← v.asNumber
  if x ≤ 0 then throw (.of .illegalFunctionCall "LOG")
  return float x.log

/-- A function of singles, applied to any number. -/
def ofNumber (f : Float32 → Float32) (v : Value) : Except Error Value := do
  return float (f (← v.asNumber))

end Value

def Unary.apply : Unary → Value → Except Error Value
  | negate, v => v.negate
  | not, v => do return .ofBool !(← v.isTrue)
  | floor, v => v.floor
  | toFloat, v => v.ofNumber id
  | toPointer, v => v.toPointer
  | abs, v => v.abs
  | sqr, v => v.sqr
  | log, v => v.log
  | sin, v => v.ofNumber Float32.sin
  | cos, v => v.ofNumber Float32.cos
  | tan, v => v.ofNumber Float32.tan
  | atn, v => v.ofNumber Float32.atan

def Binary.apply : Binary → Value → Value → Except Error Value
  | add, l, r => l.add r
  | subtract, l, r => l.subtract r
  | multiply, l, r => l.multiply r
  | divide, l, r => l.divide r
  | divideWhole, l, r => l.divideWhole r
  | remainder, l, r => l.remainder r
  | power, l, r => l.power r
  | and, l, r => do return .integer ((← l.bits) &&& (← r.bits))
  | or, l, r => do return .integer ((← l.bits) ||| (← r.bits))

end BasicMachine
