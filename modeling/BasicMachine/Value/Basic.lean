import BasicMachine.Error
import BasicMachine.Single.Text

/-!
# Values

What a memory cell, a register or a stack slot holds: nothing yet, a 16-bit integer, a single or the address of a
cell. The views below give the content of a value that has the kind asked for.
-/
namespace BasicMachine

/-- The greatest address that a packed value can hold. -/
def maxPointer : Nat := 0x1fffff

inductive Value
  | unset
  | integer (n : Int16)
  | float (x : Float32)
  | pointer (address : Nat)
  deriving DecidableEq

namespace Value

instance : Inhabited Value := ⟨unset⟩

def isUnset : Value → Bool
  | unset => true
  | _ => false

def isInteger : Value → Bool
  | integer _ => true
  | _ => false

def isFloat : Value → Bool
  | float _ => true
  | _ => false

def isPointer : Value → Bool
  | pointer _ => true
  | _ => false

/-- A truth value is 1 or 0. -/
def ofBool (b : Bool) : Value := integer (if b then 1 else 0)

def asInteger : Value → Except Error Int16
  | integer n => .ok n
  | _ => .error (.of .typeMismatch "EXPECTED INTEGER")

def asFloat : Value → Except Error Float32
  | float x => .ok x
  | _ => .error (.of .typeMismatch "EXPECTED FLOAT")

def asPointer : Value → Except Error Nat
  | pointer address => .ok address
  | _ => .error (.of .typeMismatch "EXPECTED POINTER")

/-- An integer or a single, as a single. -/
def asNumber : Value → Except Error Float32
  | integer n => .ok (Float32.ofInt n.toInt)
  | float x => .ok x
  | _ => .error (.of .typeMismatch "EXPECTED NUMBER")

def byteOf (n : Int) : Except Error UInt8 :=
  if 0 ≤ n ∧ n ≤ 255 then .ok (UInt8.ofNat n.toNat) else .error (.of .illegalFunctionCall "BYTE OUT OF RANGE")

/-- An integer or a truncated single from 0 to 255. -/
def asByte : Value → Except Error UInt8
  | integer n => byteOf n.toInt
  | float x => byteOf (Single.truncate x)
  | _ => .error (.of .typeMismatch "EXPECTED BYTE")

/-- Every number but zero is true. -/
def isTrue : Value → Except Error Bool
  | integer n => .ok (n != 0)
  | float x => .ok (x != 0)
  | _ => .error (.of .typeMismatch "EXPECTED NUMBER")

def text : Value → String
  | unset => "UNSET"
  | integer n => toString n.toInt
  | float x => if Single.isWhole x then Single.exact x else Single.plain x
  | pointer address => "@" ++ toString address

end Value

end BasicMachine
