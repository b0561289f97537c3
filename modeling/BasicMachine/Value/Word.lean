import BasicMachine.Value.Basic

/-!
# Packed values

A value packs into the 32 bits of a single. The kinds other than singles use words that are NaNs: integers the words
`FFC0xxxx`, addresses those from `FFE00000` on, and the unset value one word between them. Every NaN packs to one
canonical word, so no number is mistaken for another kind.
-/
namespace BasicMachine.Value

def nanWord : UInt32 := 0x7fc00000

def unsetWord : UInt32 := 0xffdfffff

def integerTag : UInt32 := 0xffc00000

def pointerTag : UInt32 := 0xffe00000

/-- The bits that tell integers and addresses from singles. -/
def tagMask : UInt32 := 0xffe00000

/-- The bits between tag and content of an integer word. -/
def spareMask : UInt32 := 0x001f0000

def addressMask : UInt32 := 0x001fffff

/-- An address loses all but its lowest 21 bits. -/
def toWord : Value → UInt32
  | unset => unsetWord
  | integer n => integerTag ||| n.toUInt16.toUInt32
  | float x => if x.isNaN then nanWord else x.toBits
  | pointer address => pointerTag ||| (UInt32.ofNat address &&& addressMask)

def ofWord (w : UInt32) : Value :=
  if w = unsetWord then unset
  else if w &&& tagMask = pointerTag then pointer (w &&& addressMask).toNat
  else if w &&& tagMask = integerTag then
    if w &&& spareMask = 0 then integer w.toUInt16.toInt16 else float Single.nan
  else float (Float32.ofBits w)

end BasicMachine.Value
