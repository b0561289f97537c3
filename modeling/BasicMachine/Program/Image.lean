import BasicMachine.Program.Basic
import BasicMachine.Program.Checksum

/-!
# Program images

A program as a file: a mark, a version, entry, static size and code length, a checksum of the code, and the code.
Labels are not kept.
-/
namespace BasicMachine.Program

/-- The letters BVM and a zero byte. -/
def imageMark : List UInt8 := [0x42, 0x56, 0x4d, 0x00]

def imageVersion : UInt16 := 1

def headerSize : Nat := 22

def toImage (p : Program) : List UInt8 :=
  imageMark ++ bytes16 imageVersion ++ bytes32 (UInt32.ofNat p.entry) ++ bytes32 (UInt32.ofNat p.staticSize) ++
    bytes32 (UInt32.ofNat p.size) ++ bytes32 (Checksum.crc32 p.code.toList) ++ p.code.toList

/-- The 16-bit number at the start of some bytes. -/
def half : List UInt8 → UInt16
  | a :: b :: _ => a.toUInt16 ||| b.toUInt16 <<< 8
  | _ => 0

/-- The 32-bit number at the start of some bytes. -/
def word : List UInt8 → UInt32
  | a :: b :: c :: d :: _ =>
    a.toUInt32 ||| b.toUInt32 <<< 8 ||| c.toUInt32 <<< 16 ||| d.toUInt32 <<< 24
  | _ => 0

def badImage (detail : String) : Except Error Program := .error (.of .badImage detail)

/-- Mark, version, length and checksum are tested in this order. -/
def ofImage (image : List UInt8) : Except Error Program :=
  if image.length < headerSize ∨ image.take 4 ≠ imageMark then badImage "NOT AN IMAGE"
  else
    let version := half (image.drop 4)
    let code := image.drop headerSize
    if version ≠ imageVersion then badImage ("VERSION " ++ toString version.toNat)
    else if code.length ≠ (word (image.drop 14)).toNat then badImage "TRUNCATED"
    else if Checksum.crc32 code ≠ word (image.drop 18) then badImage "CHECKSUM"
    else
      .ok { code := code.toArray
            entry := (word (image.drop 6)).toNat
            staticSize := (word (image.drop 10)).toNat }

end BasicMachine.Program
