/-!
# Checksum

The IEEE CRC-32 of a sequence of bytes, one bit at a time.
-/
namespace BasicMachine.Checksum

/-- The reversed generator polynomial. -/
def polynomial : UInt32 := 0xedb88320

def shift (register : UInt32) : UInt32 :=
  if register &&& 1 = 1 then (register >>> 1) ^^^ polynomial else register >>> 1

def step (register : UInt32) (byte : UInt8) : UInt32 :=
  shift (shift (shift (shift (shift (shift (shift (shift (register ^^^ byte.toUInt32))))))))

def crc32 (bytes : List UInt8) : UInt32 := bytes.foldl step 0xffffffff ^^^ 0xffffffff

end BasicMachine.Checksum
