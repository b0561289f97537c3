/-!
# UTF-8

Bytes to characters, one character at a time. Where the bytes are no character, the longest part that could still
have begun one is taken off as a whole.
-/
namespace BasicMachine.Utf8

def isTail (b : UInt8) : Bool := 0x80 ≤ b && b ≤ 0xbf

/-- The bytes that may follow the first byte of a character of three or four bytes. -/
def mayFollow (first second : UInt8) : Bool :=
  if first == 0xe0 then 0xa0 ≤ second && second ≤ 0xbf
  else if first == 0xed then 0x80 ≤ second && second ≤ 0x9f
  else if first == 0xf0 then 0x90 ≤ second && second ≤ 0xbf
  else if first == 0xf4 then 0x80 ≤ second && second ≤ 0x8f
  else isTail second

def tailBits (b : UInt8) : Nat := b.toNat % 64

/-- The character that a byte and those after it begin with, and how many of those after it belong to it.
With `none` in place of the character, the byte and so many after it are one part that is no character. -/
def next (first : UInt8) (rest : List UInt8) : Option Char × Nat :=
  if first < 0x80 then (some (Char.ofNat first.toNat), 0)
  else if first < 0xc2 then (none, 0)
  else if first < 0xe0 then
    match rest with
    | b :: _ => if isTail b then (some (Char.ofNat (first.toNat % 32 * 64 + tailBits b)), 1) else (none, 0)
    | [] => (none, 0)
  else if first < 0xf0 then
    match rest with
    | b :: more =>
      if mayFollow first b then
        match more with
        | c :: _ =>
          if isTail c then
            (some (Char.ofNat ((first.toNat % 16 * 64 + tailBits b) * 64 + tailBits c)), 2)
          else (none, 1)
        | [] => (none, 1)
      else (none, 0)
    | [] => (none, 0)
  else if first < 0xf5 then
    match rest with
    | b :: more =>
      if mayFollow first b then
        match more with
        | c :: last =>
          if isTail c then
            match last with
            | d :: _ =>
              if isTail d then
                (some (Char.ofNat
                  (((first.toNat % 8 * 64 + tailBits b) * 64 + tailBits c) * 64 + tailBits d)), 3)
              else (none, 2)
            | [] => (none, 2)
          else (none, 1)
        | [] => (none, 1)
      else (none, 0)
    | [] => (none, 0)
  else (none, 0)

/-- The characters of some bytes, `none` for each part that is no character, after those in `before`, the last
first. -/
def scanFrom (before : List (Option Char)) : List UInt8 → List (Option Char)
  | [] => before.reverse
  | b :: rest => scanFrom ((next b rest).1 :: before) (rest.drop (next b rest).2)
termination_by bytes => bytes.length
decreasing_by simp only [List.length_drop, List.length_cons]; omega

def scan (bytes : List UInt8) : List (Option Char) := scanFrom [] bytes

/-- Every part that is no character becomes U+FFFD. -/
def decodeLossy (bytes : List UInt8) : String :=
  String.ofList ((scan bytes).map (·.getD '\ufffd'))

def decode? (bytes : List UInt8) : Option String :=
  ((scan bytes).mapM id).map String.ofList

def encode (s : String) : List UInt8 := s.toUTF8.data.toList

end BasicMachine.Utf8
