import BasicMachine.Single.Parts
import BasicMachine.Text.Numeral

/-!
# Reading singles

A sign, digits with a point, and an exponent, each but the digits optional; or the name of an infinity or of NaN.
The value is the nearest single, so that too large a number becomes an infinity.
-/
namespace BasicMachine.Single

/-- The nearest single to `mantissa · 10^exponent`. Powers of ten far outside the range are decided at once. -/
def ofDecimal (mantissa : Nat) (exponent : Int) : Float32 :=
  let point := (Nat.toDigits 10 mantissa).length + exponent
  if mantissa = 0 ∨ point < -60 then 0
  else if 60 < point then infinity
  else if 0 ≤ exponent then Float32.ofScientific mantissa false exponent.toNat
  else Float32.ofScientific mantissa true (-exponent).toNat

/-- The exponent after a number: none at all, or a mark and a signed number. -/
def exponent? : List Char → Option Int
  | [] => some 0
  | c :: rest => if c = 'e' ∨ c = 'E' then Numeral.signed? rest else none

/-- A magnitude in digits. -/
def digits? (cs : List Char) : Option Float32 :=
  let whole := cs.takeWhile Char.isDigit
  let (fraction, rest) := match cs.dropWhile Char.isDigit with
    | '.' :: more => (more.takeWhile Char.isDigit, more.dropWhile Char.isDigit)
    | rest => ([], rest)
  if whole.isEmpty && fraction.isEmpty then none
  else (exponent? rest).map fun exponent =>
    ofDecimal (Numeral.ofDigits (whole ++ fraction)) (exponent - fraction.length)

/-- The word of a magnitude: a number, or one of the names in any case. -/
def magnitude? (cs : List Char) : Option UInt32 :=
  let name := String.ofList (cs.map Char.toLower)
  if name == "inf" || name == "infinity" then some 0x7f800000
  else if name == "nan" then some 0x7fc00000
  else (digits? cs).map Float32.toBits

/-- The word of the single that a text spells; a sign shows in the word even on NaN. -/
def word? : List Char → Option UInt32
  | '-' :: rest => (magnitude? rest).map (0x80000000 ||| ·)
  | '+' :: rest => magnitude? rest
  | cs => magnitude? cs

def read? (cs : List Char) : Option Float32 := (word? cs).map Float32.ofBits

end BasicMachine.Single
