import BasicMachine.Single.Shortest

/-!
# Singles as text

Three spellings. The plain one, which PRINT uses, never has an exponent and drops the point of a whole number. The
literal one, which listings use, marks whole numbers with `.0` and writes very small and very large numbers with
an exponent. The exact one writes out every digit of a whole number.
-/
namespace BasicMachine.Single

/-- Digits around the decimal point; a whole number gets the digits `tail` after it. -/
def Decimal.positional (d : Decimal) (tail : List Char) : List Char :=
  if d.point ≤ 0 then ['0', '.'] ++ List.replicate (-d.point).toNat '0' ++ d.digits
  else
    let whole := d.point.toNat
    if d.digits.length ≤ whole then d.digits ++ List.replicate (whole - d.digits.length) '0' ++ tail
    else d.digits.take whole ++ ['.'] ++ d.digits.drop whole

/-- One digit, the others after a point, and the power of ten. -/
def Decimal.scientific (d : Decimal) : List Char :=
  let fraction := d.digits.drop 1
  d.digits.take 1 ++ (if fraction.isEmpty then [] else '.' :: fraction) ++ ['e'] ++ (toString (d.point - 1)).toList

/-- Sign and spelling, with the names of the numbers that have no digits. -/
def spelled (x : Float32) (zero : List Char) (digits : Parts → List Char) : String :=
  if x.isNaN then "NaN"
  else
    let p := parts x
    let magnitude :=
      if x.isInf then ['i', 'n', 'f'] else if p.mantissa = 0 then zero else digits p
    String.ofList (if p.negative then '-' :: magnitude else magnitude)

def plain (x : Float32) : String :=
  spelled x ['0'] fun p => (shortest p).positional []

/-- Magnitudes below 0.0001 and from 10^16 on are written with an exponent. -/
def literal (x : Float32) : String :=
  let scientific := x.abs < 1e-4 || 1e16 ≤ x.abs
  spelled x ['0', '.', '0'] fun p =>
    if scientific then (shortest p).scientific else (shortest p).positional ['.', '0']

/-- Every digit of a whole number, and one after the point. -/
def exact (x : Float32) : String :=
  spelled x ['0', '.', '0'] fun p => Nat.toDigits 10 p.whole ++ ['.', '0']

end BasicMachine.Single
