import BasicMachine.Single.Parts

/-!
# Shortest decimals

The decimal with the fewest digits that reads back as a given single, and of those the nearest to it; an exact tie
goes up. All comparisons are between whole numbers.
-/
namespace BasicMachine.Single

/-- The decimal `0.d₁d₂… · 10^point`. -/
structure Decimal where
  digits : List Char
  point : Int
  deriving DecidableEq, Repr

/-- The position of the decimal point of `numerator / denominator`, given a power of ten at or below it. -/
def decimalPoint (numerator denominator : Nat) (below : Int) : Int :=
  if denominator * Nat.pow 10 (below + 1).toNat ≤ numerator * Nat.pow 10 (-(below + 1)).toNat then below + 2
  else below + 1

/-- The decimal of `count` digits, if one reads back. The single is `middle / scale`, and the decimals that read
back lie between `low / scale` and `high / scale`, the ends among them when `closed`. -/
def ofLength? (low middle high scale : Nat) (closed : Bool) (point : Int) (count : Nat) : Option Nat :=
  let up := Nat.pow 10 (count - point).toNat
  let unit := scale * Nat.pow 10 (point - count).toNat
  let below := middle * up / unit
  let belowReads := if closed then low * up ≤ below * unit else low * up < below * unit
  let aboveReads := if closed then (below + 1) * unit ≤ high * up else (below + 1) * unit < high * up
  if belowReads then
    if aboveReads && decide (unit ≤ 2 * (middle * up % unit)) then some (below + 1) else some below
  else if aboveReads then some (below + 1) else none

/-- The shortest decimal of a magnitude other than zero. Nine digits always read back. -/
def shortest (p : Parts) : Decimal :=
  let times := Nat.pow 2 (p.exponent - 2).toNat
  let scale := Nat.pow 2 (2 - p.exponent).toNat
  let middle := 4 * p.mantissa * times
  let low := (4 * p.mantissa - if p.mantissa = 0x800000 then 1 else 2) * times
  let high := (4 * p.mantissa + 2) * times
  let point := decimalPoint middle scale ((p.mantissa.log2 + p.exponent) * 30103 / 100000)
  let found := (List.range' 1 9).findSome? fun count =>
    (ofLength? low middle high scale (p.mantissa % 2 == 0) point count).map (·, count)
  let (number, count) := found.getD (0, 1)
  let digits := Nat.toDigits 10 number
  { digits := (digits.reverse.dropWhile (· == '0')).reverse
    point := point + (digits.length - count : Nat) }

end BasicMachine.Single
