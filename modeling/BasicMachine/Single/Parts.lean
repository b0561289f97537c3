/-!
# Single-precision numbers as whole numbers

A finite single is a mantissa below 2^24 times a power of two. Truncation, the floor and the remainder of a
division are exact on these parts, so none of them rounds.
-/
namespace BasicMachine.Single

/-- The number `±mantissa · 2^exponent`. -/
structure Parts where
  negative : Bool
  mantissa : Nat
  exponent : Int
  deriving DecidableEq, Repr

/-- The parts of a finite single. An infinity comes out as the power of two above every finite single. -/
def parts (x : Float32) : Parts :=
  let word := x.toBits.toNat
  let fraction := word % 0x800000
  let biased := word / 0x800000 % 256
  { negative := 0x80000000 ≤ word
    mantissa := if biased = 0 then fraction else 0x800000 + fraction
    exponent := (max biased 1 : Nat) - 150 }

/-- The single with given parts, for a mantissa below 2^24 and an exponent from -149 to 104. -/
def ofParts (p : Parts) : Float32 :=
  let shift := min (23 - p.mantissa.log2) (p.exponent + 149).toNat
  let mantissa := p.mantissa <<< shift
  let biased := (p.exponent - shift + 150).toNat
  let magnitude := if mantissa < 0x800000 then mantissa else biased * 0x800000 + (mantissa - 0x800000)
  Float32.ofBits (UInt32.ofNat (if p.negative then 0x80000000 + magnitude else magnitude))

def nan : Float32 := Float32.ofBits 0x7fc00000

def infinity : Float32 := Float32.ofBits 0x7f800000

/-- The magnitude without its fraction. -/
def Parts.whole (p : Parts) : Nat :=
  if 0 ≤ p.exponent then p.mantissa <<< p.exponent.toNat else p.mantissa >>> (-p.exponent).toNat

/-- Whether the magnitude has a fraction. -/
def Parts.hasFraction (p : Parts) : Bool :=
  p.exponent < 0 && p.mantissa % (1 <<< (-p.exponent).toNat) != 0

/-- The number without its fraction; NaN counts as zero. -/
def truncate (x : Float32) : Int :=
  if x.isNaN then 0
  else if (parts x).negative then -((parts x).whole : Int) else (parts x).whole

/-- A finite number without a fraction. -/
def isWhole (x : Float32) : Bool := x.isFinite && !(parts x).hasFraction

/-- The nearest single towards zero that has no fraction. -/
def trunc (x : Float32) : Float32 :=
  if x.isFinite && (parts x).hasFraction then
    ofParts { parts x with mantissa := (parts x).whole, exponent := 0 }
  else x

/-- The greatest single without a fraction that is not above `x`. -/
def floor (x : Float32) : Float32 :=
  let p := parts x
  if x.isFinite && p.hasFraction then
    ofParts { p with mantissa := if p.negative then p.whole + 1 else p.whole, exponent := 0 }
  else x

/-- What is left of `x` after whole multiples of `y` are taken off towards zero; the sign is that of `x`. -/
def remainder (x y : Float32) : Float32 :=
  if x.isNaN || y.isNaN || x.isInf || y == 0 then nan
  else if y.isInf then x
  else
    let p := parts x
    let q := parts y
    let exponent := min p.exponent q.exponent
    let left := (p.mantissa <<< (p.exponent - exponent).toNat) % (q.mantissa <<< (q.exponent - exponent).toNat)
    ofParts { negative := p.negative, mantissa := left, exponent }

/-- The truncated value, if it fits 16 bits. -/
def int16? (x : Float32) : Option Int16 :=
  if x.isNaN then none
  else if -32768 ≤ truncate x ∧ truncate x ≤ 32767 then some (Int16.ofInt (truncate x)) else none

end BasicMachine.Single
