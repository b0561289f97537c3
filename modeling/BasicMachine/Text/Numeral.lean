/-!
# Numerals

Decimal and hexadecimal text of natural numbers, and the readers for the numbers that programs, assembly lines
and command lines may spell. A reader takes the whole text or nothing.
-/
namespace BasicMachine.Numeral

/-- Upper-case hexadecimal, filled with zeros to `width` digits. -/
def hex (width n : Nat) : String :=
  let digits := (Nat.toDigits 16 n).map Char.toUpper
  String.ofList (List.replicate (width - digits.length) '0' ++ digits)

/-- The number that a list of decimal digits spells. -/
def ofDigits (cs : List Char) : Nat :=
  cs.foldl (fun n c => 10 * n + (c.toNat - '0'.toNat)) 0

/-- One or more decimal digits. -/
def digits? (cs : List Char) : Option Nat :=
  if !cs.isEmpty && cs.all Char.isDigit then some (ofDigits cs) else none

/-- Decimal digits after an optional plus sign, up to `limit`. -/
def unsigned? (limit : Nat) (cs : List Char) : Option Nat :=
  let digits := match cs with
    | '+' :: rest => rest
    | _ => cs
  (digits? digits).filter (· ≤ limit)

/-- Decimal digits after an optional sign. -/
def signed? : List Char → Option Int
  | '-' :: rest => (digits? rest).map fun n => -(n : Int)
  | '+' :: rest => (digits? rest).map Int.ofNat
  | cs => (digits? cs).map Int.ofNat

/-- A signed number that fits 16 bits. -/
def int16? (cs : List Char) : Option Int16 :=
  match signed? cs with
  | some n => if -32768 ≤ n ∧ n ≤ 32767 then some (Int16.ofInt n) else none
  | none => none

/-- The value of a hexadecimal digit of either case. -/
def hexDigit? (c : Char) : Option Nat :=
  if c.isDigit then some (c.toNat - '0'.toNat)
  else if 'a' ≤ c ∧ c ≤ 'f' then some (c.toNat - 'a'.toNat + 10)
  else if 'A' ≤ c ∧ c ≤ 'F' then some (c.toNat - 'A'.toNat + 10)
  else none

/-- One or more hexadecimal digits after an optional plus sign. -/
def hexadecimal? (cs : List Char) : Option Nat :=
  let digits := match cs with
    | '+' :: rest => rest
    | _ => cs
  if digits.isEmpty then none
  else digits.foldlM (fun n c => (hexDigit? c).map (16 * n + ·)) 0

end BasicMachine.Numeral
