import BasicMachine.Value.Basic
import Mathlib.Data.Nat.Digits.Defs

/-!
# Decimals of singles

The shortest decimal of a number lies so near to it that a number with a fraction is never written as a whole one.
-/
namespace BasicMachine.Single

/-- The estimate of the decimal point never lies above the number. -/
theorem estimate_le {k : Int} (low : -149 ≤ k) (high : k ≤ 22) :
    2 ^ (-k).toNat * 10 ^ (k * 30103 / 100000).toNat ≤ 2 ^ k.toNat * 10 ^ (-(k * 30103 / 100000)).toNat := by
  have table : ∀ j : Nat, j < 172 → 2 ^ (149 - j) * 10 ^ (((j : Int) - 149) * 30103 / 100000).toNat ≤
      2 ^ (j - 149) * 10 ^ (-(((j : Int) - 149) * 30103 / 100000)).toNat := by
    decide +kernel
  have entry := table (k + 149).toNat (by omega)
  rwa [show (((k + 149).toNat : Nat) : Int) - 149 = k by omega, show 149 - (k + 149).toNat = (-k).toNat by omega,
    show (k + 149).toNat - 149 = k.toNat by omega] at entry

/-- The power of ten with exponent `e` does not lie above `numerator / denominator`. -/
def PowerBelow (numerator denominator : Nat) (e : Int) : Prop :=
  denominator * 10 ^ e.toNat ≤ numerator * 10 ^ (-e).toNat

theorem powerBelow_decimalPoint {numerator denominator : Nat} {below : Int}
    (h : PowerBelow numerator denominator below) :
    PowerBelow numerator denominator (decimalPoint numerator denominator below - 1) := by
  unfold decimalPoint
  split
  next test => rwa [show below + 2 - 1 = below + 1 by omega]
  next => rwa [show below + 1 - 1 = below by omega]

section
variable {low middle high scale count n : Nat} {closed : Bool} {point : Int}

/-- Of the two neighbours of the number only one that reads back is taken. -/
theorem ofLength?_cases (h : ofLength? low middle high scale closed point count = some n) :
    let up := 10 ^ (count - point).toNat
    let unit := scale * 10 ^ (point - count).toNat
    (n = middle * up / unit ∧ low * up ≤ n * unit) ∨ (n = middle * up / unit + 1 ∧ n * unit ≤ high * up) := by
  have taken {first second : Prop} [Decidable first] [Decidable second] {nearer : Bool} {k : Nat}
      (h : (if first then if decide second && nearer then some (k + 1) else some k
        else if second then some (k + 1) else none) = some n) : (n = k ∧ first) ∨ (n = k + 1 ∧ second) := by
    by_cases lower : first <;> by_cases upper : second <;> by_cases near : nearer = true <;> simp_all
  have ordered {a b : Nat} (reads : if closed then a ≤ b else a < b) : a ≤ b := by
    split at reads
    · exact reads
    · exact Nat.le_of_lt reads
  rcases taken h with ⟨rfl, reads⟩ | ⟨rfl, reads⟩
  · exact .inl ⟨rfl, ordered reads⟩
  · exact .inr ⟨rfl, ordered reads⟩

/-- A decimal that reads back lies between the ends, and not below the digits of the number itself. -/
theorem ofLength?_bounds (below : low ≤ middle) (above : middle ≤ high) (pos : 0 < scale)
    (h : ofLength? low middle high scale closed point count = some n) :
    let up := 10 ^ (count - point).toNat
    let unit := scale * 10 ^ (point - count).toNat
    low * up ≤ n * unit ∧ n * unit ≤ high * up ∧ middle * up / unit ≤ n := by
  have cases := ofLength?_cases h
  dsimp only at cases ⊢
  have unitPos : 0 < scale * 10 ^ (point - count).toNat := Nat.mul_pos pos (Nat.pow_pos (by decide))
  generalize scale * 10 ^ (point - count).toNat = unit at *
  generalize 10 ^ (count - point).toNat = up at *
  have left := Nat.mul_le_mul_right up below
  have right := Nat.mul_le_mul_right up above
  have floor := Nat.div_mul_le_self (middle * up) unit
  have next : middle * up < (middle * up / unit + 1) * unit := by
    rw [Nat.add_mul, Nat.one_mul]
    exact Nat.lt_div_mul_add unitPos
  rcases cases with ⟨rfl, reads⟩ | ⟨rfl, reads⟩
  · exact ⟨reads, Nat.le_trans floor right, Nat.le_refl _⟩
  · exact ⟨by omega, reads, Nat.le_succ _⟩

end

/-- Leading digits of a number at or above a power of ten. -/
theorem PowerBelow.scaled {numerator denominator : Nat} {e : Int} (h : PowerBelow numerator denominator e) (c : Nat) :
    10 ^ c * (denominator * 10 ^ (e - c).toNat) ≤ numerator * 10 ^ (c - e).toNat := by
  unfold PowerBelow at h
  by_cases above : (c : Int) ≤ e
  · have whole : 10 ^ c * 10 ^ (e - c).toNat = 10 ^ e.toNat := by
      rw [← Nat.pow_add]
      congr 1
      omega
    rw [Nat.mul_left_comm, whole, show (c - e).toNat = (-e).toNat by omega]
    exact h
  · have none : (e - c).toNat = 0 := by omega
    have wide : 10 ^ e.toNat * 10 ^ (c - e).toNat = 10 ^ c * 10 ^ (-e).toNat := by
      rw [← Nat.pow_add, ← Nat.pow_add]
      congr 1
      omega
    have grown := Nat.mul_le_mul_right (10 ^ (c - e).toNat) h
    rw [Nat.mul_assoc, wide, Nat.mul_right_comm, ← Nat.mul_assoc] at grown
    rw [none, Nat.pow_zero, Nat.mul_one, Nat.mul_comm]
    exact Nat.le_of_mul_le_mul_right grown (Nat.pow_pos (by decide))

section
variable {low middle high scale count : Nat} {closed : Bool} {point : Int}

theorem pow_le_digits (pos : 0 < scale) (h : PowerBelow middle scale (point - 1)) (any : 1 ≤ count) :
    10 ^ (count - 1) ≤ middle * 10 ^ (count - point).toNat / (scale * 10 ^ (point - count).toNat) := by
  rw [Nat.le_div_iff_mul_le (Nat.mul_pos pos (Nat.pow_pos (by decide)))]
  have scaled := h.scaled (count - 1)
  rwa [show point - 1 - ((count - 1 : Nat) : Int) = point - count by omega,
    show ((count - 1 : Nat) : Int) - (point - 1) = count - point by omega] at scaled

/-- So many digits read back that their last place is finer than the distance to the lower end. -/
theorem isSome_ofLength? (pos : 0 < scale) (h : PowerBelow middle scale (point - 1)) (any : 1 ≤ count)
    (fine : middle < 10 ^ (count - 1) * (middle - low)) :
    (ofLength? low middle high scale closed point count).isSome = true := by
  have reads : low * 10 ^ (count - point).toNat < middle * 10 ^ (count - point).toNat /
      (scale * 10 ^ (point - count).toNat) * (scale * 10 ^ (point - count).toNat) := by
    have unitPos : 0 < scale * 10 ^ (point - count).toNat := Nat.mul_pos pos (Nat.pow_pos (by decide))
    have upPos : 0 < 10 ^ (count - point).toNat := Nat.pow_pos (by decide)
    have leading := (Nat.le_div_iff_mul_le unitPos).mp (pow_le_digits pos h any)
    generalize scale * 10 ^ (point - count).toNat = unit at *
    generalize 10 ^ (count - point).toNat = up at *
    have finer : unit < (middle - low) * up := by
      refine Nat.lt_of_mul_lt_mul_left (a := 10 ^ (count - 1)) ?_
      rw [← Nat.mul_assoc]
      exact Nat.lt_of_le_of_lt leading (Nat.mul_lt_mul_of_pos_right fine upPos)
    have next := Nat.lt_div_mul_add (a := middle * up) unitPos
    rw [Nat.sub_mul] at finer
    omega
  have taken {a b k : Nat} {second nearer : Prop} [Decidable second] [Decidable nearer] (reads : a < b) :
      (if (if closed then a ≤ b else a < b) then if nearer then some (k + 1) else some k
        else if second then some (k + 1) else none).isSome = true := by
    rw [if_pos]
    · split <;> rfl
    · split
      · exact Nat.le_of_lt reads
      · exact reads
  exact taken reads

end

/-- As many zeros as a numeral ends with, so often ten divides the number. -/
theorem pow_dvd_of_zeros (n : Nat) :
    10 ^ ((Nat.toDigits 10 n).length - ((Nat.toDigits 10 n).reverse.dropWhile (· == '0')).length) ∣ n := by
  induction n using Nat.strongRecOn with
  | _ n ih =>
    by_cases single : n < 10
    · rw [Nat.toDigits_of_lt_base single]
      clear ih
      revert n
      decide
    · rw [Nat.toDigits_of_base_le (by decide) (by omega), List.reverse_append, List.reverse_singleton,
        List.singleton_append, List.dropWhile_cons, List.length_append]
      have shorter := (List.dropWhile_sublist (· == '0') (l := (Nat.toDigits 10 (n / 10)).reverse)).length_le
      rw [List.length_reverse] at shorter
      split
      next zero =>
        have last : n % 10 = 0 := by
          have all : ∀ k < 10, (k.digitChar == '0') = true → k = 0 := by decide
          exact all _ (Nat.mod_lt n (by decide)) zero
        obtain ⟨k, tens⟩ := ih (n / 10) (by omega)
        refine ⟨k, ?_⟩
        rw [List.length_singleton, Nat.sub_add_comm shorter, Nat.pow_succ, Nat.mul_right_comm, ← tens]
        omega
      next => simp

/-- A number with a fraction, as its mantissa and exponent. -/
structure Parts.Fractional (p : Parts) : Prop where
  small : p.mantissa < 0x1000000
  low : -149 ≤ p.exponent
  high : p.exponent < 0
  rest : p.mantissa % 2 ^ (-p.exponent).toNat ≠ 0

namespace Parts.Fractional

variable {p : Parts} (h : p.Fractional)
include h

theorem pos : 0 < p.mantissa := by
  refine Nat.pos_of_ne_zero fun zero => h.rest ?_
  rw [zero, Nat.zero_mod]

theorem powerBelow_estimate :
    PowerBelow (4 * p.mantissa) (2 ^ (2 - p.exponent).toNat) ((p.mantissa.log2 + p.exponent) * 30103 / 100000) := by
  have pos := h.pos
  have low := h.low
  have high := h.high
  have bits : p.mantissa.log2 < 24 := (Nat.log2_lt (by omega)).mpr h.small
  have least : 2 ^ p.mantissa.log2 ≤ p.mantissa := Nat.log2_self_le (by omega)
  generalize hk : (p.mantissa.log2 : Int) + p.exponent = k at *
  have estimate := estimate_le (k := k) (by omega) (by omega)
  have split : 2 ^ (2 - p.exponent).toNat * 2 ^ k.toNat = 4 * 2 ^ p.mantissa.log2 * 2 ^ (-k).toNat := by
    rw [show 4 = 2 ^ 2 from rfl, ← Nat.pow_add, ← Nat.pow_add, ← Nat.pow_add]
    congr 1
    omega
  generalize k * 30103 / 100000 = b at *
  unfold PowerBelow
  refine Nat.le_of_mul_le_mul_left ?_ (Nat.two_pow_pos k.toNat)
  calc 2 ^ k.toNat * (2 ^ (2 - p.exponent).toNat * 10 ^ b.toNat)
      = 4 * 2 ^ p.mantissa.log2 * (2 ^ (-k).toNat * 10 ^ b.toNat) := by
        rw [← Nat.mul_assoc, Nat.mul_comm (2 ^ k.toNat), split, Nat.mul_assoc]
    _ ≤ 4 * p.mantissa * (2 ^ k.toNat * 10 ^ (-b).toNat) :=
        Nat.mul_le_mul (Nat.mul_le_mul_left 4 least) estimate
    _ = 2 ^ k.toNat * (4 * p.mantissa * 10 ^ (-b).toNat) := by
        rw [Nat.mul_left_comm]

/-- The digits of a number with a fraction stand for a decimal less than half a place of the mantissa away. -/
theorem shortest_eq : ∃ (number count : Nat) (point : Int),
    1 ≤ count ∧ 10 ^ (count - 1) ≤ number ∧
      (4 * p.mantissa - 2) * 10 ^ (count - point).toNat ≤
        number * (2 ^ (2 - p.exponent).toNat * 10 ^ (point - count).toNat) ∧
      number * (2 ^ (2 - p.exponent).toNat * 10 ^ (point - count).toNat) ≤
        (4 * p.mantissa + 2) * 10 ^ (count - point).toNat ∧
      shortest p = {
        digits := ((Nat.toDigits 10 number).reverse.dropWhile (· == '0')).reverse
        point := point + ((Nat.toDigits 10 number).length - count : Nat) } := by
  have pos := h.pos
  have small := h.small
  have exponent := h.high
  have times : Nat.pow 2 (p.exponent - 2).toNat = 1 := by
    rw [show (p.exponent - 2).toNat = 0 by omega, Nat.pow_eq, Nat.pow_zero]
  have scalePos : 0 < 2 ^ (2 - p.exponent).toNat := Nat.two_pow_pos _
  let low := 4 * p.mantissa - if p.mantissa = 0x800000 then 1 else 2
  have near : 4 * p.mantissa - 2 ≤ low ∧ low < 4 * p.mantissa := by
    simp only [low]
    split <;> omega
  let point := decimalPoint (4 * p.mantissa) (2 ^ (2 - p.exponent).toNat) ((p.mantissa.log2 + p.exponent) * 30103 / 100000)
  have below : PowerBelow (4 * p.mantissa) (2 ^ (2 - p.exponent).toNat) (point - 1) :=
    powerBelow_decimalPoint h.powerBelow_estimate
  let candidate (count : Nat) : Option (Nat × Nat) :=
    (ofLength? low (4 * p.mantissa) (4 * p.mantissa + 2) (2 ^ (2 - p.exponent).toNat) (p.mantissa % 2 == 0) point
      count).map (·, count)
  have readable : ((List.range' 1 9).findSome? candidate).isSome = true := by
    refine List.findSome?_isSome_iff.mpr ⟨9, by decide, ?_⟩
    rw [Option.isSome_map]
    exact isSome_ofLength? scalePos below (by decide) (by omega)
  obtain ⟨⟨number, count⟩, found⟩ := Option.isSome_iff_exists.mp readable
  obtain ⟨_, counted, taken⟩ := List.exists_of_findSome?_eq_some found
  obtain ⟨_, read, same⟩ := Option.map_eq_some_iff.mp taken
  cases same
  have any : 1 ≤ count := (List.mem_range'_1.mp counted).1
  obtain ⟨least, greatest, digits⟩ := ofLength?_bounds (by omega) (by omega) scalePos read
  refine ⟨number, count, point, any, Nat.le_trans (pow_le_digits scalePos below any) digits,
    Nat.le_trans (Nat.mul_le_mul_right _ near.1) least, greatest, ?_⟩
  simp only [shortest, times, Nat.mul_one]
  exact congrArg (fun o : Option (Nat × Nat) => ({
    digits := ((Nat.toDigits 10 (o.getD (0, 1)).1).reverse.dropWhile (· == '0')).reverse
    point := point + ((Nat.toDigits 10 (o.getD (0, 1)).1).length - (o.getD (0, 1)).2 : Nat) } : Decimal)) found

/-- No decimal so near to a number with a fraction is whole. -/
theorem not_whole (n : Nat) {up : Nat} (pos : 0 < up)
    (least : (4 * p.mantissa - 2) * up ≤ n * 2 ^ (2 - p.exponent).toNat * up)
    (greatest : n * 2 ^ (2 - p.exponent).toNat * up ≤ (4 * p.mantissa + 2) * up) : False := by
  have below := Nat.le_of_mul_le_mul_right least pos
  have above := Nat.le_of_mul_le_mul_right greatest pos
  have exponent := h.high
  have scale : 2 ^ (2 - p.exponent).toNat = 4 * 2 ^ (-p.exponent).toNat := by
    rw [show (2 - p.exponent).toNat = 2 + (-p.exponent).toNat by omega, Nat.pow_add]
  rw [scale, Nat.mul_left_comm] at below above
  have whole : p.mantissa = n * 2 ^ (-p.exponent).toNat := by omega
  exact h.rest (whole ▸ Nat.mul_mod_left n _)

/-- The text of a number with a fraction has a point. -/
theorem point_mem_positional : '.' ∈ (shortest p).positional [] := by
  obtain ⟨number, count, point, any, digits, least, greatest, eq⟩ := h.shortest_eq
  have length : count ≤ (Nat.toDigits 10 number).length := by
    refine Nat.le_of_not_lt fun fewer => ?_
    have few : (Nat.toDigits 10 number).length ≤ count - 1 := by omega
    have somewhat : 0 < count - 1 := Nat.lt_of_lt_of_le Nat.length_toDigits_pos few
    have less := (Nat.length_toDigits_le_iff (by decide) somewhat).mp few
    omega
  have zeros := pow_dvd_of_zeros number
  rw [eq, Decimal.positional]
  dsimp only
  split
  · simp
  next positive =>
    split
    next whole =>
      exfalso
      rw [List.length_reverse] at whole
      by_cases wide : (count : Int) ≤ point
      · rw [show (count - point).toNat = 0 by omega, Nat.pow_zero, Nat.mul_comm (2 ^ _), ← Nat.mul_assoc,
          ← Nat.mul_one (_ * 2 ^ (2 - p.exponent).toNat)] at least greatest
        exact h.not_whole _ Nat.one_pos least greatest
      · obtain ⟨n, rfl⟩ := Nat.dvd_trans (Nat.pow_dvd_pow 10 (m := (count - point).toNat) (by omega)) zeros
        rw [show (point - count).toNat = 0 by omega, Nat.pow_zero, Nat.mul_one, Nat.mul_comm (10 ^ _),
          Nat.mul_right_comm] at least greatest
        exact h.not_whole n (Nat.pow_pos (by decide)) least greatest
    next => simp

end Parts.Fractional

theorem fractional_parts {x : Float32} (h : (parts x).hasFraction = true) : (parts x).Fractional := by
  obtain ⟨high, rest⟩ := Bool.and_eq_true_iff.mp h
  rw [Nat.one_shiftLeft] at rest
  refine ⟨?_, ?_, of_decide_eq_true high, bne_iff_ne.mp rest⟩
  · simp only [parts]
    split <;> omega
  · simp only [parts]
    omega

/-- A character of a number other than NaN. -/
def isSpelling (c : Char) : Bool := c.isDigit || c ∈ ['-', '.', 'e', 'i', 'n', 'f']

theorem isSpelling_of_isDigit {c : Char} (h : c.isDigit = true) : isSpelling c = true := by
  rw [isSpelling, h, Bool.true_or]

theorem all_toDigits (n : Nat) : (Nat.toDigits 10 n).all isSpelling = true :=
  List.all_eq_true.mpr fun _ h => isSpelling_of_isDigit (Nat.isDigit_of_mem_toDigits (by decide) (by decide) h)

theorem all_shortest (p : Parts) : (shortest p).digits.all isSpelling = true := by
  rw [shortest, List.all_reverse]
  exact List.all_eq_true.mpr fun c h =>
    List.all_eq_true.mp (all_toDigits _) c (List.mem_reverse.mp ((List.dropWhile_sublist _).mem h))

theorem all_toString (n : Int) : (toString n).toList.all isSpelling = true := by
  cases n with
  | ofNat n =>
    rw [show (toString (Int.ofNat n)).toList = Nat.toDigits 10 n from Nat.toList_repr]
    exact all_toDigits n
  | negSucc n =>
    rw [show (toString (Int.negSucc n)).toList = "-".toList ++ (n + 1).repr.toList from String.toList_append,
      Nat.toList_repr, List.all_append, all_toDigits]
    rfl

section
variable {d : Decimal} (digits : d.digits.all isSpelling = true)
include digits

theorem all_positional {tail : List Char} (rest : tail.all isSpelling = true) :
    (d.positional tail).all isSpelling = true := by
  have taken (k : Nat) : (d.digits.take k).all isSpelling = true :=
    List.all_eq_true.mpr fun c h => List.all_eq_true.mp digits c (List.mem_of_mem_take h)
  have dropped (k : Nat) : (d.digits.drop k).all isSpelling = true :=
    List.all_eq_true.mpr fun c h => List.all_eq_true.mp digits c (List.mem_of_mem_drop h)
  have zeros (k : Nat) : (List.replicate k '0').all isSpelling = true :=
    List.all_eq_true.mpr fun c h => by rw [(List.mem_replicate.mp h).2]; rfl
  have zero : ['0', '.'].all isSpelling = true := rfl
  have point : ['.'].all isSpelling = true := rfl
  unfold Decimal.positional
  dsimp only
  split
  · simp only [List.all_append, zero, zeros, digits, Bool.and_self]
  · split
    · simp only [List.all_append, digits, zeros, rest, Bool.and_self]
    · simp only [List.all_append, taken, point, dropped, Bool.and_self]

theorem all_scientific : d.scientific.all isSpelling = true := by
  have taken : (d.digits.take 1).all isSpelling = true :=
    List.all_eq_true.mpr fun c h => List.all_eq_true.mp digits c (List.mem_of_mem_take h)
  have dropped : (d.digits.drop 1).all isSpelling = true :=
    List.all_eq_true.mpr fun c h => List.all_eq_true.mp digits c (List.mem_of_mem_drop h)
  have point : isSpelling '.' = true := rfl
  have mark : ['e'].all isSpelling = true := rfl
  unfold Decimal.scientific
  dsimp only
  split <;> simp only [List.all_append, List.all_cons, List.all_nil, taken, dropped, point, mark, all_toString,
    Bool.and_self]

end

section
variable {x : Float32} (number : x.isNaN = false)
include number

theorem all_spelled {zero : List Char} {digits : Parts → List Char} (none : zero.all isSpelling = true)
    (others : ∀ p, (digits p).all isSpelling = true) : (spelled x zero digits).toList.all isSpelling = true := by
  have sign : isSpelling '-' = true := rfl
  rw [spelled, number, if_neg Bool.false_ne_true]
  dsimp only
  rw [String.toList_ofList]
  have magnitude : (if x.isInf then ['i', 'n', 'f'] else
      if (parts x).mantissa = 0 then zero else digits (parts x)).all isSpelling = true := by
    split
    · rfl
    · split
      · exact none
      · exact others _
  split
  · rw [List.all_cons, sign, magnitude, Bool.and_self]
  · exact magnitude

theorem all_literal : (literal x).toList.all isSpelling = true := by
  unfold literal
  refine all_spelled number (by decide) fun p => ?_
  split
  · exact all_scientific (all_shortest p)
  · exact all_positional (all_shortest p) rfl

theorem all_text : (Value.float x).text.toList.all isSpelling = true := by
  rw [Value.text]
  split
  · refine all_spelled number rfl fun p => ?_
    rw [List.all_append, all_toDigits]
    rfl
  · exact all_spelled number rfl fun p => all_positional (all_shortest p) rfl

theorem isFinite_eq : x.isFinite = !x.isInf := by
  revert number
  show x.toModel.unpack.isNaN = false → x.toModel.unpack.isFinite = !x.toModel.unpack.isInf
  cases x.toModel.unpack with
  | notANumber => nofun
  | _ => exact fun _ => rfl

/-- The text of a single shows that it is no integer. -/
theorem marked_text :
    '.' ∈ (Value.float x).text.toList ∨ ∃ sign, (Value.float x).text.toList = sign ++ ['i', 'n', 'f'] := by
  have signed {b : Bool} {cs : List Char} (h : '.' ∈ cs) : '.' ∈ if b then '-' :: cs else cs := by
    split
    · exact List.mem_cons_of_mem _ h
    · exact h
  rw [Value.text]
  split
  next whole =>
    have finite : x.isInf = false := by
      have finite := (Bool.and_eq_true_iff.mp whole).1
      rwa [isFinite_eq number, Bool.not_eq_true'] at finite
    refine .inl ?_
    rw [exact, spelled, number, if_neg Bool.false_ne_true]
    dsimp only
    rw [String.toList_ofList, finite, if_neg Bool.false_ne_true]
    refine signed ?_
    split <;> simp
  next fraction =>
    rw [plain, spelled, number, if_neg Bool.false_ne_true]
    dsimp only
    rw [String.toList_ofList]
    by_cases infinite : x.isInf = true
    · rw [if_pos infinite]
      refine .inr ?_
      split
      · exact ⟨['-'], rfl⟩
      · exact ⟨[], rfl⟩
    · have finite : x.isFinite = true := by rw [isFinite_eq number, Bool.not_eq_true', Bool.eq_false_iff.mpr infinite]
      have part : (parts x).Fractional := fractional_parts (by simpa [isWhole, finite] using fraction)
      rw [if_neg infinite, if_neg (Nat.ne_of_gt part.pos)]
      exact .inl (signed part.point_mem_positional)

end

end BasicMachine.Single
