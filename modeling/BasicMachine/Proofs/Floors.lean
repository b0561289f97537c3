import BasicMachine.Proofs.Singles
import BasicMachine.Value.Arithmetic
import Mathlib.Data.Rat.Floor

/-!
# The whole part of a number

A finite single stands for a rational number. Where the floor of that number is an integer of 16 bits from zero on, it is
what INT gives.
-/
namespace BasicMachine

namespace Single

namespace Parts

variable {p : Parts}

/-- The number that the parts stand for. -/
def number (p : Parts) : ℚ := (if p.negative then -(p.mantissa : ℚ) else p.mantissa) * 2 ^ p.exponent

theorem floor_number (positive : p.negative = false) : ⌊p.number⌋ = p.whole := by
  rw [number, positive, if_neg Bool.false_ne_true, whole]
  by_cases above : 0 ≤ p.exponent
  · obtain ⟨k, exponent⟩ := Int.eq_ofNat_of_zero_le above
    rw [if_pos above, exponent, zpow_natCast, Int.toNat_natCast, Nat.shiftLeft_eq]
    exact_mod_cast Int.floor_natCast (p.mantissa * 2 ^ k)
  · obtain ⟨k, exponent⟩ := Int.eq_ofNat_of_zero_le (show 0 ≤ -p.exponent by omega)
    rw [if_neg above, exponent, Int.toNat_natCast, Nat.shiftRight_eq_div_pow]
    have power : (2 : ℚ) ^ p.exponent = ((2 ^ k : Nat) : ℚ)⁻¹ := by
      rw [← neg_neg p.exponent, exponent, zpow_neg, zpow_natCast, Nat.cast_pow, Nat.cast_ofNat]
    rw [power, ← div_eq_mul_inv]
    exact Rat.floor_natCast_div_natCast p.mantissa (2 ^ k)

/-- A number from zero on that has a minus sign is zero. -/
theorem mantissa_eq_zero (negative : p.negative = true) (floor : 0 ≤ ⌊p.number⌋) : p.mantissa = 0 := by
  rw [Int.floor_nonneg, number, if_pos negative] at floor
  have power : (0 : ℚ) < 2 ^ p.exponent := zpow_pos (by norm_num) _
  have sign : (0 : ℚ) ≤ -(p.mantissa : ℚ) := nonneg_of_mul_nonneg_left floor power
  exact_mod_cast (neg_nonneg.mp sign).antisymm (Nat.cast_nonneg p.mantissa)

end Parts

/-- Whole numbers are made of their parts. -/
theorem ofParts_whole {n : Nat} (pos : 0 < n) (small : n < 0x800000) :
    ofParts { negative := false, mantissa := n, exponent := 0 } = Float32.ofScientific n false 0 := by
  have bound : n.log2 < 23 := (Nat.log2_lt (by omega)).mpr small
  obtain ⟨low, -⟩ := wholeMantissa_bounds pos (show n < 0x1000000 by omega)
  have shift : min (23 - n.log2) ((0 : Int) + 149).toNat = 23 - n.log2 := by omega
  have biased : ((0 : Int) - (23 - n.log2 : Nat) + 150).toNat = n.log2 + 127 := by omega
  rw [← ofBits_toBits (Float32.ofScientific n false 0)]
  simp only [ofParts, shift, biased, Nat.shiftLeft_eq]
  rw [← wholeMantissa, if_neg (Nat.not_lt.mpr low), if_neg Bool.false_ne_true, ← toNat_toBits_ofScientific pos small,
    UInt32.ofNat_toNat]

variable {x : Float32} {i : Int}

theorem isNaN_of_isFinite (finite : x.isFinite = true) : x.isNaN = false := by
  revert finite
  show x.toModel.unpack.isFinite = true → x.toModel.unpack.isNaN = false
  cases x.toModel.unpack with
  | notANumber => exact fun finite => absurd finite (by decide)
  | _ => exact fun _ => rfl

theorem isNaN_floor_and_truncate_floor (finite : x.isFinite = true) (floor : ⌊(parts x).number⌋ = i) (low : 0 ≤ i)
    (high : i < 0x800000) : (Single.floor x).isNaN = false ∧ truncate (Single.floor x) = i := by
  cases negative : (parts x).negative with
  | false =>
    have whole : ((parts x).whole : Int) = i := (Parts.floor_number negative).symm.trans floor
    cases fraction : (parts x).hasFraction with
    | false =>
      have same : Single.floor x = x := by simp [Single.floor, fraction]
      rw [same, truncate, isNaN_of_isFinite finite, negative]
      exact ⟨rfl, whole⟩
    | true =>
      have made : Single.floor x = ofParts { negative := false, mantissa := (parts x).whole, exponent := 0 } := by
        simp [Single.floor, fraction, finite, negative]
      rw [made]
      rcases Nat.eq_zero_or_pos (parts x).whole with zero | pos
      · rw [zero] at whole ⊢
        rw [← whole]
        decide +kernel
      · rw [ofParts_whole pos (by omega), isNaN_ofScientific pos (by omega), truncate_ofScientific pos (by omega)]
        exact ⟨rfl, whole⟩
  | true =>
    -- only minus zero has a sign here
    have zero := Parts.mantissa_eq_zero negative (floor ▸ low)
    have whole : (parts x).whole = 0 := by simp [Parts.whole, zero]
    have same : Single.floor x = x := by simp [Single.floor, Parts.hasFraction, zero]
    have number : (parts x).number = 0 := by simp [Parts.number, zero]
    rw [number, Int.floor_zero] at floor
    rw [same, truncate, isNaN_of_isFinite finite, negative, whole, ← floor]
    exact ⟨rfl, rfl⟩

end Single

namespace Value

/-- The value is a number with the given floor. -/
def HasFloor (i : Int) : Value → Prop
  | integer n => n.toInt = i
  | float x => x.isFinite = true ∧ ⌊(Single.parts x).number⌋ = i
  | _ => False

theorem HasFloor.floor {i : Int} {v : Value} (h : v.HasFloor i) (low : 0 ≤ i) (high : i < 0x8000) :
    v.floor = .ok (.integer (Int16.ofInt i)) := by
  cases v with
  | integer n =>
    obtain rfl : n.toInt = i := h
    rw [Value.floor, Int16.ofInt_toInt]
  | float x =>
    obtain ⟨finite, floor⟩ := h
    obtain ⟨number, same⟩ := Single.isNaN_floor_and_truncate_floor finite floor low (by omega)
    have fits : Single.int16? (Single.floor x) = some (Int16.ofInt i) := by
      rw [Single.int16?, number, same, if_neg Bool.false_ne_true, if_pos ⟨by omega, by omega⟩]
    rw [Value.floor, fits]
  | _ => exact h.elim

end Value

end BasicMachine
