import BasicMachine.Single.Read
import BasicMachine.Value.Comparison
import Mathlib

/-!
# Singles that are exact

The bits of a single give the single back, the numerals of small whole numbers are read without rounding, and whole numbers
keep their order.
-/
namespace BasicMachine.Single

open Float.Model
open Float.Model.UnpackedFloat (packComponents packedNaN packedInfinity packedZero unpackMantissa unpackExponent
  unpackSign shiftToTargetExponent shiftToExponent roundWithAccuracy decreaseExponent ExtendedMantissa Sign)

section
variable (s : Sign) (e : BitVec 8) (m : BitVec 23) (b : BitVec 32)

theorem ofBitVec_toBitVec : Sign.ofBitVec s.toBitVec = s := by
  cases s <;> rfl

theorem toBitVec_ofBitVec (b : BitVec 1) : (Sign.ofBitVec b).toBitVec = b := by
  revert b
  decide

theorem packComponents_toNat :
    (packComponents .binary32 s e m).toNat = s.toBitVec.toNat * 0x80000000 + e.toNat * 0x800000 + m.toNat := by
  have low := m.isLt
  have middle := e.isLt
  simp only [packComponents, BitVec.toNat_append]
  rw [← Nat.shiftLeft_add_eq_or_of_lt (by simpa using low), ← Nat.shiftLeft_add_eq_or_of_lt (by simpa using middle)]
  simp only [Nat.shiftLeft_eq]
  omega

theorem unpackMantissa_toNat : (@unpackMantissa .binary32 b).toNat = b.toNat % 0x800000 := by
  simp [unpackMantissa]

theorem unpackExponent_toNat : (@unpackExponent .binary32 b).toNat = b.toNat / 0x800000 % 256 := by
  simp [unpackExponent, Nat.shiftRight_eq_div_pow]

theorem unpackSign_toNat : (@unpackSign .binary32 b).toNat = b.toNat / 0x80000000 % 2 := by
  simp [unpackSign, Nat.shiftRight_eq_div_pow]

/-- A word is its sign, its exponent and its mantissa. -/
theorem packComponents_unpack :
    packComponents .binary32 (Sign.ofBitVec (@unpackSign .binary32 b)) (@unpackExponent .binary32 b)
      (@unpackMantissa .binary32 b) = b := by
  apply BitVec.eq_of_toNat_eq
  have bound := b.isLt
  rw [packComponents_toNat, toBitVec_ofBitVec, unpackMantissa_toNat, unpackExponent_toNat, unpackSign_toNat]
  omega

theorem unpackSign_packComponents : @unpackSign .binary32 (packComponents .binary32 s e m) = s.toBitVec := by
  apply BitVec.eq_of_toNat_eq
  have low := m.isLt
  have middle := e.isLt
  have high := s.toBitVec.isLt
  rw [unpackSign_toNat, packComponents_toNat]
  omega

end

theorem log2_eq_of_normal {m : Nat} (low : 0x800000 ≤ m) (high : m < 0x1000000) : m.log2 = 23 :=
  (Nat.log2_eq_iff (by omega)).mpr ⟨low, high⟩

theorem log2_mul_two_pow {m : Nat} (some : m ≠ 0) (k : Nat) : (m * 2 ^ k).log2 = m.log2 + k := by
  induction k with
  | zero => simp
  | succ k ih =>
    have more : m * 2 ^ k ≠ 0 := Nat.mul_ne_zero some (Nat.ne_of_gt (Nat.two_pow_pos k))
    rw [Nat.pow_succ', Nat.mul_left_comm, Nat.log2_two_mul more, ih, Nat.add_assoc]

/-- The pattern of a normal number. -/
theorem pack_normal (s : Sign) {m : Nat} {e : Int} (pos : 0 < m) (low : 0x800000 ≤ m) (high : m < 0x1000000)
    (above : -150 < e) (below : e < 105) :
    UnpackedFloat.pack .binary32 (.finite s m e pos) =
      packComponents .binary32 s (BitVec.ofNat 8 (e + 150).toNat) (BitVec.ofNat 23 m) := by
  have bias : (e + (Format.binary32.exponentBias : Nat) + (23 : Nat)).toNat = (e + 150).toNat := by
    have : Format.binary32.exponentBias = 127 := rfl
    omega
  rw [UnpackedFloat.pack]
  simp only [bias, log2_eq_of_normal low high]
  rw [if_neg (by omega), if_pos (by decide)]

/-- The pattern of a number below the normal ones. -/
theorem pack_subnormal (s : Sign) {m : Nat} (pos : 0 < m) (high : m < 0x800000) :
    UnpackedFloat.pack .binary32 (.finite s m (-149) pos) = packComponents .binary32 s 0#8 (BitVec.ofNat 23 m) := by
  have small : m.log2 < 23 := (Nat.log2_lt (by omega)).mpr high
  have bits : m.log2 + 1 ≠ Format.binary32.mantissaBits := by
    have : Format.binary32.mantissaBits = 24 := rfl
    omega
  rw [UnpackedFloat.pack]
  simp only [bits, if_false]
  rfl

theorem append_toNat (m : BitVec 23) : (1#1 ++ m).toNat = 0x800000 + m.toNat := by
  rw [BitVec.toNat_append, ← Nat.shiftLeft_add_eq_or_of_lt m.isLt]
  rfl

/-- A normal number comes back from its pattern. -/
theorem unpack_pack_normal (s : Sign) {m : Nat} {e : Int} (pos : 0 < m) (low : 0x800000 ≤ m) (high : m < 0x1000000)
    (above : -150 < e) (below : e < 105) :
    UnpackedFloat.unpack .binary32 (UnpackedFloat.pack .binary32 (.finite s m e pos)) = .finite s m e pos := by
  have exponent : (BitVec.ofNat 8 (e + 150).toNat).toNat = (e + 150).toNat := by
    rw [BitVec.toNat_ofNat]
    omega
  have finite : BitVec.ofNat 8 (e + 150).toNat ≠ -1#8 := by
    intro h
    have same : (e + 150).toNat = 255 := exponent.symm.trans (congrArg BitVec.toNat h)
    omega
  have normal : BitVec.ofNat 8 (e + 150).toNat ≠ 0#8 := by
    intro h
    have same : (e + 150).toNat = 0 := exponent.symm.trans (congrArg BitVec.toNat h)
    omega
  have mantissa : (1#1 ++ BitVec.ofNat 23 m).toNat = m := by
    rw [append_toNat, BitVec.toNat_ofNat]
    omega
  have unbiased : ((e + 150).toNat : Int) - ((Format.binary32.exponentBias : Nat) + (23 : Nat)) = e := by
    have : Format.binary32.exponentBias = 127 := rfl
    omega
  rw [pack_normal s pos low high above below, UnpackedFloat.unpack]
  simp only [UnpackedFloat.unpackMantissa_packComponents, UnpackedFloat.unpackExponent_packComponents,
    unpackSign_packComponents, ofBitVec_toBitVec, finite, normal, if_false, mantissa, exponent, unbiased]

/-- The pattern of a number comes back from the number. -/
theorem pack_unpack {b : BitVec 32} (valid : Format.binary32.Valid b) :
    UnpackedFloat.pack .binary32 (UnpackedFloat.unpack .binary32 b) = b := by
  have parts := packComponents_unpack b
  have whole : (@unpackExponent .binary32 b).toNat < 256 := (@unpackExponent .binary32 b).isLt
  have fraction : (@unpackMantissa .binary32 b).toNat < 0x800000 := (@unpackMantissa .binary32 b).isLt
  rw [UnpackedFloat.unpack]
  by_cases top : @unpackExponent .binary32 b = -1#8
  · simp only [top, if_true]
    by_cases zero : @unpackMantissa .binary32 b = 0#23
    · rw [if_pos zero, UnpackedFloat.pack, packedInfinity]
      rw [top, zero] at parts
      exact parts
    · rw [if_neg zero]
      exact (valid.eq_packedNaN top zero).symm
  · simp only [top, if_false]
    by_cases least : @unpackExponent .binary32 b = 0#8
    · simp only [least, if_true]
      by_cases zero : @unpackMantissa .binary32 b = 0#23
      · rw [dif_pos zero, UnpackedFloat.pack, packedZero]
        rw [least, zero] at parts
        exact parts
      · rw [dif_neg zero]
        refine (pack_subnormal _ _ fraction).trans ?_
        rw [BitVec.ofNat_toNat, BitVec.setWidth_eq, ← least]
        exact parts
    · simp only [least, if_false]
      have below : (@unpackExponent .binary32 b).toNat ≠ 255 := fun h => top (BitVec.eq_of_toNat_eq h)
      have above : (@unpackExponent .binary32 b).toNat ≠ 0 := fun h => least (BitVec.eq_of_toNat_eq h)
      have bias : Format.binary32.exponentBias = 127 := rfl
      refine (pack_normal _ _ ?_ ?_ ?_ ?_).trans ?_
      · rw [append_toNat]
        omega
      · rw [append_toNat]
        omega
      · omega
      · omega
      · have biased : ((@unpackExponent .binary32 b).toNat - ((Format.binary32.exponentBias : Nat) + (23 : Nat)) + 150 :
            Int).toNat = (@unpackExponent .binary32 b).toNat := by omega
        have implicit : BitVec.ofNat 23 (1#1 ++ @unpackMantissa .binary32 b).toNat = @unpackMantissa .binary32 b := by
          apply BitVec.eq_of_toNat_eq
          rw [BitVec.toNat_ofNat, append_toNat]
          omega
        rw [biased, implicit, BitVec.ofNat_toNat, BitVec.setWidth_eq]
        exact parts

theorem ofBits_toBits (x : Float32) : Float32.ofBits x.toBits = x := by
  rcases x with ⟨⟨bits, valid⟩⟩
  simp only [Float32.ofBits, Float32.Model.ofBits, Float32.Model.pack, Float32.toBits, pack_unpack valid]

/-- Zeros that are shifted out leave nothing to round. -/
theorem shiftRight_exact (m k : Nat) : (⟨m * 2 ^ k, false, false⟩ : ExtendedMantissa) >>> k = ⟨m, false, false⟩ := by
  induction k generalizing m with
  | zero =>
    rw [Nat.pow_zero, Nat.mul_one]
    rfl
  | succ k ih =>
    have halved : (⟨m * 2 ^ (k + 1), false, false⟩ : ExtendedMantissa) >>> (k + 1) =
        ((⟨m * 2 * 2 ^ k, false, false⟩ : ExtendedMantissa) >>> k).shiftRightOne := by
      rw [Nat.pow_succ', ← Nat.mul_assoc]
      rfl
    rw [halved, ih, ExtendedMantissa.shiftRightOne]
    simp

theorem shiftToTargetExponent_exact {m : Nat} {e : Int} (k : Nat) (low : 0x800000 ≤ m) (high : m < 0x1000000)
    (above : -150 < e) :
    shiftToTargetExponent .binary32 (m * 2 ^ k) (e - k) .exact = (⟨m, false, false⟩, e) := by
  have log : (m * 2 ^ k).log2 = 23 + k := by
    rw [log2_mul_two_pow (by omega), log2_eq_of_normal low high]
  have target : Format.binary32.targetExponent (totalExponent (m * 2 ^ k) (e - k)) = e := by
    rw [Format.targetExponent, totalExponent, log]
    have bits : Format.binary32.mantissaBits = 24 := rfl
    have least : Format.binary32.minExponent = -149 := rfl
    omega
  have shift : (e - (e - k)).toNat = k := by omega
  have exponent : e - k + (k : Nat) = e := by omega
  rw [shiftToTargetExponent, target, shiftToExponent, shift, exponent]
  exact congrArg (·, e) (shiftRight_exact m k)

/-- A mantissa of 24 bits, with zeros after it, is rounded to itself. -/
theorem roundWithAccuracy_exact (s : Sign) {m : Nat} {e : Int} (k : Nat) (pos : 0 < m) (low : 0x800000 ≤ m)
    (high : m < 0x1000000) (above : -150 < e) :
    roundWithAccuracy .binary32 s (m * 2 ^ k) (e - k) .exact = .finite s m e pos := by
  have again := shiftToTargetExponent_exact 0 low high above
  rw [Nat.pow_zero, Nat.mul_one, Int.natCast_zero, Int.sub_zero] at again
  rw [roundWithAccuracy, shiftToTargetExponent_exact k low high above]
  have rounded : (⟨m, false, false⟩ : ExtendedMantissa).roundedMantissa = m := rfl
  simp only [rounded, again]
  rw [dif_neg (by omega)]

/-- The mantissa of a whole number, with its first bit in the place of the 24th. -/
def wholeMantissa (n : Nat) : Nat := n * 2 ^ (23 - n.log2)

theorem wholeMantissa_bounds {n : Nat} (pos : 0 < n) (small : n < 0x1000000) :
    0x800000 ≤ wholeMantissa n ∧ wholeMantissa n < 0x1000000 := by
  have bound : n.log2 < 24 := (Nat.log2_lt (by omega)).mpr small
  have log : (wholeMantissa n).log2 = 23 := by
    rw [wholeMantissa, log2_mul_two_pow (by omega)]
    omega
  have some : wholeMantissa n ≠ 0 := by
    intro zero
    rw [zero] at log
    simp at log
  exact (Nat.log2_eq_iff some).mp log

/-- A whole number below 2^24 as a float. -/
def ofWhole (n : Nat) (pos : 0 < wholeMantissa n) : UnpackedFloat :=
  .finite .positive (wholeMantissa n) (n.log2 - 23 : Int) pos

theorem ofNat_eq_ofWhole {n : Nat} (pos : 0 < n) (small : n < 0x1000000) :
    UnpackedFloat.ofNat .binary32 n = ofWhole n (by have := wholeMantissa_bounds pos small; omega) := by
  obtain ⟨low, high⟩ := wholeMantissa_bounds pos small
  have bound : n.log2 < 24 := (Nat.log2_lt (by omega)).mpr small
  have order : compare (n : Int) 0 = .gt := Int.compare_eq_gt.mpr (by omega)
  have target : Format.binary32.targetExponent (totalExponent n 0) = n.log2 - 23 := by
    rw [Format.targetExponent, totalExponent]
    have bits : Format.binary32.mantissaBits = 24 := rfl
    have least : Format.binary32.minExponent = -149 := rfl
    omega
  have shift : (0 - ((n.log2 : Int) - 23)).toNat = 23 - n.log2 := by omega
  simp only [UnpackedFloat.ofNat, UnpackedFloat.ofInt, UnpackedFloat.normalize, order, Int.toNat_natCast,
    UnpackedFloat.round, target, decreaseExponent, shift, Nat.shiftLeft_eq]
  have exact := roundWithAccuracy_exact .positive (e := (n.log2 : Int) - 23) 0 (by omega) low high (by omega)
  rw [Nat.pow_zero, Nat.mul_one, Int.natCast_zero, Int.sub_zero] at exact
  have exponent : (0 : Int) - (23 - n.log2 : Nat) = n.log2 - 23 := by omega
  rw [exponent]
  exact exact

theorem unpack_pack {m : Nat} {e : Int} (s : Sign) (pos : 0 < m) (low : 0x800000 ≤ m) (high : m < 0x1000000)
    (above : -150 < e) (below : e < 105) :
    (Float32.Model.pack (.finite s m e pos)).unpack = .finite s m e pos :=
  unpack_pack_normal s pos low high above below

/-- Whole numbers are read as they are. -/
theorem ofScientific_eq {n : Nat} (pos : 0 < n) (small : n < 0x800000) :
    Float32.ofScientific n false 0 =
      .ofModel (.pack (ofWhole n (by have := wholeMantissa_bounds pos (by omega); omega))) := by
  obtain ⟨low, high⟩ := wholeMantissa_bounds pos (show n < 0x1000000 by omega)
  have bound : n.log2 < 24 := (Nat.log2_lt (by omega)).mpr (show n < 0x1000000 by omega)
  have word : n.toUInt64.toNat = n := by
    simp only [Nat.toUInt64, UInt64.toNat_ofNat']
    omega
  have left : n.toUInt64.toFloat32.toModel = .pack (ofWhole n (by omega)) := by
    rw [← ofNat_eq_ofWhole pos (by omega)]
    simp only [UInt64.toFloat32, Float32.Model.ofUInt64, UnpackedFloat.ofUInt64, word]
  have one : (Float32.ofBits 0x3F800000).toModel.unpack = .finite .positive 0x800000 (-23) (by decide) := by
    have pattern : (Float32.ofBits 0x3F800000).toModel = .pack (.finite .positive 0x800000 (-23) (by decide)) := by
      decide
    rw [pattern, unpack_pack] <;> decide
  have product : n.toUInt64.toFloat32.toModel.mul (Float32.ofBits 0x3F800000).toModel = .pack (ofWhole n (by omega)) := by
    rw [Float32.Model.mul, left, one, ofWhole, unpack_pack _ _ low high (by omega) (by omega), UnpackedFloat.mul]
    exact congrArg _ (roundWithAccuracy_exact .positive 23 (by omega) low high (by omega))
  have fast : n < 2 ^ 23 ∧ 0 ≤ 10 := ⟨small, by decide⟩
  rw [Float32.ofScientific, dif_pos fast]
  exact congrArg Float32.ofModel product

section
variable {n : Nat} (pos : 0 < n) (small : n < 0x800000)
include pos small

theorem unpack_ofScientific : (Float32.ofScientific n false 0).toModel.unpack =
    ofWhole n (by have := wholeMantissa_bounds pos (by omega); omega) := by
  obtain ⟨low, high⟩ := wholeMantissa_bounds pos (show n < 0x1000000 by omega)
  have bound : n.log2 < 24 := (Nat.log2_lt (by omega)).mpr (show n < 0x1000000 by omega)
  rw [ofScientific_eq pos small]
  exact unpack_pack _ _ low high (by omega) (by omega)

theorem toNat_toBits_ofScientific : (Float32.ofScientific n false 0).toBits.toNat =
    (n.log2 + 127) * 0x800000 + (wholeMantissa n - 0x800000) := by
  obtain ⟨low, high⟩ := wholeMantissa_bounds pos (show n < 0x1000000 by omega)
  have bound : n.log2 < 24 := (Nat.log2_lt (by omega)).mpr (show n < 0x1000000 by omega)
  have pattern : (Float32.ofScientific n false 0).toBits.toNat =
      (UnpackedFloat.pack .binary32 (ofWhole n (by omega))).toNat := by
    rw [ofScientific_eq pos small]
    rfl
  rw [pattern, ofWhole, pack_normal .positive _ low high (by omega) (by omega), packComponents_toNat]
  simp only [BitVec.toNat_ofNat]
  have sign : Sign.positive.toBitVec.toNat = 0 := rfl
  omega

theorem parts_ofScientific : parts (Float32.ofScientific n false 0) =
    { negative := false, mantissa := wholeMantissa n, exponent := n.log2 - 23 } := by
  obtain ⟨low, high⟩ := wholeMantissa_bounds pos (show n < 0x1000000 by omega)
  have bound : n.log2 < 24 := (Nat.log2_lt (by omega)).mpr (show n < 0x1000000 by omega)
  have bits := toNat_toBits_ofScientific pos small
  have biased : (Float32.ofScientific n false 0).toBits.toNat / 0x800000 % 256 = n.log2 + 127 := by omega
  have fraction : (Float32.ofScientific n false 0).toBits.toNat % 0x800000 = wholeMantissa n - 0x800000 := by omega
  have sign : ¬ 0x80000000 ≤ (Float32.ofScientific n false 0).toBits.toNat := by omega
  simp only [parts, biased, fraction, sign, decide_false, Parts.mk.injEq, true_and]
  rw [if_neg (by omega)]
  exact ⟨by omega, by omega⟩

theorem isFinite_ofScientific : (Float32.ofScientific n false 0).isFinite = true := by
  rw [Float32.isFinite, Float32.Model.isFinite, unpack_ofScientific pos small]
  rfl

theorem isNaN_ofScientific : (Float32.ofScientific n false 0).isNaN = false := by
  rw [Float32.isNaN, Float32.Model.isNaN, unpack_ofScientific pos small]
  rfl

theorem isWhole_ofScientific : isWhole (Float32.ofScientific n false 0) = true := by
  have bound : n.log2 < 24 := (Nat.log2_lt (by omega)).mpr (show n < 0x1000000 by omega)
  have shift : (-((n.log2 : Int) - 23)).toNat = 23 - n.log2 := by omega
  rw [isWhole, isFinite_ofScientific pos small, parts_ofScientific pos small, Parts.hasFraction]
  simp only [shift, Nat.one_shiftLeft, wholeMantissa, Nat.mul_mod_left]
  simp

theorem truncate_ofScientific : truncate (Float32.ofScientific n false 0) = n := by
  have bound : n.log2 < 23 := (Nat.log2_lt (by omega)).mpr small
  have shift : (-((n.log2 : Int) - 23)).toNat = 23 - n.log2 := by omega
  have fraction : ¬ (0 : Int) ≤ n.log2 - 23 := by omega
  rw [truncate, isNaN_ofScientific pos small, parts_ofScientific pos small, Parts.whole]
  simp only [shift, fraction, if_false, Bool.false_eq_true]
  rw [Nat.shiftRight_eq_div_pow, wholeMantissa, Nat.mul_div_cancel _ (Nat.two_pow_pos _)]

end

theorem ofScientific_nonneg {n : Nat} (pos : 0 < n) (small : n < 0x800000) :
    (0 : Float32) ≤ Float32.ofScientific n false 0 := by
  have zero : (0 : Float32).toModel.unpack = .zero .positive := by
    have pattern : (0 : Float32).toModel = .pack (.zero .positive) := by decide
    rw [pattern]
    rfl
  have order : (0 : Float32).toModel.le (Float32.ofScientific n false 0).toModel = true := by
    rw [Float32.Model.le, zero, unpack_ofScientific pos small]
    rfl
  exact decide_eq_true order

theorem ofScientific_le {m n : Nat} (pos : 0 < m) (order : m ≤ n) (small : n < 0x800000) :
    Float32.ofScientific m false 0 ≤ Float32.ofScientific n false 0 := by
  have logs : m.log2 ≤ n.log2 := (Nat.le_log2 (by omega)).mpr (Nat.le_trans (Nat.log2_self_le (by omega)) order)
  have le : (Float32.ofScientific m false 0).toModel.le (Float32.ofScientific n false 0).toModel = true := by
    rw [Float32.Model.le, unpack_ofScientific pos (by omega), unpack_ofScientific (by omega) small, ofWhole, ofWhole,
      UnpackedFloat.le, UnpackedFloat.compare, Option.any_some]
    rcases Nat.lt_or_eq_of_le logs with less | same
    · rw [Int.compare_eq_lt.mpr (by omega)]
      rfl
    · have mantissas : wholeMantissa m ≤ wholeMantissa n := by
        rw [wholeMantissa, wholeMantissa, same]
        exact Nat.mul_le_mul_right _ order
      rw [same, Int.compare_eq_eq.mpr rfl]
      exact Nat.isLE_compare.mpr mantissas
  exact decide_eq_true le

/-- The order of whole numbers is that of their exponents, and then that of their mantissas. -/
theorem compare_wholeMantissa {m n : Nat} (pos : 0 < m) (pos' : 0 < n) :
    (compare (m.log2 - 23 : Int) (n.log2 - 23)).then (compare (wholeMantissa m) (wholeMantissa n)) = compare m n := by
  have below {m n : Nat} (pos : 0 < m) (less : m < n) :
      (m.log2 : Int) - 23 < n.log2 - 23 ∨ m.log2 = n.log2 ∧ wholeMantissa m < wholeMantissa n := by
    have logs : m.log2 ≤ n.log2 :=
      (Nat.le_log2 (by omega)).mpr (Nat.le_trans (Nat.log2_self_le (by omega)) (Nat.le_of_lt less))
    rcases Nat.lt_or_eq_of_le logs with lower | same
    · exact .inl (by omega)
    · refine .inr ⟨same, ?_⟩
      rw [wholeMantissa, wholeMantissa, same]
      exact Nat.mul_lt_mul_of_pos_right less (Nat.two_pow_pos _)
  rcases Nat.lt_trichotomy m n with less | rfl | more
  · rw [Nat.compare_eq_lt.mpr less]
    rcases below pos less with lower | ⟨same, lower⟩
    · rw [Int.compare_eq_lt.mpr lower]
      rfl
    · rw [same, Int.compare_eq_eq.mpr rfl, Nat.compare_eq_lt.mpr lower]
      rfl
  · simp
  · rw [Nat.compare_eq_gt.mpr more]
    rcases below pos' more with lower | ⟨same, lower⟩
    · rw [Int.compare_eq_gt.mpr lower]
      rfl
    · rw [same, Int.compare_eq_eq.mpr rfl, Nat.compare_eq_gt.mpr lower]
      rfl

/-- A whole number as a float, with its sign. -/
inductive Unpacked : Int → UnpackedFloat → Prop
  | zero : Unpacked 0 (.zero .positive)
  | positive {n : Nat} (pos : 0 < n) (some : 0 < wholeMantissa n) :
      Unpacked n (.finite .positive (wholeMantissa n) (n.log2 - 23) some)
  | negative {n : Nat} (pos : 0 < n) (some : 0 < wholeMantissa n) :
      Unpacked (-n) (.finite .negative (wholeMantissa n) (n.log2 - 23) some)

theorem unpacked_ofInt {n : Int} (small : n.natAbs < 0x800000) : Unpacked n (Float32.ofInt n).toModel.unpack := by
  cases n with
  | ofNat n =>
    have small : n < 0x800000 := small
    rcases Nat.eq_zero_or_pos n with rfl | pos
    · have zero : (Float32.ofInt (Int.ofNat 0)).toModel = .pack (.zero .positive) := by decide
      rw [zero]
      exact .zero
    · have whole := unpack_ofScientific pos small
      have same : (Float32.ofInt (Int.ofNat n)).toModel.unpack = ofWhole n _ := whole
      rw [same]
      exact .positive pos _
  | negSucc n =>
    have pos : 0 < n + 1 := Nat.succ_pos n
    have small : n + 1 < 0x800000 := small
    obtain ⟨low, high⟩ := wholeMantissa_bounds pos (show n + 1 < 0x1000000 by omega)
    have bound : (n + 1).log2 < 24 := (Nat.log2_lt (by omega)).mpr (show n + 1 < 0x1000000 by omega)
    have whole := unpack_ofScientific pos small
    have same : (Float32.ofInt (Int.negSucc n)).toModel =
        .pack (Float32.ofScientific (n + 1) false 0).toModel.unpack.neg := rfl
    rw [same, whole, ofWhole, UnpackedFloat.neg, unpack_pack _ _ low high (by omega) (by omega)]
    exact .negative pos _

theorem compare_unpacked {m n : Int} {x y : UnpackedFloat} (first : Unpacked m x) (second : Unpacked n y) :
    x.compare y = some (compare m n) := by
  cases first with
  | zero =>
    cases second with
    | zero => rfl
    | positive pos => exact congrArg some (Int.compare_eq_lt.mpr (by omega)).symm
    | negative pos => exact congrArg some (Int.compare_eq_gt.mpr (by omega)).symm
  | @positive m pos =>
    cases second with
    | zero => exact congrArg some (Int.compare_eq_gt.mpr (by omega)).symm
    | @positive n pos' =>
      refine congrArg some ((compare_wholeMantissa pos pos').trans ?_)
      rcases Nat.lt_trichotomy m n with less | rfl | more
      · rw [Nat.compare_eq_lt.mpr less, Int.compare_eq_lt.mpr (by omega)]
      · simp
      · rw [Nat.compare_eq_gt.mpr more, Int.compare_eq_gt.mpr (by omega)]
    | negative pos' => exact congrArg some (Int.compare_eq_gt.mpr (by omega)).symm
  | @negative m pos =>
    cases second with
    | zero => exact congrArg some (Int.compare_eq_lt.mpr (by omega)).symm
    | positive pos' => exact congrArg some (Int.compare_eq_lt.mpr (by omega)).symm
    | @negative n pos' =>
      refine congrArg some ((congrArg Ordering.swap (compare_wholeMantissa pos pos')).trans ?_)
      rcases Nat.lt_trichotomy m n with less | rfl | more
      · rw [Nat.compare_eq_lt.mpr less, Int.compare_eq_gt.mpr (by omega)]
        rfl
      · simp
      · rw [Nat.compare_eq_gt.mpr more, Int.compare_eq_lt.mpr (by omega)]
        rfl

/-- Whole numbers below 2^23 keep their order as singles. -/
theorem compare_swap (u v : Float.Model.UnpackedFloat) : (u.compare v).map Ordering.swap = v.compare u := by
  have finite (m n : Nat) (e f : Int) :
      ((compare e f).then (compare m n)).swap = (compare f e).then (compare n m) := by
    rw [Ordering.swap_then, Int.compare_swap, Nat.compare_swap]
  rcases u with s | _ | s | ⟨s, m, e, _⟩ <;> rcases v with t | _ | t | ⟨t, n, f, _⟩
  case finite.finite =>
    cases s <;> cases t
    · exact congrArg (some ·.swap) (finite m n e f)
    · rfl
    · rfl
    · exact congrArg some (finite m n e f)
  all_goals first | rfl | (cases s <;> first | rfl | (cases t <;> rfl))

/-- The order of two singles is that of the numbers that their bits stand for. -/
theorem orderFloats_eq (x y : Float32) :
    Value.orderFloats x y = x.toModel.unpack.compare y.toModel.unpack := by
  have less {x y : Float32} : x < y ↔ x.toModel.unpack.compare y.toModel.unpack = some .lt := by
    constructor
    · intro h
      exact eq_of_beq (of_decide_eq_true h)
    · intro h
      exact decide_eq_true (beq_iff_eq.mpr h)
  have same : (x == y) = (x.toModel.unpack.compare y.toModel.unpack == some .eq) := rfl
  rw [Value.orderFloats]
  simp only [less, same, ← compare_swap x.toModel.unpack]
  rcases x.toModel.unpack.compare y.toModel.unpack with _ | o
  · rfl
  · cases o <;> rfl

theorem orderFloats_ofInt {m n : Int} (small : m.natAbs < 0x800000) (small' : n.natAbs < 0x800000) :
    Value.orderFloats (Float32.ofInt m) (Float32.ofInt n) = some (compare m n) :=
  (orderFloats_eq _ _).trans (compare_unpacked (unpacked_ofInt small) (unpacked_ofInt small'))

end BasicMachine.Single

namespace BasicMachine.Value

/-- The number that CMP answers. -/
def sign : Ordering → Int16
  | .lt => -1
  | .eq => 0
  | .gt => 1

theorem rank_of_order {memory : Array Value} {l r : Value} {o : Ordering} (h : order memory true l r = .ok (some o)) :
    rank memory l r = .ok (.integer (sign o)) := by
  rw [rank, h]
  cases o <;> rfl

end BasicMachine.Value
