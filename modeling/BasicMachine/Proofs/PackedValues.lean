import BasicMachine.Proofs.Singles
import BasicMachine.Value.Word

/-!
# Values that are packed without loss

A word holds every value that is no NaN, and reading a number from digits never gives a NaN. So what a program is
given to push comes back from its code.
-/
namespace BasicMachine

namespace Single

open Float.Model
open Float.Model.UnpackedFloat (packComponents unpackMantissa unpackExponent roundWithAccuracy Sign Accuracy)

/-- The words that stand for no number. -/
def IsNaNWord (w : UInt32) : Prop := w.toNat / 0x800000 % 256 = 255 ∧ w.toNat % 0x800000 ≠ 0

theorem isNaN_unpack (w : UInt32) : (UnpackedFloat.unpack .binary32 w.toBitVec).isNaN = true ↔ IsNaNWord w := by
  rcases w with ⟨bits⟩
  show _ ↔ (bits.toNat / 0x800000 % 256 = 255 ∧ bits.toNat % 0x800000 ≠ 0)
  rw [← unpackExponent_toNat, ← unpackMantissa_toNat, UnpackedFloat.unpack]
  have top : (@unpackExponent .binary32 bits).toNat = 255 ↔ @unpackExponent .binary32 bits = -1#8 :=
    ⟨fun h => BitVec.eq_of_toNat_eq h, fun h => congrArg BitVec.toNat h⟩
  have none : (@unpackMantissa .binary32 bits).toNat = 0 ↔ @unpackMantissa .binary32 bits = 0#23 :=
    ⟨fun h => BitVec.eq_of_toNat_eq h, fun h => congrArg BitVec.toNat h⟩
  rw [top, ne_eq, none]
  by_cases highest : @unpackExponent .binary32 bits = -1#8
  · by_cases zero : @unpackMantissa .binary32 bits = 0#23
    · simp [highest, zero, UnpackedFloat.isNaN]
    · simp [highest, zero, UnpackedFloat.isNaN]
  · by_cases lowest : @unpackExponent .binary32 bits = 0#8
    · by_cases zero : @unpackMantissa .binary32 bits = 0#23
      · simp [lowest, zero, UnpackedFloat.isNaN]
      · simp [lowest, zero, UnpackedFloat.isNaN]
    · simp only [highest, lowest, if_false, false_and, UnpackedFloat.isNaN, Bool.false_eq_true]

theorem isNaNWord_iff (x : Float32) : IsNaNWord x.toBits ↔ x.isNaN = true := by
  rw [← isNaN_unpack]
  rfl

/-- The bits of a number are those it was made from. -/
theorem toBits_ofBits {w : UInt32} (number : (Float32.ofBits w).isNaN = false) : (Float32.ofBits w).toBits = w := by
  have word : ¬ IsNaNWord w := by
    intro h
    have shown : UnpackedFloat.unpack .binary32 w.toBitVec = .notANumber := by
      have h := (isNaN_unpack w).mpr h
      cases same : UnpackedFloat.unpack .binary32 w.toBitVec with
      | notANumber => rfl
      | _ => rw [same] at h; cases h
    rw [Float32.ofBits, Float32.Model.ofBits, shown] at number
    exact absurd number (by decide)
  have valid : Format.binary32.Valid w.toBitVec := by
    refine ⟨fun top some => absurd ⟨?_, ?_⟩ word⟩
    · exact (unpackExponent_toNat w.toBitVec).symm.trans (congrArg BitVec.toNat top)
    · exact fun zero => some (BitVec.eq_of_toNat_eq ((unpackMantissa_toNat w.toBitVec).trans zero))
  exact UInt32.toBitVec_inj.mp (pack_unpack valid)

/-- The pattern of a number is no NaN. -/
theorem isNaN_pack {u : UnpackedFloat} (number : u.isNaN = false) :
    (Float32.ofModel (.pack u)).isNaN = false := by
  rw [← Bool.not_eq_true, ← isNaNWord_iff, IsNaNWord]
  show ¬ ((UnpackedFloat.pack .binary32 u).toNat / 0x800000 % 256 = 255 ∧
    (UnpackedFloat.pack .binary32 u).toNat % 0x800000 ≠ 0)
  cases u with
  | notANumber => exact absurd number (by decide)
  | infinity s => cases s <;> decide
  | zero s => cases s <;> decide
  | finite s m e pos =>
    have components (exponent : BitVec 8) (mantissa : BitVec 23) (regular : exponent.toNat ≠ 255) :
        ¬ ((packComponents .binary32 s exponent mantissa).toNat / 0x800000 % 256 = 255 ∧
          (packComponents .binary32 s exponent mantissa).toNat % 0x800000 ≠ 0) := by
      have low := mantissa.isLt
      have middle := exponent.isLt
      rw [packComponents_toNat]
      omega
    rw [UnpackedFloat.pack]
    dsimp only
    split
    · cases s <;> decide
    next range =>
      split
      · refine components _ _ ?_
        have width : 2 ^ Format.binary32.exponentBits = 256 := rfl
        simp only [BitVec.toNat_ofNat]
        omega
      · exact components _ _ (by decide)

theorem isNaN_roundWithAccuracy (s : Sign) (m : Nat) (e : Int) (accuracy : Accuracy) :
    (roundWithAccuracy .binary32 s m e accuracy).isNaN = false := by
  unfold roundWithAccuracy
  dsimp only
  split <;> rfl

theorem isNaN_round (s : Sign) (m : Nat) (e : Int) : (UnpackedFloat.round .binary32 s m e).isNaN = false :=
  isNaN_roundWithAccuracy s _ _ _

/-- A number that is neither zero nor infinite. -/
def isRegular : UnpackedFloat → Bool
  | .finite .. => true
  | _ => false

section
variable {u v : UnpackedFloat} (number : u.isNaN = false) (regular : isRegular v = true)
include number regular

theorem isNaN_mul : (UnpackedFloat.mul .binary32 u v).isNaN = false := by
  cases v with
  | finite =>
    cases u with
    | notANumber => exact number
    | infinity s => rfl
    | zero s => rfl
    | finite => exact isNaN_roundWithAccuracy _ _ _ _
  | _ => cases regular

theorem isNaN_div : (UnpackedFloat.div .binary32 u v).isNaN = false := by
  cases v with
  | finite =>
    cases u with
    | notANumber => exact number
    | infinity s => rfl
    | zero s => rfl
    | finite => exact isNaN_roundWithAccuracy _ _ _ _
  | _ => cases regular

end

theorem isRegular_power {e : Nat} (bound : e < Float32.exactlyRepresentablePowersOfTen.size) :
    isRegular Float32.exactlyRepresentablePowersOfTen[e].toModel.unpack = true := by
  have all : ∀ x ∈ Float32.exactlyRepresentablePowersOfTen.toList, isRegular x.toModel.unpack = true := by decide
  exact all _ (Array.getElem_mem_toList bound)

theorem isNaN_ofUInt64 (n : UInt64) : n.toFloat32.isNaN = false := by
  refine isNaN_pack (u := UnpackedFloat.ofUInt64 .binary32 n) ?_
  unfold UnpackedFloat.ofUInt64 UnpackedFloat.ofNat UnpackedFloat.ofInt UnpackedFloat.normalize
  split
  · exact isNaN_round _ _ _
  · rfl
  · exact isNaN_round _ _ _

theorem isNaN_model (m : Nat) (e : Int) : (UnpackedFloat.ofScientific .binary32 m e).isNaN = false := by
  unfold UnpackedFloat.ofScientific
  repeat' split
  · rfl
  · rfl
  · rfl
  · exact isNaN_mul rfl rfl
  · exact isNaN_div rfl rfl

/-- A numeral is never a NaN. -/
theorem isNaN_numeral (m : Nat) (s : Bool) (e : Nat) : (Float32.ofScientific m s e).isNaN = false := by
  unfold Float32.ofScientific
  split
  next short =>
    have bound : e < Float32.exactlyRepresentablePowersOfTen.size := Nat.lt_succ_of_le short.2
    have number := isNaN_ofUInt64 m.toUInt64
    dsimp only
    split
    · exact isNaN_pack (isNaN_div number (isRegular_power bound))
    · exact isNaN_pack (isNaN_mul number (isRegular_power bound))
  · exact isNaN_pack (isNaN_model m _)

theorem isNaN_ofDecimal (mantissa : Nat) (exponent : Int) : (ofDecimal mantissa exponent).isNaN = false := by
  unfold ofDecimal
  dsimp only
  split
  · decide
  · split
    · decide
    · split <;> exact isNaN_numeral _ _ _

theorem isNaN_neg {x : Float32} (number : x.isNaN = false) : (-x).isNaN = false := by
  refine isNaN_pack (u := x.toModel.unpack.neg) ?_
  revert number
  show x.toModel.unpack.isNaN = false → _
  cases x.toModel.unpack with
  | notANumber => exact id
  | _ => exact fun _ => rfl

theorem isNaN_of_digits? {cs : List Char} {x : Float32} (h : digits? cs = some x) : x.isNaN = false := by
  have number (b : Bool) (exponent : Option Int) (mantissa : Nat) (places : Int)
      (h : (if b then none else exponent.map fun e => ofDecimal mantissa (e - places)) = some x) :
      x.isNaN = false := by
    split at h
    · cases h
    · obtain ⟨exponent, -, rfl⟩ := Option.map_eq_some_iff.mp h
      exact isNaN_ofDecimal _ _
  exact number _ _ _ _ h

end Single

theorem and_shiftLeft (n m k : Nat) : n &&& m <<< k = ((n >>> k) &&& m) <<< k := by
  apply Nat.eq_of_testBit_eq
  intro i
  simp only [Nat.testBit_and, Nat.testBit_shiftLeft, Nat.testBit_shiftRight]
  by_cases above : k ≤ i
  · rw [show k + (i - k) = i by omega]
    cases n.testBit i <;> simp [above]
  · simp [above]

/-- Bits of a word between two places. -/
theorem and_mask (n low width : Nat) :
    n &&& (2 ^ width - 1) <<< low = n / 2 ^ low % 2 ^ width * 2 ^ low := by
  rw [and_shiftLeft, Nat.and_two_pow_sub_one_eq_mod, Nat.shiftLeft_eq, Nat.shiftRight_eq_div_pow]

namespace Value

section
variable (w : UInt32)

theorem toNat_and_tagMask : (w &&& tagMask).toNat = w.toNat / 0x200000 % 2048 * 0x200000 :=
  (UInt32.toNat_and w tagMask).trans (and_mask w.toNat 21 11)

theorem toNat_and_spareMask : (w &&& spareMask).toNat = w.toNat / 0x10000 % 32 * 0x10000 :=
  (UInt32.toNat_and w spareMask).trans (and_mask w.toNat 16 5)

theorem toNat_and_addressMask : (w &&& addressMask).toNat = w.toNat % 0x200000 :=
  (UInt32.toNat_and w addressMask).trans (Nat.and_two_pow_sub_one_eq_mod w.toNat 21)

end

/-- What is left of a value that was packed: an address keeps its lowest bits. -/
def packed : Value → Value
  | pointer address => pointer (address % 0x200000)
  | v => v

theorem toNat_toWord_integer (n : Int16) : (integer n).toWord.toNat = 0xffc00000 + n.toUInt16.toNat := by
  have bound := n.toUInt16.toNat_lt
  rw [toWord, UInt32.toNat_or, UInt16.toNat_toUInt32, show integerTag.toNat = 0x3ff <<< 22 from rfl,
    ← Nat.shiftLeft_add_eq_or_of_lt (by omega)]
  rfl

theorem toNat_toWord_pointer (address : Nat) :
    (pointer address).toWord.toNat = 0xffe00000 + address % 0x200000 := by
  rw [toWord, UInt32.toNat_or, toNat_and_addressMask, show pointerTag.toNat = 0x7ff <<< 21 from rfl,
    ← Nat.shiftLeft_add_eq_or_of_lt (by omega), UInt32.toNat_ofNat']
  simp only [Nat.reduceShiftLeft]
  omega

section
variable {w : UInt32}

theorem ne_of_toNat {v : UInt32} (h : w.toNat ≠ v.toNat) : w ≠ v := fun same => h (congrArg UInt32.toNat same)

theorem ofWord_pointer (tagged : 0xffe00000 ≤ w.toNat) : ofWord w = pointer (w.toNat % 0x200000) := by
  have bound := w.toNat_lt
  have set : w ≠ unsetWord := ne_of_toNat (by rw [show unsetWord.toNat = 0xffdfffff from rfl]; omega)
  have tag : w &&& tagMask = pointerTag := by
    rw [← UInt32.toNat_inj, toNat_and_tagMask, show pointerTag.toNat = 0xffe00000 from rfl]
    omega
  rw [ofWord, if_neg set, if_pos tag, toNat_and_addressMask]

theorem ofWord_integer (low : 0xffc00000 ≤ w.toNat) (high : w.toNat < 0xffc10000) :
    ofWord w = integer w.toUInt16.toInt16 := by
  have set : w ≠ unsetWord := ne_of_toNat (by rw [show unsetWord.toNat = 0xffdfffff from rfl]; omega)
  have untagged : w &&& tagMask ≠ pointerTag := by
    refine ne_of_toNat ?_
    rw [toNat_and_tagMask, show pointerTag.toNat = 0xffe00000 from rfl]
    omega
  have tag : w &&& tagMask = integerTag := by
    rw [← UInt32.toNat_inj, toNat_and_tagMask, show integerTag.toNat = 0xffc00000 from rfl]
    omega
  have spare : w &&& spareMask = 0 := by
    rw [← UInt32.toNat_inj, toNat_and_spareMask, UInt32.toNat_zero]
    omega
  rw [ofWord, if_neg set, if_neg untagged, if_pos tag, if_pos spare]

/-- The words of the other kinds are all NaNs. -/
theorem ofWord_float (number : ¬ Single.IsNaNWord w) : ofWord w = float (Float32.ofBits w) := by
  have bound := w.toNat_lt
  have low : w.toNat < 0xffc00000 := by
    rw [Single.IsNaNWord] at number
    omega
  have set : w ≠ unsetWord := ne_of_toNat (by rw [show unsetWord.toNat = 0xffdfffff from rfl]; omega)
  have noPointer : w &&& tagMask ≠ pointerTag := by
    refine ne_of_toNat ?_
    rw [toNat_and_tagMask, show pointerTag.toNat = 0xffe00000 from rfl]
    omega
  have noInteger : w &&& tagMask ≠ integerTag := by
    refine ne_of_toNat ?_
    rw [toNat_and_tagMask, show integerTag.toNat = 0xffc00000 from rfl]
    omega
  rw [ofWord, if_neg set, if_neg noPointer, if_neg noInteger]

end

/-- A value comes back from its word, unless it is a NaN. -/
theorem ofWord_toWord {v : Value} (number : ∀ x, v = float x → x.isNaN = false) : ofWord v.toWord = v.packed := by
  cases v with
  | unset => rfl
  | integer n =>
    have word := toNat_toWord_integer n
    have bound := n.toUInt16.toNat_lt
    have low : (integer n).toWord.toUInt16 = n.toUInt16 := by
      rw [← UInt16.toNat_inj, UInt32.toNat_toUInt16]
      omega
    rw [ofWord_integer (by omega) (by omega), low]
    rfl
  | float x =>
    have regular := number x rfl
    have word : ¬ Single.IsNaNWord x.toBits := fun h => Bool.false_ne_true (regular.symm.trans ((Single.isNaNWord_iff x).mp h))
    rw [toWord, if_neg (by rw [regular]; exact Bool.false_ne_true), ofWord_float word, Single.ofBits_toBits]
    rfl
  | pointer address =>
    have word := toNat_toWord_pointer address
    rw [ofWord_pointer (by omega), word]
    exact congrArg pointer (by omega)

theorem toWord_packed (v : Value) : v.packed.toWord = v.toWord := by
  cases v with
  | pointer address =>
    apply UInt32.toNat_inj.mp
    rw [packed, toNat_toWord_pointer, toNat_toWord_pointer, Nat.mod_mod]
  | _ => rfl

/-- The values that a word holds as they are. -/
def Packable : Value → Prop
  | float x => x.isNaN = false
  | pointer address => address ≤ maxPointer
  | _ => True

theorem Packable.ofWord_toWord {v : Value} (h : v.Packable) : ofWord v.toWord = v := by
  rw [Value.ofWord_toWord]
  · cases v with
    | pointer address =>
      have bound : address ≤ 0x1fffff := h
      exact congrArg pointer (Nat.mod_eq_of_lt (by omega))
    | _ => rfl
  · rintro x rfl
    exact h

theorem toWord_nan {x : Float32} (h : x.isNaN = true) : (float x).toWord = nanWord := if_pos h

/-- What is read from the word of a value has the same word again. -/
theorem toWord_ofWord_toWord (v : Value) : (ofWord v.toWord).toWord = v.toWord := by
  by_cases nan : ∃ x, v = float x ∧ x.isNaN = true
  · obtain ⟨x, rfl, nan⟩ := nan
    rw [toWord_nan nan]
    decide
  · rw [Value.ofWord_toWord, toWord_packed]
    rintro x rfl
    exact Bool.eq_false_iff.mpr fun h => nan ⟨x, rfl, h⟩

/-- A word packs to itself again, unless it is a NaN. -/
theorem toWord_ofWord (w : UInt32) : (ofWord w).toWord = w ∨ (ofWord w).toWord = nanWord := by
  have bound := w.toNat_lt
  have tag := toNat_and_tagMask w
  have spare := toNat_and_spareMask w
  unfold ofWord
  split
  · next same => exact .inl same.symm
  split
  · next pointed =>
    rw [pointed, show pointerTag.toNat = 0xffe00000 from rfl] at tag
    refine .inl (UInt32.toNat_inj.mp ?_)
    rw [toNat_toWord_pointer, toNat_and_addressMask]
    omega
  split
  · next whole =>
    rw [whole, show integerTag.toNat = 0xffc00000 from rfl] at tag
    split
    · next none =>
      rw [none, UInt32.toNat_zero] at spare
      refine .inl (UInt32.toNat_inj.mp ?_)
      rw [toNat_toWord_integer, UInt16.toUInt16_toInt16, UInt32.toNat_toUInt16]
      omega
    · exact .inr (toWord_nan (by decide))
  · by_cases nan : (Float32.ofBits w).isNaN = true
    · exact .inr (toWord_nan nan)
    · refine .inl ((if_neg nan).trans (Single.toBits_ofBits ?_))
      exact Bool.eq_false_iff.mpr nan

/-- Packing is faithful: every value but a NaN and an address beyond the greatest comes back from its word, so that no two
of them share a word; every NaN has the same word; and what a word is read as packs to that word again if the word is that
of some value, and to the word of NaN otherwise. -/
theorem packing_faithful :
    (∀ v : Value, v.Packable → ofWord v.toWord = v) ∧
      (∀ v v' : Value, v.Packable → v'.Packable → v.toWord = v'.toWord → v = v') ∧
      (∀ x : Float32, x.isNaN = true → (float x).toWord = 0x7fc00000) ∧
      ∀ w : UInt32, ((∃ v : Value, v.toWord = w) → (ofWord w).toWord = w) ∧
        ((¬ ∃ v : Value, v.toWord = w) → (ofWord w).toWord = 0x7fc00000) := by
  refine ⟨fun v => Packable.ofWord_toWord, fun v v' h h' same => ?_, fun x => toWord_nan, fun w => ⟨?_, fun none => ?_⟩⟩
  · rw [← h.ofWord_toWord, same, h'.ofWord_toWord]
  · rintro ⟨v, rfl⟩
    exact toWord_ofWord_toWord v
  · exact (toWord_ofWord w).resolve_left fun same => none ⟨_, same⟩

/-- A negative integer, minus zero and the greatest address come back; a word between the integers and the unset value is
that of no value. -/
theorem packing_faithful_mixed :
    (ofWord (integer (-1)).toWord = integer (-1) ∧
      ofWord (float (Float32.ofBits 0x80000000)).toWord = float (Float32.ofBits 0x80000000) ∧
      ofWord (pointer maxPointer).toWord = pointer maxPointer) ∧
      (integer (-1)).toWord ≠ (pointer maxPointer).toWord ∧
      (float Single.nan).toWord = 0x7fc00000 ∧
      (ofWord 0xffc12345).toWord = 0x7fc00000 ∧ (ofWord 0xffdfffff).toWord = 0xffdfffff := by
  obtain ⟨back, apart, nan, words⟩ := packing_faithful
  refine ⟨⟨back _ trivial, back _ (show (Float32.ofBits 0x80000000).isNaN = false by decide),
      back _ (Nat.le_refl _)⟩, fun same => ?_, nan _ (by decide), ?_, ?_⟩
  · cases apart (integer (-1)) (pointer maxPointer) trivial (Nat.le_refl _) same
  · refine (words 0xffc12345).2 ?_
    rintro ⟨v, word⟩
    have again := toWord_ofWord_toWord v
    rw [word] at again
    revert again
    decide
  · exact (words _).1 ⟨unset, rfl⟩

end Value

end BasicMachine
