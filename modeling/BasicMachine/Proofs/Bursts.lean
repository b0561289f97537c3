import BasicMachine.Program.Checksum
import Mathlib.Data.List.Basic
import Mathlib.Data.Nat.Digits.Defs
import Mathlib.Logic.Function.Iterate

/-!
# Bursts of errors

The checksum tells bytes apart that differ in at most four bytes in a row. A shift of the register is linear and loses
nothing; so up to four bytes are worth one word that is combined with the register before it is shifted, and what
follows them keeps registers apart.
-/
namespace BasicMachine.Checksum

theorem and_one_eq_one_iff {register : UInt32} : register &&& 1 = 1 ↔ register.toNat % 2 = 1 := by
  rw [← UInt32.toNat_inj, UInt32.toNat_and]
  exact (congrArg (· = 1) (Nat.and_one_is_mod register.toNat)).to_iff

theorem toNat_halved (register : UInt32) : (register >>> 1).toNat = register.toNat / 2 := by
  rw [UInt32.toNat_shiftRight, Nat.shiftRight_eq_div_pow]
  rfl

theorem shift_of_odd {register : UInt32} (h : register.toNat % 2 = 1) :
    shift register = register >>> 1 ^^^ polynomial :=
  if_pos (and_one_eq_one_iff.mpr h)

theorem shift_of_even {register : UInt32} (h : register.toNat % 2 = 0) : shift register = register >>> 1 := by
  refine if_neg fun odd => ?_
  rw [and_one_eq_one_iff, h] at odd
  cases odd

theorem shift_xor (x y : UInt32) : shift (x ^^^ y) = shift x ^^^ shift y := by
  have parity : (x ^^^ y).toNat % 2 = 1 ↔ ¬(x.toNat % 2 = 1 ↔ y.toNat % 2 = 1) := by
    rw [UInt32.toNat_xor]
    exact Nat.xor_mod_two_eq_one
  rcases Nat.mod_two_eq_zero_or_one x.toNat with hx | hx <;> rcases Nat.mod_two_eq_zero_or_one y.toNat with hy | hy
  · have even : (x ^^^ y).toNat % 2 = 0 := by omega
    rw [shift_of_even even, shift_of_even hx, shift_of_even hy, UInt32.shiftRight_xor]
  · have odd : (x ^^^ y).toNat % 2 = 1 := by omega
    rw [shift_of_odd odd, shift_of_even hx, shift_of_odd hy, UInt32.shiftRight_xor, UInt32.xor_assoc]
  · have odd : (x ^^^ y).toNat % 2 = 1 := by omega
    rw [shift_of_odd odd, shift_of_odd hx, shift_of_even hy, UInt32.shiftRight_xor, UInt32.xor_assoc, UInt32.xor_assoc,
      UInt32.xor_comm polynomial]
  · have even : (x ^^^ y).toNat % 2 = 0 := by omega
    rw [shift_of_even even, shift_of_odd hx, shift_of_odd hy, UInt32.shiftRight_xor, UInt32.xor_comm (y >>> 1),
      UInt32.xor_assoc, ← UInt32.xor_assoc polynomial, UInt32.xor_self, UInt32.zero_xor]

/-- The polynomial has the highest bit, which no halved register has. -/
theorem eq_zero_of_shift {register : UInt32} (h : shift register = 0) : register = 0 := by
  have bound := register.toNat_lt
  rcases Nat.mod_two_eq_zero_or_one register.toNat with even | odd
  · rw [shift_of_even even, ← UInt32.toNat_inj, toNat_halved] at h
    rw [← UInt32.toNat_inj]
    have : UInt32.toNat 0 = 0 := rfl
    omega
  · rw [shift_of_odd odd, UInt32.xor_eq_zero_iff, ← UInt32.toNat_inj, toNat_halved] at h
    have : polynomial.toNat = 0xedb88320 := rfl
    omega

theorem shift_injective : Function.Injective shift := by
  intro x y same
  rw [← UInt32.xor_eq_zero_iff] at same ⊢
  rw [← shift_xor] at same
  exact eq_zero_of_shift same

theorem iterate_shift_xor (n : Nat) (x y : UInt32) : shift^[n] (x ^^^ y) = shift^[n] x ^^^ shift^[n] y := by
  induction n generalizing x y with
  | zero => rfl
  | succ n ih => rw [Function.iterate_succ_apply, shift_xor, ih, Function.iterate_succ_apply, Function.iterate_succ_apply]

/-- Zeros that leave the register leave no trace in it. -/
theorem toNat_iterate_shift {n : Nat} {register : UInt32} (h : register.toNat % 2 ^ n = 0) :
    (shift^[n] register).toNat = register.toNat / 2 ^ n := by
  induction n generalizing register with
  | zero => simp
  | succ n ih =>
    rw [Nat.pow_succ'] at h ⊢
    have even : register.toNat % 2 = 0 := by
      rw [← Nat.mod_mul_right_mod _ 2 (2 ^ n), h]
    have halved : (shift register).toNat = register.toNat / 2 := by rw [shift_of_even even, toNat_halved]
    have rest : (shift register).toNat % 2 ^ n = 0 := by
      rw [halved]
      exact Nat.mod_eq_zero_of_dvd (Nat.dvd_div_of_mul_dvd (Nat.dvd_of_mod_eq_zero h))
    rw [Function.iterate_succ_apply, ih rest, halved, Nat.div_div_eq_div_mul]

/-- Bytes as one word, the first byte lowest. -/
def spread : List UInt8 → UInt32
  | [] => 0
  | b :: rest => b.toUInt32 ^^^ spread rest <<< 8

theorem digits_lt (bytes : List UInt8) : ∀ d ∈ bytes.map UInt8.toNat, d < 256 := by
  intro d member
  obtain ⟨c, -, rfl⟩ := List.mem_map.mp member
  exact c.toNat_lt

theorem ofDigits_lt {bytes : List UInt8} (short : bytes.length ≤ 3) :
    Nat.ofDigits 256 (bytes.map UInt8.toNat) < 2 ^ 24 := by
  have digits := Nat.ofDigits_lt_base_pow_length (by decide) (digits_lt bytes)
  rw [List.length_map] at digits
  exact Nat.lt_of_lt_of_le digits (Nat.pow_le_pow_right (j := 3) (by decide) short)

theorem toNat_raised {register : UInt32} (h : register.toNat < 2 ^ 24) :
    (register <<< 8).toNat = register.toNat * 2 ^ 8 := by
  rw [UInt32.toNat_shiftLeft, Nat.shiftLeft_eq, Nat.mod_eq_of_lt]
  · rfl
  · exact Nat.lt_of_lt_of_le (Nat.mul_lt_mul_of_pos_right h (by decide)) (by decide)

/-- The bytes are digits of their word. -/
theorem toNat_spread {bytes : List UInt8} (short : bytes.length ≤ 4) :
    (spread bytes).toNat = Nat.ofDigits 256 (bytes.map UInt8.toNat) := by
  induction bytes with
  | nil => rfl
  | cons b rest ih =>
    rw [List.length_cons] at short
    have value := ih (by omega)
    have bound : (spread rest).toNat < 2 ^ 24 := value ▸ ofDigits_lt (by omega)
    have low := b.toNat_lt
    -- The byte lies below the others, so that they do not meet.
    have high : (b.toNat ^^^ (spread rest).toNat * 2 ^ 8) / 2 ^ 8 = (spread rest).toNat := by
      rw [Nat.xor_div_two_pow, Nat.div_eq_of_lt low, Nat.mul_div_cancel _ (by decide), Nat.zero_xor]
    have first : (b.toNat ^^^ (spread rest).toNat * 2 ^ 8) % 2 ^ 8 = b.toNat := by
      rw [Nat.xor_mod_two_pow, Nat.mod_eq_of_lt low, Nat.mul_mod_left, Nat.xor_zero]
    rw [List.map_cons, Nat.ofDigits_cons, ← value, spread, UInt32.toNat_xor, UInt8.toNat_toUInt32, toNat_raised bound,
      ← Nat.mod_add_div (b.toNat ^^^ _) (2 ^ 8), first, high]
    rfl

theorem eq_of_spread {first second : List UInt8} (length : first.length = second.length) (short : first.length ≤ 4)
    (same : spread first = spread second) : first = second := by
  have values := congrArg UInt32.toNat same
  rw [toNat_spread short, toNat_spread (length ▸ short)] at values
  have equal := Nat.ofDigits_inj_of_len_eq (by decide) (by simpa using length) (digits_lt first) (digits_lt second) values
  exact List.map_injective_iff.mpr (fun _ _ => UInt8.toNat_inj.mp) equal

theorem step_eq (register : UInt32) (byte : UInt8) : step register byte = shift^[8] (register ^^^ byte.toUInt32) := rfl

/-- Up to four bytes work on the register as one word. -/
theorem foldl_step_eq {bytes : List UInt8} (short : bytes.length ≤ 4) (register : UInt32) :
    bytes.foldl step register = shift^[8 * bytes.length] (register ^^^ spread bytes) := by
  induction bytes generalizing register with
  | nil => rw [spread, UInt32.xor_zero]; rfl
  | cons b rest ih =>
    rw [List.length_cons] at short
    have moved : shift^[8] (spread rest <<< 8) = spread rest := by
      have bound : (spread rest).toNat < 2 ^ 24 := by
        rw [toNat_spread (by omega)]
        exact ofDigits_lt (by omega)
      rw [← UInt32.toNat_inj, toNat_iterate_shift, toNat_raised bound, Nat.mul_div_cancel _ (by decide)]
      rw [toNat_raised bound, Nat.mul_mod_left]
    rw [List.foldl_cons, ih (by omega), List.length_cons, Nat.mul_succ, Function.iterate_add_apply, spread, step_eq,
      ← UInt32.xor_assoc, iterate_shift_xor 8 (register ^^^ b.toUInt32), moved]

theorem foldl_step_injective (bytes : List UInt8) : Function.Injective (bytes.foldl step) := by
  induction bytes with
  | nil => exact fun _ _ same => same
  | cons b rest ih =>
    intro x y same
    have stepped : step x b = step y b := ih same
    rw [step_eq, step_eq] at stepped
    exact (UInt32.xor_left_inj _).mp (shift_injective.iterate 8 stepped)

/-- Bytes that differ in at most four bytes in a row have different checksums. -/
theorem eq_of_crc32 {before first second after : List UInt8} (length : first.length = second.length)
    (short : first.length ≤ 4) (same : crc32 (before ++ first ++ after) = crc32 (before ++ second ++ after)) :
    first = second := by
  have registers := (UInt32.xor_left_inj _).mp same
  rw [List.foldl_append, List.foldl_append, List.foldl_append, List.foldl_append] at registers
  have middle := foldl_step_injective after registers
  rw [foldl_step_eq short, @foldl_step_eq second (length ▸ short), length] at middle
  exact eq_of_spread length short ((UInt32.xor_right_inj _).mp (shift_injective.iterate _ middle))

/-- The usual check value. -/
example : crc32 "123456789".toUTF8.toList = 0xcbf43926 := by decide +kernel

end BasicMachine.Checksum
