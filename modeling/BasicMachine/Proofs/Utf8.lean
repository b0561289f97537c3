import BasicMachine.Text.Utf8

/-!
# UTF-8 that is read back

The bytes of a text give the text back, and leaving out its zero bytes leaves out the characters NUL.
-/
namespace BasicMachine.Utf8

theorem ofNat_lt {n k : Nat} (hn : n < 256) (hk : k < 256) : UInt8.ofNat n < UInt8.ofNat k ↔ n < k := by
  rw [UInt8.lt_iff_toNat_lt, UInt8.toNat_ofNat', UInt8.toNat_ofNat', Nat.mod_eq_of_lt hn, Nat.mod_eq_of_lt hk]

theorem ofNat_le {n k : Nat} (hn : n < 256) (hk : k < 256) : UInt8.ofNat n ≤ UInt8.ofNat k ↔ n ≤ k := by
  rw [UInt8.le_iff_toNat_le, UInt8.toNat_ofNat', UInt8.toNat_ofNat', Nat.mod_eq_of_lt hn, Nat.mod_eq_of_lt hk]

theorem ofNat_inj {n k : Nat} (hn : n < 256) (hk : k < 256) : UInt8.ofNat n = UInt8.ofNat k ↔ n = k := by
  rw [← UInt8.toNat_inj, UInt8.toNat_ofNat', UInt8.toNat_ofNat', Nat.mod_eq_of_lt hn, Nat.mod_eq_of_lt hk]

theorem isTail_ofNat (n : Nat) : isTail (UInt8.ofNat (n % 64 + 128)) = true := by
  have low : UInt8.ofNat 128 ≤ UInt8.ofNat (n % 64 + 128) := (ofNat_le (by omega) (by omega)).mpr (by omega)
  have high : UInt8.ofNat (n % 64 + 128) ≤ UInt8.ofNat 191 := (ofNat_le (by omega) (by omega)).mpr (by omega)
  simp only [isTail, Bool.and_eq_true, decide_eq_true_eq]
  exact ⟨low, high⟩

theorem tailBits_ofNat (n : Nat) : tailBits (UInt8.ofNat (n % 64 + 128)) = n % 64 := by
  rw [tailBits, UInt8.toNat_ofNat']
  omega

theorem mayFollow_of {first second : UInt8} (tail : isTail second = true)
    (lower : first = 0xe0 → 0xa0 ≤ second) (upper : first = 0xed → second ≤ 0x9f)
    (lower' : first = 0xf0 → 0x90 ≤ second) (upper' : first = 0xf4 → second ≤ 0x8f) : mayFollow first second = true := by
  obtain ⟨low, high⟩ : (0x80 : UInt8) ≤ second ∧ second ≤ 0xbf := by simpa [isTail] using tail
  unfold mayFollow
  split
  · next same => simpa using ⟨lower (beq_iff_eq.mp same), high⟩
  split
  · next same => simpa using ⟨low, upper (beq_iff_eq.mp same)⟩
  split
  · next same => simpa using ⟨lower' (beq_iff_eq.mp same), high⟩
  split
  · next same => simpa using ⟨low, upper' (beq_iff_eq.mp same)⟩
  · exact tail

section
variable {n : Nat} (rest : List UInt8)

theorem not_lt_of {k : Nat} (hn : n < 256) (hk : k < 256) (h : k ≤ n) : ¬ UInt8.ofNat n < UInt8.ofNat k := by
  rw [ofNat_lt hn hk]
  omega

theorem next_one (h : n < 0x80) : next (UInt8.ofNat n) rest = (some (Char.ofNat n), 0) := by
  have first : UInt8.ofNat n < 0x80 := (ofNat_lt (k := 0x80) (by omega) (by decide)).mpr h
  unfold next
  rw [if_pos first, UInt8.toNat_ofNat', Nat.mod_eq_of_lt (by omega)]

theorem next_two (low : 0x80 ≤ n) (high : n < 0x800) :
    next (UInt8.ofNat (n / 64 % 32 + 0xc0)) (UInt8.ofNat (n % 64 + 0x80) :: rest) = (some (Char.ofNat n), 1) := by
  have first : ¬ UInt8.ofNat (n / 64 % 32 + 0xc0) < 0x80 := not_lt_of (k := 0x80) (by omega) (by decide) (by omega)
  have second : ¬ UInt8.ofNat (n / 64 % 32 + 0xc0) < 0xc2 := not_lt_of (k := 0xc2) (by omega) (by decide) (by omega)
  have third : UInt8.ofNat (n / 64 % 32 + 0xc0) < 0xe0 := (ofNat_lt (k := 0xe0) (by omega) (by decide)).mpr (by omega)
  unfold next
  rw [if_neg first, if_neg second, if_pos third]
  dsimp only
  rw [if_pos (isTail_ofNat n), tailBits_ofNat, UInt8.toNat_ofNat']
  congr 3
  omega

theorem next_three (low : 0x800 ≤ n) (high : n < 0x10000) (valid : n < 0xd800 ∨ 0xdfff < n) :
    next (UInt8.ofNat (n / 4096 % 16 + 0xe0)) (UInt8.ofNat (n / 64 % 64 + 0x80) :: UInt8.ofNat (n % 64 + 0x80) :: rest) =
      (some (Char.ofNat n), 2) := by
  have above (k : Nat) (h : k ≤ 0xe0) : ¬ UInt8.ofNat (n / 4096 % 16 + 0xe0) < UInt8.ofNat k :=
    not_lt_of (by omega) (by omega) (by omega)
  have first : ¬ UInt8.ofNat (n / 4096 % 16 + 0xe0) < 0x80 := above 0x80 (by decide)
  have second : ¬ UInt8.ofNat (n / 4096 % 16 + 0xe0) < 0xc2 := above 0xc2 (by decide)
  have third : ¬ UInt8.ofNat (n / 4096 % 16 + 0xe0) < 0xe0 := above 0xe0 (by decide)
  have below : UInt8.ofNat (n / 4096 % 16 + 0xe0) < 0xf0 := (ofNat_lt (k := 0xf0) (by omega) (by decide)).mpr (by omega)
  have is (k : Nat) (hk : k < 256) (h : UInt8.ofNat (n / 4096 % 16 + 0xe0) = UInt8.ofNat k) : n / 4096 % 16 + 0xe0 = k :=
    (ofNat_inj (by omega) hk).mp h
  have follow : mayFollow (UInt8.ofNat (n / 4096 % 16 + 0xe0)) (UInt8.ofNat (n / 64 % 64 + 0x80)) = true := by
    refine mayFollow_of (isTail_ofNat _) (fun h => ?_) (fun h => ?_) (fun h => ?_) (fun h => ?_)
    · have := is 0xe0 (by decide) h
      exact (ofNat_le (n := 0xa0) (k := n / 64 % 64 + 0x80) (by decide) (by omega)).mpr (by omega)
    · have := is 0xed (by decide) h
      exact (ofNat_le (k := 0x9f) (by omega) (by decide)).mpr (by omega)
    · have := is 0xf0 (by decide) h
      omega
    · have := is 0xf4 (by decide) h
      omega
  unfold next
  rw [if_neg first, if_neg second, if_neg third, if_pos below]
  dsimp only
  rw [if_pos follow, if_pos (isTail_ofNat n), tailBits_ofNat, tailBits_ofNat, UInt8.toNat_ofNat']
  congr 3
  omega

theorem next_four (low : 0x10000 ≤ n) (high : n < 0x110000) :
    next (UInt8.ofNat (n / 262144 % 8 + 0xf0)) (UInt8.ofNat (n / 4096 % 64 + 0x80) ::
      UInt8.ofNat (n / 64 % 64 + 0x80) :: UInt8.ofNat (n % 64 + 0x80) :: rest) = (some (Char.ofNat n), 3) := by
  have above (k : Nat) (h : k ≤ 0xf0) : ¬ UInt8.ofNat (n / 262144 % 8 + 0xf0) < UInt8.ofNat k :=
    not_lt_of (by omega) (by omega) (by omega)
  have first : ¬ UInt8.ofNat (n / 262144 % 8 + 0xf0) < 0x80 := above 0x80 (by decide)
  have second : ¬ UInt8.ofNat (n / 262144 % 8 + 0xf0) < 0xc2 := above 0xc2 (by decide)
  have third : ¬ UInt8.ofNat (n / 262144 % 8 + 0xf0) < 0xe0 := above 0xe0 (by decide)
  have fourth : ¬ UInt8.ofNat (n / 262144 % 8 + 0xf0) < 0xf0 := above 0xf0 (by decide)
  have below : UInt8.ofNat (n / 262144 % 8 + 0xf0) < 0xf5 := (ofNat_lt (k := 0xf5) (by omega) (by decide)).mpr (by omega)
  have is (k : Nat) (hk : k < 256) (h : UInt8.ofNat (n / 262144 % 8 + 0xf0) = UInt8.ofNat k) : n / 262144 % 8 + 0xf0 = k :=
    (ofNat_inj (by omega) hk).mp h
  have follow : mayFollow (UInt8.ofNat (n / 262144 % 8 + 0xf0)) (UInt8.ofNat (n / 4096 % 64 + 0x80)) = true := by
    refine mayFollow_of (isTail_ofNat _) (fun h => ?_) (fun h => ?_) (fun h => ?_) (fun h => ?_)
    · have := is 0xe0 (by decide) h
      omega
    · have := is 0xed (by decide) h
      omega
    · have := is 0xf0 (by decide) h
      exact (ofNat_le (n := 0x90) (k := n / 4096 % 64 + 0x80) (by decide) (by omega)).mpr (by omega)
    · have := is 0xf4 (by decide) h
      exact (ofNat_le (k := 0x8f) (by omega) (by decide)).mpr (by omega)
  unfold next
  rw [if_neg first, if_neg second, if_neg third, if_neg fourth, if_pos below]
  dsimp only
  rw [if_pos follow, if_pos (isTail_ofNat _), if_pos (isTail_ofNat n), tailBits_ofNat, tailBits_ofNat, tailBits_ofNat,
    UInt8.toNat_ofNat']
  congr 3
  omega

end

/-- The bytes of a character are read as that character. -/
theorem next_encode (c : Char) :
    ∃ b tail, String.utf8EncodeChar c = b :: tail ∧ ∀ rest, next b (tail ++ rest) = (some c, tail.length) := by
  have valid : c.val.toNat < 0xd800 ∨ 0xdfff < c.val.toNat ∧ c.val.toNat < 0x110000 := c.valid
  have same : Char.ofNat c.val.toNat = c := Char.ofNat_toNat c
  rw [String.utf8EncodeChar.eq_1]
  by_cases one : c.val.toNat ≤ 0x7f
  · rw [if_pos one]
    exact ⟨_, _, rfl, fun rest => (next_one rest (by omega)).trans (by rw [same]; rfl)⟩
  rw [if_neg one]
  by_cases two : c.val.toNat ≤ 0x7ff
  · rw [if_pos two]
    exact ⟨_, _, rfl, fun rest => (next_two rest (by omega) (by omega)).trans (by rw [same]; rfl)⟩
  rw [if_neg two]
  by_cases three : c.val.toNat ≤ 0xffff
  · rw [if_pos three]
    exact ⟨_, _, rfl, fun rest => (next_three rest (by omega) (by omega) (by omega)).trans (by rw [same]; rfl)⟩
  rw [if_neg three]
  exact ⟨_, _, rfl, fun rest => (next_four rest (by omega) (by omega)).trans (by rw [same]; rfl)⟩

theorem encode_eq (s : String) : encode s = s.toList.flatMap String.utf8EncodeChar := by
  have bytes : s.toUTF8 = s.toList.utf8Encode := String.utf8Encode_toList.symm
  rw [encode, bytes]
  simp [List.utf8Encode]

theorem scanFrom_encode (before : List (Option Char)) (cs : List Char) :
    scanFrom before (cs.flatMap String.utf8EncodeChar) = before.reverse ++ cs.map some := by
  induction cs generalizing before with
  | nil => simp [scanFrom]
  | cons c rest ih =>
    obtain ⟨b, tail, bytes, read⟩ := next_encode c
    rw [List.flatMap_cons, bytes, List.cons_append, scanFrom, read, List.drop_left, ih]
    simp

/-- A text comes back from its bytes. -/
theorem decodeLossy_encode (s : String) : decodeLossy (encode s) = s := by
  rw [decodeLossy, encode_eq, scan, scanFrom_encode]
  simp [Function.comp_def]

/-- Zero is the byte of NUL and of no other character. -/
theorem filter_encodeChar (c : Char) :
    (String.utf8EncodeChar c).filter (· != 0) = if c = '\x00' then [] else String.utf8EncodeChar c := by
  split
  · next nul =>
    subst nul
    rfl
  · next other =>
    have some : c.val.toNat ≠ 0 := fun zero => other (Char.ext (UInt32.toNat_inj.mp zero))
    rw [List.filter_eq_self]
    intro b member
    rw [bne_iff_ne]
    intro zero
    rw [String.utf8EncodeChar.eq_1] at member
    have value {n : Nat} (bound : n < 256) (h : b = UInt8.ofNat n) : n = 0 := (ofNat_inj bound (by decide)).mp (h ▸ zero)
    split at member
    · have := value (by omega) (List.mem_singleton.mp member)
      omega
    -- every byte of a longer character has its top bit set
    have high {n k : Nat} (bound : n % k + 0x80 < 256) (h : b = UInt8.ofNat (n % k + 0x80)) : False := by
      have := value bound h
      omega
    split at member
    · simp only [List.mem_cons, List.not_mem_nil, or_false] at member
      rcases member with h | h
      · have := value (by omega) h
        omega
      · exact high (by omega) h
    split at member
    · simp only [List.mem_cons, List.not_mem_nil, or_false] at member
      rcases member with h | h | h
      · have := value (by omega) h
        omega
      · exact high (by omega) h
      · exact high (by omega) h
    · simp only [List.mem_cons, List.not_mem_nil, or_false] at member
      rcases member with h | h | h | h
      · have := value (by omega) h
        omega
      · exact high (by omega) h
      · exact high (by omega) h
      · exact high (by omega) h

theorem filter_encode (s : String) :
    (encode s).filter (· != 0) = encode (String.ofList (s.toList.filter (· != '\x00'))) := by
  rw [encode_eq, encode_eq, String.toList_ofList]
  induction s.toList with
  | nil => rfl
  | cons c rest ih =>
    rw [List.flatMap_cons, List.filter_append, ih, filter_encodeChar]
    by_cases nul : c = '\x00'
    · subst nul
      rfl
    · rw [if_neg nul, List.filter_cons_of_pos (by simpa using nul), List.flatMap_cons]

end BasicMachine.Utf8
