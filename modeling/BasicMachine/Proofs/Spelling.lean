import BasicMachine.Assembly.Line
import BasicMachine.Proofs.Decimals
import BasicMachine.Proofs.PackedValues
import BasicMachine.Proofs.References
import BasicMachine.Proofs.Utf8
import Mathlib

/-!
# Texts that are read back

Numbers and quoted texts, as listings write them, are read by the assembler as what they stand for; and the pieces of a
line are the words and texts it was written from.
-/
namespace BasicMachine

theorem ofDigits_toDigits (n : Nat) : Numeral.ofDigits (Nat.toDigits 10 n) = n := Nat.ofDigitChars_ten_toDigits

theorem digits_toDigits (n : Nat) : Digits (Nat.toDigits 10 n) where
  some := Nat.toDigits_ne_nil
  all _ h := Nat.isDigit_of_mem_toDigits (by decide) (by decide) h

theorem toList_toString (n : Nat) : (toString n).toList = Nat.toDigits 10 n := Nat.toList_repr

theorem unsigned?_toDigits {n limit : Nat} (bound : n ≤ limit) :
    Numeral.unsigned? limit (Nat.toDigits 10 n) = some n := by
  rw [unsigned?_eq (digits_toDigits n) (by rwa [ofDigits_toDigits]), ofDigits_toDigits]

theorem signed?_toString (n : Int) : Numeral.signed? (toString n).toList = some n := by
  cases n with
  | ofNat n =>
    rw [show (toString (Int.ofNat n)).toList = Nat.toDigits 10 n from toList_toString n, signed?_eq (digits_toDigits n),
      ofDigits_toDigits]
    rfl
  | negSucc n =>
    have text : (toString (Int.negSucc n)).toList = '-' :: Nat.toDigits 10 (n + 1) := by
      show ("-" ++ (n + 1).repr).toList = _
      rw [String.toList_append, Nat.toList_repr]
      rfl
    rw [text, Numeral.signed?, digits?_eq (digits_toDigits _), ofDigits_toDigits]
    rfl

theorem int16?_toString (n : Int16) : Numeral.int16? (toString n.toInt).toList = some n := by
  have low := n.le_toInt
  have high := n.toInt_lt
  rw [Numeral.int16?, signed?_toString]
  dsimp only
  rw [if_pos (by omega), Int16.ofInt_toInt]

/-- A hexadecimal digit is read as its value. -/
theorem hexDigit?_digitChar {n : Nat} (h : n < 16) : Numeral.hexDigit? n.digitChar = some n := by
  revert n
  decide

theorem foldlM_toDigits (n : Nat) :
    (Nat.toDigits 16 n).foldlM (fun n c => (Numeral.hexDigit? c).map (16 * n + ·)) 0 = some n := by
  induction n using Nat.strongRecOn with
  | _ n ih =>
    by_cases single : n < 16
    · rw [Nat.toDigits_of_lt_base single, List.foldlM_cons, hexDigit?_digitChar single]
      simp
    · rw [Nat.toDigits_of_base_le (by decide) (by omega), List.foldlM_append, ih (n / 16) (by omega)]
      simp only [Option.bind_eq_bind, Option.bind_some, List.foldlM_cons, List.foldlM_nil,
        hexDigit?_digitChar (Nat.mod_lt n (show 16 > 0 by decide)), Option.map_some]
      exact congrArg some (by omega)

theorem isHexDigit_of_mem {n : Nat} {c : Char} (h : c ∈ Nat.toDigits 16 n) : ∃ k < 16, c = k.digitChar := by
  induction n using Nat.strongRecOn with
  | _ n ih =>
    by_cases single : n < 16
    · rw [Nat.toDigits_of_lt_base single, List.mem_singleton] at h
      exact ⟨n, single, h⟩
    · rw [Nat.toDigits_of_base_le (by decide) (by omega), List.mem_append] at h
      rcases h with earlier | last
      · exact ih (n / 16) (by omega) earlier
      · exact ⟨n % 16, Nat.mod_lt n (by decide), List.mem_singleton.mp last⟩

theorem hexadecimal?_toDigits (n : Nat) : Numeral.hexadecimal? (Nat.toDigits 16 n) = some n := by
  have signless : ∀ rest, Nat.toDigits 16 n ≠ '+' :: rest := by
    intro rest h
    obtain ⟨k, small, same⟩ := isHexDigit_of_mem (show '+' ∈ Nat.toDigits 16 n by rw [h]; simp)
    revert same
    revert k
    decide
  unfold Numeral.hexadecimal?
  split
  next rest same => exact absurd same (signless rest)
  next => simpa using foldlM_toDigits n

theorem isAlpha_bounds {c : Char} (letter : c.isAlpha = true) :
    65 ≤ c.toNat ∧ c.toNat ≤ 90 ∨ 97 ≤ c.toNat ∧ c.toNat ≤ 122 := by
  simp only [Char.isAlpha, Char.isUpper, Char.isLower, Bool.or_eq_true, Bool.and_eq_true, decide_eq_true_eq, ge_iff_le,
    UInt32.le_iff_toNat_le, Char.reduceVal, UInt32.reduceToNat] at letter
  exact letter

theorem isDigit_of_isAlpha {c : Char} (letter : c.isAlpha = true) : c.isDigit = false := by
  have range := isAlpha_bounds letter
  cases digit : c.isDigit with
  | false => rfl
  | true =>
    have bounds := isDigit_bounds digit
    omega

namespace Assembly

theorem escape_number {c : Char} (rest : List Char) :
    escape (['u', '\x7b'] ++ Nat.toDigits 16 c.toNat ++ ['\x7d'] ++ rest) = .ok (c, rest) := by
  have digits : ∀ d ∈ Nat.toDigits 16 c.toNat, (d != '\x7d') = true := by
    intro d found
    obtain ⟨k, small, rfl⟩ := isHexDigit_of_mem found
    clear found
    revert k
    decide
  have code : Nat.isValidChar c.toNat := c.valid
  have taken : (Nat.toDigits 16 c.toNat ++ '\x7d' :: rest).takeWhile (· != '\x7d') = Nat.toDigits 16 c.toNat := by
    rw [List.takeWhile_append_of_pos digits]
    simp
  have dropped : (Nat.toDigits 16 c.toNat ++ '\x7d' :: rest).dropWhile (· != '\x7d') = '\x7d' :: rest := by
    rw [List.dropWhile_append_of_pos digits]
    simp
  simp only [List.cons_append, List.nil_append, List.append_assoc, escape, taken, dropped,
    hexadecimal?_toDigits, Option.filter_some, decide_eq_true code, if_true, Char.ofNat_toNat]

theorem quotedText_backslash {c : Char} {cs rest : List Char} (h : escape cs = .ok (c, rest)) (before : List Char) :
    quotedText before ('\\' :: cs) = quotedText (c :: before) rest := by
  rw [quotedText]
  split
  next failed => rw [h] at failed; cases failed
  next read => rw [h] at read; cases read; rfl

/-- One character between quotes is read back. -/
theorem quotedText_escape {c : Char} (shown : c ≠ '\x00') (before rest : List Char) :
    quotedText before (Text.escape '"' c ++ rest) = quotedText (c :: before) rest := by
  unfold Text.escape
  split
  · exact absurd rfl shown
  · exact quotedText_backslash rfl before
  · exact quotedText_backslash rfl before
  · exact quotedText_backslash rfl before
  · exact quotedText_backslash rfl before
  next slash =>
    split
    next quote => exact quotedText_backslash (by rw [quote]; rfl) before
    next quote =>
      split
      · rw [List.cons_append, List.nil_append, quotedText]
        · exact fun same => quote same
        · exact fun same => slash same
      · exact quotedText_backslash (escape_number rest) before

/-- A quoted text is read back. -/
theorem quotedText_quoted {cs : List Char} (shown : '\x00' ∉ cs) (before rest : List Char) :
    quotedText before (cs.flatMap (Text.escape '"') ++ '"' :: rest) = .ok (before.reverse ++ cs, rest) := by
  induction cs generalizing before with
  | nil =>
    rw [List.flatMap_nil, List.nil_append, List.append_nil, quotedText]
  | cons c cs ih =>
    rw [List.flatMap_cons, List.append_assoc, quotedText_escape (fun h => shown (by simp [h])),
      ih (fun h => shown (List.mem_cons_of_mem c h))]
    simp

theorem pieces_nil : pieces [] = .ok [] := by
  rw [pieces.eq_def]

theorem pieces_blank {c : Char} (blank : Text.isSpace c = true) (rest : List Char) :
    pieces (c :: rest) = pieces rest := by
  rw [pieces.eq_def]
  exact if_pos blank

theorem pieces_comma (rest : List Char) : pieces (',' :: rest) = (pieces rest).map (.comma :: ·) := by
  rw [pieces.eq_def]
  dsimp only
  rw [if_neg (by decide), if_neg (by decide), if_pos rfl]
  cases pieces rest <;> rfl

/-- A quoted text is a piece. -/
theorem pieces_quoted {s : String} (shown : '\x00' ∉ s.toList) (rest : List Char) :
    pieces ((Text.quoted s).toList ++ rest) = (pieces rest).map (.text s :: ·) := by
  have line : (Text.quoted s).toList ++ rest = '"' :: (s.toList.flatMap (Text.escape '"') ++ '"' :: rest) := by
    simp only [Text.quoted, String.toList_ofList, Text.quoteWith, List.cons_append, List.append_assoc, List.nil_append]
  have read := quotedText_quoted shown [] rest
  rw [List.reverse_nil, List.nil_append] at read
  rw [line, pieces.eq_def]
  dsimp only
  rw [if_neg (by decide), if_neg (by decide), if_neg (by decide), if_pos rfl]
  split
  next failed => rw [read] at failed; cases failed
  next found =>
    rw [read] at found
    cases found
    rw [String.ofList_toList]
    cases pieces rest <;> rfl

/-- A word as far as white space, commas, quotes and semicolons go. -/
structure Word (cs : List Char) : Prop where
  any : cs ≠ []
  all : cs.all isWordChar = true

theorem pieces_word {cs : List Char} (word : Word cs) {rest : List Char}
    (ends : ∀ c ∈ rest.head?, isWordChar c = false) :
    pieces (cs ++ rest) = (pieces rest).map (.word (String.ofList cs) :: ·) := by
  obtain ⟨any, all⟩ := word
  cases cs with
  | nil => exact absurd rfl any
  | cons c cs =>
    rw [List.all_cons, Bool.and_eq_true] at all
    obtain ⟨first, more⟩ := all
    have others : Text.isSpace c = false ∧ c ≠ ';' ∧ c ≠ ',' ∧ c ≠ '"' := by
      simp only [isWordChar, Bool.not_eq_true', Bool.or_eq_false_iff, beq_eq_false_iff_ne] at first
      exact ⟨first.1.1.1, first.2, first.1.1.2, first.1.2⟩
    have ended : rest.takeWhile isWordChar = [] ∧ rest.dropWhile isWordChar = rest := by
      cases rest with
      | nil => exact ⟨rfl, rfl⟩
      | cons d rest => simp [ends d rfl]
    have more := List.all_eq_true.mp more
    rw [List.cons_append, pieces.eq_def]
    dsimp only
    rw [if_neg (by simp [others.1]), if_neg others.2.1, if_neg others.2.2.1,
      if_neg others.2.2.2, List.takeWhile_append_of_pos more, List.dropWhile_append_of_pos more, ended.1, ended.2,
      List.append_nil]
    cases pieces rest <;> rfl

theorem pieces_last {cs : List Char} (word : Word cs) : pieces cs = .ok [.word (String.ofList cs)] := by
  have read := @pieces_word cs word [] nofun
  rwa [List.append_nil, pieces_nil] at read

/-- Letters, digits and the marks of numbers belong to words. -/
theorem isWordChar_of_isAlphanum {c : Char} (h : c.isAlphanum = true) : isWordChar c = true := by
  have range : 0x30 ≤ c.toNat ∧ c.toNat ≤ 0x7a ∧ c.toNat ≠ 0x3b := by
    rw [Char.isAlphanum, Bool.or_eq_true] at h
    rcases h with letter | digit
    · have bounds := isAlpha_bounds letter
      omega
    · have bounds := isDigit_bounds digit
      omega
  have space : Text.isSpace c = false := by
    simp only [Text.isSpace, Bool.or_eq_false_iff, Bool.and_eq_false_iff, decide_eq_false_iff_not, beq_eq_false_iff_ne]
    omega
  have other {d : Char} (far : c.toNat ≠ d.toNat) : (c == d) = false :=
    beq_eq_false_iff_ne.mpr fun same => far (congrArg Char.toNat same)
  rw [isWordChar, space, other (d := ',') (by simp; omega), other (d := '"') (by simp; omega),
    other (d := ';') (by simp; omega)]
  rfl

theorem isWordChar_of_isSpelling {c : Char} (h : Single.isSpelling c = true) : isWordChar c = true := by
  rw [Single.isSpelling, Bool.or_eq_true] at h
  rcases h with digit | mark
  · exact isWordChar_of_isAlphanum (by rw [Char.isAlphanum, digit, Bool.or_true])
  · revert mark
    have all : ['-', '.', 'e', 'i', 'n', 'f'].all isWordChar = true := by decide
    exact fun mark => List.all_eq_true.mp all c (of_decide_eq_true mark)

theorem word_of_all {cs : List Char} (any : cs ≠ []) (all : cs.all Single.isSpelling = true) : Word cs where
  any := any
  all := List.all_eq_true.mpr fun c h => isWordChar_of_isSpelling (List.all_eq_true.mp all c h)

/-- A number is not taken for the name of the unset value, nor for an address. -/
theorem number_distinct {s : String} (all : s.toList.all Single.isSpelling = true) :
    (upper s == "UNSET") = false ∧ (s.toList.head? == some '@') = false := by
  have first : ∀ c ∈ s.toList, c.toUpper ≠ 'U' ∧ c ≠ '@' := by
    intro c found
    have spelling := List.all_eq_true.mp all c found
    rw [Single.isSpelling, Bool.or_eq_true] at spelling
    rcases spelling with digit | mark
    · have range := isDigit_bounds digit
      have same : c.toUpper = c := by
        rw [Char.toUpper, dif_neg]
        simp only [UInt32.le_iff_toNat_le, Char.reduceVal, UInt32.reduceToNat]
        show ¬ (97 ≤ c.toNat ∧ _)
        omega
      rw [same]
      exact ⟨fun h => absurd (congrArg Char.toNat h) (by simp; omega),
        fun h => absurd (congrArg Char.toNat h) (by simp; omega)⟩
    · have all : (['-', '.', 'e', 'i', 'n', 'f'].all fun c => c.toUpper ≠ 'U' ∧ c ≠ '@') = true := by decide
      exact of_decide_eq_true (List.all_eq_true.mp all c (of_decide_eq_true mark))
  refine ⟨beq_eq_false_iff_ne.mpr fun same => ?_, beq_eq_false_iff_ne.mpr fun same => ?_⟩
  · have chars : s.toList.map Char.toUpper = ['U', 'N', 'S', 'E', 'T'] := by
      rw [← String.toList_map]
      exact congrArg String.toList same
    obtain ⟨c, rest, eq, upper, -⟩ := List.map_eq_cons_iff.mp chars
    exact (first c (by rw [eq]; exact List.mem_cons_self)).1 upper
  · exact (first '@' (List.mem_of_mem_head? same)).2 rfl

theorem readPointer_toString {address : Nat} (bound : address ≤ maxPointer) :
    readPointer (toString address) = .ok address := by
  have plain : ∀ rest, Nat.toDigits 10 address ≠ '@' :: rest := by
    intro rest same
    have digit := (digits_toDigits address).all '@' (by rw [same]; exact List.mem_cons_self)
    exact absurd digit (by decide)
  rw [readPointer, toList_toString]
  split
  next n read =>
    split at read
    next rest same => exact absurd same (plain rest)
    next => rw [unsigned?_toDigits bound] at read; cases read; rfl
  next read =>
    split at read
    next rest same => exact absurd same (plain rest)
    next => rw [unsigned?_toDigits bound] at read; cases read

theorem readPointer_at {address : Nat} (bound : address ≤ maxPointer) :
    readPointer ("@" ++ toString address) = .ok address := by
  have chars : ("@" ++ toString address).toList = '@' :: Nat.toDigits 10 address := by
    rw [String.toList_append, toList_toString]
    rfl
  simp only [readPointer, chars, unsigned?_toDigits bound]

theorem mem_of_signed? {cs : List Char} {n : Int} (h : Numeral.signed? cs = some n) :
    ∀ c ∈ cs, c.isDigit = true ∨ c = '-' ∨ c = '+' := by
  have digits {ds : List Char} {k : Nat} (h : Numeral.digits? ds = some k) : ∀ c ∈ ds, c.isDigit = true := by
    unfold Numeral.digits? at h
    split at h
    next all => exact List.all_eq_true.mp (Bool.and_eq_true_iff.mp all).2
    next => cases h
  unfold Numeral.signed? at h
  split at h
  · obtain ⟨_, read, -⟩ := Option.map_eq_some_iff.mp h
    obtain ⟨_, read, -⟩ := Option.bind_eq_some_iff.mp read
    intro c found
    rcases List.mem_cons.mp found with rfl | found
    · exact .inr (.inl rfl)
    · exact .inl (digits read c found)
  · obtain ⟨_, read, -⟩ := Option.map_eq_some_iff.mp h
    intro c found
    rcases List.mem_cons.mp found with rfl | found
    · exact .inr (.inr rfl)
    · exact .inl (digits read c found)
  · obtain ⟨_, read, -⟩ := Option.map_eq_some_iff.mp h
    exact fun c found => .inl (digits read c found)

theorem int16?_eq_none {cs : List Char} {c : Char} (found : c ∈ cs)
    (other : c.isDigit = false ∧ c ≠ '-' ∧ c ≠ '+') : Numeral.int16? cs = none := by
  unfold Numeral.int16?
  split
  next n h =>
    rcases mem_of_signed? h c found with digit | minus | plus
    · rw [other.1] at digit
      cases digit
    · exact absurd minus other.2.1
    · exact absurd plus other.2.2
  next => rfl

theorem holdsInf_append (sign : List Char) : holdsInf (sign ++ ['i', 'n', 'f']) = true := by
  induction sign with
  | nil => rfl
  | cons c rest ih =>
    rw [List.cons_append]
    unfold holdsInf
    split
    · rfl
    next same => cases same; exact ih
    next same => cases same

/-- The text of a single other than NaN is read as that single, if its digits are. -/
theorem readValue_float {x : Float32} (number : x.isNaN = false)
    (reads : Single.word? (Value.float x).text.toList = some x.toBits) :
    readValue (Value.float x).text = .ok (.float x) := by
  obtain ⟨unset, address⟩ := number_distinct (Single.all_text number)
  have marked := Single.marked_text number
  have integer : Numeral.int16? (Value.float x).text.toList = none := by
    rcases marked with point | ⟨sign, infinite⟩
    · exact int16?_eq_none point (by decide)
    · exact int16?_eq_none (c := 'i') (by rw [infinite]; simp) (by decide)
  have looks : looksFloat (Value.float x).text.toList = true := by
    rw [looksFloat, Bool.or_eq_true]
    rcases marked with point | ⟨sign, infinite⟩
    · exact .inl (List.any_eq_true.mpr ⟨'.', point, rfl⟩)
    · rw [infinite]
      exact .inr (holdsInf_append sign)
  have read : Single.read? (Value.float x).text.toList = some x := by
    rw [Single.read?, reads, Option.map_some, Single.ofBits_toBits]
  simp only [readValue, unset, address, integer, read, looks, number, Bool.false_eq_true, if_false, Bool.not_false,
    Bool.and_self, Option.filter_some, if_true]

end Assembly

end BasicMachine
