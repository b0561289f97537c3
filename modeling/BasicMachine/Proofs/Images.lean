import BasicMachine.Program.Image
import BasicMachine.Proofs.Bursts
import BasicMachine.Proofs.Decoding

/-!
# Images and the programs they hold

Reading accepts the images that writing makes and nothing else, so that an image stands for one program and a program
has one image. Two images are never close to each other: one that is changed in its mark, its version, its length or
its checksum, or in at most four bytes of code in a row, is no image any more.
-/
namespace BasicMachine.Program

/-- The numbers of the header fit their fields. -/
structure Fits (p : Program) : Prop where
  entry : p.entry < 0x100000000
  staticSize : p.staticSize < 0x100000000
  size : p.size < 0x100000000

def Rejected (image : List UInt8) : Prop := ∃ e, ofImage image = .error e ∧ e.code = .badImage

/-- What is tested of an image. -/
structure Valid (image : List UInt8) : Prop where
  header : headerSize ≤ image.length
  mark : image.take 4 = imageMark
  version : half (image.drop 4) = imageVersion
  length : (image.drop headerSize).length = (word (image.drop 14)).toNat
  checksum : Checksum.crc32 (image.drop headerSize) = word (image.drop 18)

/-- The program that an image holds. -/
def held (image : List UInt8) : Program where
  code := (image.drop headerSize).toArray
  entry := (word (image.drop 6)).toNat
  staticSize := (word (image.drop 10)).toNat

theorem ofImage_of_valid {image : List UInt8} (h : Valid image) : ofImage image = .ok (held image) := by
  have header : ¬(image.length < headerSize ∨ image.take 4 ≠ imageMark) :=
    not_or.mpr ⟨Nat.not_lt_of_le h.header, not_not.mpr h.mark⟩
  rw [ofImage, if_neg header]
  dsimp only
  rw [if_neg (not_not.mpr h.version), if_neg (not_not.mpr h.length), if_neg (not_not.mpr h.checksum)]
  rfl

/-- Every image that is not read is rejected. -/
theorem valid_or_rejected (image : List UInt8) : Valid image ∨ Rejected image := by
  cases read : ofImage image with
  | error e =>
    refine .inr ⟨e, read, ?_⟩
    unfold ofImage badImage at read
    dsimp only at read
    repeat' split at read
    all_goals cases read
    all_goals rfl
  | ok q =>
    unfold ofImage badImage at read
    dsimp only at read
    split at read
    · cases read
    next header =>
      obtain ⟨long, mark⟩ := not_or.mp header
      split at read
      · cases read
      next version =>
        split at read
        · cases read
        next length =>
          split at read
          · cases read
          next checksum =>
            exact .inl ⟨Nat.le_of_not_lt long, not_not.mp mark, not_not.mp version, not_not.mp length,
              not_not.mp checksum⟩

theorem rejected_iff {image : List UInt8} : Rejected image ↔ ¬Valid image := by
  refine ⟨fun ⟨e, failed, _⟩ valid => ?_, (valid_or_rejected image).resolve_left⟩
  rw [ofImage_of_valid valid] at failed
  cases failed

theorem ofImage_eq_ok_iff {image : List UInt8} {q : Program} : ofImage image = .ok q ↔ Valid image ∧ q = held image := by
  constructor
  · intro read
    rcases valid_or_rejected image with valid | ⟨e, failed, -⟩
    · rw [ofImage_of_valid valid] at read
      exact ⟨valid, (Except.ok.inj read).symm⟩
    · rw [failed] at read
      cases read
  · rintro ⟨valid, rfl⟩
    exact ofImage_of_valid valid

theorem bytes16_half {bytes : List UInt8} (h : 2 ≤ bytes.length) : bytes16 (half bytes) ++ bytes.drop 2 = bytes := by
  match bytes, h with
  | a :: b :: rest, _ =>
    have value := half_toNat a b
    have low := a.toNat_lt
    have high := b.toNat_lt
    have first : (half (a :: b :: rest)).toUInt8 = a := by
      rw [← UInt8.toNat_inj, UInt16.toNat_toUInt8, half, value]
      omega
    have second : (half (a :: b :: rest) >>> 8).toUInt8 = b := by
      rw [← UInt8.toNat_inj, UInt16.toNat_toUInt8, UInt16.toNat_shiftRight, half, value]
      simp only [UInt16.reduceToNat, Nat.reduceMod, Nat.shiftRight_eq_div_pow]
      omega
    rw [bytes16, first, second]
    rfl

theorem bytes32_word {bytes : List UInt8} (h : 4 ≤ bytes.length) : bytes32 (word bytes) ++ bytes.drop 4 = bytes := by
  match bytes, h with
  | a :: b :: c :: d :: rest, _ =>
    have value := word_toNat a b c d
    have ha := a.toNat_lt
    have hb := b.toNat_lt
    have hc := c.toNat_lt
    have hd := d.toNat_lt
    have first : (word (a :: b :: c :: d :: rest)).toUInt8 = a := by
      rw [← UInt8.toNat_inj, UInt32.toNat_toUInt8, word, value]
      omega
    have later (k : UInt32) (e : UInt8)
        (digit : (a.toNat + 256 * b.toNat + 65536 * c.toNat + 16777216 * d.toNat) >>> (k.toNat % 32) % 2 ^ 8 = e.toNat) :
        (word (a :: b :: c :: d :: rest) >>> k).toUInt8 = e := by
      rw [← UInt8.toNat_inj, UInt32.toNat_toUInt8, UInt32.toNat_shiftRight, word, value, digit]
    rw [bytes32, first, later 8 b, later 16 c, later 24 d]
    · rfl
    all_goals
      simp only [UInt32.reduceToNat, Nat.reduceMod, Nat.shiftRight_eq_div_pow]
      omega

/-- The parts of an image in a row. -/
def layOut (entry staticSize length checksum : UInt32) (code : List UInt8) : List UInt8 :=
  imageMark ++ (bytes16 imageVersion ++ (bytes32 entry ++ (bytes32 staticSize ++ (bytes32 length ++
    (bytes32 checksum ++ code)))))

theorem toImage_eq (p : Program) : p.toImage =
    layOut (.ofNat p.entry) (.ofNat p.staticSize) (.ofNat p.size) (Checksum.crc32 p.code.toList) p.code.toList := by
  simp only [toImage, layOut, List.append_assoc]

theorem length_toImage (p : Program) : p.toImage.length = headerSize + p.size := by
  rw [toImage_eq, size, ← Array.length_toList, Nat.add_comm]
  rfl

/-- A valid image is laid out as images are, and its fields hold what they say. -/
theorem Valid.toImage_held {image : List UInt8} (h : Valid image) : (held image).toImage = image := by
  have long : 22 ≤ image.length := h.header
  have code : (held image).code.toList = image.drop 22 := rfl
  have size : UInt32.ofNat (held image).size = word (image.drop 14) := by
    rw [Program.size, ← Array.length_toList, code, show 22 = headerSize from rfl, h.length, UInt32.ofNat_toNat]
  have field {n : Nat} (inside : n + 4 ≤ 22) :
      bytes32 (word (image.drop n)) ++ image.drop (n + 4) = image.drop n := by
    rw [← List.drop_drop]
    exact bytes32_word (by rw [List.length_drop]; omega)
  have version : bytes16 imageVersion ++ image.drop 6 = image.drop 4 := by
    have parts : bytes16 (half (image.drop 4)) ++ (image.drop 4).drop 2 = image.drop 4 :=
      bytes16_half (by rw [List.length_drop]; omega)
    rwa [h.version, List.drop_drop] at parts
  rw [toImage_eq, size, code]
  simp only [layOut, held, UInt32.ofNat_toNat]
  rw [show Checksum.crc32 (image.drop 22) = word (image.drop 18) from h.checksum, field (n := 18) (by omega),
    field (n := 14) (by omega), field (n := 10) (by omega), field (n := 6) (by omega), version, ← h.mark,
    List.take_append_drop]

theorem fits_held {image : List UInt8} (h : Valid image) : (held image).Fits := by
  refine ⟨UInt32.toNat_lt _, UInt32.toNat_lt _, ?_⟩
  rw [Program.size, ← Array.length_toList, show (held image).code.toList = image.drop headerSize from rfl, h.length]
  exact UInt32.toNat_lt _

theorem valid_toImage {p : Program} (fits : p.Fits) : Valid p.toImage := by
  refine ⟨?_, ?_, ?_, ?_, ?_⟩
  · rw [length_toImage]
    omega
  all_goals rw [toImage_eq]
  · rfl
  · exact half_of_bytes imageVersion
  · refine Array.length_toList.trans ?_
    refine (UInt32.toNat_ofNat_of_lt' fits.size).symm.trans (congrArg UInt32.toNat ?_)
    exact (word_of_bytes (.ofNat p.size)).symm
  · exact (word_of_bytes (Checksum.crc32 p.code.toList)).symm

theorem held_toImage {p : Program} (fits : p.Fits) : held p.toImage = { p with labels := [] } := by
  have entry : (word (p.toImage.drop 6)).toNat = p.entry := by
    rw [toImage_eq]
    exact (congrArg UInt32.toNat (word_of_bytes (.ofNat p.entry))).trans (UInt32.toNat_ofNat_of_lt' fits.entry)
  have staticSize : (word (p.toImage.drop 10)).toNat = p.staticSize := by
    rw [toImage_eq]
    exact (congrArg UInt32.toNat (word_of_bytes (.ofNat p.staticSize))).trans
      (UInt32.toNat_ofNat_of_lt' fits.staticSize)
  have code : (p.toImage.drop headerSize).toArray = p.code := by
    rw [toImage_eq]
    exact Array.toArray_toList
  rw [held, entry, staticSize, code]

/-- Bytes that begin with a valid image are as long as it. -/
theorem Valid.length_eq {image longer : List UInt8} (h : Valid image) (h' : Valid longer) (starts : image <+: longer) :
    image.length = longer.length := by
  obtain ⟨rest, rfl⟩ := starts
  have long : 22 ≤ image.length := h.header
  have same : word ((image ++ rest).drop 14) = word (image.drop 14) := by
    rw [List.drop_append_of_le_length (by omega)]
    match found : image.drop 14 with
    | _ :: _ :: _ :: _ :: _ => rfl
    | [] | [_] | [_, _] | [_, _, _] =>
      have := congrArg List.length found
      simp only [List.length_drop, List.length_cons, List.length_nil] at this
      omega
  have first := h.length
  have second := h'.length
  rw [same, ← first] at second
  simp only [List.length_drop, List.length_append, headerSize] at second ⊢
  omega

/-- Writing and reading images undo each other. No image goes on where another one ends. -/
theorem image_bijection :
    (∀ p : Program, p.Fits → ofImage p.toImage = .ok { p with labels := [] }) ∧
      (∀ image q, ofImage image = .ok q → q.toImage = image ∧ q.Fits ∧ q.labels = []) ∧
      (∀ p : Program, p.Fits → ∀ image, image <+: p.toImage → image ≠ p.toImage → Rejected image) ∧
      ∀ p : Program, p.Fits → ∀ extra, extra ≠ [] → Rejected (p.toImage ++ extra) := by
  refine ⟨fun p fits => ?_, fun image q read => ?_, fun p fits image starts other => ?_, fun p fits extra more => ?_⟩
  · exact ofImage_eq_ok_iff.mpr ⟨valid_toImage fits, (held_toImage fits).symm⟩
  · obtain ⟨valid, rfl⟩ := ofImage_eq_ok_iff.mp read
    exact ⟨valid.toImage_held, fits_held valid, rfl⟩
  · refine rejected_iff.mpr fun valid => other ?_
    exact starts.eq_of_length (valid.length_eq (valid_toImage fits) starts)
  · refine rejected_iff.mpr fun valid => more ?_
    have length := (valid_toImage fits).length_eq valid (List.prefix_append ..)
    rw [List.length_append] at length
    exact List.eq_nil_of_length_eq_zero (by omega)

/-- A string constant and a HALT, at which the program starts. -/
def greeting : Program where
  code := #[45, 72, 69, 76, 76, 79, 0, 1]
  entry := 7
  staticSize := 12

theorem fits_greeting : greeting.Fits := ⟨by decide, by decide, by decide⟩

theorem image_bijection_greeting :
    ofImage greeting.toImage = .ok greeting ∧ Rejected (greeting.toImage.take 21) ∧
      Rejected (greeting.toImage ++ [0]) ∧ ∀ q, ofImage greeting.toImage = .ok q → q.toImage = greeting.toImage := by
  refine ⟨image_bijection.1 greeting fits_greeting, ?_, image_bijection.2.2.2 greeting fits_greeting [0] (by simp),
    fun q read => (image_bijection.2.1 _ q read).1⟩
  refine image_bijection.2.2.1 greeting fits_greeting _ (List.take_prefix ..) fun same => ?_
  have length := congrArg List.length same
  rw [List.length_take, length_toImage] at length
  exact absurd length (by decide)

/-- Two different rows of bytes of one length that agree before `start` and from `stop` on. -/
structure DiffersWithin (start stop : Nat) (first second : List UInt8) : Prop where
  length : first.length = second.length
  differs : first ≠ second
  agrees : ∀ i, i < start ∨ stop ≤ i → first[i]? = second[i]?

namespace DiffersWithin

variable {start stop : Nat} {first second : List UInt8}

theorem take_eq (h : DiffersWithin start stop first second) : first.take start = second.take start := by
  refine List.ext_getElem? fun i => ?_
  rw [List.getElem?_take, List.getElem?_take]
  split
  · next before => exact h.agrees i (.inl before)
  · rfl

theorem drop_eq (h : DiffersWithin start stop first second) : first.drop stop = second.drop stop := by
  refine List.ext_getElem? fun i => ?_
  rw [List.getElem?_drop, List.getElem?_drop]
  exact h.agrees _ (.inr (Nat.le_add_right ..))

end DiffersWithin

theorem bytes32_injective {m n : UInt32} (same : bytes32 m = bytes32 n) : m = n :=
  (word_of_bytes m).symm.trans ((congrArg word same).trans (word_of_bytes n))

section
variable {p q : Program}

theorem code_eq_of_drop (same : q.toImage.drop headerSize = p.toImage.drop headerSize) :
    q.code.toList = p.code.toList := by
  rw [toImage_eq, toImage_eq] at same
  exact same

/-- Mark and version are those of every image. -/
theorem toImage_eq_of_mark (h : q.toImage.drop 6 = p.toImage.drop 6) : q.toImage = p.toImage := by
  have start (r : Program) : r.toImage.take 6 = imageMark ++ bytes16 imageVersion := by
    rw [toImage_eq]
    rfl
  rw [← List.take_append_drop 6 q.toImage, start, h, ← start p, List.take_append_drop]

/-- The length follows from the code. -/
theorem toImage_eq_of_length (before : q.toImage.take 14 = p.toImage.take 14)
    (after : q.toImage.drop 18 = p.toImage.drop 18) : q.toImage = p.toImage := by
  have parts (r : Program) : r.toImage = r.toImage.take 14 ++ (bytes32 (.ofNat r.code.toList.length) ++ r.toImage.drop 18) := by
    rw [toImage_eq]
    rfl
  have code := code_eq_of_drop (congrArg (List.drop 4) after)
  rw [parts q, parts p, before, after, code]

/-- The checksum follows from the code. -/
theorem toImage_eq_of_checksum (before : q.toImage.take 18 = p.toImage.take 18)
    (after : q.toImage.drop headerSize = p.toImage.drop headerSize) : q.toImage = p.toImage := by
  have parts (r : Program) : r.toImage =
      r.toImage.take 18 ++ (bytes32 (Checksum.crc32 r.code.toList) ++ r.toImage.drop headerSize) := by
    rw [toImage_eq]
    rfl
  rw [parts q, parts p, before, after, code_eq_of_drop after]

/-- Four bytes of code in a row follow from the checksum. -/
theorem toImage_eq_of_burst {start : Nat} (inside : headerSize ≤ start) (length : q.toImage.length = p.toImage.length)
    (before : q.toImage.take start = p.toImage.take start)
    (after : q.toImage.drop (start + 4) = p.toImage.drop (start + 4)) : q.toImage = p.toImage := by
  obtain ⟨k, rfl⟩ := Nat.exists_eq_add_of_le inside
  have parts (r : Program) : r.toImage = r.toImage.take headerSize ++ r.code.toList := by
    rw [toImage_eq]
    rfl
  have header : q.toImage.take headerSize = p.toImage.take headerSize := by
    have := congrArg (List.take headerSize) before
    rwa [List.take_take, List.take_take, Nat.min_eq_left (by omega)] at this
  have checksum : Checksum.crc32 q.code.toList = Checksum.crc32 p.code.toList := by
    have field (r : Program) : (r.toImage.take headerSize).drop 18 = bytes32 (Checksum.crc32 r.code.toList) := by
      rw [toImage_eq]
      rfl
    exact bytes32_injective (by rw [← field, ← field, header])
  have size : q.code.toList.length = p.code.toList.length := by
    rw [length_toImage, length_toImage] at length
    exact Nat.add_left_cancel length
  have codeOf (r : Program) : r.toImage.drop headerSize = r.code.toList := by
    rw [toImage_eq]
    rfl
  have first : q.code.toList.take k = p.code.toList.take k := by
    have := congrArg (List.drop headerSize) before
    rwa [← List.take_drop, ← List.take_drop, codeOf, codeOf] at this
  have last : (q.code.toList.drop k).drop 4 = (p.code.toList.drop k).drop 4 := by
    rw [← codeOf, ← codeOf, List.drop_drop, List.drop_drop, List.drop_drop, List.drop_drop]
    exact Nat.add_assoc .. ▸ after
  have split (r : Program) : r.code.toList =
      r.code.toList.take k ++ (r.code.toList.drop k).take 4 ++ (r.code.toList.drop k).drop 4 := by
    rw [List.append_assoc, List.take_append_drop, List.take_append_drop]
  have middle : (q.code.toList.drop k).take 4 = (p.code.toList.drop k).take 4 := by
    rw [split q, split p, first, last] at checksum
    exact Checksum.eq_of_crc32 (by simp only [List.length_take, List.length_drop, size]) (List.length_take_le ..) checksum
  rw [parts q, parts p, header, split q, split p, first, middle, last]

end

/-- An image is rejected once something of it is changed inside its mark and version, inside its length, inside its
checksum, or inside four bytes of its code in a row. -/
theorem corruption_detected {p : Program} {image : List UInt8}
    (changed : DiffersWithin 0 6 image p.toImage ∨ DiffersWithin 14 18 image p.toImage ∨
      DiffersWithin 18 22 image p.toImage ∨ ∃ start, 22 ≤ start ∧ DiffersWithin start (start + 4) image p.toImage) :
    Rejected image := by
  refine rejected_iff.mpr fun valid => ?_
  rw [← valid.toImage_held] at changed
  rcases changed with h | h | h | ⟨start, inside, h⟩
  · exact h.differs (toImage_eq_of_mark h.drop_eq)
  · exact h.differs (toImage_eq_of_length h.take_eq h.drop_eq)
  · exact h.differs (toImage_eq_of_checksum h.take_eq h.drop_eq)
  · exact h.differs (toImage_eq_of_burst inside h.length h.take_eq h.drop_eq)

/-- Two letters of the string are changed. -/
theorem corruption_detected_greeting :
    DiffersWithin 23 27 ((greeting.toImage.set 23 89).set 26 89) greeting.toImage ∧
      Rejected ((greeting.toImage.set 23 89).set 26 89) := by
  have changed : DiffersWithin 23 27 ((greeting.toImage.set 23 89).set 26 89) greeting.toImage := by
    refine ⟨by rw [List.length_set, List.length_set], by decide +kernel, fun i outside => ?_⟩
    rw [List.getElem?_set_ne (by omega), List.getElem?_set_ne (by omega)]
  exact ⟨changed, corruption_detected (.inr (.inr (.inr ⟨23, by decide, changed⟩)))⟩

end BasicMachine.Program
