import BasicMachine.Proofs.Assembling
import BasicMachine.Proofs.Disassembly

/-!
# Items that are read back

The items of an assembly text, each on a line of its own, are an assembly text. Reading it gives the same items, unless
a string holds a NUL: NUL is written as `\0`, which no line of assembly may hold.
-/
namespace BasicMachine

namespace Operand

/-- The single that an operand holds. -/
def single? : Operand → Option Float32
  | float word => some (Float32.ofBits word)
  | value (.float x) => some x
  | _ => Option.none

/-- The operand is a string with a NUL in it. -/
def holdsNul : Operand → Bool
  | string bytes => bytes.contains 0
  | _ => false

/-- What can be read as an operand: addresses fit, a value is no NaN, and a string is a text. -/
def Listed : Operand → Prop
  | pointer address => address ≤ maxPointer
  | value (.float x) => x.isNaN = false
  | value (.pointer address) => address ≤ maxPointer
  | string bytes => ∃ s : String, bytes = Utf8.encode s
  | _ => True

end Operand

/-- A text holds a NUL where its bytes do. -/
theorem Utf8.zero_mem_encode {s : String} : 0 ∈ encode s ↔ '\x00' ∈ s.toList := by
  have kept : (encode s).filter (· != 0) = encode s ↔ s.toList.filter (· != '\x00') = s.toList := by
    rw [filter_encode]
    refine ⟨fun same => ?_, fun same => by rw [same, String.ofList_toList]⟩
    have texts := congrArg decodeLossy same
    rw [decodeLossy_encode, decodeLossy_encode] at texts
    rw [← String.toList_ofList (l := s.toList.filter _), texts]
  simp only [List.filter_eq_self, bne_iff_ne] at kept
  constructor
  · intro found
    by_contra absent
    exact kept.mpr (fun c inside same => absent (same ▸ inside)) 0 found rfl
  · intro found
    by_contra absent
    exact kept.mp (fun b inside same => absent (same ▸ inside)) '\x00' found rfl

theorem Operand.readable_of_listed {operand : Operand} (listed : operand.Listed) (shown : operand.holdsNul = false)
    (number : ∀ x, operand.single? = some x → x.isNaN = false ∧ Single.Faithful x) : operand.Readable := by
  cases operand with
  | float word =>
    obtain ⟨number, faithful⟩ := number _ rfl
    have reads := faithful.literal
    rw [Single.toBits_ofBits number] at reads
    exact ⟨number, reads⟩
  | value v =>
    cases v with
    | float x =>
      obtain ⟨number, faithful⟩ := number x rfl
      refine ⟨number, ?_⟩
      rw [Value.text]
      split
      next whole => exact faithful.exact whole
      next => exact faithful.plain
    | _ => exact listed
  | string bytes =>
    obtain ⟨s, rfl⟩ := listed
    refine ⟨s, fun found => ?_, rfl⟩
    have zero := List.contains_iff_mem.mpr (Utf8.zero_mem_encode.mpr found)
    exact absurd (zero.symm.trans shown) (by decide)
  | _ => exact listed

namespace Assembly

/-- The items, one a line. -/
def listing (items : List Item) : String := String.join (items.map fun item => item.text ++ "\n")

namespace Item

/-- The operand that an item gives. -/
def operand : Item → Operand
  | instruction _ operand => operand
  | _ => .none

/-- What the items of a text are like: names are labels, and an operand is one that its opcode takes. -/
def Listed : Item → Prop
  | label name => isLabel name = true
  | instruction op operand => operand.kind = op.kind ∧ operand.Listed
  | jump op name => op.kind = .short ∧ isLabel name = true
  | entry name => isLabel name = true
  | static cells => cells ≤ maxPointer + 1

end Item

section
/-! Only such items are read. -/

theorem le_of_unsigned? {limit n : Nat} {cs : List Char} (h : Numeral.unsigned? limit cs = some n) : n ≤ limit := by
  unfold Numeral.unsigned? at h
  exact of_decide_eq_true (Option.filter_eq_some_iff.mp h).2

theorem le_of_readPointer {s : String} {address : Nat} (h : readPointer s = .ok address) : address ≤ maxPointer := by
  unfold readPointer at h
  dsimp only at h
  split at h
  next n found => cases h; exact le_of_unsigned? found
  next => cases h

theorem listed_of_readValue {s : String} {v : Value} (h : readValue s = .ok v) : (Operand.value v).Listed := by
  cases v with
  | float x => exact isNaN_of_readValue h
  | pointer address =>
    unfold readValue at h
    dsimp only at h
    split at h
    · cases h
    split at h
    · cases read : readPointer s with
      | error e => rw [read] at h; cases h
      | ok found => rw [read] at h; cases h; exact le_of_readPointer read
    split at h
    · cases h
    split at h <;> cases h
  | _ => trivial

theorem listed_of_readInstruction {op : Opcode} {operands : List Piece} {item : Item}
    (h : readInstruction op operands = .ok item) : item.Listed := by
  unfold readInstruction at h
  split at h
  next kind => cases h; exact ⟨kind.symm, trivial⟩
  next kind =>
    split at h
    · cases h; exact ⟨kind.symm, trivial⟩
    · split at h
      next named => cases h; exact ⟨kind, named⟩
      next => cases h
  next kind =>
    split at h
    · cases h; exact ⟨kind.symm, trivial⟩
    · cases h
  next s kind =>
    cases read : readPointer s with
    | error e => rw [read] at h; cases h
    | ok address => rw [read] at h; cases h; exact ⟨kind.symm, le_of_readPointer read⟩
  next s kind =>
    cases read : readValue s with
    | error e => rw [read] at h; cases h
    | ok v => rw [read] at h; cases h; exact ⟨kind.symm, listed_of_readValue read⟩
  next call register kind =>
    cases read : readSyscall call with
    | error e => rw [read] at h; cases h
    | ok call =>
      cases read' : readRegister register with
      | error e => rw [read, read'] at h; cases h
      | ok register => rw [read, read'] at h; cases h; exact ⟨kind.symm, trivial⟩
  next s kind => cases h; exact ⟨kind.symm, s, rfl⟩
  · cases h
  · cases h

theorem listed_of_readStatement {word : String} {operands : List Piece} {item : Item}
    (h : readStatement word operands = .ok item) : item.Listed := by
  unfold readStatement at h
  split at h
  · unfold readEntry at h
    split at h
    · split at h
      next named => cases h; exact named
      next => cases h
    · cases h
  split at h
  · unfold readStatic at h
    split at h
    · split at h
      next found => cases h; exact le_of_unsigned? found
      next => cases h
    · cases h
  split at h
  · exact listed_of_readInstruction h
  · cases h

theorem listed_of_read {text : String} {items : List Item} (h : read text = .ok items) : ∀ item ∈ items, item.Listed :=
  forall_of_read (fun _ named => named) (fun _ _ _ => listed_of_readStatement) h

end

section
/-! The line of an item. -/

theorem word_of_isLabel {name : String} (named : isLabel name = true) : Word name.toList := by
  unfold isLabel at named
  split at named
  · cases named
  next c rest chars =>
    rw [chars]
    refine ⟨List.cons_ne_nil c rest, List.all_eq_true.mpr fun d found => ?_⟩
    have kind := List.all_eq_true.mp (Bool.and_eq_true_iff.mp named).2 d found
    simp only [Bool.or_eq_true, beq_iff_eq] at kind
    rcases kind with (((letter | rfl) | rfl) | rfl) | rfl
    · exact isWordChar_of_isAlphanum letter
    all_goals decide

/-- A label is not taken for a number. -/
theorem int16?_of_isLabel {name : String} (named : isLabel name = true) : Numeral.int16? name.toList = none := by
  unfold isLabel at named
  split at named
  · cases named
  next c rest chars =>
    rw [chars]
    refine int16?_eq_none List.mem_cons_self ?_
    have first := (Bool.and_eq_true_iff.mp named).1
    simp only [Bool.or_eq_true, beq_iff_eq] at first
    rcases first with (letter | rfl) | rfl
    · refine ⟨isDigit_of_isAlpha letter, ?_, ?_⟩ <;>
      · rintro rfl
        exact absurd letter (by decide)
    all_goals decide

theorem word_append {before after : List Char} (first : Word before) (second : after.all isWordChar = true) :
    Word (before ++ after) :=
  ⟨fun none => first.any (List.append_eq_nil_iff.mp none).1, by rw [List.all_append, first.all, second]; rfl⟩

theorem readLine_label {name : String} (named : isLabel name = true) :
    readLine (Item.label name).text.toList = .ok [.label name] := by
  have word : Word (name.toList ++ [':']) := word_append (word_of_isLabel named) (by decide)
  have ends : (String.ofList (name.toList ++ [':'])).toList.getLast? = some ':' := by simp
  have cut : String.ofList (String.ofList (name.toList ++ [':'])).toList.dropLast = name := by simp
  rw [Item.text, String.toList_append]
  show readLine (name.toList ++ [':']) = _
  rw [readLine, pieces_last word]
  show itemsOf [.word (String.ofList (name.toList ++ [':']))] = _
  simp only [itemsOf, if_pos ends, cut, named, if_true]
  rfl

theorem pieces_two {first second : String} (one : Word first.toList) (other : Word second.toList) :
    pieces (first ++ " " ++ second).toList = .ok [.word first, .word second] := by
  have chars : (first ++ " " ++ second).toList = first.toList ++ ' ' :: second.toList := by simp
  rw [chars, pieces_word one (by rintro _ ⟨⟩; decide), pieces_word_operand other]
  simp only [Except.map, String.ofList_toList]

theorem readLine_jump {op : Opcode} {name : String} (kind : op.kind = .short) (named : isLabel name = true) :
    readLine (Item.jump op name).text.toList = .ok [.jump op name] := by
  have begins := begins_mnemonic op
  have chars : (Item.jump op name).text.toList = ' ' :: ' ' :: ' ' :: ' ' :: (op.mnemonic ++ " " ++ name).toList := by
    simp [Item.text]
  have cut : pieces (Item.jump op name).text.toList = .ok [.word op.mnemonic, .word name] := by
    rw [chars]
    simp only [pieces_blank (c := ' ') (by decide)]
    exact pieces_two begins.word (word_of_isLabel named)
  rw [readLine, cut]
  show itemsOf [.word op.mnemonic, .word name] = _
  rw [itemsOf, if_neg begins.unlabelled, readStatement_of_begins begins, readInstruction.eq_def, kind]
  dsimp only
  rw [int16?_of_isLabel named]
  dsimp only
  rw [if_pos named]
  rfl

theorem readLine_entry {name : String} (named : isLabel name = true) :
    readLine (Item.entry name).text.toList = .ok [.entry name] := by
  have directive : Word ".entry".toList := word_iff.mpr (by decide)
  rw [readLine, show (Item.entry name).text = ".entry" ++ " " ++ name from rfl,
    pieces_two directive (word_of_isLabel named)]
  show itemsOf [.word ".entry", .word name] = _
  rw [itemsOf, if_neg (by decide), readStatement, if_pos (by decide), readEntry, if_pos named]
  rfl

theorem readLine_static {cells : Nat} (bound : cells ≤ maxPointer + 1) :
    readLine (Item.static cells).text.toList = .ok [.static cells] := by
  have directive : Word ".static".toList := word_iff.mpr (by decide)
  have number : Word (toString cells).toList := word_toString cells
  rw [readLine, show (Item.static cells).text = ".static" ++ " " ++ toString cells from rfl,
    pieces_two directive number]
  show itemsOf [.word ".static", .word (toString cells)] = _
  rw [itemsOf, if_neg (by decide), readStatement, if_neg (by decide), if_pos (by decide), readStatic, toList_toString,
    unsigned?_toDigits bound]
  rfl

/-- The line of an item is read as that item. -/
theorem readLine_item {item : Item} (listed : item.Listed) (readable : item.operand.Readable) :
    readLine item.text.toList = .ok [item] := by
  cases item with
  | label name => exact readLine_label listed
  | instruction op operand =>
    obtain ⟨i, parts⟩ := Item.exists_ofParts? listed.1
    obtain ⟨rfl, rfl⟩ := Instruction.ofParts?_eq_some_iff.mp parts
    rw [Item.text, String.append_assoc]
    exact readLine_text readable
  | jump op name => exact readLine_jump listed.1 listed.2
  | entry name => exact readLine_entry listed
  | static cells => exact readLine_static listed

/-- No line of assembly holds NUL in the form it is written in. -/
theorem quotedText_nul {cs : List Char} (found : '\x00' ∈ cs) (before rest : List Char) :
    quotedText before (cs.flatMap (Text.escape '"') ++ rest) = .error (badEscape " \\0") := by
  induction cs generalizing before with
  | nil => cases found
  | cons c cs ih =>
    rw [List.flatMap_cons, List.append_assoc]
    by_cases nul : c = '\x00'
    · subst nul
      rw [Text.escape, List.cons_append, quotedText]
      rfl
    · rw [quotedText_escape nul, ih ((List.mem_cons.mp found).resolve_left (Ne.symm nul))]

theorem readLine_nul {item : Item} (listed : item.Listed) (nul : item.operand.holdsNul = true) :
    readLine item.text.toList = .error (badEscape " \\0") := by
  cases item with
  | instruction op operand =>
    obtain ⟨i, parts⟩ := Item.exists_ofParts? listed.1
    obtain ⟨rfl, rfl⟩ := Instruction.ofParts?_eq_some_iff.mp parts
    cases i with
    | setS bytes =>
      obtain ⟨s, rfl⟩ := listed.2
      have found : '\x00' ∈ s.toList := Utf8.zero_mem_encode.mp (List.contains_iff_mem.mp nul)
      have text : (Instruction.setS (Utf8.encode s)).operand.text.toList =
          ' ' :: '"' :: (s.toList.flatMap (Text.escape '"') ++ ['"']) := by
        simp [Instruction.operand, Operand.text, Utf8.decodeLossy_encode, Text.quoted, Text.quoteWith]
      have cut : pieces (Instruction.setS (Utf8.encode s)).operand.text.toList = .error (badEscape " \\0") := by
        rw [text, pieces_blank (by decide), pieces.eq_def]
        dsimp only
        rw [if_neg (by decide), if_neg (by decide), if_neg (by decide), if_pos rfl]
        split
        next failed => rw [quotedText_nul found] at failed; cases failed; rfl
        next read => rw [quotedText_nul found] at read; cases read
      rw [Item.text, String.append_assoc]
      show readLine ("    " ++ (Instruction.setS (Utf8.encode s)).text).toList = _
      rw [readLine, pieces_line, cut]
      rfl
    | _ => cases nul
  | _ => cases nul

theorem all_inline_item {item : Item} (listed : item.Listed)
    (readable : item.operand.holdsNul = false → item.operand.Readable) : item.text.toList.all isInline = true := by
  have word {s : String} (h : Word s.toList) : s.toList.all isInline = true := all_inline_of_word h
  cases item with
  | label name =>
    rw [Item.text, String.toList_append, List.all_append, word (word_of_isLabel listed)]
    rfl
  | instruction op operand =>
    have rest : operand.text.toList.all isInline = true := by
      cases nul : operand.holdsNul with
      | false => exact all_inline_operand (readable nul)
      | true =>
        cases operand with
        | string bytes => rw [Operand.text, String.toList_append, List.all_append, all_inline_quoted]; rfl
        | _ => cases nul
    rw [Item.text, String.toList_append, String.toList_append, List.all_append, List.all_append,
      word (begins_mnemonic op).word, rest]
    rfl
  | jump op name =>
    simp only [Item.text, String.toList_append, List.all_append, word (begins_mnemonic op).word,
      word (word_of_isLabel listed.2)]
    rfl
  | entry name =>
    rw [Item.text, String.toList_append, List.all_append, word (word_of_isLabel listed)]
    rfl
  | static cells =>
    rw [Item.text, String.toList_append, List.all_append, word (s := toString cells) (word_toString cells)]
    rfl

end

/-- The first item with a NUL in it, and its row. -/
def firstNul (items : List Item) (row : Nat) : Option Nat :=
  ((items.zipIdx row).find? (·.1.operand.holdsNul)).map (·.2)

theorem mapM_readRow_items {items : List Item} (listed : ∀ item ∈ items, item.Listed)
    (readable : ∀ item ∈ items, item.operand.holdsNul = false → item.operand.Readable) (row : Nat) :
    ((items.map (·.text.toList)).zipIdx row).mapM readRow =
      match firstNul items row with
      | none => .ok (items.map ([·]))
      | some row => .error ((badEscape " \\0").inLine row) := by
  induction items generalizing row with
  | nil => rfl
  | cons item items ih =>
    have first := listed item List.mem_cons_self
    have later := ih (fun other member => listed other (List.mem_cons_of_mem item member))
      (fun other member => readable other (List.mem_cons_of_mem item member)) (row + 1)
    rw [List.map_cons, List.zipIdx_cons, List.mapM_cons, readRow, firstNul, List.zipIdx_cons, List.find?_cons]
    cases nul : item.operand.holdsNul with
    | true =>
      rw [readLine_nul first nul]
      rfl
    | false =>
      rw [readLine_item first (readable item List.mem_cons_self nul), later]
      show _ = match firstNul items (row + 1) with
        | none => _
        | some row => _
      cases firstNul items (row + 1) <;> rfl

end Assembly

/-- The items of a text, one a line, are read as the same items; but if some string holds a NUL, reading stops at the
first of them. -/
theorem Assembly.listing_read_back {text : String} {items : List Item} (h : read text = .ok items)
    (numbers : ∀ item ∈ items, ∀ x, item.operand.single? = some x → x.isNaN = false)
    (faithful : ∀ item ∈ items, ∀ x, item.operand.single? = some x → Single.Faithful x) :
    read (listing items) =
      match firstNul items 1 with
      | none => .ok items
      | some row => .error ((badEscape " \\0").inLine row) := by
  have listed := listed_of_read h
  have readable : ∀ item ∈ items, item.operand.holdsNul = false → item.operand.Readable := by
    intro item member shown
    refine Operand.readable_of_listed ?_ shown fun x holds => ⟨numbers item member x holds, faithful item member x holds⟩
    have given := listed item member
    cases item with
    | instruction op operand => exact given.2
    | _ => trivial
  have rows : Text.lines (listing items).toList = items.map (·.text.toList) := by
    have split : (listing items).toList = (items.map (·.text.toList)).flatMap (· ++ ['\n']) := by
      simp [listing, List.flatMap_map]
    rw [split]
    refine lines_flatMap fun row member => ?_
    obtain ⟨item, inside, rfl⟩ := List.mem_map.mp member
    exact all_inline_item (listed item inside) (readable item inside)
  rw [read, rows, mapM_readRow_items listed readable]
  cases firstNul items 1 with
  | none =>
    refine congrArg Except.ok ?_
    rw [← List.flatMap_def, List.flatMap_singleton']
  | some row => rfl

namespace Assembly

/-- A text with an item of every kind, some names in it like directives. -/
def oddNames : String :=
  ".entry: a$.b:: .entry a$.b:\njz .entry\nPUSHF -1.5 ; half\npush 0.1\nSETS \"\\u\x7b7\x7d\\\"é\"\n.static 4"

/-- The items of `oddNames`. -/
def oddItems : List Item :=
  [.label ".entry", .label "a$.b:", .entry "a$.b:", .jump (.short .jz) ".entry", .instruction .pushF (.float 0xbfc00000),
    .instruction .push (.value (.float (Float32.ofBits 0x3dcccccd))),
    .instruction .setS (.string [7, 0x22, 0xc3, 0xa9]), .static 4]

theorem ok_of_toOption {ε α : Type} {result : Except ε α} {a : α} (h : result.toOption = some a) : result = .ok a := by
  cases result with
  | error e => cases h
  | ok b => cases h; rfl

theorem read_oddNames : read oddNames = .ok oddItems := ok_of_toOption (by decide +kernel)

theorem listing_read_back_oddNames : read (listing oddItems) = .ok oddItems := by
  have singles : oddItems.filterMap (·.operand.single?) = [Float32.ofBits 0xbfc00000, Float32.ofBits 0x3dcccccd] := by
    decide +kernel
  have either {item : Item} {x : Float32} (member : item ∈ oddItems) (holds : item.operand.single? = some x) :
      x = Float32.ofBits 0xbfc00000 ∨ x = Float32.ofBits 0x3dcccccd := by
    have listed : x ∈ oddItems.filterMap (·.operand.single?) := List.mem_filterMap.mpr ⟨item, member, holds⟩
    simpa [singles] using listed
  refine (listing_read_back read_oddNames (fun item member x holds => ?_) fun item member x holds => ?_).trans ?_
  · rcases either member holds with rfl | rfl <;> decide +kernel
  · rcases either member holds with rfl | rfl <;>
      exact ⟨by decide +kernel, by decide +kernel, by decide +kernel⟩
  · have shown : firstNul oddItems 1 = none := by decide +kernel
    rw [shown]

/-- A string with a NUL can be read, but not from the line it is then written as. -/
theorem nul_not_read_back : ∃ text items, read text = .ok items ∧ read (listing items) ≠ .ok items := by
  let items : List Item := [.instruction .setS (.string [0])]
  refine ⟨"SETS \"\\u\x7b0\x7d\"", items, ok_of_toOption (by decide +kernel), fun same => ?_⟩
  have failed : (read (listing items)).toOption = none := by decide +kernel
  rw [same] at failed
  cases failed

end Assembly

end BasicMachine
