import BasicMachine.Assembly.Layout
import BasicMachine.Proofs.Spelling
import BasicMachine.Proofs.Workings

/-!
# Disassembly

The instructions of a program, one a line as listings show them, are an assembly text. Reading it gives those
instructions, and they have the code bytes of the program, whether it came from a source text or from assembly.
-/
namespace BasicMachine

open Assembly (Piece Word pieces)

/-- The pieces that an operand is written as. -/
def Operand.pieces : Operand → List Piece
  | none => []
  | short n => [.word (toString n.toInt)]
  | float word => [.word (Single.literal (Float32.ofBits word))]
  | pointer address => [.word (toString address)]
  | value v => [.word v.text]
  | syscall call register => [.word call.name, .comma, .word register.name]
  | string bytes => [.text (Utf8.decodeLossy bytes)]

/-- The text of a single is read as the word it came from. -/
def Single.ReadsBack (text : String) (word : UInt32) : Prop := Single.word? text.toList = some word

instance (text : String) (word : UInt32) : Decidable (Single.ReadsBack text word) :=
  inferInstanceAs (Decidable (_ = _))

/-- What an operand must hold to be read back: a number is no NaN and its digits read back, an address fits, and a
string is a text without NUL. -/
def Operand.Readable : Operand → Prop
  | float word => (Float32.ofBits word).isNaN = false ∧ Single.ReadsBack (Single.literal (Float32.ofBits word)) word
  | pointer address => address ≤ maxPointer
  | value (.float x) => x.isNaN = false ∧ Single.ReadsBack (Value.float x).text x.toBits
  | value (.pointer address) => address ≤ maxPointer
  | string bytes => ∃ s : String, '\x00' ∉ s.toList ∧ bytes = Utf8.encode s
  | _ => True

theorem Opcode.mem_all (op : Opcode) : op ∈ Opcode.all := by
  rcases op with op | op | op | _ | _ | _ | _
  · cases op with
    | pushReg r => cases r <;> decide
    | popReg r => cases r <;> decide
    | unary f => cases f <;> decide
    | binary f => cases f <;> decide
    | relation f => cases f <;> decide
    | _ => decide
  · cases op <;> decide
  · cases op <;> decide
  all_goals decide

namespace Assembly

/-- A word that begins an instruction: it is neither a label nor a directive. -/
structure Begins (s : String) (op : Opcode) : Prop where
  word : Word s.toList
  unlabelled : s.toList.getLast? ≠ some ':'
  undirected : s ∉ [".entry", ".ENTRY", ".static", ".STATIC"]
  read : Opcode.ofMnemonic? (upper s) = some op

theorem begins_mnemonic (op : Opcode) : Begins op.mnemonic op := by
  have table : ∀ op ∈ Opcode.all, (op.mnemonic.toList ≠ [] ∧ op.mnemonic.toList.all isWordChar = true) ∧
      op.mnemonic.toList.getLast? ≠ some ':' ∧ op.mnemonic ∉ [".entry", ".ENTRY", ".static", ".STATIC"] ∧
      Opcode.ofMnemonic? (upper op.mnemonic) = some op := by
    decide +kernel
  obtain ⟨⟨any, all⟩, unlabelled, undirected, read⟩ := table op op.mem_all
  exact ⟨⟨any, all⟩, unlabelled, undirected, read⟩

theorem readStatement_of_begins {s : String} {op : Opcode} (begins : Begins s op) (operands : List Piece) :
    readStatement s operands = readInstruction op operands := by
  have others := begins.undirected
  simp only [List.mem_cons, List.not_mem_nil, or_false, not_or] at others
  rw [readStatement, if_neg (by simp [others.1, others.2.1]), if_neg (by simp [others.2.2.1, others.2.2.2]),
    begins.read]

theorem word_iff {cs : List Char} : Word cs ↔ cs ≠ [] ∧ cs.all isWordChar = true :=
  ⟨fun word => ⟨word.any, word.all⟩, fun ⟨any, all⟩ => ⟨any, all⟩⟩

theorem word_syscall (call : Syscall) : Word call.name.toList := by
  rw [word_iff]
  cases call <;> decide +kernel

theorem word_register (register : Register) : Word register.name.toList := by
  rw [word_iff]
  cases register <;> decide +kernel

theorem readSyscall_name (call : Syscall) : readSyscall call.name = .ok call := by
  have letters : Numeral.unsigned? 0xffff call.name.toList = none := by cases call <;> decide +kernel
  have named : Syscall.ofName? (upper call.name) = some call := by cases call <;> decide +kernel
  rw [readSyscall, letters]
  dsimp only
  rw [named]

theorem readRegister_name (register : Register) : readRegister register.name = .ok register := by
  have named : Register.ofName? (upper register.name) = some register := by cases register <;> decide +kernel
  rw [readRegister, named]

theorem word_toString (n : Int) : Word (toString n).toList := by
  refine word_of_all (fun none => ?_) (Single.all_toString n)
  have read := signed?_toString n
  rw [none] at read
  cases read

theorem word_of_readsBack {s : String} {word : UInt32} (all : s.toList.all Single.isSpelling = true)
    (reads : Single.ReadsBack s word) : Word s.toList := by
  refine word_of_all (fun none => ?_) all
  rw [Single.ReadsBack, none] at reads
  cases reads

theorem word_value {v : Value} (h : (Operand.value v).Readable) : Word v.text.toList := by
  cases v with
  | unset => exact ⟨by decide, by decide⟩
  | integer n => exact word_toString n.toInt
  | float x => exact word_of_readsBack (Single.all_text h.1) h.2
  | pointer address =>
    have number := word_toString address
    refine ⟨by simp [Value.text], ?_⟩
    rw [Value.text, String.toList_append, List.all_append]
    exact Bool.and_eq_true_iff.mpr ⟨by decide, number.all⟩

theorem readValue_text {v : Value} (h : (Operand.value v).Readable) : readValue v.text = .ok v := by
  cases v with
  | unset =>
    have unset : (upper "UNSET" == "UNSET") = true := by decide +kernel
    rw [readValue, Value.text, unset, if_pos rfl]
  | integer n =>
    obtain ⟨unset, address⟩ := number_distinct (Single.all_toString n.toInt)
    simp only [readValue, Value.text, unset, address, int16?_toString, Bool.false_eq_true, if_false]
  | float x => exact readValue_float h.1 h.2
  | pointer address =>
    have chars : (Value.pointer address).text.toList = '@' :: Nat.toDigits 10 address := by
      rw [Value.text, String.toList_append, toList_toString]
      rfl
    have set : (upper (Value.pointer address).text == "UNSET") = false := by
      refine beq_eq_false_iff_ne.mpr fun same => ?_
      have upper := congrArg String.toList same
      rw [Assembly.upper, String.toList_map, chars] at upper
      exact absurd (List.cons.inj upper).1 (by decide)
    have marked : ((Value.pointer address).text.toList.head? == some '@') = true := by
      rw [chars]
      rfl
    rw [readValue, set, if_neg Bool.false_ne_true, marked, if_pos rfl, Value.text, readPointer_at h]
    rfl

/-- A line of one word after the mnemonic. -/
theorem pieces_word_operand {cs : List Char} (word : Word cs) : pieces (' ' :: cs) = .ok [.word (String.ofList cs)] := by
  rw [pieces_blank (by decide), pieces_last word]

/-- The text of an operand falls into its pieces. -/
theorem pieces_operand {operand : Operand} (h : operand.Readable) : pieces operand.text.toList = .ok operand.pieces := by
  have single {s : String} (word : Word s.toList) : pieces (" " ++ s).toList = .ok [.word s] := by
    rw [String.toList_append]
    refine (pieces_word_operand word).trans ?_
    rw [String.ofList_toList]
  cases operand with
  | none => exact pieces_nil
  | short n => exact single (word_toString n.toInt)
  | float word => exact single (word_of_readsBack (Single.all_literal h.1) h.2)
  | pointer address => exact single (word_toString address)
  | value v => exact single (word_value h)
  | syscall call register =>
    have text : (Operand.syscall call register).text.toList =
        ' ' :: (call.name.toList ++ ',' :: ' ' :: register.name.toList) := by
      simp [Operand.text]
    rw [text, pieces_blank (by decide), pieces_word (word_syscall call) (by rintro _ ⟨⟩; decide),
      pieces_comma,
      pieces_word_operand (word_register register)]
    simp only [Except.map, String.ofList_toList, Operand.pieces]
  | string bytes =>
    obtain ⟨s, shown, rfl⟩ := h
    have quoted := pieces_quoted shown []
    rw [List.append_nil, pieces_nil] at quoted
    rw [Operand.text, String.toList_append, Operand.pieces, Utf8.decodeLossy_encode]
    exact (pieces_blank (by decide) _).trans quoted

/-- The pieces of an operand are read as the operand. -/
theorem readInstruction_pieces {i : Instruction} (h : i.operand.Readable) :
    readInstruction i.opcode i.operand.pieces = .ok (.instruction i.opcode i.operand) := by
  cases i with
  | plain op => rfl
  | short op n =>
    have read := int16?_toString n
    simp only [readInstruction, Instruction.opcode, Opcode.kind, Instruction.operand, Operand.pieces, read]
  | pointer op address =>
    show (do return Item.instruction _ (.pointer (← readPointer (toString address)))) = _
    rw [readPointer_toString h]
    rfl
  | pushF word =>
    have read : Single.word? (Single.literal (Float32.ofBits word)).toList = some word := h.2
    simp only [readInstruction, Instruction.opcode, Opcode.kind, Instruction.operand, Operand.pieces, read]
  | push v =>
    show (do return Item.instruction _ (.value (← readValue v.text))) = _
    rw [readValue_text h]
    rfl
  | syscall call register =>
    show (do return Item.instruction _ (.syscall (← readSyscall call.name) (← readRegister register.name))) = _
    rw [readSyscall_name, readRegister_name]
    rfl
  | setS bytes =>
    obtain ⟨s, -, rfl⟩ := h
    show Except.ok (Item.instruction _ (.string (Utf8.encode (Utf8.decodeLossy (Utf8.encode s))))) = _
    rw [Utf8.decodeLossy_encode]
    rfl

/-- The line of an instruction begins with its mnemonic. -/
theorem pieces_line (i : Instruction) :
    pieces ("    " ++ i.text).toList = (pieces i.operand.text.toList).map (.word i.opcode.mnemonic :: ·) := by
  have ends : ∀ c ∈ i.operand.text.toList.head?, isWordChar c = false := by
    have blank (s : String) : ∀ c ∈ (" " ++ s).toList.head?, isWordChar c = false := by
      rw [String.toList_append]
      rintro _ ⟨⟩
      decide
    cases i.operand with
    | none => nofun
    | syscall call register => rw [Operand.text, String.append_assoc, String.append_assoc]; exact blank _
    | _ => exact blank _
  have blanks (cs : List Char) : pieces (' ' :: ' ' :: ' ' :: ' ' :: cs) = pieces cs := by
    simp only [pieces_blank (c := ' ') (by decide)]
  rw [String.toList_append, Instruction.text, String.toList_append]
  refine (blanks (i.opcode.mnemonic.toList ++ i.operand.text.toList)).trans ?_
  rw [pieces_word (begins_mnemonic i.opcode).word ends, String.ofList_toList]

/-- The line of an instruction is read as that instruction. -/
theorem readLine_text {i : Instruction} (h : i.operand.Readable) :
    readLine ("    " ++ i.text).toList = .ok [.instruction i.opcode i.operand] := by
  have begins := begins_mnemonic i.opcode
  rw [readLine, pieces_line, pieces_operand h]
  show itemsOf (.word i.opcode.mnemonic :: i.operand.pieces) = _
  rw [itemsOf, if_neg begins.unlabelled, readStatement_of_begins begins, readInstruction_pieces h]
  rfl

/-- A character that ends no line. -/
def isInline (c : Char) : Bool := c != '\n' && c != '\r'

theorem all_inline_of_word {cs : List Char} (word : Word cs) : cs.all isInline = true := by
  refine List.all_eq_true.mpr fun c found => ?_
  have inside := List.all_eq_true.mp word.all c found
  by_cases ends : c = '\n' ∨ c = '\r'
  · rcases ends with rfl | rfl <;> exact absurd inside (by decide)
  · rw [not_or] at ends
    simp [isInline, ends]

theorem all_inline_escape (c : Char) : (Text.escape '"' c).all isInline = true := by
  unfold Text.escape
  split <;> try rfl
  split
  next quote => rw [quote]; rfl
  next =>
    split
    next visible =>
      have shown : 0x20 ≤ c.toNat := of_decide_eq_true (Bool.and_eq_true_iff.mp visible).1
      have feed : c ≠ '\n' := by rintro rfl; exact absurd shown (by decide)
      have back : c ≠ '\r' := by rintro rfl; exact absurd shown (by decide)
      simp [isInline, feed, back]
    next =>
      have digits : (Nat.toDigits 16 c.toNat).all isInline = true := by
        refine List.all_eq_true.mpr fun d found => ?_
        obtain ⟨k, small, rfl⟩ := isHexDigit_of_mem found
        clear found
        revert k
        decide
      rw [List.all_append, List.all_append, digits]
      rfl

theorem all_inline_quoted (s : String) : (Text.quoted s).toList.all isInline = true := by
  have characters (cs : List Char) : (cs.flatMap (Text.escape '"')).all isInline = true := by
    refine List.all_eq_true.mpr fun c found => ?_
    obtain ⟨d, -, found⟩ := List.mem_flatMap.mp found
    exact List.all_eq_true.mp (all_inline_escape d) c found
  have quote : isInline '"' = true := by decide
  simp only [Text.quoted, Text.quoteWith, String.toList_ofList, List.all_append, List.all_cons, List.all_nil, quote,
    characters, Bool.and_self]

theorem all_inline_operand {operand : Operand} (h : operand.Readable) : operand.text.toList.all isInline = true := by
  have blank : " ".toList.all isInline = true := by decide
  have single {s : String} (word : Word s.toList) : (" " ++ s).toList.all isInline = true := by
    rw [String.toList_append, List.all_append, blank, all_inline_of_word word, Bool.and_self]
  cases operand with
  | none => rfl
  | short n => exact single (word_toString n.toInt)
  | float word => exact single (word_of_readsBack (Single.all_literal h.1) h.2)
  | pointer address => exact single (word_toString address)
  | value v => exact single (word_value h)
  | syscall call register =>
    have comma : ", ".toList.all isInline = true := by decide
    simp only [Operand.text, String.toList_append, List.all_append, blank, comma,
      all_inline_of_word (word_syscall call), all_inline_of_word (word_register register), Bool.and_self]
  | string bytes =>
    rw [Operand.text, String.toList_append, List.all_append, blank, all_inline_quoted, Bool.and_self]

theorem all_inline_line {i : Instruction} (h : i.operand.Readable) : ("    " ++ i.text).toList.all isInline = true := by
  have blanks : "    ".toList.all isInline = true := by decide
  rw [String.toList_append, Instruction.text, String.toList_append, List.all_append, List.all_append, blanks,
    all_inline_of_word (begins_mnemonic i.opcode).word, all_inline_operand h, Bool.and_self]
  rfl

theorem linesFrom_row {row : List Char} (inside : row.all isInline = true) (before rest : List Char) :
    Text.linesFrom before (row ++ '\n' :: rest) = Text.closeLine (row.reverse ++ before) :: Text.linesFrom [] rest := by
  induction row generalizing before with
  | nil => rfl
  | cons c row ih =>
    rw [List.all_cons, Bool.and_eq_true] at inside
    have other : c ≠ '\n' := by rintro rfl; exact absurd inside.1 (by decide)
    rw [List.cons_append, Text.linesFrom, ih inside.2, List.reverse_cons, List.append_assoc, List.singleton_append]
    exact other

/-- Rows with a line feed after each are the lines of the text. -/
theorem lines_flatMap {rows : List (List Char)} (inside : ∀ row ∈ rows, row.all isInline = true) :
    Text.lines (rows.flatMap (· ++ ['\n'])) = rows := by
  rw [Text.lines]
  induction rows with
  | nil => rfl
  | cons row rows ih =>
    have first := inside row List.mem_cons_self
    have kept : Text.closeLine row.reverse = row := by
      unfold Text.closeLine
      split
      next before same =>
        have member : '\r' ∈ row := List.mem_reverse.mp (by rw [same]; exact List.mem_cons_self)
        exact absurd (List.all_eq_true.mp first _ member) (by decide)
      next => rw [List.reverse_reverse]
    rw [List.flatMap_cons, List.append_assoc, List.singleton_append, linesFrom_row first, List.append_nil, kept,
      ih fun other h => inside other (List.mem_cons_of_mem row h)]

end Assembly

/-- One line per instruction. -/
def Code.text (code : Code) : String := String.join (code.map fun i => "    " ++ i.text ++ "\n")

/-- An instruction as an item of assembly. -/
def Instruction.item (i : Instruction) : Assembly.Item := .instruction i.opcode i.operand

namespace Assembly

theorem mapM_readRow {code : Code} (h : ∀ i ∈ code, i.operand.Readable) (start : Nat) :
    ((code.map fun i => ("    " ++ i.text).toList).zipIdx start).mapM readRow = .ok (code.map ([·.item])) := by
  induction code generalizing start with
  | nil => rfl
  | cons i code ih =>
    rw [List.map_cons, List.zipIdx_cons, List.mapM_cons, readRow, readLine_text (h i List.mem_cons_self),
      ih (fun j member => h j (List.mem_cons_of_mem i member))]
    rfl

/-- The text of code is read as its instructions. -/
theorem read_text {code : Code} (h : ∀ i ∈ code, i.operand.Readable) :
    read code.text = .ok (code.map Instruction.item) := by
  have rows : Text.lines code.text.toList = code.map fun i => ("    " ++ i.text).toList := by
    have split : code.text.toList = (code.map fun i => ("    " ++ i.text).toList).flatMap (· ++ ['\n']) := by
      simp [Code.text, List.flatMap_map]
    rw [split]
    refine lines_flatMap fun row member => ?_
    obtain ⟨i, inside, rfl⟩ := List.mem_map.mp member
    exact all_inline_line (h i inside)
  have joined : (code.map ([·.item])).flatten = code.map Instruction.item := by
    rw [List.map_eq_flatMap (f := Instruction.item), List.flatMap_def]
  rw [read, rows, mapM_readRow h]
  exact congrArg Except.ok joined

theorem foldlM_add (code : Code) (d : Draft) :
    (code.map Instruction.item).foldlM Draft.add d =
      .ok { d with code := (code.map Placed.fixed).reverse ++ d.code, size := d.size + code.size } := by
  induction code generalizing d with
  | nil => rfl
  | cons i code ih =>
    have parts : Instruction.ofParts? i.opcode i.operand = some i := Instruction.ofParts?_eq_some_iff.mpr ⟨rfl, rfl⟩
    have added : d.add i.item = .ok { d with code := .fixed i :: d.code, size := d.size + i.size } := by
      simp only [Draft.add, Instruction.item, parts]
    rw [List.map_cons, List.foldlM_cons, added]
    refine (ih _).trans ?_
    simp [Nat.add_assoc]

/-- Instructions without labels are assembled as they are. -/
theorem assemble_items (code : Code) :
    assemble (code.map Instruction.item) = .ok { code := code.bytes.toArray } := by
  have resolved (d : Draft) (code : Code) : (code.map Placed.fixed).mapM d.resolve = .ok code := by
    induction code with
    | nil => rfl
    | cons i code ih =>
      rw [List.map_cons, List.mapM_cons, ih]
      rfl
  rw [assemble, foldlM_add]
  simp [bind, Except.bind, pure, Except.pure, resolved]

end Assembly

namespace Program

/-- The instructions from the first byte to the last, if every byte belongs to one. -/
def instructions? (p : Program) : Option Code := p.entries.mapM (·.instruction)

theorem entriesFrom_of_hasCode {p : Program} {code : Code} {address : Nat} (h : p.HasCode address code)
    (ends : address + code.size = p.size) (before : List Entry) :
    ∃ entries, p.entriesFrom before address = before.reverse ++ entries ∧
      entries.mapM (·.instruction) = some (code.map Instruction.stored) := by
  induction code generalizing address before with
  | nil =>
    rw [entriesFrom, if_neg (by rw [← ends, Code.size_nil]; omega)]
    exact ⟨[], (List.append_nil _).symm, rfl⟩
  | cons i rest ih =>
    obtain ⟨decoded, later⟩ := h.cons
    have size : 0 < i.size := by simp [Instruction.size, Instruction.bytes]
    rw [Code.size_cons] at ends
    obtain ⟨entries, walked, read⟩ := ih later (by omega) (⟨address, some i.stored⟩ :: before)
    refine ⟨⟨address, some i.stored⟩ :: entries, ?_, ?_⟩
    · rw [entriesFrom, if_pos (by omega)]
      split
      next found =>
        rw [decoded] at found
        cases found
        rw [walked, List.reverse_cons, List.append_assoc, List.singleton_append]
      next failed => rw [decoded] at failed; cases failed
    · rw [List.mapM_cons, read]
      rfl

/-- The instructions of a program are those it was put together from. -/
theorem instructions?_eq {p : Program} {code : Code} (made : p.code = code.bytes.toArray) :
    p.instructions? = some (code.map Instruction.stored) := by
  have lies : p.HasCode 0 code := ⟨[], [], by simp [made], rfl⟩
  have ends : 0 + code.size = p.size := by simp [size, made, Code.length_bytes]
  obtain ⟨entries, walked, read⟩ := entriesFrom_of_hasCode lies ends []
  rw [instructions?, Program.entries, walked]
  exact read

end Program

/-- What sources and assembly texts put into code: numbers that are no NaN, and texts. -/
def Operand.Written : Operand → Prop
  | value (.float x) => x.isNaN = false
  | string bytes => ∃ s : String, bytes = Utf8.encode s
  | _ => True

namespace Language

theorem written_place {known : Label → Prop} {main : Steps} (sound : Steps.Sound known main) (link : Label → Nat)
    (address : Nat) : ∀ i ∈ main.place link address, i.operand.Written := by
  intro i member
  obtain ⟨before, after, split⟩ := List.append_of_mem member
  obtain ⟨first, s, rest, parts, -, rfl⟩ := Steps.place_eq_append_cons split
  rcases sound.cases parts with ⟨j, rfl, simple⟩ | ⟨op, l, rfl, -⟩ | ⟨op, distance, covered, rest, rfl, -⟩
  · rcases simple with emitted | rfl
    · cases j with
      | push v => cases emitted
      | setS bytes => cases emitted
      | _ => trivial
    · trivial
  · trivial
  · trivial

theorem written_clearCode (start count : Nat) : ∀ i ∈ clearCode start count, i.operand.Written := by
  fun_induction clearCode start count with
  | case1 =>
    intro i member
    cases member
  | case2 start count _ n ih =>
    intro i member
    rcases List.mem_cons.mp member with rfl | member
    · trivial
    · rcases List.mem_cons.mp member with rfl | member
      · trivial
      · exact ih i member

theorem written_entryCode {limit : Nat} {texts : List (String × Nat)} {items : List Value}
    (numbers : ∀ x, .float x ∈ items → x.isNaN = false) : ∀ i ∈ entryCode limit texts items, i.operand.Written := by
  intro i member
  simp only [entryCode, List.mem_append] at member
  rcases member with (((setup | cleared) | member) | member) | last
  · simp only [List.mem_cons, List.not_mem_nil, or_false] at setup
    rcases setup with rfl | rfl | rfl | rfl <;> trivial
  · exact written_clearCode _ _ i cleared
  · obtain ⟨text, -, member⟩ := List.mem_flatMap.mp member
    simp only [textCode, List.mem_cons, List.not_mem_nil, or_false] at member
    rcases member with rfl | rfl
    · trivial
    · exact ⟨text.1, rfl⟩
  · obtain ⟨⟨v, cell⟩, placed, member⟩ := List.mem_flatMap.mp member
    simp only [itemCode, List.mem_cons, List.not_mem_nil, or_false] at member
    rcases member with rfl | rfl
    · have inside : v ∈ items := List.fst_mem_of_mem_zipIdx placed
      cases v with
      | float x => exact numbers x inside
      | _ => trivial
    · trivial
  · rw [List.mem_singleton.mp last]
    trivial

theorem written_of_compile {source : String} {p : Program} (h : compile source = .ok p) :
    ∃ code : Code, p.code = code.bytes.toArray ∧ ∀ i ∈ code, i.operand.Written := by
  obtain ⟨lines, items, functions, values, c, split, gathered, declared, read, linked⟩ := compile_eq_ok h
  obtain ⟨start, interned, -⟩ := readLines_eq_ok read
  have sound := sound_main (finished_of_readLines split gathered declared read linked).1.sound
  obtain ⟨-, -, rfl⟩ := link_eq_ok linked
  have numbers := isNumber_of_dataValues (isNumber_of_sourceData (isNumber_of_sourceLines split) gathered) interned
  refine ⟨_, rfl, fun i member => ?_⟩
  rcases List.mem_append.mp member with main | entry
  · exact written_place sound _ _ i main
  · exact written_entryCode numbers i entry

end Language

namespace Assembly

/-- The item holds only what a program can be given. -/
def Item.Written : Item → Prop
  | .instruction _ operand => operand.Written
  | _ => True

theorem isNaN_of_readValue {s : String} {x : Float32} (h : readValue s = .ok (.float x)) : x.isNaN = false := by
  unfold readValue at h
  dsimp only at h
  split at h
  · cases h
  split at h
  · cases read : readPointer s with
    | error e => rw [read] at h; cases h
    | ok address => rw [read] at h; cases h
  split at h
  · cases h
  split at h
  next y found =>
    cases h
    have tested := (Option.filter_eq_some_iff.mp found).2
    simpa using (Bool.and_eq_true_iff.mp tested).2
  next => cases h

theorem written_of_readInstruction {op : Opcode} {operands : List Piece} {item : Item}
    (h : readInstruction op operands = .ok item) : item.Written := by
  unfold readInstruction at h
  split at h
  · cases h; trivial
  · split at h
    · cases h; trivial
    · split at h
      · cases h; trivial
      · cases h
  · split at h
    · cases h; trivial
    · cases h
  next s _ =>
    cases read : readPointer s with
    | error e => rw [read] at h; cases h
    | ok address => rw [read] at h; cases h; trivial
  next s _ =>
    cases read : readValue s with
    | error e => rw [read] at h; cases h
    | ok v =>
      rw [read] at h
      cases h
      cases v with
      | float x => exact isNaN_of_readValue read
      | _ => trivial
  next call register _ =>
    cases read : readSyscall call with
    | error e => rw [read] at h; cases h
    | ok call =>
      cases read' : readRegister register with
      | error e => rw [read, read'] at h; cases h
      | ok register => rw [read, read'] at h; cases h; trivial
  next s _ => cases h; exact ⟨s, rfl⟩
  · cases h
  · cases h

theorem written_of_readStatement {word : String} {operands : List Piece} {item : Item}
    (h : readStatement word operands = .ok item) : item.Written := by
  unfold readStatement at h
  split at h
  · unfold readEntry at h
    split at h
    · split at h
      · cases h; trivial
      · cases h
    · cases h
  split at h
  · unfold readStatic at h
    split at h
    · split at h
      · cases h; trivial
      · cases h
    · cases h
  split at h
  · exact written_of_readInstruction h
  · cases h

section

variable {P : Item → Prop} (labels : ∀ name, isLabel name = true → P (.label name))
  (statements : ∀ word operands item, readStatement word operands = .ok item → P item)
include labels statements

/-- What holds of labels and of statements holds of all items of a line. -/
theorem forall_of_itemsOf {ps : List Piece} {items : List Item} (h : itemsOf ps = .ok items) :
    ∀ item ∈ items, P item := by
  induction ps generalizing items with
  | nil =>
    cases h
    exact fun item member => absurd member List.not_mem_nil
  | cons piece rest ih =>
    cases piece with
    | word w =>
      rw [itemsOf] at h
      split at h
      · dsimp only at h
        split at h
        next named =>
          cases read : itemsOf rest with
          | error e => rw [read] at h; cases h
          | ok more =>
            rw [read] at h
            cases h
            intro item member
            rcases List.mem_cons.mp member with rfl | member
            · exact labels _ named
            · exact ih read item member
        next => cases h
      · cases read : readStatement w rest with
        | error e => rw [read] at h; cases h
        | ok item =>
          rw [read] at h
          cases h
          intro other member
          rw [List.mem_singleton.mp member]
          exact statements w rest item read
    | text s => cases h
    | comma => cases h

theorem forall_of_read {text : String} {items : List Item} (h : read text = .ok items) : ∀ item ∈ items, P item := by
  intro item member
  cases rows : ((Text.lines text.toList).zipIdx 1).mapM readRow with
  | error e => rw [read, rows] at h; cases h
  | ok all =>
    rw [read, rows] at h
    cases h
    obtain ⟨row, inside, member⟩ := List.mem_flatten.mp member
    obtain ⟨line, -, made⟩ := mem_mapM_ok rows row inside
    cases cut : pieces line.1 with
    | error e => rw [readRow, readLine, cut] at made; cases made
    | ok ps =>
      cases found : itemsOf ps with
      | error e =>
        have failed : readLine line.1 = .error e := by rw [readLine, cut]; exact found
        rw [readRow, failed] at made
        cases made
      | ok listed =>
        have done : readLine line.1 = .ok listed := by rw [readLine, cut]; exact found
        rw [readRow, done] at made
        cases made
        exact forall_of_itemsOf labels statements found item member

end

theorem written_of_read {text : String} {items : List Item} (h : read text = .ok items) :
    ∀ item ∈ items, item.Written :=
  forall_of_read (fun _ _ => trivial) (fun _ _ _ => written_of_readStatement) h

/-- The code of a draft holds only what a program can be given. -/
def Draft.Written (d : Draft) : Prop := ∀ i, .fixed i ∈ d.code → i.operand.Written

theorem written_add {d d' : Draft} {item : Item} (before : d.Written) (given : item.Written)
    (h : d.add item = .ok d') : d'.Written := by
  cases item with
  | label name =>
    rw [Draft.add] at h
    split at h
    · cases h
    · cases h; exact before
  | instruction op operand =>
    rw [Draft.add] at h
    split at h
    next i made =>
      cases h
      obtain ⟨-, rfl⟩ := Instruction.ofParts?_eq_some_iff.mp made
      intro j member
      rcases List.mem_cons.mp member with same | member
      · cases same; exact given
      · exact before j member
    next => cases h
  | jump op label =>
    unfold Draft.add at h
    dsimp only at h
    split at h
    · cases h
      intro j member
      rcases List.mem_cons.mp member with same | member
      · cases same
      · exact before j member
    · cases h
  | entry label => cases h; exact before
  | static cells => cases h; exact before

theorem written_foldlM {items : List Item} {d d' : Draft} (before : d.Written) (given : ∀ item ∈ items, item.Written)
    (h : items.foldlM Draft.add d = .ok d') : d'.Written := by
  induction items generalizing d with
  | nil => cases h; exact before
  | cons item items ih =>
    rw [List.foldlM_cons] at h
    cases added : d.add item with
    | error e => rw [added] at h; cases h
    | ok next =>
      rw [added] at h
      exact ih (written_add before (given item List.mem_cons_self) added)
        (fun other member => given other (List.mem_cons_of_mem item member)) h

theorem written_of_assemble {items : List Item} {p : Program} (given : ∀ item ∈ items, item.Written)
    (h : assemble items = .ok p) : ∃ code : Code, p.code = code.bytes.toArray ∧ ∀ i ∈ code, i.operand.Written := by
  cases drawn : items.foldlM Draft.add {} with
  | error e => rw [assemble, drawn] at h; cases h
  | ok draft =>
    have written := written_foldlM (d := {}) nofun given drawn
    cases resolved : draft.code.reverse.mapM draft.resolve with
    | error e => simp [assemble, drawn, resolved, bind, Except.bind] at h
    | ok code =>
      refine ⟨code, ?_, fun i member => ?_⟩
      · simp only [assemble, drawn, resolved, bind, Except.bind] at h
        split at h
        · split at h
          · cases h
          · cases h; rfl
        · cases h; rfl
      · obtain ⟨placed, inside, made⟩ := mem_mapM_ok resolved i member
        cases placed with
        | fixed j =>
          cases made
          exact written i (List.mem_reverse.mp inside)
        | jump op label =>
          rw [Draft.resolve] at made
          cases found : draft.target label with
          | error e => rw [found] at made; cases made
          | ok n => rw [found] at made; cases made; trivial

end Assembly

/-- Each text of a single is read as that single; only a whole one is written out. -/
structure Single.Faithful (x : Float32) : Prop where
  plain : ReadsBack (plain x) x.toBits
  literal : ReadsBack (literal x) x.toBits
  exact : isWhole x = true → ReadsBack (exact x) x.toBits

namespace Instruction

/-- The single that an instruction holds. -/
def single? : Instruction → Option Float32
  | .pushF word => some (Float32.ofBits word)
  | .push (.float x) => some x
  | _ => none

/-- The instruction pushes a NaN as it stands in the code. -/
def pushesNaN : Instruction → Bool
  | .pushF word => (Float32.ofBits word).isNaN
  | _ => false

variable {i : Instruction} (written : i.operand.Written)
include written

/-- The code of a written instruction is that of what it decodes to. -/
theorem bytes_stored : i.stored.bytes = i.bytes := by
  cases i with
  | pointer op address => simp only [stored, bytes, opcode, operand, Operand.bytes, bytesOfAddress, Nat.mod_mod]
  | push v =>
    have number : ∀ x, v = .float x → x.isNaN = false := by
      rintro x rfl
      exact written
    simp only [stored, bytes, opcode, operand, Operand.bytes, Value.ofWord_toWord number, Value.toWord_packed]
  | setS text => simp only [stored, bytes, opcode, operand, Operand.bytes, List.filter_filter, Bool.and_self]
  | _ => rfl

theorem readable_stored (number : i.stored.pushesNaN = false)
    (faithful : ∀ x, i.stored.single? = some x → x.isNaN = false → Single.Faithful x) :
    i.stored.operand.Readable := by
  cases i with
  | plain op => trivial
  | short op n => trivial
  | pointer op address =>
    show address % 0x200000 ≤ maxPointer
    have : maxPointer = 0x1fffff := rfl
    omega
  | pushF word =>
    refine ⟨number, ?_⟩
    have reads := (faithful _ rfl number).literal
    rwa [Single.toBits_ofBits number] at reads
  | push v =>
    have packed : Value.ofWord v.toWord = v.packed := Value.ofWord_toWord (by rintro x rfl; exact written)
    rw [stored, packed] at faithful ⊢
    cases v with
    | unset => trivial
    | integer n => trivial
    | float x =>
      have texts := faithful x rfl written
      refine ⟨written, ?_⟩
      rw [Value.text]
      split
      next whole => exact texts.exact whole
      next => exact texts.plain
    | pointer address =>
      show address % 0x200000 ≤ maxPointer
      have : maxPointer = 0x1fffff := rfl
      omega
  | syscall call register => trivial
  | setS bytes =>
    obtain ⟨s, rfl⟩ := written
    refine ⟨String.ofList (s.toList.filter (· != '\x00')), ?_, Utf8.filter_encode s⟩
    simp

end Instruction

/-- The instructions of a program, one a line, are assembled to the same code, whether the program was compiled or
assembled, as long as it pushes no NaN and the numbers it holds are read as they are written. -/
theorem Program.disassembly_reassembles {p : Program}
    (made : (∃ source, Language.compile source = .ok p) ∨
      ∃ text items, Assembly.read text = .ok items ∧ Assembly.assemble items = .ok p) :
    ∃ code, p.instructions? = some code ∧
      ((∀ i ∈ code, i.pushesNaN = false) →
        (∀ i ∈ code, ∀ x, i.single? = some x → x.isNaN = false → Single.Faithful x) →
        ∃ items q, Assembly.read code.text = .ok items ∧ Assembly.assemble items = .ok q ∧ q.code = p.code) := by
  obtain ⟨code, bytes, written⟩ : ∃ code : Code, p.code = code.bytes.toArray ∧ ∀ i ∈ code, i.operand.Written := by
    rcases made with ⟨source, compiled⟩ | ⟨text, items, read, assembled⟩
    · exact Language.written_of_compile compiled
    · exact Assembly.written_of_assemble (Assembly.written_of_read read) assembled
  refine ⟨code.map Instruction.stored, instructions?_eq bytes, fun numbers faithful => ?_⟩
  have readable : ∀ i ∈ code.map Instruction.stored, i.operand.Readable := by
    intro i member
    obtain ⟨j, inside, rfl⟩ := List.mem_map.mp member
    exact Instruction.readable_stored (written j inside) (numbers _ member) (faithful _ member)
  refine ⟨_, _, Assembly.read_text readable, Assembly.assemble_items _, ?_⟩
  have same : Code.bytes (code.map Instruction.stored) = code.bytes := by
    rw [Code.bytes, Code.bytes, List.flatMap_map, List.flatMap_def, List.flatMap_def]
    exact congrArg List.flatten (List.map_congr_left fun i member => Instruction.bytes_stored (written i member))
  rw [bytes, ← same]

/-- A program that pushes numbers of both kinds and holds a text. -/
def tenth : String := "10 PRINT 0.1\n20 DATA -1.5,\"HI\""

/-- The program of `tenth`. -/
def tenthProgram : Program where
  code := #[18, 205, 204, 204, 61, 27, 5, 8, 0, 0, 0, 17, 10, 0, 27, 5, 1, 0, 0, 0, 1, 19, 0, 0, 0, 33, 0, 0, 0, 17, 0,
    0, 33, 1, 0, 0, 38, 4, 0, 0, 44, 3, 0, 38, 4, 0, 0, 45, 72, 73, 0, 16, 0, 0, 192, 191, 33, 2, 0, 0, 16, 4, 0, 224,
    255, 33, 3, 0, 0, 96, 0, 0]
  labels := [("10", 0), ("20", 20)]
  entry := 21
  staticSize := 7

theorem Program.disassembly_reassembles_tenth :
    ∃ code items q, tenthProgram.instructions? = some code ∧ Assembly.read code.text = .ok items ∧
      Assembly.assemble items = .ok q ∧ q.code = tenthProgram.code := by
  have compiled : Language.compile tenth = .ok tenthProgram := by
    have found : (Language.compile tenth).toOption = some tenthProgram := by decide +kernel
    cases result : Language.compile tenth with
    | error e => rw [result] at found; cases found
    | ok p => rw [result] at found; cases found; rfl
  obtain ⟨code, walked, rest⟩ := Program.disassembly_reassembles (.inl ⟨tenth, compiled⟩)
  have numbers : (tenthProgram.instructions?.getD []).all (!·.pushesNaN) = true := by decide +kernel
  have singles : (tenthProgram.instructions?.getD []).filterMap Instruction.single? =
      [Float32.ofBits 0x3dcccccd, Float32.ofBits 0xbfc00000] := by
    decide +kernel
  rw [walked, Option.getD_some] at numbers singles
  obtain ⟨items, q, read, assembled, same⟩ := rest
    (fun i member => by simpa using List.all_eq_true.mp numbers i member) fun i member x holds _ => by
      have listed : x ∈ code.filterMap Instruction.single? := List.mem_filterMap.mpr ⟨i, member, holds⟩
      rw [singles] at listed
      simp only [List.mem_cons, List.not_mem_nil, or_false] at listed
      rcases listed with rfl | rfl
      · exact ⟨by decide +kernel, by decide +kernel, by decide +kernel⟩
      · exact ⟨by decide +kernel, by decide +kernel, by decide +kernel⟩
  exact ⟨code, items, q, walked, read, assembled, same⟩

end BasicMachine
