import BasicMachine.Proofs.Assembling

/-!
# Overwriting operands

An operand is overwritten where an opcode takes one of its kind. Only the bytes of the operand change, and the operand is
read back. The opcode is looked at before the length of the code is: where the code ends inside of the operand there is
neither a new program nor an error. In code that is made of whole instructions this does not happen at their beginnings.
-/
namespace BasicMachine

/-- The kinds of operands that can be overwritten. -/
def OperandKind.isFixed : OperandKind → Bool
  | short | float | pointer | value => true
  | _ => false

namespace Program

variable {p q : Program} {address : Nat} {operand : Operand}

/-- The code has an opcode at the address that takes operands of the kind. -/
def TakesAt (p : Program) (address : Nat) (kind : OperandKind) : Prop :=
  ∃ b op, p.code[address]? = some b ∧ Opcode.ofByte b = .ok op ∧ op.kind = kind

/-- The operand is read at the address, as far as code can hold it. -/
def ReadsAt (p : Program) (address : Nat) : Operand → Prop
  | .short n => p.shortAt address = n
  | .float word => p.wordAt address = word
  | .pointer target => p.pointerAt address = target % 0x200000
  | .value v => p.valueAt address = .ofWord v.toWord
  | _ => False

/-- The programs are equal up to the bytes in a stretch of their code. -/
structure EqualOutside (p q : Program) (start width : Nat) : Prop where
  size : q.size = p.size
  bytes : ∀ k, k < start ∨ start + width ≤ k → q.code[k]? = p.code[k]?
  labels : q.labels = p.labels
  entry : q.entry = p.entry
  staticSize : q.staticSize = p.staticSize

/-- With the operand of the instruction at an address. -/
def withOperand (p : Program) (address : Nat) (operand : Operand) : Program :=
  { p with
    code := p.code.extract 0 (address + 1) ++ operand.bytes ++
      p.code.extract (address + 1 + operand.bytes.length) p.size }

theorem takesAt_iff {kind : OperandKind} : p.TakesAt address kind ↔
    ∃ op, Opcode.ofByte (p.fetch address) = .ok op ∧ op.kind = kind ∧ address < p.size := by
  constructor
  · rintro ⟨b, op, found, decoded, kind⟩
    obtain ⟨inside, -⟩ := Array.getElem?_eq_some_iff.mp found
    exact ⟨op, by rw [fetch, found]; exact decoded, kind, inside⟩
  · rintro ⟨op, decoded, kind, inside⟩
    have found : p.code[address]? = some p.code[address] := Array.getElem?_eq_getElem inside
    rw [fetch, found] at decoded
    exact ⟨_, op, found, decoded, kind⟩

theorem patch_of_not_takes (other : ¬ p.TakesAt address operand.kind) :
    ∃ e, p.patch address operand = .error (.refused e) := by
  rw [takesAt_iff] at other
  unfold patch
  split
  · exact ⟨_, rfl⟩
  · next op decoded =>
    refine ⟨_, if_pos ?_⟩
    by_cases kind : op.kind = operand.kind
    · exact .inr (Nat.le_of_not_lt fun inside => other ⟨op, decoded, kind, inside⟩)
    · exact .inl kind

theorem patch_of_takes (takes : p.TakesAt address operand.kind) : p.patch address operand =
    if p.size < address + 1 + operand.bytes.length then .error .cutOff else .ok (p.withOperand address operand) := by
  obtain ⟨op, decoded, kind, inside⟩ := takesAt_iff.mp takes
  unfold patch
  rw [decoded]
  dsimp only
  rw [if_neg (by simp [kind, inside])]
  rfl

theorem toList_withOperand (p : Program) (address : Nat) (operand : Operand) : (p.withOperand address operand).code.toList =
    p.code.toList.take (address + 1) ++ operand.bytes ++ p.code.toList.drop (address + 1 + operand.bytes.length) := by
  have rest : (p.code.toList.drop (address + 1 + operand.bytes.length)).length =
      p.size - (address + 1 + operand.bytes.length) := List.length_drop
  simp only [withOperand, Array.toList_append, Array.toList_appendList, Array.toList_extract, List.extract_eq_take_drop,
    Nat.sub_zero, List.drop_zero]
  rw [← rest, List.take_length]

/-- The three ways in which overwriting can end. -/
theorem patch_cases (p : Program) (address : Nat) (operand : Operand) :
    (p.TakesAt address operand.kind ∧ address + 1 + operand.bytes.length ≤ p.size ∧
        p.patch address operand = .ok (p.withOperand address operand)) ∨
      (p.TakesAt address operand.kind ∧ p.size < address + 1 + operand.bytes.length ∧
        p.patch address operand = .error .cutOff) ∨
      (¬ p.TakesAt address operand.kind ∧ ∃ e, p.patch address operand = .error (.refused e)) := by
  by_cases takes : p.TakesAt address operand.kind
  · have answer := patch_of_takes takes
    split at answer
    · next cut => exact .inr (.inl ⟨takes, cut, answer⟩)
    · next inside => exact .inl ⟨takes, Nat.le_of_not_lt inside, answer⟩
  · exact .inr (.inr ⟨takes, patch_of_not_takes takes⟩)

section
variable (inside : address + 1 + operand.bytes.length ≤ p.size)
include inside

theorem equalOutside_withOperand :
    p.EqualOutside (p.withOperand address operand) (address + 1) operand.bytes.length := by
  have code := toList_withOperand p address operand
  have size : p.code.toList.length = p.size := rfl
  have front : (p.code.toList.take (address + 1)).length = address + 1 := by
    rw [List.length_take]
    omega
  refine ⟨?_, fun k outside => ?_, rfl, rfl, rfl⟩
  · rw [Program.size, ← Array.length_toList, code, List.length_append, List.length_append, front, List.length_drop]
    omega
  · rw [← Array.getElem?_toList, ← Array.getElem?_toList, code]
    rcases outside with before | behind
    · rw [List.append_assoc, List.getElem?_append_left (by omega), List.getElem?_take_of_lt before]
    · rw [List.getElem?_append_right (by rw [List.length_append]; omega), List.getElem?_drop, List.length_append, front]
      congr 1
      omega

theorem readsAt_withOperand (fixed : operand.kind.isFixed = true) :
    (p.withOperand address operand).ReadsAt (address + 1) operand := by
  have bytes : (p.withOperand address operand).HasBytes (address + 1) operand.bytes := by
    refine ⟨_, _, toList_withOperand p address operand, ?_⟩
    rw [List.length_take, Array.length_toList]
    have : p.code.size = p.size := rfl
    omega
  cases operand with
  | short n => exact congrArg UInt16.toInt16 (halfAt_of_bytes (n := n.toUInt16) bytes)
  | float word => exact wordAt_of_bytes bytes
  | pointer target => exact pointerAt_of_bytes bytes
  | value v => exact congrArg Value.ofWord (wordAt_of_bytes bytes)
  | _ => cases fixed

end

/-- Operands of a kind that can be overwritten have one width. -/
theorem length_bytes_eq {other : Operand} (fixed : operand.kind.isFixed = true) (kind : other.kind = operand.kind) :
    other.bytes.length = operand.bytes.length := by
  cases operand with
  | none | syscall | string => cases fixed
  | _ => cases other <;> first | rfl | cases kind

section
variable {before after : Code} {i : Instruction} (code : p.code.toList = Code.bytes (before ++ i :: after))

theorem bytes_around (before after : Code) (i : Instruction) : Code.bytes (before ++ i :: after) =
    (before.bytes ++ [i.opcode.byte]) ++ (i.operand.bytes ++ after.bytes) := by
  simp only [Code.bytes, List.flatMap_append, List.flatMap_cons, Instruction.bytes, List.cons_append,
    List.append_assoc, List.nil_append]

theorem kind_opcode (i : Instruction) : i.opcode.kind = i.operand.kind := by
  cases i <;> rfl

include code

/-- At the beginning of an instruction stands its opcode and no other. -/
theorem takesAt_of_instruction {kind : OperandKind} : p.TakesAt before.size kind ↔ i.operand.kind = kind := by
  have found : p.code[before.size]? = some i.opcode.byte := by
    rw [← Array.getElem?_toList, code, bytes_around, ← Code.length_bytes, List.getElem?_append_left (by simp),
      List.getElem?_concat_length]
  rw [← kind_opcode]
  constructor
  · rintro ⟨b, op, there, decoded, rfl⟩
    obtain rfl := Option.some.inj (found.symm.trans there)
    rw [Opcode.ofByte_byte] at decoded
    cases decoded
    rfl
  · rintro rfl
    exact ⟨_, _, found, Opcode.ofByte_byte _, rfl⟩

/-- In a row of instructions the operand of one of them is replaced. -/
theorem patch_of_instruction (fixed : operand.kind.isFixed = true) (kind : i.operand.kind = operand.kind) :
    ∃ i' : Instruction, i'.opcode = i.opcode ∧ i'.operand = operand ∧
      p.patch before.size operand = .ok { p with code := (Code.bytes (before ++ i' :: after)).toArray } := by
  obtain ⟨i', parts⟩ := Assembly.Item.exists_ofParts? (kind.symm.trans (kind_opcode i).symm)
  obtain ⟨opcode, rfl⟩ := Instruction.ofParts?_eq_some_iff.mp parts
  refine ⟨i', opcode, rfl, ?_⟩
  have width := length_bytes_eq fixed kind
  have front : (before.bytes ++ [i.opcode.byte]).length = before.size + 1 := by
    rw [List.length_append, Code.length_bytes, List.length_singleton]
  have size : p.size = before.size + 1 + (i.operand.bytes.length + after.bytes.length) := by
    rw [Program.size, ← Array.length_toList, code, bytes_around, List.length_append, front, List.length_append]
  have bytes : (p.withOperand before.size i'.operand).code.toList = Code.bytes (before ++ i' :: after) := by
    rw [toList_withOperand, code, bytes_around, bytes_around, opcode, ← front, List.take_left, ← width,
      ← List.drop_drop, List.drop_left, List.drop_left, List.append_assoc]
  rw [patch_of_takes ((takesAt_of_instruction code).mpr kind), if_neg (by omega), ← bytes, Array.toArray_toList]
  rfl

end

/-- Overwriting an operand. A new program comes exactly where the code has an opcode for operands of the kind and all bytes
of the operand; the operand is then read back, and nothing else is changed. Where there is no such opcode, an error is
returned. Only where there is one and the code ends inside of its operand is there neither; never at the beginning of an
instruction in a row of whole instructions, where the operand of the instruction is replaced if it is of the kind. -/
theorem operands_overwritten (p : Program) (address : Nat) (operand : Operand) (fixed : operand.kind.isFixed = true) :
    ((∃ q, p.patch address operand = .ok q) ↔
        p.TakesAt address operand.kind ∧ address + 1 + operand.bytes.length ≤ p.size) ∧
      (∀ q, p.patch address operand = .ok q →
        q.ReadsAt (address + 1) operand ∧ p.EqualOutside q (address + 1) operand.bytes.length) ∧
      ((∃ e, p.patch address operand = .error (.refused e)) ↔ ¬ p.TakesAt address operand.kind) ∧
      (p.patch address operand = .error .cutOff ↔
        p.TakesAt address operand.kind ∧ p.size < address + 1 + operand.bytes.length) ∧
      ∀ (before after : Code) (i : Instruction), p.code.toList = Code.bytes (before ++ i :: after) →
        address = before.size →
        (i.operand.kind = operand.kind → ∃ i' : Instruction, i'.opcode = i.opcode ∧ i'.operand = operand ∧
          p.patch address operand = .ok { p with code := (Code.bytes (before ++ i' :: after)).toArray }) ∧
        (i.operand.kind ≠ operand.kind → ∃ e, p.patch address operand = .error (.refused e)) := by
  refine ⟨?_, fun q done => ?_, ?_, ?_, fun before after i code start => ?_⟩
  · rcases patch_cases p address operand with ⟨takes, inside, same⟩ | ⟨takes, cut, same⟩ | ⟨other, e, same⟩
    · simp [same, takes, inside]
    · simp [same, takes, cut]
    · simp [same, other]
  · rcases patch_cases p address operand with ⟨-, inside, same⟩ | ⟨-, -, same⟩ | ⟨-, e, same⟩
    · obtain rfl := Except.ok.inj (same.symm.trans done)
      exact ⟨readsAt_withOperand inside fixed, equalOutside_withOperand inside⟩
    · cases same.symm.trans done
    · cases same.symm.trans done
  · rcases patch_cases p address operand with ⟨takes, -, same⟩ | ⟨takes, -, same⟩ | ⟨other, e, same⟩
    · simp [same, takes]
    · simp [same, takes]
    · simp [same, other]
  · rcases patch_cases p address operand with ⟨takes, inside, same⟩ | ⟨takes, cut, same⟩ | ⟨other, e, same⟩
    · simp [same, takes, inside]
    · simp [same, takes, cut]
    · simp [same, other]
  · subst start
    refine ⟨patch_of_instruction code fixed, fun other => patch_of_not_takes ?_⟩
    rwa [takesAt_of_instruction code]

/-- A jump before a NOP gets its target, a NOP has none, and the bytes of a jump that stand in the operand of another
instruction count as a jump. -/
theorem operands_overwritten_jump :
    (∃ q : Program, (({} : Program).add (.short .jmp 0x6060)).patch 0 (.short 7) = .ok q ∧ q.shortAt 1 = 7) ∧
      (∃ e, (({} : Program).add (.plain .nop)).patch 0 (.short 7) = .error (.refused e)) ∧
      (({} : Program).add (.short .jmp 0x6060)).patch 1 (.short 7) = .error .cutOff := by
  obtain ⟨accepted, reads, -⟩ := operands_overwritten (({} : Program).add (.short .jmp 0x6060)) 0 (.short 7) rfl
  obtain ⟨-, -, refused, -⟩ := operands_overwritten (({} : Program).add (.plain .nop)) 0 (.short 7) rfl
  obtain ⟨-, -, -, cut, -⟩ := operands_overwritten (({} : Program).add (.short .jmp 0x6060)) 1 (.short 7) rfl
  obtain ⟨q, done⟩ := accepted.mpr ⟨⟨0x60, .short .jmp, rfl, rfl, rfl⟩, by decide⟩
  refine ⟨⟨q, done, (reads q done).1⟩, refused.mpr ?_, cut.mpr ⟨⟨0x60, .short .jmp, rfl, rfl, rfl⟩, by decide⟩⟩
  rintro ⟨b, op, found, decoded, kind⟩
  cases found
  cases decoded
  cases kind

/-- The opcode of a jump is the last byte of the code, in the operand of an instruction. -/
theorem operand_cut_off :
    (({} : Program).add (.short .pushI 0x6060)).patch 2 (.short 0) = .error .cutOff := by
  decide

end Program

end BasicMachine
