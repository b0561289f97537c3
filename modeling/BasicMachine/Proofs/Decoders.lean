import BasicMachine.Proofs.Heap
import BasicMachine.Proofs.PackedValues
import BasicMachine.Proofs.StoredText
import BasicMachine.Proofs.Utf8

/-!
# Code that is written, listed and executed

Instructions are added to a program one after the other, a listing takes them apart again, and a machine executes them.
What is added later does not change how earlier code is read, and a machine reads an instruction as a listing does, be it
part of a program or some bytes at the end of which an operand is missing.
-/
namespace BasicMachine

/-- What code keeps of a value: the lowest 21 bits of an address, and one NaN in place of all. -/
def Value.kept : Value → Value
  | .pointer address => .pointer (address % 0x200000)
  | .float x => .float (if x.isNaN then Single.nan else x)
  | v => v

theorem Value.ofWord_toWord_eq_kept (v : Value) : ofWord v.toWord = v.kept := by
  cases v with
  | float x =>
    by_cases nan : x.isNaN = true
    · rw [toWord, if_pos nan, kept, if_pos nan]
      rfl
    · have number : ∀ y, float x = float y → y.isNaN = false := by
        rintro _ ⟨⟩
        exact Bool.eq_false_iff.mpr nan
      rw [ofWord_toWord number, kept, if_neg nan]
      rfl
  | unset => exact ofWord_toWord (by rintro _ ⟨⟩)
  | integer n => exact ofWord_toWord (by rintro _ ⟨⟩)
  | pointer address => exact ofWord_toWord (by rintro _ ⟨⟩)

/-- What code keeps of an instruction. -/
def Instruction.kept : Instruction → Instruction
  | .pointer op address => .pointer op (address % 0x200000)
  | .push v => .push v.kept
  | .setS bytes => .setS (bytes.filter (· != 0))
  | i => i

theorem Instruction.stored_eq_kept (i : Instruction) : i.stored = i.kept := by
  cases i with
  | push v => exact congrArg Instruction.push v.ofWord_toWord_eq_kept
  | _ => rfl

namespace Program

/-- The program to which some instructions were added. Each lies where the program ended before it. -/
def ofAdditions (code : Code) : Program := code.foldl add {}

theorem code_foldl_add (code : Code) (p : Program) : (code.foldl add p).code = p.code ++ code.bytes := by
  induction code generalizing p with
  | nil => simp [Code.bytes]
  | cons i rest ih =>
    apply Array.toList_inj.mp
    rw [List.foldl_cons, ih, add]
    simp [Code.bytes]

theorem hasCode_ofAdditions (code : Code) : (ofAdditions code).HasCode 0 code :=
  ⟨[], [], by simp [ofAdditions, code_foldl_add], rfl⟩

@[simp] theorem size_ofAdditions (code : Code) : (ofAdditions code).size = code.size := by
  simp [ofAdditions, size, code_foldl_add, Code.length_bytes]

/-- The walk of a listing over code that lies at the end of a program. -/
theorem entriesFrom_eq {p : Program} {code : Code} {address : Nat} (h : p.HasCode address code)
    (ends : address + code.size = p.size) (before : List Entry) :
    p.entriesFrom before address =
      before.reverse ++ code.mapIdx fun k i => ⟨address + Code.size (code.take k), some i.kept⟩ := by
  induction code generalizing address before with
  | nil =>
    rw [Code.size_nil, Nat.add_zero] at ends
    rw [entriesFrom, if_neg (by omega)]
    simp
  | cons i rest ih =>
    obtain ⟨decoded, later⟩ := h.cons
    have size := i.size_pos
    rw [Code.size_cons] at ends
    rw [entriesFrom, if_pos (by omega)]
    split
    · next found =>
      rw [decoded] at found
      cases found
      rw [ih later (by omega), Instruction.stored_eq_kept]
      simp [List.mapIdx_cons, Nat.add_assoc]
    · next failed =>
      rw [decoded] at failed
      cases failed

/-- An instruction is found where it was added, whatever is added after it. -/
theorem instructionAt_ofAdditions (before : Code) (i : Instruction) (after : Code) :
    (ofAdditions (before ++ i :: after)).instructionAt (ofAdditions before).size =
      .ok (i.kept, (ofAdditions (before ++ [i])).size) := by
  have found := (hasCode_ofAdditions (before ++ i :: after)).append.2.cons.1
  rw [Nat.zero_add, Instruction.stored_eq_kept] at found
  rw [size_ofAdditions, size_ofAdditions, found, Code.size_append, Code.size_cons, Code.size_nil, Nat.add_zero]

/-- A string in code reaches to the first zero byte, or to the end. -/
theorem stringEnd_eq (p : Program) {room address : Nat} (h : room = p.size - address) :
    p.stringEnd room address = address + ((p.code.toList.drop address).takeWhile (· != 0)).length := by
  induction room generalizing address with
  | zero =>
    rw [stringEnd, List.drop_eq_nil_of_le (by rw [Array.length_toList]; exact Nat.le_of_sub_eq_zero h.symm)]
    rfl
  | succ room ih =>
    have inside : address < p.code.toList.length := by
      rw [Array.length_toList]
      exact Nat.lt_of_sub_eq_succ h.symm
    have here : p.byteAt address = p.code.toList[address] := by
      rw [byteAt, ← Array.getElem?_toList, List.getElem?_eq_getElem inside]
      rfl
    rw [stringEnd, List.drop_eq_getElem_cons inside, ← here]
    split
    · next zero => simp [zero]
    · next other =>
      rw [ih (by omega), List.takeWhile_cons_of_pos (by simpa using other), List.length_cons]
      omega

theorem stringAt_eq (p : Program) (address : Nat) :
    p.stringAt address = (p.code.toList.drop address).takeWhile (· != 0) := by
  rw [stringAt, stringEnd_eq p rfl, Array.toList_extract, List.extract_eq_take_drop, Nat.add_sub_cancel_left]
  exact (List.prefix_iff_eq_take.mp (List.takeWhile_prefix _)).symm

end Program

namespace Session

variable {σ : Type} {env : Environment σ} {p : Program} {left next : Nat} {s : Session σ} {i : Instruction}

/-- The rest of a run after an instruction. -/
def Outcome.rest (env : Environment σ) (p : Program) : Outcome σ → EStateM.Result Error (Session σ) Bool
  | .next left s => loop env p left s
  | .stop why s => why.answer s

theorem loop_eq_rest (env : Environment σ) (p : Program) (left : Nat) (s : Session σ) :
    loop env p left s = (advance env p left s).rest env p := by
  rw [loop_eq_course]
  cases went : advance env p left s with
  | next left' s' => rw [course_next went, Outcome.rest, loop_eq_course]
  | stop why t => rw [course_stop went, Outcome.rest]

/-- What an instruction does that was found at the program counter, with the next one at `next`. Nothing here looks at
code. -/
def executed (env : Environment σ) (left : Nat) (i : Instruction) (next : Nat) (s : Session σ) : Outcome σ :=
  if i = .plain .nop then .next (left + 1) (withMachine (fun m => { m with pc := next }) (watched env i.opcode s))
  else .ofStep s.machine.pc left (perform env left i (withMachine (·.past next) (watched env i.opcode s)))

theorem advance_eq_executed (found : p.instructionAt s.machine.pc = .ok (i, next)) :
    advance env p (left + 1) s = executed env left i next s := by
  by_cases nop : i = .plain .nop
  · obtain ⟨op, fetched, decoded, rfl⟩ := instructionAt_eq_ok found
    obtain rfl := opcode_of_instructionOf decoded
    subst nop
    have same : (watched env (.plain .nop) s).machine.pc = s.machine.pc := by rw [machine_watched]
    rw [advance_nop fetched, executed, if_pos rfl]
    simp only [withMachine, same]
    rfl
  · rw [advance_eq_perform found nop, executed, if_neg nop]

theorem advance_of_undecoded (env : Environment σ) (left : Nat) {e : Error}
    (failed : p.instructionAt s.machine.pc = .error e) :
    ∃ t, advance env p (left + 1) s = .stop (.failed (e.atAddress s.machine.pc)) t := by
  simp only [Program.instructionAt, bind, Except.bind] at failed
  split at failed
  · next unknown =>
    cases failed
    exact ⟨_, advance_unknown unknown⟩
  · next op fetched =>
    rw [Program.decode_eq] at failed
    cases undecoded : p.instructionOf op (s.machine.pc + 1) with
    | error e' =>
      rw [undecoded] at failed
      cases failed
      have costly : op ≠ .plain .nop := by
        rintro rfl
        cases undecoded
      exact ⟨_, by rw [advance_step fetched costly, step_undecoded undecoded]; rfl⟩
    | ok i =>
      rw [undecoded] at failed
      cases failed

/-- SETS stores the bytes of its operand as they are. -/
theorem executed_setS {bytes : List UInt8} (inside : s.machine.idx + bytes.length < s.machine.memory.size) :
    ∃ memory, StoredText s.machine.idx (bytes ++ [0]) s.machine.memory memory ∧
      executed env left (.setS bytes) next s =
        .next left (withMachine (fun m => { m.past next with memory, idx := m.idx + bytes.length + 1 })
          (watched env .setS s)) := by
  obtain ⟨t, -, watch⟩ := watched_eq env .setS s.machine s.host
  obtain ⟨memory, stored, done⟩ := Action.setString_eq_ok (m := s.machine.past next) inside
  refine ⟨memory, stored, ?_⟩
  have seen : watched env .setS s = ⟨s.machine, t⟩ := watch
  rw [executed, if_neg (by simp), show (Instruction.setS bytes).opcode = .setS from rfl, seen]
  have went : perform env left (.setS bytes) ⟨s.machine.past next, t⟩ =
      .ok (.next 0) ⟨{ s.machine.past next with memory, idx := s.machine.idx + bytes.length + 1 }, t⟩ := by
    rw [perform_quiet rfl]
    simp only [Action.effect, done]
    rfl
  simp only [withMachine, went, Outcome.ofStep, Nat.sub_zero]

/-- Decoding undoes encoding, and a machine decodes as a listing does. A listing of a program to which instructions were
added finds all of them in order, each where the program ended before it, up to what code keeps of them; the text of a
string comes back without its NUL characters. Whatever bytes the code is made of and wherever the program counter is, a
run goes on as the instruction says that is listed there, with the next one where the listing has it, and it fails with
the same error if there is none. SETS stores the bytes that a listing shows as text. -/
theorem decoding_undoes_encoding :
    (∀ code : Code, (Program.ofAdditions code).entries =
      code.mapIdx fun k i => ⟨(Program.ofAdditions (code.take k)).size, some i.kept⟩) ∧
    (∀ (before : Code) (i : Instruction) (after : Code),
      (Program.ofAdditions (before ++ i :: after)).instructionAt (Program.ofAdditions before).size =
        .ok (i.kept, (Program.ofAdditions (before ++ [i])).size)) ∧
    (∀ text : String, ∃ bytes, (Instruction.setS (Utf8.encode text)).kept = .setS bytes ∧
      Utf8.decodeLossy bytes = String.ofList (text.toList.filter (· != '\x00'))) ∧
    (∀ {σ : Type} (env : Environment σ) (p : Program) (left : Nat) (s : Session σ),
      match p.instructionAt s.machine.pc with
      | .ok (i, next) => loop env p (left + 1) s = (executed env left i next s).rest env p
      | .error e => ∃ t, loop env p (left + 1) s = .error (e.atAddress s.machine.pc) t) ∧
    (∀ {σ : Type} (env : Environment σ) (p : Program) (left : Nat) (s : Session σ) (bytes : List UInt8) (next : Nat),
      p.instructionAt s.machine.pc = .ok (.setS bytes, next) →
        bytes = (p.code.toList.drop (s.machine.pc + 1)).takeWhile (· != 0) ∧
        next = s.machine.pc + 1 + min (bytes.length + 1) (p.size - (s.machine.pc + 1)) ∧
        (Instruction.setS bytes).text = "SETS " ++ Text.quoted (Utf8.decodeLossy bytes) ∧
        (s.machine.idx + bytes.length < s.machine.memory.size →
          ∃ memory, StoredText s.machine.idx (bytes ++ [0]) s.machine.memory memory ∧
            executed env left (.setS bytes) next s =
              .next left (withMachine (fun m => { m.past next with memory, idx := m.idx + bytes.length + 1 })
                (watched env .setS s)))) := by
  refine ⟨fun code => ?_, Program.instructionAt_ofAdditions, fun text => ?_, fun env p left s => ?_,
    fun env p left s bytes next found => ?_⟩
  · rw [Program.entries, Program.entriesFrom_eq (Program.hasCode_ofAdditions code) (by simp)]
    simp
  · exact ⟨_, rfl, by rw [Utf8.filter_encode, Utf8.decodeLossy_encode]⟩
  · rw [loop_eq_rest]
    split
    · next found => rw [advance_eq_executed found]
    · next failed =>
      obtain ⟨t, stopped⟩ := advance_of_undecoded env left failed
      exact ⟨t, by rw [stopped]; rfl⟩
  · obtain ⟨op, fetched, decoded, place⟩ := instructionAt_eq_ok found
    obtain rfl : Opcode.setS = op := opcode_of_instructionOf decoded
    have operand : p.stringAt (s.machine.pc + 1) = bytes := Instruction.setS.inj (Except.ok.inj decoded)
    refine ⟨by rw [← operand, Program.stringAt_eq], ?_, ?_, executed_setS⟩
    · rw [place, ← operand]
      rfl
    · rw [Instruction.text, show (Instruction.setS bytes).operand.text =
        " " ++ Text.quoted (Utf8.decodeLossy bytes) from rfl, ← String.append_assoc]
      rfl

/-- An address of 22 bits and a string with a zero byte, a jump whose operand is missing, and a string without an end
that is no text. -/
theorem decoding_undoes_encoding_cut :
    (Program.ofAdditions [.push (.pointer 0x200007), .setS [65, 0, 66]]).entries =
      [⟨0, some (.push (.pointer 7))⟩, ⟨5, some (.setS [65, 66])⟩] ∧
    loop { host := Script.host } { code := #[0x60] } 1 ⟨.new { memorySize := 0 }, {}⟩ =
      .ok false ⟨{ Machine.new { memorySize := 0 } with clock := 1 }, {}⟩ ∧
    (Instruction.setS [200, 65]).text = "SETS " ++ Text.quoted (Utf8.decodeLossy [200, 65]) ∧
    ∃ memory, StoredText 0 [200, 65, 0] (Machine.new { memorySize := 4 }).memory memory ∧
      executed { host := Script.host } 0 (.setS [200, 65]) 3 ⟨.new { memorySize := 4 }, {}⟩ =
        .next 0 ⟨{ (Machine.new { memorySize := 4 }).past 3 with memory, idx := 3 }, {}⟩ := by
  obtain ⟨listed, -, -, runs, stores⟩ := decoding_undoes_encoding
  have goes := runs { host := Script.host } { code := #[0x60] } 0 ⟨.new { memorySize := 0 }, {}⟩
  have jumps : Program.instructionAt { code := #[0x60] } 0 = .ok (.short .jmp 0, 3) := rfl
  rw [show (Machine.new { memorySize := 0 }).pc = 0 from rfl, jumps] at goes
  obtain ⟨-, -, shown, stored⟩ := stores { host := Script.host } { code := #[0x2d, 200, 65] } 0
    ⟨.new { memorySize := 4 }, {}⟩ [200, 65] 3 rfl
  refine ⟨(listed _).trans (by decide), ?_, shown, stored (by decide)⟩
  rw [show 1 = 0 + 1 from rfl, goes]
  show loop _ _ 0 _ = _
  rw [loop]
  rfl

end Session

end BasicMachine
