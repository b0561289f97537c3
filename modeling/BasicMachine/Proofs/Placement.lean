import BasicMachine.Language.Compile
import BasicMachine.Proofs.Decoding

/-!
# Code in its place

Where the pieces of a program come to lie: the code of an expression is the code of its parts in a row, a label is the
address of its mark, and a jump over a piece of code ends right behind it.
-/
namespace BasicMachine.Language

mutual

theorem Expr.codeBefore_eq (after : Steps) : (e : Expr) → e.codeBefore after = e.code ++ after
  | .integer _ | .float _ | .text _ => rfl
  | .variable slot => by simp only [Expr.code, Expr.codeBefore, List.append_nil]
  | .element array subscripts => by
    simp only [Expr.code, Expr.codeBefore]
    rw [indexBefore_eq, indexBefore_eq _ (_ ++ (_ ++ (_ ++ [])))]
    simp only [List.append_assoc, List.append_nil]
  | .negate e => by
    simp only [Expr.code, Expr.codeBefore]
    rw [e.codeBefore_eq, e.codeBefore_eq (_ ++ [])]
    simp only [List.append_assoc, List.append_nil, List.cons_append]
  | .not e => by
    simp only [Expr.code, Expr.codeBefore]
    rw [e.codeBefore_eq, e.codeBefore_eq [_]]
    simp only [List.append_assoc, List.cons_append, List.nil_append]
  | .binary op left right => by
    simp only [Expr.code, Expr.codeBefore]
    rw [left.codeBefore_eq, right.codeBefore_eq, left.codeBefore_eq (right.codeBefore _),
      right.codeBefore_eq (_ ++ [])]
    simp only [List.append_assoc, List.append_nil]
  | .builtin f args => by
    simp only [Expr.code, Expr.codeBefore]
    rw [argumentsBefore_eq, argumentsBefore_eq (_ ++ [])]
    simp only [List.append_assoc, List.append_nil]
  | .call name args => by
    simp only [Expr.code, Expr.codeBefore]
    rw [argumentsBefore_eq, argumentsBefore_eq [_]]
    simp only [List.append_assoc, List.cons_append, List.nil_append]

theorem argumentsBefore_eq (after : Steps) : (args : List Expr) →
    argumentsBefore after args = argumentsBefore [] args ++ after
  | [] => rfl
  | e :: rest => by
    simp only [argumentsBefore]
    rw [e.codeBefore_eq, e.codeBefore_eq (argumentsBefore [] rest), argumentsBefore_eq after rest, List.append_assoc]

theorem indexBefore_eq (extents : List Int16) (after : Steps) : (subscripts : List Expr) →
    indexBefore extents after subscripts = indexBefore extents [] subscripts ++ after
  | [] => rfl
  | e :: rest => by
    simp only [indexBefore]
    rw [e.codeBefore_eq, e.codeBefore_eq (_ ++ innerBefore _ [] rest), innerBefore_eq _ after rest]
    simp only [List.append_assoc]

theorem innerBefore_eq (extents : List Int16) (after : Steps) : (subscripts : List Expr) →
    innerBefore extents after subscripts = innerBefore extents [] subscripts ++ after
  | [] => rfl
  | e :: rest => by
    simp only [innerBefore]
    rw [e.codeBefore_eq, e.codeBefore_eq (_ ++ innerBefore _ [] rest), innerBefore_eq _ after rest]
    simp only [List.append_assoc]

end

namespace Expr

theorem code_element (array : ArrayBlock) (subscripts : List Expr) :
    code (.element array subscripts) = indexBefore array.extents [] subscripts ++
      (array.checkSteps ++ (Steps.ofCode array.baseCode ++ Steps.ofCode fetchCode)) := by
  rw [code, codeBefore, indexBefore_eq, List.append_nil]

theorem code_negate (e : Expr) :
    code (.negate e) = .fixed (.short .pushI 0) :: (e.code ++ Steps.ofCode Operator.minus.code) := by
  rw [code, codeBefore, codeBefore_eq, List.append_nil]

theorem code_not (e : Expr) : code (.not e) = e.code ++ [.fixed (.plain (.unary .not))] := by
  rw [code, codeBefore, codeBefore_eq]

theorem code_binary (op : Operator) (left right : Expr) :
    code (.binary op left right) = left.code ++ (right.code ++ Steps.ofCode op.code) := by
  rw [code, codeBefore, codeBefore_eq, codeBefore_eq, List.append_nil]

theorem code_builtin (f : Builtin) (args : List Expr) :
    code (.builtin f args) = argumentsBefore [] args ++ Steps.ofCode f.code := by
  rw [code, codeBefore, argumentsBefore_eq, List.append_nil]

theorem code_call (name : String) (args : List Expr) :
    code (.call name args) = argumentsBefore [] args ++ [.jump .call (.function name)] := by
  rw [code, codeBefore, argumentsBefore_eq]

end Expr

/-- The instruction leaves the program counter alone and fails with usual errors only. -/
def tame : Instruction → Bool
  | .plain op => op != .ret
  | .short op n =>
    match op with
    | .irq | .jmp | .jz | .jnz | .call => false
    | .fail => ErrorCode.ofNumber? n != some .unknownOpcode
    | _ => true
  | .syscall call _ => call != .readS
  | _ => true

/-- The instruction is one of a command: it is tame and holds no constant that only the entry block needs. -/
def emitted (i : Instruction) : Bool :=
  tame i && match i with
    | .push _ | .setS _ => false
    | _ => true

theorem tame_of_emitted {i : Instruction} (h : emitted i = true) : tame i = true := (Bool.and_eq_true_iff.mp h).1

/-- The operand of the instruction is an address of code. -/
def jumps : ShortOp → Bool
  | .jmp | .jz | .jnz | .call => true
  | _ => false

namespace Steps

theorem ofCode_append (first second : Code) :
    ofCode (first ++ second) = ofCode first ++ ofCode second :=
  List.map_append

/-- Code without jumps is the same wherever it is put. -/
theorem place_ofCode (link : Label → Nat) (address : Nat) (code : Code) :
    place link address (ofCode code) = code := by
  induction code generalizing address with
  | nil => rfl
  | cons i rest ih => exact congrArg (i :: ·) (ih _)

theorem size_ofCode (code : Code) : size (ofCode code) = code.size := by
  rw [← size_place (fun _ => 0) 0, place_ofCode]

/-- Steps whose jumps end at known labels, or right behind a piece of code among the steps. Other steps are those of
commands or return. -/
inductive Sound (known : Label → Prop) : Steps → Prop
  | nil : Sound known []
  | fixed {i : Instruction} {rest : Steps} (simple : emitted i ∨ i = .plain .ret) (later : Sound known rest) :
      Sound known (.fixed i :: rest)
  | skip {op : ShortOp} {distance : Nat} {covered rest : Steps} (jump : jumps op) (size : 3 + covered.size = distance)
      (later : Sound known (covered ++ rest)) : Sound known (.skip op distance :: (covered ++ rest))
  | jump {op : ShortOp} {l : Label} {rest : Steps} (jump : jumps op) (target : known l) (later : Sound known rest) :
      Sound known (.jump op l :: rest)

variable {known known' : Label → Prop}

theorem Sound.mono {steps : Steps} (h : Sound known steps) (more : ∀ l, known l → known' l) : Sound known' steps := by
  induction h with
  | nil => exact .nil
  | fixed simple _ ih => exact .fixed simple ih
  | skip jump size _ ih => exact .skip jump size ih
  | jump jump target _ ih => exact .jump jump (more _ target) ih

theorem Sound.append {first second : Steps} (h : Sound known first) (h' : Sound known second) :
    Sound known (first ++ second) := by
  induction h with
  | nil => exact h'
  | fixed simple _ ih => exact .fixed simple ih
  | @skip op distance covered rest jump size _ ih =>
    rw [List.cons_append, List.append_assoc]
    exact .skip jump size (List.append_assoc covered rest second ▸ ih)
  | jump jump target _ ih => exact .jump jump target ih

theorem sound_ofCode {code : Code} (h : code.all emitted = true) : Sound known (ofCode code) := by
  induction code with
  | nil => exact .nil
  | cons i rest ih =>
    rw [List.all_cons, Bool.and_eq_true] at h
    exact .fixed (.inl h.1) (ih h.2)

theorem sound_flatMap {commands : List Command} (h : ∀ c ∈ commands, Sound known c.code) :
    Sound known (commands.flatMap Command.code) := by
  induction commands with
  | nil => exact .nil
  | cons c rest ih =>
    rw [List.flatMap_cons]
    exact (h c (by simp)).append (ih fun d member => h d (by simp [member]))

/-- A conditional jump over a FAIL. -/
theorem sound_failure {n : Int16} (usual : ErrorCode.ofNumber? n ≠ some .unknownOpcode) :
    Sound known [.skip .jnz 6, .fixed (.short .fail n)] := by
  have simple : emitted (.short .fail n) = true := Bool.and_eq_true_iff.mpr ⟨bne_iff_ne.mpr usual, rfl⟩
  have failure : Sound known ([.fixed (.short .fail n)] ++ []) := .fixed (.inl simple) .nil
  exact .skip rfl rfl failure

/-- The first jump of the check of an index ends at its FAIL, the second one behind it. -/
theorem sound_checkSteps (array : ArrayBlock) : Sound known array.checkSteps := by
  let lower : Steps := ofCode ([.plain .dup, .short .pushI 0] ++ Operator.relation (-1) .notEqual)
  let failure : Step := .fixed (.short .fail ErrorCode.subscriptOutOfRange.number)
  have second : Sound known (lower ++ [.skip .jnz 6] ++ [failure]) := by
    rw [List.append_assoc]
    exact (sound_ofCode rfl).append (sound_failure (by decide))
  have first : Sound known (.skip .jz 15 :: (lower ++ [.skip .jnz 6] ++ [failure])) := .skip rfl rfl second
  rw [ArrayBlock.checkSteps, List.append_assoc]
  exact (sound_ofCode rfl).append first

theorem sound_remainingSteps (count : Nat) : Sound known (Command.remainingSteps count) :=
  (sound_ofCode rfl).append (sound_failure (by decide))

/-- What a step among sound ones can be. -/
theorem Sound.cases {steps before after : Steps} {s : Step} (h : Sound known steps)
    (split : steps = before ++ s :: after) :
    (∃ i, s = .fixed i ∧ (emitted i ∨ i = .plain .ret)) ∨ (∃ op l, s = .jump op l ∧ jumps op ∧ known l) ∨
      ∃ op distance covered rest, s = .skip op distance ∧ jumps op ∧ after = covered ++ rest ∧
        3 + Steps.size covered = distance := by
  induction h generalizing before with
  | nil => simp at split
  | @fixed i rest simple _ ih =>
    cases before with
    | nil =>
      obtain ⟨rfl, rfl⟩ := List.cons.inj split
      exact .inl ⟨i, rfl, simple⟩
    | cons _ before => exact ih (List.cons.inj split).2
  | @skip op distance covered rest jump size _ ih =>
    cases before with
    | nil =>
      obtain ⟨rfl, rfl⟩ := List.cons.inj split
      exact .inr (.inr ⟨op, distance, covered, rest, rfl, jump, rfl, size⟩)
    | cons _ before => exact ih (List.cons.inj split).2
  | @jump op l rest jump target _ ih =>
    cases before with
    | nil =>
      obtain ⟨rfl, rfl⟩ := List.cons.inj split
      exact .inr (.inl ⟨op, l, rfl, jump, target⟩)
    | cons _ before => exact ih (List.cons.inj split).2

/-- An instruction of placed code is a step at its address. -/
theorem place_eq_append_cons {link : Label → Nat} {address : Nat} {steps : Steps} {before after : Code}
    {i : Instruction} (h : place link address steps = before ++ i :: after) :
    ∃ (first : Steps) (s : Step) (rest : Steps), steps = first ++ s :: rest ∧ before = place link address first ∧
      i = s.instruction link (address + first.size) := by
  induction steps generalizing address before with
  | nil => simp [place] at h
  | cons s rest ih =>
    cases before with
    | nil => exact ⟨[], s, rest, rfl, rfl, (List.cons.inj h).1.symm⟩
    | cons j before =>
      obtain ⟨rfl, later⟩ := List.cons.inj h
      obtain ⟨first, t, last, rfl, rfl, rfl⟩ := ih later
      refine ⟨s :: first, t, last, rfl, rfl, ?_⟩
      rw [size_cons, Nat.add_assoc]

end Steps

theorem labelsFrom_cons (start : Nat) (c : Command) (rest : List Command) (other : ∀ l, c ≠ .mark l) :
    labelsFrom start (c :: rest) = labelsFrom (start + c.size) rest := by
  cases c with
  | mark l => exact absurd rfl (other l)
  | _ => rfl

/-- The address of a label is the size of the code before its mark. -/
theorem mem_labelsFrom {l : Label} {start address : Nat} {commands : List Command} :
    (l, address) ∈ labelsFrom start commands ↔ ∃ before after, commands = before ++ .mark l :: after ∧
      address = start + Steps.size (before.flatMap Command.code) := by
  induction commands generalizing start address with
  | nil => simp [labelsFrom]
  | cons c rest ih =>
    constructor
    · intro h
      by_cases marks : ∃ m, c = .mark m
      · obtain ⟨m, rfl⟩ := marks
        rw [labelsFrom, List.mem_cons] at h
        rcases h with same | later
        · cases same
          exact ⟨[], rest, rfl, rfl⟩
        · obtain ⟨before, after, rfl, rfl⟩ := ih.mp later
          exact ⟨.mark m :: before, after, rfl, rfl⟩
      · rw [labelsFrom_cons _ _ _ fun m same => marks ⟨m, same⟩] at h
        obtain ⟨before, after, rfl, rfl⟩ := ih.mp h
        refine ⟨c :: before, after, rfl, ?_⟩
        rw [List.flatMap_cons, Steps.size_append, Command.size, Nat.add_assoc]
    · rintro ⟨before, after, split, rfl⟩
      cases before with
      | nil =>
        obtain ⟨rfl, rfl⟩ := List.cons.inj split
        exact List.mem_cons_self
      | cons d before =>
        obtain ⟨rfl, rfl⟩ := List.cons.inj split
        by_cases marks : ∃ m, c = .mark m
        · obtain ⟨m, rfl⟩ := marks
          exact List.mem_cons_of_mem _ (ih.mpr ⟨before, after, rfl, rfl⟩)
        · rw [labelsFrom_cons _ _ _ fun m same => marks ⟨m, same⟩, List.flatMap_cons, Steps.size_append,
            ← Nat.add_assoc]
          exact ih.mpr ⟨before, after, rfl, rfl⟩

/-- A label is the address of its first mark. -/
theorem lookup_labelsFrom {start : Nat} {before after : List Command} {l : Label} (first : .mark l ∉ before) :
    (labelsFrom start (before ++ .mark l :: after)).lookup l =
      some (start + Steps.size (before.flatMap Command.code)) := by
  induction before generalizing start with
  | nil => simp [labelsFrom]
  | cons command rest ih =>
    rw [List.mem_cons, not_or] at first
    rw [List.cons_append, List.flatMap_cons, Steps.size_append, ← Nat.add_assoc, ← ih first.2]
    by_cases marks : ∃ m, command = .mark m
    · obtain ⟨m, rfl⟩ := marks
      have other : (l == m) = false := beq_eq_false_iff_ne.mpr fun same => first.1 (same ▸ rfl)
      rw [labelsFrom, List.lookup_cons, other]
      rfl
    · rw [labelsFrom_cons _ _ _ fun m same => marks ⟨m, same⟩]
      rfl

end BasicMachine.Language
