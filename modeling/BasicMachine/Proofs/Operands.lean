import BasicMachine.Proofs.Access
import BasicMachine.Proofs.Conduct

/-!
# Pieces of expressions

What the code of each part of an expression does to a session: variables, the check of a subscript, operators and
built-in functions, those that ask the host among them.
-/
namespace BasicMachine

open Language

namespace Action

variable {m : Machine} {v : Value}

theorem push_eq_ok (room : m.stack.size < m.stack.limit) : push v m = .ok () { m with stack := m.stack.insert v } := by
  have free : m.stack.isFull = false := by
    rw [← Bool.not_eq_true, Stack.isFull_iff]
    omega
  simp only [push_apply, free, Bool.false_eq_true, if_false]

theorem cell_eq_ok {address : Nat} (found : m.memory[address]? = some v) : cell address m = .ok v m := by
  simp only [cell, found]

/-- A place in a frame. -/
theorem indexed_eq_ok {frame place : Nat} {offset : Int16} (idx : m.idx = frame) (small : frame ≤ maxPointer)
    (same : offset.toInt = place) : indexed offset m = .ok (frame + place) m := by
  have target : Value.shifted m.idx offset.toInt = (frame + place : Nat) := by
    rw [idx, same, Value.shifted, if_pos (by unfold maxPointer at small; omega)]
    omega
  rw [indexed_eq, target, if_neg (by omega)]
  rfl

theorem deref_eq_ok (interrupts : Interrupts) {frame place address : Nat} {offset : Int16} (idx : m.idx = frame)
    (small : frame ≤ maxPointer) (same : offset.toInt = place)
    (held : m.memory[frame + place]? = some (.pointer address)) :
    shortEffect interrupts offset .deref m = .ok () { m with idx := address } := by
  rw [shortEffect, run_bind_ok (indexed_eq_ok idx small same), run_bind_ok (cell_eq_ok held)]
  rfl

theorem loadX_eq_ok (interrupts : Interrupts) {frame place : Nat} {offset : Int16} (idx : m.idx = frame)
    (small : frame ≤ maxPointer) (same : offset.toInt = place) (held : m.memory[frame + place]? = some v)
    (room : m.stack.size < m.stack.limit) :
    shortEffect interrupts offset .loadX m = .ok () { m with stack := m.stack.insert v } := by
  rw [shortEffect, run_bind_ok (indexed_eq_ok idx small same), run_bind_ok (cell_eq_ok held), push_eq_ok room]

theorem storeX_eq_ok (interrupts : Interrupts) {frame place : Nat} {offset : Int16} {s : Stack Value}
    (idx : m.idx = frame) (small : frame ≤ maxPointer) (same : offset.toInt = place)
    (inside : frame + place < m.memory.size) (shape : m.stack = s.insert v) :
    shortEffect interrupts offset .storeX m =
      .ok () { m with stack := s, memory := m.memory.setIfInBounds (frame + place) v } := by
  rw [shortEffect, run_bind_ok (indexed_eq_ok idx small same), run_bind_ok (pop_eq shape)]
  exact setCell_eq_ok (m := { m with stack := s }) v inside

theorem load_eq_ok {address : Nat} (held : m.memory[address]? = some v) (room : m.stack.size < m.stack.limit) :
    pointerEffect address .load m = .ok () { m with stack := m.stack.insert v } := by
  rw [pointerEffect, run_bind_ok (cell_eq_ok held), push_eq_ok room]

theorem store_eq_ok {address : Nat} {s : Stack Value} (inside : address < m.memory.size) (shape : m.stack = s.insert v) :
    pointerEffect address .store m = .ok () { m with stack := s, memory := m.memory.setIfInBounds address v } := by
  rw [pointerEffect, run_bind_ok (pop_eq shape)]
  exact setCell_eq_ok (m := { m with stack := s }) v inside

theorem pushIdx_eq_ok (room : m.stack.size < m.stack.limit) :
    plainEffect .pushIdx m = .ok () { m with stack := m.stack.insert (.pointer m.idx) } :=
  push_eq_ok room

theorem dup_eq_ok {s : Stack Value} (shape : m.stack = s.insert v) (room : m.stack.size < m.stack.limit) :
    plainEffect .dup m = .ok () { m with stack := m.stack.insert v } := by
  have less : s.size < s.limit := by
    rw [shape, Stack.size_insert] at room
    exact Nat.lt_of_succ_lt room
  have again : push v { m with stack := s } = .ok () m := by
    rw [push_eq_ok (by exact less)]
    simp only [← shape]
  rw [plainEffect, run_bind_ok (pop_eq shape), run_bind_ok again, push_eq_ok room]

theorem popIdx_eq {s : Stack Value} (shape : m.stack = s.insert v) :
    plainEffect .popIdx m = (ofExcept v.asPointer >>= setIdx) { m with stack := s } := by
  rw [plainEffect, run_bind_ok (pop_eq shape)]

theorem popReg_eq_ok {s : Stack Value} (shape : m.stack = s.insert v) :
    plainEffect (.popReg .a) m = .ok () { m with stack := s, a := v } := by
  rw [plainEffect, run_bind_ok (pop_eq shape)]
  rfl

theorem popCoordinate_eq {s : Stack Value} (shape : m.stack = s.insert v) :
    popCoordinate m = ofExcept (coordinate v) { m with stack := s } := by
  simp only [popCoordinate, bind, EStateM.bind, pop_eq shape]
  cases v with
  | float x => by_cases inside : -32768 ≤ x ∧ x ≤ 32767 <;> simp only [coordinate, inside, if_false] <;> rfl
  | _ => rfl

end Action

namespace Session

variable {σ : Type} {env : Environment σ} {p : Program} {c : Context} {s : Session σ} {room room' depth : Nat}
  {steps upper lower : Steps}

/-- The machine is before some steps that nobody watches, with room for so many values and return addresses. -/
structure Poised (c : Context) (p : Program) (steps : Steps) (room depth : Nat) (s : Session σ) : Prop where
  lies : p.HasCode s.machine.pc (steps.place c.address s.machine.pc)
  reach : s.machine.pc + steps.size < maxCode
  off : s.machine.tracing = false
  values : s.machine.stack.size + room ≤ s.machine.stack.limit
  calls : s.machine.calls.size + depth ≤ s.machine.calls.limit

namespace Poised

theorem mono (h : Poised c p steps room depth s) (le : room' ≤ room) : Poised c p steps room' depth s :=
  ⟨h.lies, h.reach, h.off, by have := h.values; omega, h.calls⟩

theorem first (h : Poised c p (upper ++ lower) room depth s) : Poised c p upper room depth s := by
  have reach := h.reach
  rw [Steps.size_append] at reach
  exact ⟨(Context.hasCode_append h.lies).1, by omega, h.off, h.values, h.calls⟩

/-- Past the first steps there is room for what they have not taken. -/
theorem second (h : Poised c p (upper ++ lower) room depth s) (room' : Nat) (stack : Stack Value) (w : World σ) (a : Value)
    (idx clock : Nat) (limit : stack.limit = s.machine.stack.limit)
    (size : stack.size + room' ≤ s.machine.stack.size + room) :
    Poised c p lower room' depth (s.beyond upper.size stack w a idx clock) := by
  have reach := h.reach
  have values := h.values
  rw [Steps.size_append, ← Nat.add_assoc] at reach
  refine ⟨(Context.hasCode_append h.lies).2, reach, h.off, ?_, h.calls⟩
  show stack.size + room' ≤ stack.limit
  omega

/-- The first step, and what is behind it. -/
theorem head {step : Step} (h : Poised c p (step :: steps) room depth s) :
    p.instructionAt s.machine.pc =
      .ok ((step.instruction c.address s.machine.pc).stored, s.machine.pc + step.size) :=
  (Context.hasCode_cons h.lies).1

theorem code {code : Code} (h : Poised c p (Steps.ofCode code) room depth s) : p.HasCode s.machine.pc code := by
  have lies := h.lies
  rwa [Steps.place_ofCode] at lies

theorem does {code : Code} {r : Except Error (Stack Value)} (h : Poised c p (Steps.ofCode code) room depth s)
    (computes : Computes env p s.machine code room r) :
    Does env p s (Steps.ofCode code).size (Evaluation.answer r s.world) := by
  rw [Steps.size_ofCode]
  exact .of_computes computes h.code h.off h.values

end Poised

/-- An answer that depends on memory, on the stack. -/
theorem map_looking {α β : Type} (g : α → β) (f : Array Value → Except Error α) (w : World σ) :
    (g <$> (Evaluation.looking f : Evaluation σ α)) w = Evaluation.answer (g <$> f w.memory) w := by
  simp only [Functor.map, EStateM.map, Evaluation.looking, Evaluation.answer, Except.map]
  cases f w.memory <;> rfl

theorem Poised.looks {code : Code} {g : Value → Stack Value} {f : Array Value → Except Error Value}
    (h : Poised c p (Steps.ofCode code) room depth s)
    (computes : Computes env p s.machine code room (g <$> f s.machine.memory)) :
    Does env p s (Steps.ofCode code).size ((g <$> (Evaluation.looking f : Evaluation σ Value)) s.world) := by
  rw [map_looking]
  exact h.does computes

/-- One instruction that pushes a value. -/
theorem Poised.pushes {i : Instruction} {v : Value} (h : Poised c p (Steps.ofCode [i]) 1 depth s)
    (computes : Computes env p s.machine [i] 1 (.ok (s.machine.stack.insert v))) :
    Does env p s (Steps.ofCode [i]).size ((s.machine.stack.insert <$> (pure v : Evaluation σ Value)) s.world) :=
  h.does computes

/-- The machine is before some code that nobody watches. -/
structure Before (p : Program) (code : Code) (s : Session σ) : Prop where
  lies : p.HasCode s.machine.pc code
  off : s.machine.tracing = false

theorem Poised.before {code : Code} (h : Poised c p (Steps.ofCode code) room depth s) : Before p code s := ⟨h.code, h.off⟩

namespace Before

variable {i : Instruction} {rest : Code} {v : Value} {stack stack' : Stack Value} {w w' : World σ} {a a' : Value}
  {idx idx' : Nat} {r : EStateM.Result Error (World σ) (Stack Value)}

theorem first {code : Code} (h : Before p (code ++ rest) s) : Before p code s := ⟨h.lies.append.1, h.off⟩

theorem second {code : Code} (h : Before p (code ++ rest) s) (stack : Stack Value) (w : World σ) (a : Value)
    (idx clock : Nat) : Before p rest (s.beyond code.size stack w a idx clock) :=
  ⟨h.lies.append.2, h.off⟩

theorem leads (h : Before p (i :: rest) s) (first : Leads env p s i.size stack w a idx)
    (later : ∀ clock, Before p rest (s.beyond i.size stack w a idx clock) →
      Leads env p (s.beyond i.size stack w a idx clock) (Code.size rest) stack' w' a' idx') :
    Leads env p s (Code.size (i :: rest)) stack' w' a' idx' :=
  first.trans fun clock => later clock ⟨h.lies.cons.2, h.off⟩

theorem does (h : Before p (i :: rest) s) (first : Leads env p s i.size stack w a idx)
    (later : ∀ clock, Before p rest (s.beyond i.size stack w a idx clock) →
      Does env p (s.beyond i.size stack w a idx clock) (Code.size rest) r) :
    Does env p s (Code.size (i :: rest)) r :=
  .after first fun clock => later clock ⟨h.lies.cons.2, h.off⟩

theorem setIdx {address : Nat} (h : Before p (.pointer .setIdx address :: rest) s) (small : address ≤ maxPointer) :
    Leads env p s (Instruction.pointer .setIdx address).size s.machine.stack s.world s.machine.a address := by
  have found := h.lies.cons.1
  rw [Evaluates.stored_pointer small] at found
  exact .of_effect found rfl h.off rfl

/-- The address in a cell of a frame. -/
theorem deref {offset : Int16} {address : Nat} (h : Before p (.short .deref offset :: rest) s) (frame place : Nat)
    (idx : s.machine.idx = frame) (small : frame ≤ maxPointer) (same : offset.toInt = place)
    (held : s.machine.memory[frame + place]? = some (.pointer address)) :
    Leads env p s (Instruction.short .deref offset).size s.machine.stack s.world s.machine.a address :=
  .of_effect h.lies.cons.1 rfl h.off (Action.deref_eq_ok (m := s.machine.past _) env.interrupts idx small same held)

theorem loadX {offset : Int16} (h : Before p (.short .loadX offset :: rest) s) (frame place : Nat)
    (idx : s.machine.idx = frame) (small : frame ≤ maxPointer) (same : offset.toInt = place)
    (held : s.machine.memory[frame + place]? = some v) (room : s.machine.stack.size < s.machine.stack.limit) :
    Leads env p s (Instruction.short .loadX offset).size (s.machine.stack.insert v) s.world s.machine.a s.machine.idx :=
  .of_effect h.lies.cons.1 rfl h.off (Action.loadX_eq_ok (m := s.machine.past _) env.interrupts idx small same held room)

theorem storeX {offset : Int16} (h : Before p (.short .storeX offset :: rest) s) (frame place : Nat)
    (idx : s.machine.idx = frame) (small : frame ≤ maxPointer) (same : offset.toInt = place)
    (inside : frame + place < s.machine.memory.size) (shape : s.machine.stack = stack.insert v) :
    Leads env p s (Instruction.short .storeX offset).size stack
      { s.world with memory := s.machine.memory.setIfInBounds (frame + place) v } s.machine.a s.machine.idx :=
  .of_effect h.lies.cons.1 rfl h.off
    (Action.storeX_eq_ok (m := s.machine.past _) env.interrupts idx small same inside shape)

theorem load {address : Nat} (h : Before p (.pointer .load address :: rest) s) (small : address ≤ maxPointer)
    (held : s.machine.memory[address]? = some v) (room : s.machine.stack.size < s.machine.stack.limit) :
    Leads env p s (Instruction.pointer .load address).size (s.machine.stack.insert v) s.world s.machine.a
      s.machine.idx := by
  have found := h.lies.cons.1
  rw [Evaluates.stored_pointer small] at found
  exact .of_effect found rfl h.off (Action.load_eq_ok (m := s.machine.past _) held room)

theorem store {address : Nat} (h : Before p (.pointer .store address :: rest) s) (small : address ≤ maxPointer)
    (inside : address < s.machine.memory.size) (shape : s.machine.stack = stack.insert v) :
    Leads env p s (Instruction.pointer .store address).size stack
      { s.world with memory := s.machine.memory.setIfInBounds address v } s.machine.a s.machine.idx := by
  have found := h.lies.cons.1
  rw [Evaluates.stored_pointer small] at found
  exact .of_effect found rfl h.off (Action.store_eq_ok (m := s.machine.past _) inside shape)

theorem pushIdx (h : Before p (.plain .pushIdx :: rest) s) (room : s.machine.stack.size < s.machine.stack.limit) :
    Leads env p s (Instruction.plain .pushIdx).size (s.machine.stack.insert (.pointer s.machine.idx)) s.world s.machine.a
      s.machine.idx :=
  .of_effect h.lies.cons.1 rfl h.off (Action.pushIdx_eq_ok (m := s.machine.past _) room)

end Before

theorem cell_eq (address : Nat) (m : Machine) :
    (do Action.push (← Action.cell address)) m = (Action.ofExcept (Evaluation.held address m.memory) >>= Action.push) m := by
  simp only [bind, EStateM.bind, Action.cell, Evaluation.held]
  cases m.memory[address]? <;> rfl

/-- The value of a variable with a cell of its own. -/
theorem does_load {address : Nat} (small : address ≤ maxPointer)
    (poised : Poised c p (Steps.ofCode [.pointer .load address]) 1 depth s) :
    Does env p s (Steps.ofCode [.pointer .load address]).size
      ((s.machine.stack.insert <$> (Evaluation.fetch address : Evaluation σ Value)) s.world) :=
  poised.looks (computes_answer (Evaluates.stored_pointer small) rfl rfl rfl (Nat.le_refl _) (cell_eq address _))

/-- The value of a parameter, in the frame that the frame pointer shows. -/
theorem does_place {offset : Int16} {frame place : Nat} {v : Value}
    (pointer : s.machine.memory[frameCell]? = some (.pointer frame)) (small : frame ≤ maxPointer)
    (same : offset.toInt = place) (held : s.machine.memory[frame + place]? = some v)
    (poised : Poised c p (Steps.ofCode (Slot.place offset).load) 1 depth s) :
    Does env p s (Steps.ofCode (Slot.place offset).load).size
      ((s.machine.stack.insert <$> (pure v : Evaluation σ Value)) s.world) := by
  have before : Before p (frameCode ++ [.short .loadX offset]) s := poised.before
  rw [Steps.size_ofCode]
  refine before.does (before.setIdx (by decide)) fun _ before => ?_
  refine before.does (before.deref frameCell 0 rfl (by decide) rfl pointer) fun _ before => ?_
  exact before.does (before.loadX frame place rfl small same held poised.values) fun _ _ => ⟨_, _, .refl _⟩

/-- The value of the cell whose address is on top. -/
theorem does_fetch {stack : Stack Value} {v : Value} (shape : s.machine.stack = stack.insert v)
    (poised : Poised c p (Steps.ofCode fetchCode) room depth s) :
    Does env p s (Steps.ofCode fetchCode).size
      ((stack.insert <$> (Evaluation.answer v.asPointer >>= Evaluation.fetch : Evaluation σ Value)) s.world) := by
  have before : Before p [.plain .popIdx, .plain .loadI] s := poised.before
  have room := poised.values
  rw [shape, Stack.size_insert, Stack.limit_insert] at room
  have popped := Action.popIdx_eq (m := s.machine.past (s.machine.pc + 1)) shape
  rw [Steps.size_ofCode]
  cases pointer : v.asPointer with
  | error e =>
    rw [pointer] at popped
    exact ⟨_, breaks_of_effect before.lies.cons.1 rfl before.off popped⟩
  | ok address =>
    rw [pointer] at popped
    have leads : Leads env p s 1 stack s.world s.machine.a address :=
      .of_effect before.lies.cons.1 rfl before.off popped
    refine before.does leads fun clock before => ?_
    have loaded : Computes env p (s.beyond 1 stack s.world s.machine.a address clock).machine [.plain .loadI] 1
        (stack.insert <$> Evaluation.held address s.machine.memory) :=
      computes_answer rfl rfl rfl rfl (Nat.le_refl _) (cell_eq address _)
    show Does env p _ _ ((stack.insert <$> (Evaluation.fetch address : Evaluation σ Value)) s.world)
    rw [Evaluation.fetch, map_looking]
    exact .of_computes loaded before.lies before.off (show stack.size + 1 ≤ stack.limit by omega)

/-- A jump over some steps: JZ makes it where a value does not hold, and JNZ where it does. -/
theorem leads_skip {op : ShortOp} {distance : Nat} {rest : Steps} {stack : Stack Value} {v : Value} {b stays : Bool}
    (shape : s.machine.stack = stack.insert v) (truth : v.isTrue = .ok b)
    (branch : op = .jz ∧ stays = b ∨ op = .jnz ∧ stays = !b)
    (poised : Poised c p (.skip op distance :: rest) room depth s) (near : s.machine.pc + distance < maxCode) :
    Leads env p s (if stays then 3 else distance) stack s.world s.machine.a s.machine.idx := by
  have popped (next : Nat) : Action.effect env.interrupts (.short op (jumpOperand (s.machine.pc + distance)))
      (s.machine.past next) =
        .ok () { s.machine.past next with stack, pc := if stays then next else s.machine.pc + distance } := by
    have top := Action.pop_eq (m := s.machine.past next) shape
    rcases branch with ⟨rfl, same⟩ | ⟨rfl, same⟩ <;>
      rw [Action.effect, Action.shortEffect, run_bind_ok top, truth, jumpAddress_jumpOperand near, same] <;>
      cases b <;> rfl
  have silent : quiet (.short op (jumpOperand (s.machine.pc + distance))) = true := rfl
  have goes := goes_of_effect poised.head silent poised.off (popped _)
  cases stays <;> exact ⟨1, _, goes⟩

/-- The value on top beside a number. -/
theorem does_comparison (op : Operator) (n : Int16) {stack : Stack Value} {v : Value}
    (shape : s.machine.stack = stack.insert v)
    (poised : Poised c p (Steps.ofCode ([.plain .dup, .short .pushI n] ++ op.code)) 2 depth s) :
    Does env p s (Steps.ofCode ([.plain .dup, .short .pushI n] ++ op.code)).size
      ((s.machine.stack.insert <$> (Evaluation.looking fun memory => op.apply memory v (.integer n) : Evaluation σ Value))
        s.world) := by
  have before : Before p (.plain .dup :: .short .pushI n :: op.code) s := poised.before
  have room := poised.values
  have doubled := Action.dup_eq_ok (m := s.machine.past (s.machine.pc + 1)) shape (Nat.lt_of_succ_le (Nat.le_of_succ_le room))
  have leads : Leads env p s 1 (s.machine.stack.insert v) s.world s.machine.a s.machine.idx :=
    .of_effect before.lies.cons.1 rfl before.off doubled
  rw [Steps.size_ofCode, map_looking]
  refine before.does leads fun clock before => ?_
  refine .of_computes ((computes_pushI n).afterPush (computes_operator op (s := s.machine.stack) rfl)) before.lies before.off ?_
  show (s.machine.stack.insert v).size + 1 ≤ s.machine.stack.limit
  rw [Stack.size_insert]
  exact room

theorem compared_eq_ok {memory : Array Value} {relation : Relation} {l r v : Value}
    (h : compared memory relation l r = .ok v) : ∃ b, v = .ofBool b := by
  simp only [compared, bind, Except.bind] at h
  split at h
  · cases h
  · split at h
    · cases h
      exact ⟨_, rfl⟩
    · cases h

theorem isTrue_ofBool (b : Bool) : (Value.ofBool b).isTrue = .ok b := by
  cases b <;> rfl

/-- A subscript outside its array. -/
theorem breaks_fail {rest : Steps}
    (poised : Poised c p (.fixed (.short .fail ErrorCode.subscriptOutOfRange.number) :: rest) room depth s) :
    Breaks env p s ((Error.of .subscriptOutOfRange).atAddress s.machine.pc) s.host :=
  breaks_of_effect poised.head rfl poised.off rfl

/-- A test of the value on top, which stays there, and a jump that depends on it. -/
theorem test_cases {op : Operator} {relation : Relation} (n : Int16) {jump : ShortOp} {distance : Nat} {rest : Steps}
    {stack : Stack Value} {v : Value} (same : ∀ memory l r, op.apply memory l r = compared memory relation l r)
    (stays : Bool → Bool) (branch : ∀ b, jump = .jz ∧ stays b = b ∨ jump = .jnz ∧ stays b = !b)
    (poised : Poised c p (Steps.ofCode ([.plain .dup, .short .pushI n] ++ op.code) ++ .skip jump distance :: rest) 2 depth s)
    (shape : s.machine.stack = stack.insert v) (near : distance ≤ 3 + rest.size) :
    (∃ e, compared s.machine.memory relation v (.integer n) = .error e ∧
      ∃ address, Breaks env p s (e.atAddress address) s.host) ∨
    ∃ b, compared s.machine.memory relation v (.integer n) = .ok (.ofBool b) ∧
      ∃ a idx, Leads env p s ((Steps.ofCode ([.plain .dup, .short .pushI n] ++ op.code)).size +
        if stays b then 3 else distance) s.machine.stack s.world a idx := by
  have first : Does env p s _ _ := does_comparison op n shape poised.first
  have reach := poised.reach
  have value : op.apply s.world.memory v (.integer n) = compared s.machine.memory relation v (.integer n) := same ..
  rw [map_looking, value] at first
  rw [Steps.size_append, Steps.size_cons, Step.size, ← Nat.add_assoc] at reach
  cases result : compared s.machine.memory relation v (.integer n) with
  | error e =>
    rw [result] at first
    exact .inl ⟨e, rfl, first⟩
  | ok x =>
    obtain ⟨b, rfl⟩ := compared_eq_ok result
    rw [result] at first
    obtain ⟨a, idx, leads⟩ := first
    refine .inr ⟨b, rfl, a, idx, leads.trans fun clock => ?_⟩
    have poised' := poised.second 1 (s.machine.stack.insert (.ofBool b)) s.world a idx clock rfl
      (by rw [Stack.size_insert])
    exact leads_skip rfl (isTrue_ofBool b) (branch b) poised' (by change s.machine.pc + _ + distance < maxCode; omega)

/-- The index stays on the stack if it lies inside the array. -/
theorem does_check (array : ArrayBlock) {stack : Stack Value} {v : Value} (shape : s.machine.stack = stack.insert v)
    (poised : Poised c p array.checkSteps 2 depth s) :
    Does env p s array.checkSteps.size
      (((fun _ => s.machine.stack) <$> (Evaluation.looking fun memory => array.check memory v : Evaluation σ Unit))
        s.world) := by
  let fails : Steps := [.fixed (.short .fail ErrorCode.subscriptOutOfRange.number)]
  let upper : Steps := Steps.ofCode ([.plain .dup, .short .pushI (Int16.ofNat array.length)] ++ Operator.less.code)
  let lower : Steps := Steps.ofCode ([.plain .dup, .short .pushI 0] ++ Operator.greaterEqual.code)
  have parts : array.checkSteps = upper ++ (.skip .jz 15 :: (lower ++ (.skip .jnz 6 :: fails))) := rfl
  have failing : array.checkSteps = (upper ++ (.skip .jz 15 :: lower) ++ [.skip .jnz 6]) ++ fails := rfl
  have testing : array.checkSteps = (upper ++ [.skip .jz 15]) ++ (lower ++ (.skip .jnz 6 :: fails)) := rfl
  have outside {a : Value} {idx : Nat} (leads : Leads env p s (upper.size + 15) s.machine.stack s.world a idx) :
      Does env p s array.checkSteps.size (.error (.of .subscriptOutOfRange) s.world) := by
    obtain ⟨n, clock, goes⟩ := leads
    rw [failing] at poised
    exact ⟨_, .after goes (breaks_fail (poised.second 2 s.machine.stack s.world a idx _ rfl (Nat.le_refl _)))⟩
  rw [map_looking]
  have here := poised
  rw [parts] at here
  rcases test_cases _ (fun _ _ _ => rfl) id (fun _ => .inl ⟨rfl, rfl⟩) here shape (by decide) with
    ⟨e, below, breaks⟩ | ⟨b, below, a, idx, leads⟩
  · have failed : array.check s.machine.memory v = .error e := by
      simp only [ArrayBlock.check, below, bind, Except.bind]
    rw [show array.check s.world.memory v = .error e from failed]
    exact breaks
  cases b with
  | false =>
    have failed : array.check s.machine.memory v = .error (.of .subscriptOutOfRange) := by
      simp only [ArrayBlock.check, below, bind, Except.bind, isTrue_ofBool]
      rfl
    rw [show array.check s.world.memory v = _ from failed]
    exact outside leads
  | true =>
    obtain ⟨n, clock, goes⟩ := leads
    have goes : Goes env p n s (s.beyond (upper.size + 3) s.machine.stack s.world a idx clock) := goes
    have there := poised
    rw [testing] at there
    have there := there.second 2 s.machine.stack s.world a idx clock rfl (Nat.le_refl _)
    rcases test_cases _ (fun _ _ _ => rfl) not (fun _ => .inr ⟨rfl, rfl⟩) there shape (by decide) with
      ⟨e, above, breaks⟩ | ⟨b, above, a', idx', leads⟩
    · have above : compared s.machine.memory .greaterEqual v (.integer 0) = .error e := above
      have failed : array.check s.machine.memory v = .error e := by
        simp only [ArrayBlock.check, below, above, bind, Except.bind, isTrue_ofBool]
        rfl
      rw [show array.check s.world.memory v = .error e from failed]
      exact breaks.imp fun _ breaks => .after goes breaks
    have above : compared s.machine.memory .greaterEqual v (.integer 0) = .ok (.ofBool b) := above
    cases b with
    | false =>
      have failed : array.check s.machine.memory v = .error (.of .subscriptOutOfRange) := by
        simp only [ArrayBlock.check, below, above, bind, Except.bind, isTrue_ofBool]
        rfl
      rw [show array.check s.world.memory v = _ from failed]
      have further : Leads env p (s.beyond (upper.size + 3) s.machine.stack s.world a idx clock)
          (lower.size + 3) s.machine.stack s.world a' idx' := leads
      have whole : Leads env p s (upper.size + 3 + (lower.size + 3)) s.machine.stack s.world a' idx' := .after goes further
      exact outside whole
    | true =>
      have passed : array.check s.machine.memory v = .ok () := by
        simp only [ArrayBlock.check, below, above, bind, Except.bind, isTrue_ofBool]
        rfl
      rw [show array.check s.world.memory v = _ from passed]
      have further : Leads env p (s.beyond (upper.size + 3) s.machine.stack s.world a idx clock)
          (lower.size + 6) s.machine.stack s.world a' idx' := leads
      have whole : Leads env p s (upper.size + 3 + (lower.size + 6)) s.machine.stack s.world a' idx' := .after goes further
      exact ⟨a', idx', whole⟩

/-- What the host has answered, from the register to the stack. -/
theorem does_answer {stack : Stack Value} {v : Value} (a : s.machine.a = v)
    (shape : s.machine.stack = stack) (room : stack.size < stack.limit)
    (before : Before p [.plain (.pushReg .a)] s) :
    Does env p s (Code.size [.plain (.pushReg .a)]) ((stack.insert <$> (pure v : Evaluation σ Value)) s.world) := by
  subst a shape
  have pushed : Action.effect env.interrupts (.plain (.pushReg .a)) (s.machine.past (s.machine.pc + 1)) = _ :=
    Action.push_eq_ok (m := s.machine.past (s.machine.pc + 1)) (v := s.machine.a) room
  exact ⟨_, _, .of_effect before.lies.cons.1 rfl before.off pushed⟩

theorem does_inkey (poised : Poised c p (Steps.ofCode Builtin.inkey.code) 1 depth s) :
    Does env p s (Steps.ofCode Builtin.inkey.code).size
      ((s.machine.stack.insert <$> Builtin.inkey.eval env.host []) s.world) := by
  have before : Before p [.syscall .readKey .a, .plain (.pushReg .a)] s := poised.before
  rw [Steps.size_ofCode]
  have asked : Leads env p s (Instruction.syscall .readKey .a).size s.machine.stack
      { s.world with host := (env.host (.read true) s.host).2 }
      (.integer (Int16.ofNat (env.host (.read true) s.host).1.toNat)) s.machine.idx :=
    .of_perform before.lies.cons.1 (by nofun) before.off fun _ => rfl
  exact before.does asked fun clock before => does_answer rfl rfl poised.values before

theorem does_key {stack : Stack Value} {v : Value} (shape : s.machine.stack = stack.insert v)
    (poised : Poised c p (Steps.ofCode Builtin.key.code) room depth s) :
    Does env p s (Steps.ofCode Builtin.key.code).size
      ((stack.insert <$> Builtin.key.eval env.host [v]) s.world) := by
  have before : Before p [.plain (.popReg .a), .syscall .keySet .a, .plain (.pushReg .a)] s := poised.before
  have values := poised.values
  rw [shape, Stack.size_insert, Stack.limit_insert] at values
  have popped : Leads env p s 1 stack s.world v s.machine.idx :=
    .of_effect before.lies.cons.1 rfl before.off (Action.popReg_eq_ok (m := s.machine.past _) shape)
  have read (m : Machine) (a : m.a = v) : act (do Action.ofExcept (← Action.register .a).asByte) (⟨m, s.host⟩ : Session σ) =
      act (Action.ofExcept v.asByte) ⟨m, s.host⟩ := by
    subst a
    rfl
  rw [Steps.size_ofCode, Builtin.eval]
  refine before.does popped fun clock before => ?_
  let m : Machine := (s.beyond 1 stack s.world v s.machine.idx clock).machine.past
    (s.machine.pc + 1 + (Instruction.syscall .keySet .a).size)
  have read : act (do Action.ofExcept (← Action.register .a).asByte) (⟨m, s.host⟩ : Session σ) = _ := read m rfl
  have found : p.instructionAt (s.beyond 1 stack s.world v s.machine.idx clock).machine.pc =
      .ok (.syscall .keySet .a, s.machine.pc + 1 + (Instruction.syscall .keySet .a).size) := before.lies.cons.1
  cases byte : v.asByte with
  | error e =>
    rw [byte] at read
    exact ⟨_, breaks_of_perform found (by nofun) before.off fun left => run_bind_error read⟩
  | ok key =>
    rw [byte] at read
    have asked : Leads env p (s.beyond 1 stack s.world v s.machine.idx clock) (Instruction.syscall .keySet .a).size stack
        { s.world with host := (env.host (.keySet key) s.host).2 } (.ofBool (env.host (.keySet key) s.host).1)
        s.machine.idx :=
      .of_perform found (by nofun) before.off fun left => run_bind_ok read
    exact before.does asked fun _ before => does_answer rfl rfl (by omega) before

theorem does_point {stack : Stack Value} {x y : Value} (shape : s.machine.stack = (stack.insert x).insert y)
    (poised : Poised c p (Steps.ofCode Builtin.point.code) room depth s) :
    Does env p s (Steps.ofCode Builtin.point.code).size
      ((stack.insert <$> Builtin.point.eval env.host [x, y]) s.world) := by
  have before : Before p [.syscall .getPixel .a, .plain (.pushReg .a)] s := poised.before
  have values := poised.values
  rw [shape, Stack.size_insert, Stack.size_insert, Stack.limit_insert, Stack.limit_insert] at values
  let m : Machine := s.machine.past (s.machine.pc + (Instruction.syscall .getPixel .a).size)
  have lower : act Action.popCoordinate (⟨m, s.host⟩ : Session σ) =
      act (Action.ofExcept (coordinate y)) ⟨{ m with stack := stack.insert x }, s.host⟩ := by
    simp only [act, Action.popCoordinate_eq (m := m) shape]
  have upper : act Action.popCoordinate (⟨{ m with stack := stack.insert x }, s.host⟩ : Session σ) =
      act (Action.ofExcept (coordinate x)) ⟨{ m with stack }, s.host⟩ := by
    simp only [act, Action.popCoordinate_eq (m := { m with stack := stack.insert x }) rfl]
  have found : p.instructionAt s.machine.pc =
      .ok (.syscall .getPixel .a, s.machine.pc + (Instruction.syscall .getPixel .a).size) := before.lies.cons.1
  rw [Steps.size_ofCode, Builtin.eval]
  cases second : coordinate y with
  | error e =>
    rw [second] at lower
    exact ⟨_, breaks_of_perform found (by simp) before.off fun left => run_bind_error lower⟩
  | ok row =>
    rw [second] at lower
    cases first : coordinate x with
    | error e =>
      rw [first] at upper
      exact ⟨_, breaks_of_perform found (by simp) before.off fun left =>
        (run_bind_ok lower).trans (run_bind_error upper)⟩
    | ok column =>
      rw [first] at upper
      have asked : Leads env p s (Instruction.syscall .getPixel .a).size stack
          { s.world with host := (env.host (.getPixel column row) s.host).2 }
          (.integer (Int16.ofNat (env.host (.getPixel column row) s.host).1.toNat)) s.machine.idx :=
        .of_perform found (by simp) before.off fun left => (run_bind_ok lower).trans (run_bind_ok upper)
      exact before.does asked fun _ before => does_answer rfl rfl (by omega) before

theorem does_rnd {stack : Stack Value} {v : Value} (shape : s.machine.stack = stack.insert v)
    (poised : Poised c p (Steps.ofCode Builtin.rnd.code) room depth s) :
    Does env p s (Steps.ofCode Builtin.rnd.code).size
      ((stack.insert <$> Builtin.rnd.eval env.host [v]) s.world) := by
  have before : Before p [.plain .rnd] s := poised.before
  have values := poised.values
  rw [shape, Stack.size_insert, Stack.limit_insert] at values
  let m : Machine := s.machine.past (s.machine.pc + 1)
  have drawn : Action.plainEffect .rnd m = (do
      let scale ← Action.ofExcept v.asNumber
      let random := (← get).random
      modify fun m => { m with random := random.next }
      Action.push (.float (random.float * scale)) : Action Unit) { m with stack } := by
    rw [Action.plainEffect, run_bind_ok (Action.pop_eq (m := m) shape)]
  have found : p.instructionAt s.machine.pc = .ok (.plain .rnd, s.machine.pc + 1) := before.lies.cons.1
  rw [Steps.size_ofCode, Builtin.eval]
  cases number : v.asNumber with
  | error e =>
    rw [number] at drawn
    exact ⟨_, breaks_of_effect found rfl before.off drawn⟩
  | ok scale =>
    have pushed := Action.push_eq_ok (m := { m with stack, random := m.random.next })
      (v := .float (m.random.float * scale)) (show stack.size < stack.limit by omega)
    rw [number] at drawn
    exact ⟨_, _, .of_effect found rfl before.off (drawn.trans pushed)⟩

theorem answer_bind {α β : Type} (x : Except Error α) (f : α → Except Error β) :
    (Evaluation.answer (x >>= f) : Evaluation σ β) = (do Evaluation.answer (f (← Evaluation.answer x))) := by
  cases x <;> rfl

theorem does_peek {stack : Stack Value} {v : Value} (shape : s.machine.stack = stack.insert v)
    (poised : Poised c p (Steps.ofCode Builtin.peek.code) room depth s) :
    Does env p s (Steps.ofCode Builtin.peek.code).size
      ((stack.insert <$> Builtin.peek.eval env.host [v]) s.world) := by
  have parts : Steps.ofCode Builtin.peek.code = Steps.ofCode [.plain (.unary .toPointer)] ++ Steps.ofCode fetchCode := rfl
  rw [parts] at poised ⊢
  have first : Does env p s _ ((stack.insert <$> (Evaluation.answer v.toPointer : Evaluation σ Value)) s.world) :=
    (poised.first.mono (Nat.zero_le _)).looks (computes_unary .toPointer shape)
  rw [Steps.size_append, Builtin.eval, answer_bind, bind_assoc, map_bind]
  refine .bind first fun pointer w _ a idx clock => ?_
  refine does_fetch rfl (poised.second room (stack.insert pointer) w a idx clock ?_ ?_) <;> rw [shape]
  · rfl
  · simp

theorem does_function (f : Function) {stack : Stack Value} {v : Value} (shape : s.machine.stack = stack.insert v)
    (poised : Poised c p (Steps.ofCode f.builtin.code) 1 depth s) :
    Does env p s (Steps.ofCode f.builtin.code).size
      ((stack.insert <$> f.builtin.eval env.host [v]) s.world) := by
  have value : f.builtin.eval env.host [v] = (Evaluation.looking fun memory => f.apply memory v : Evaluation σ Value) := by
    cases f <;> rfl
  rw [value]
  exact poised.looks (computes_function f shape)

/-- The code of a built-in function takes its arguments and leaves the result. -/
theorem does_builtin (f : Builtin) {stack : Stack Value} {args : List Value} (count : args.length = f.arity)
    (shape : s.machine.stack = args.foldl Stack.insert stack)
    (poised : Poised c p (Steps.ofCode f.code) 1 depth s) :
    Does env p s (Steps.ofCode f.code).size ((stack.insert <$> f.eval env.host args) s.world) := by
  by_cases none : f = .inkey
  · subst none
    obtain rfl := List.length_eq_zero_iff.mp count
    have shape : s.machine.stack = stack := shape
    subst shape
    exact does_inkey poised
  by_cases two : f = .point
  · subst two
    obtain ⟨x, y, rfl⟩ := List.length_eq_two.mp count
    exact does_point shape poised
  have one : f.arity = 1 := by
    cases f <;> first | rfl | exact absurd rfl none | exact absurd rfl two
  obtain ⟨v, rfl⟩ := List.length_eq_one_iff.mp (count.trans one)
  cases f with
  | inkey => exact absurd rfl none
  | point => exact absurd rfl two
  | key => exact does_key shape poised
  | peek => exact does_peek shape poised
  | rnd => exact does_rnd shape poised
  | abs => exact does_function .abs shape poised
  | atn => exact does_function .atn shape poised
  | cos => exact does_function .cos shape poised
  | exp => exact does_function .exp shape poised
  | int => exact does_function .int shape poised
  | len => exact does_function .len shape poised
  | log => exact does_function .log shape poised
  | sgn => exact does_function .sgn shape poised
  | sin => exact does_function .sin shape poised
  | sqr => exact does_function .sqr shape poised
  | tan => exact does_function .tan shape poised

end Session

end BasicMachine
