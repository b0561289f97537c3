import BasicMachine.Proofs.Execution
import BasicMachine.Proofs.Pratt
import BasicMachine.Proofs.Singles

/-!
# Evaluation on the stack

The code of an expression leaves its value on the stack and everything else as it was, or fails as the evaluation
does. Only a stack without room for the values on the way fails in another way.
-/
namespace BasicMachine

namespace Action

variable {m : Machine} {s : Stack Value} {l r v : Value}

theorem pop_eq (shape : m.stack = s.insert v) : pop m = .ok v { m with stack := s } := by
  simp only [pop_apply, shape, Stack.top?_insert, Stack.dropTop_insert]

theorem pop2_eq (shape : m.stack = (s.insert l).insert r) : pop2 m = .ok (l, r) { m with stack := s } := by
  simp only [pop2_eq_pops, bind, EStateM.bind, pop_eq shape]
  rw [pop_eq rfl]
  rfl

theorem unary_eq (f : Value → Except Error Value) (shape : m.stack = s.insert v) :
    unary f m = (ofExcept (f v) >>= push) { m with stack := s } := by
  simp only [unary, bind, EStateM.bind, pop_eq shape]

theorem binary_eq (f : Value → Value → Except Error Value) (shape : m.stack = (s.insert l).insert r) :
    binary f m = (ofExcept (f l r) >>= push) { m with stack := s } := by
  simp only [binary, bind, EStateM.bind, pop2_eq shape]

theorem compareWith_eq (f : Array Value → Value → Value → Except Error Value)
    (shape : m.stack = (s.insert l).insert r) :
    compareWith f m = (ofExcept (f m.memory l r) >>= push) { m with stack := s } := by
  simp only [compareWith, bind, EStateM.bind, pop2_eq shape]
  rfl

/-- LEN of the string at the address on top. -/
theorem len_eq (shape : m.stack = s.insert v) :
    plainEffect .len m = (ofExcept (Language.Function.length m.memory v) >>= push) { m with stack := s } := by
  simp only [plainEffect, bind, EStateM.bind, pop_eq shape, ofExcept, Language.Function.length, Except.bind]
  cases v.asPointer with
  | error e => rfl
  | ok address =>
    simp only [get, getThe, MonadStateOf.get, EStateM.get]
    cases Value.string m.memory address with
    | error e => rfl
    | ok cells => by_cases large : 32767 < cells.length <;> simp only [large, if_true, if_false] <;> rfl

end Action

/-- The machine past code that has left another stack. -/
def Machine.after (m : Machine) (code : Code) (stack : Stack Value) : Machine :=
  { m with stack, pc := m.pc + code.size, clock := m.clock + code.length }

theorem Machine.after_append (m : Machine) (first second : Code) (s : Stack Value) :
    (m.after first s).after second = m.after (first ++ second) := by
  funext s'
  simp only [Machine.after, Code.size_append, List.length_append, Nat.add_assoc]

namespace Session

variable {σ : Type} {env : Environment σ} {p : Program} {m : Machine}

/-- Code at the program counter turns the stack into the one that the answer holds, or fails with its error. If more
than the limit is on the stack with `room` more values, the stack may overflow instead. -/
structure Computes (env : Environment σ) (p : Program) (m : Machine) (code : Code) (room : Nat)
    (r : Except Error (Stack Value)) : Prop where
  outcome : p.HasCode m.pc code →
    Arrives env p code.length m (m.after code <$> r) ∨
      m.stack.limit < m.stack.size + room ∧ Arrives env p code.length m (.error m.stack.overflow)

theorem Computes.mono {code : Code} {room room' : Nat} {r : Except Error (Stack Value)}
    (h : Computes env p m code room r) (le : room ≤ room') : Computes env p m code room' r :=
  ⟨fun lies => (h.outcome lies).imp id fun ⟨full, overflows⟩ => ⟨by omega, overflows⟩⟩

/-- Code after code. The stack in between holds what the first answer makes of it. -/
theorem Computes.append {α : Type} {first second : Code} {room total : Nat} (room' : Nat) {r : Except Error α}
    {g : α → Stack Value} {f : α → Except Error (Stack Value)} (h : Computes env p m first room (g <$> r))
    (enough : room ≤ total)
    (later : ∀ a, r = .ok a → (g a).limit = m.stack.limit ∧ (g a).overflow = m.stack.overflow ∧
      (g a).size + room' ≤ m.stack.size + total ∧ Computes env p (m.after first (g a)) second room' (f a)) :
    Computes env p m (first ++ second) total (r >>= f) := by
  refine ⟨fun lies => ?_⟩
  obtain ⟨lies, lies'⟩ := lies.append
  rw [List.length_append]
  rcases h.outcome lies with arrives | ⟨full, overflows⟩
  · cases r with
    | error e => exact .inl arrives
    | ok a =>
      obtain ⟨limit, overflow, size, computes⟩ := later a rfl
      rcases computes.outcome lies' with arrives' | ⟨full, overflows⟩
      · refine .inl ?_
        have both := arrives.bind (k := second.length) (f := fun _ => (m.after first (g a)).after second <$> f a)
          fun m' same => by cases same; exact arrives'
        rw [Machine.after_append] at both
        exact both
      · have full : (g a).limit < (g a).size + room' := full
        have overflows : ∃ address, Fails env p (m.after first (g a)) ((g a).overflow.atAddress address) := overflows
        refine .inr ⟨by omega, ?_⟩
        rw [← overflow]
        exact overflows.imp fun _ fails => fails.after arrives
  · exact .inr ⟨by omega, overflows⟩

/-- Code after code that cannot fail. -/
theorem Computes.andThen {first second : Code} {room total : Nat} (room' : Nat) {s : Stack Value}
    {r : Except Error (Stack Value)} (h : Computes env p m first room (.ok s)) (enough : room ≤ total)
    (limit : s.limit = m.stack.limit) (overflow : s.overflow = m.stack.overflow)
    (size : s.size + room' ≤ m.stack.size + total) (later : Computes env p (m.after first s) second room' r) :
    Computes env p m (first ++ second) total r :=
  @append σ env p m (Stack Value) first second room total room' (.ok s) id (fun _ => r) h enough
    fun _ same => by cases same; exact ⟨limit, overflow, size, later⟩

/-- An instruction that takes the stack down to `s` and then pushes an answer. -/
theorem computes_answer {i : Instruction} {s : Stack Value} {room : Nat} {r : Except Error Value}
    (stored : i.stored = i) (silent : quiet i = true) (limit : s.limit = m.stack.limit)
    (overflow : s.overflow = m.stack.overflow) (size : s.size + 1 ≤ m.stack.size + room)
    (effect : Action.effect env.interrupts i (m.past (m.pc + i.size)) =
      (Action.ofExcept r >>= Action.push) { m.past (m.pc + i.size) with stack := s }) :
    Computes env p m [i] room (s.insert <$> r) := by
  refine ⟨fun lies => ?_⟩
  have found := lies.cons.1
  rw [stored] at found
  cases r with
  | error e => exact .inl ⟨m.pc, fails_of_effect found silent effect⟩
  | ok v =>
    by_cases full : s.isFull = true
    · have failing : Action.effect env.interrupts i (m.past (m.pc + i.size)) =
          .error s.overflow { m.past (m.pc + i.size) with stack := s } := by
        simp only [effect, bind, EStateM.bind, Action.ofExcept, Action.push_apply, full, if_true]
      refine .inr ⟨?_, m.pc, ?_⟩
      · have := s.isFull_iff.mp full
        omega
      · rw [← overflow]
        exact fails_of_effect found silent failing
    · have going : Action.effect env.interrupts i (m.past (m.pc + i.size)) = .ok () (m.after [i] (s.insert v)) := by
        simp only [effect, bind, EStateM.bind, Action.ofExcept, Action.push_apply, full, if_false, Bool.false_eq_true]
        rfl
      exact .inl (.single (moves_of_effect found silent going rfl))

theorem computes_push {i : Instruction} {v : Value} (stored : i.stored = i) (silent : quiet i = true)
    (effect : ∀ m' : Machine, m'.memory = m.memory → Action.effect env.interrupts i m' = Action.push v m') :
    Computes env p m [i] 1 (.ok (m.stack.insert v)) :=
  computes_answer (r := .ok v) stored silent rfl rfl (Nat.le_refl _) (effect _ rfl)

/-- Code after a value is pushed. -/
theorem Computes.afterPush {i : Instruction} {rest : Code} {v : Value} {room : Nat} {r : Except Error (Stack Value)}
    (push : Computes env p m [i] 1 (.ok (m.stack.insert v)))
    (later : Computes env p (m.after [i] (m.stack.insert v)) rest room r) :
    Computes env p m (i :: rest) (room + 1) r :=
  push.andThen room (Nat.le_add_left 1 room) rfl rfl (by rw [Stack.size_insert]; omega) later

theorem computes_pushI (n : Int16) : Computes env p m [.short .pushI n] 1 (.ok (m.stack.insert (.integer n))) :=
  computes_push rfl rfl fun _ _ => rfl

theorem computes_unary (f : Unary) {s : Stack Value} {v : Value} (shape : m.stack = s.insert v) :
    Computes env p m [.plain (.unary f)] 0 (s.insert <$> f.apply v) :=
  computes_answer rfl rfl (by simp [shape]) (by simp [shape]) (by simp [shape]) (Action.unary_eq _ shape)

theorem computes_binary (f : Binary) {s : Stack Value} {l r : Value} (shape : m.stack = (s.insert l).insert r) :
    Computes env p m [.plain (.binary f)] 0 (s.insert <$> f.apply l r) :=
  computes_answer rfl rfl (by simp [shape]) (by simp [shape]) (by simp [shape]) (Action.binary_eq _ shape)

theorem computes_relation (f : Relation) {s : Stack Value} {l r : Value} (shape : m.stack = (s.insert l).insert r) :
    Computes env p m [.plain (.relation f)] 0 (s.insert <$> f.apply m.memory l r) :=
  computes_answer rfl rfl (by simp [shape]) (by simp [shape]) (by simp [shape])
    (Action.compareWith_eq (m := m.past _) (fun memory l r => f.apply memory l r) shape)

theorem computes_cmp {s : Stack Value} {l r : Value} (shape : m.stack = (s.insert l).insert r) :
    Computes env p m [.plain .cmp] 0 (s.insert <$> Value.rank m.memory l r) :=
  computes_answer rfl rfl (by simp [shape]) (by simp [shape]) (by simp [shape])
    (Action.compareWith_eq (m := m.past _) Value.rank shape)

theorem computes_len {s : Stack Value} {v : Value} (shape : m.stack = s.insert v) :
    Computes env p m [.plain .len] 0 (s.insert <$> Language.Function.length m.memory v) :=
  computes_answer rfl rfl (by simp [shape]) (by simp [shape]) (by simp [shape]) (Action.len_eq shape)

theorem computes_swap {s : Stack Value} {l r : Value} (shape : m.stack = (s.insert l).insert r) :
    Computes env p m [.plain .swap] 0 (.ok ((s.insert r).insert l)) := by
  refine ⟨fun lies => ?_⟩
  have found : p.instructionAt m.pc = .ok (.plain .swap, m.pc + 1) := lies.cons.1
  have size : m.stack.size = s.size + 2 := by simp [shape]
  have limit : m.stack.limit = s.limit := by simp [shape]
  have overflow : m.stack.overflow = s.overflow := by simp [shape]
  have effect : Action.effect env.interrupts (.plain .swap) (m.past (m.pc + 1)) =
      (do Action.push r; Action.push l) { m.past (m.pc + 1) with stack := s } := by
    simp only [Action.effect, Action.plainEffect, bind, EStateM.bind, Action.pop2_eq (m := m.past _) shape]
  by_cases full : s.isFull = true
  · have := s.isFull_iff.mp full
    have failing : Action.effect env.interrupts (.plain .swap) (m.past (m.pc + 1)) =
        .error s.overflow { m.past (m.pc + 1) with stack := s } := by
      simp only [effect, bind, EStateM.bind, Action.push_apply, full, if_true]
    exact .inr ⟨by omega, m.pc, overflow ▸ fails_of_effect found rfl failing⟩
  · by_cases full' : (s.insert r).isFull = true
    · have := (s.insert r).isFull_iff.mp full'
      simp only [Stack.limit_insert, Stack.size_insert] at this
      have failing : Action.effect env.interrupts (.plain .swap) (m.past (m.pc + 1)) =
          .error s.overflow { m.past (m.pc + 1) with stack := s.insert r } := by
        simp only [effect, bind, EStateM.bind, Action.push_apply, full, full', if_true, if_false, Bool.false_eq_true]
        rfl
      exact .inr ⟨by omega, m.pc, overflow ▸ fails_of_effect found rfl failing⟩
    · refine .inl (.single (moves_of_effect found rfl ?_ rfl))
      simp only [effect, bind, EStateM.bind, Action.push_apply, full, full', if_false, Bool.false_eq_true]
      rfl

end Session

namespace Language

variable {σ : Type} {env : Environment σ} {p : Program} {m : Machine} {s : Stack Value} {l r v : Value}

open Session

/-- The three-way order of two values, tested against a number. -/
theorem computes_ranked (k : Int16) (test : Relation) (shape : m.stack = (s.insert l).insert r) :
    Computes env p m (Operator.relation k test) 0
      (s.insert <$> do test.apply m.memory (← Value.rank m.memory l r) (.integer k)) := by
  have size : m.stack.size = s.size + 2 := by simp [shape]
  have limit : m.stack.limit = s.limit := by simp [shape]
  have overflow : m.stack.overflow = s.overflow := by simp [shape]
  rw [map_bind]
  refine (computes_cmp shape).append 1 (Nat.le_refl 0) fun v _ => ⟨limit.symm, overflow.symm, ?_, ?_⟩
  · have := s.size_insert v
    omega
  · exact (computes_pushI k).afterPush (computes_relation test rfl)

theorem compared_eq_ranked {memory : Array Value} {k : Int16} {test relation : Relation}
    (same : ∀ o : Ordering, relation.holds (some o) = test.holds (some
      (compare (match o with | .lt => -1 | .eq => 0 | .gt => 1 : Int16).toInt k.toInt))) :
    (do test.apply memory (← Value.rank memory l r) (.integer k)) = compared memory relation l r := by
  simp only [compared, Value.rank, Relation.apply, bind, Except.bind]
  cases Value.order memory true l r with
  | error e => rfl
  | ok found =>
    cases found with
    | none => rfl
    | some o => cases o <;> simp only [Value.order, same] <;> rfl

/-- The code of an operator takes both operands and leaves the result. -/
theorem computes_operator (op : Operator) (shape : m.stack = (s.insert l).insert r) :
    Computes env p m op.code 0 (s.insert <$> op.apply m.memory l r) := by
  have ranked {k : Int16} {test relation : Relation}
      (same : ∀ o : Ordering, relation.holds (some o) = test.holds (some
        (compare (match o with | .lt => -1 | .eq => 0 | .gt => 1 : Int16).toInt k.toInt))) :
      Computes env p m (Operator.relation k test) 0 (s.insert <$> compared m.memory relation l r) :=
    compared_eq_ranked same ▸ computes_ranked k test shape
  cases op with
  | caret => exact computes_binary .power shape
  | multiply => exact computes_binary .multiply shape
  | divide => exact computes_binary .divide shape
  | divideWhole => exact computes_binary .divideWhole shape
  | modulus => exact computes_binary .remainder shape
  | plus => exact computes_binary .add shape
  | minus => exact computes_binary .subtract shape
  | equal => exact ranked fun o => by cases o <;> rfl
  | notEqual => exact ranked fun o => by cases o <;> rfl
  | less => exact ranked fun o => by cases o <;> rfl
  | lessEqual => exact ranked fun o => by cases o <;> rfl
  | greater => exact ranked fun o => by cases o <;> rfl
  | greaterEqual => exact ranked fun o => by cases o <;> rfl
  | and => exact computes_binary .and shape
  | or => exact computes_binary .or shape

/-- The code of a function takes its argument and leaves the result. One more value may be needed on the way. -/
theorem computes_function (f : Function) (shape : m.stack = s.insert v) :
    Computes env p m f.builtin.code 1 (s.insert <$> f.apply m.memory v) := by
  have unary (g : Unary) : Computes env p m [.plain (.unary g)] 1 (s.insert <$> g.apply v) :=
    (computes_unary g shape).mono (Nat.zero_le 1)
  cases f with
  | abs => exact unary .abs
  | atn => exact unary .atn
  | cos => exact unary .cos
  | exp =>
    have push : Computes env p m [.pushF Builtin.eulerWord] 1 (.ok (m.stack.insert Function.euler)) :=
      computes_push rfl rfl fun _ _ => rfl
    refine push.afterPush ?_
    have shape' : (m.after [.pushF Builtin.eulerWord] (m.stack.insert Function.euler)).stack =
        (s.insert v).insert Function.euler := by rw [Machine.after, shape]
    refine (computes_swap shape').andThen 0 (Nat.le_refl 0) ?_ ?_ ?_ (computes_binary .power rfl) <;> rw [shape']
    · rfl
    · rfl
    · simp
  | int => exact unary .floor
  | len => exact (computes_len shape).mono (Nat.zero_le 1)
  | log => exact unary .log
  | sgn => exact (computes_pushI 0).afterPush (computes_cmp (by rw [Machine.after, shape]))
  | sin => exact unary .sin
  | sqr => exact unary .sqr
  | tan => exact unary .tan

/-- The code of an expression leaves one value more on the stack, or fails, with room for some values on the way. -/
structure Evaluates (env : Environment σ) (p : Program) (memory : Array Value) (e : Expr) (room : Nat)
    (r : Except Error Value) : Prop where
  one : 1 ≤ room
  computes : ∃ code, e.code = Steps.ofCode code ∧
    ∀ m : Machine, m.memory = memory → Computes env p m code room (m.stack.insert <$> r)

namespace Evaluates

variable {memory : Array Value} {e e' : Expr} {room room' : Nat} {x y : Except Error Value}

/-- What one instruction pushes. -/
theorem of_push {i : Instruction} (code : e.code = Steps.ofCode [i]) (stored : i.stored = i) (silent : quiet i = true)
    (effect : ∀ m : Machine, m.memory = memory → Action.effect env.interrupts i m = Action.push v m) :
    Evaluates env p memory e 1 (.ok v) :=
  ⟨Nat.le_refl 1, [i], code, fun _ same => computes_push stored silent fun m' same' => effect m' (same'.trans same)⟩

theorem integer (n : Int16) : Evaluates env p memory (.integer n) 1 (.ok (.integer n)) :=
  of_push rfl rfl rfl fun _ _ => rfl

theorem float (x : Float32) : Evaluates env p memory (.float x) 1 (.ok (.float x)) :=
  of_push rfl rfl rfl fun _ _ => by rw [Action.effect, Single.ofBits_toBits]

theorem stored_pointer {op : PointerOp} {address : Nat} (small : address ≤ maxPointer) :
    (Instruction.pointer op address).stored = .pointer op address := by
  have : address % 0x200000 = address := Nat.mod_eq_of_lt (by unfold maxPointer at small; omega)
  rw [Instruction.stored, this]

theorem text {address : Nat} (small : address ≤ maxPointer) :
    Evaluates env p memory (.text address) 1 (.ok (.pointer address)) :=
  of_push rfl (stored_pointer small) rfl fun _ _ => rfl

theorem cell {address : Nat} (small : address ≤ maxPointer) (found : memory[address]? = some v) :
    Evaluates env p memory (.variable (.cell address)) 1 (.ok v) := by
  refine of_push rfl (stored_pointer small) rfl fun m same => ?_
  simp only [Action.effect, Action.pointerEffect, bind, EStateM.bind, Action.cell, same, found]

/-- A value goes through code that turns it into another. -/
theorem andThen (code : Code) (extra : Nat) {f : Value → Except Error Value} (h : Evaluates env p memory e room x)
    (same : e'.code = e.code ++ Steps.ofCode code) (enough : room ≤ room') (enough' : 1 + extra ≤ room')
    (later : ∀ (m : Machine) (s : Stack Value) v, m.memory = memory → m.stack = s.insert v →
      Computes env p m code extra (s.insert <$> f v)) :
    Evaluates env p memory e' room' (x >>= f) := by
  obtain ⟨one, first, code_eq, computes⟩ := h
  refine ⟨Nat.le_trans one enough, first ++ code, by rw [same, code_eq, Steps.ofCode_append], fun m memory => ?_⟩
  rw [map_bind]
  refine (computes m memory).append extra enough fun v _ => ⟨rfl, rfl, ?_, later _ _ _ memory rfl⟩
  rw [Stack.size_insert]
  omega

theorem not (h : Evaluates env p memory e room x) :
    Evaluates env p memory (.not e) room (do Unary.not.apply (← x)) :=
  h.andThen [.plain (.unary .not)] 0 (Expr.code_not e) (Nat.le_refl _) h.one
    fun _ _ _ _ shape => computes_unary .not shape

theorem builtin (f : Function) (h : Evaluates env p memory e room x) :
    Evaluates env p memory (.builtin f.builtin [e]) (max room 2) (do f.apply memory (← x)) := by
  refine h.andThen f.builtin.code 1 ?_ (Nat.le_max_left _ _) (Nat.le_max_right _ _) fun m _ _ same shape => ?_
  · rw [Expr.code_builtin, argumentsBefore, argumentsBefore]
    rfl
  · rw [← same]
    exact computes_function f shape

/-- Both operands, the left one first, and then the operator. -/
theorem binary (op : Operator) (hl : Evaluates env p memory e room x) (hr : Evaluates env p memory e' room' y) :
    Evaluates env p memory (.binary op e e') (max room (room' + 1))
      (do let l ← x; let r ← y; op.apply memory l r) := by
  obtain ⟨one, first, code, computes⟩ := hl
  obtain ⟨one', second, code', computes'⟩ := hr
  refine ⟨by omega, first ++ (second ++ op.code), ?_, fun m same => ?_⟩
  · rw [Expr.code_binary, code, code', Steps.ofCode_append, Steps.ofCode_append]
  · rw [map_bind]
    refine (computes m same).append room' (Nat.le_max_left _ _) fun l _ => ⟨rfl, rfl, ?_, ?_⟩
    · rw [Stack.size_insert]
      omega
    · rw [map_bind]
      refine (computes' (m.after first _) same).append 0 (Nat.le_refl _) fun r _ => ⟨rfl, rfl, ?_, ?_⟩
      · rw [Stack.size_insert]
        omega
      · rw [← same]
        exact computes_operator op rfl

theorem negate (h : Evaluates env p memory e room x) :
    Evaluates env p memory (.negate e) (room + 1) (do (Value.integer 0).subtract (← x)) := by
  obtain ⟨one, first, code, computes⟩ := h
  refine ⟨by omega, .short .pushI 0 :: (first ++ Operator.minus.code), ?_, fun m same => ?_⟩
  · rw [Expr.code_negate, code, ← Steps.ofCode_append]
    rfl
  · rw [map_bind]
    refine (computes_pushI 0).afterPush ?_
    refine (computes (m.after _ _) same).append 0 (Nat.le_refl _) fun r _ => ⟨rfl, rfl, ?_, computes_binary .subtract rfl⟩
    rw [Stack.size_insert]
    omega

end Evaluates

/-- Memory holds the variables and texts of a tree where a context has them. -/
structure Surroundings.Holds (s : Surroundings) (c : Context) (e : Tree) : Prop where
  values : ∀ name ∈ e.names, s.memory[c.cell name]? = some (s.values name)
  texts : ∀ t ∈ e.literals, s.texts t = c.textAt t ∧ c.textAt t < s.memory.size

/-- The code of a tree evaluates it. -/
theorem evaluates_resolved {s : Surroundings} {c : Context} {e : Tree} (small : s.memory.size ≤ maxPointer + 1)
    (holds : s.Holds c e) : Evaluates env p s.memory (e.resolved c) e.room (e.eval s) := by
  obtain ⟨values, texts⟩ := holds
  induction e with
  | integer n => exact .integer n
  | float x => exact .float x
  | text t =>
    obtain ⟨same, inside⟩ := texts t (List.mem_singleton.mpr rfl)
    rw [Tree.eval, Tree.resolved, same]
    exact .text (by omega)
  | scalar name =>
    have found := values name (List.mem_singleton.mpr rfl)
    obtain ⟨inside, -⟩ := Array.getElem?_eq_some_iff.mp found
    exact .cell (by omega) found
  | plus e ih => exact ih values texts
  | minus e ih => exact (ih values texts).negate
  | not e ih => exact (ih values texts).not
  | binary op l r ihl ihr =>
    refine .binary op (ihl (fun n h => values n (List.mem_append_left _ h)) fun t h => texts t (List.mem_append_left _ h))
      (ihr (fun n h => values n (List.mem_append_right _ h)) fun t h => texts t (List.mem_append_right _ h))
  | call f e ih => exact (ih values texts).builtin f

end Language

end BasicMachine
