import BasicMachine.Proofs.Journeys

/-!
# FOR loops

How often the body of a loop is run. The commands of FOR set the counter and keep the limit and the step; then the counter
is tested before each pass, and NEXT adds the step to it. A counter past 16 bits becomes a single, which the test compares
with the limit exactly, so that every loop with a step comes to its end.
-/
namespace BasicMachine

open Language

namespace Value

theorem bounds (n : Int16) : -32768 ≤ n.toInt ∧ n.toInt < 32768 := ⟨n.le_toInt, n.toInt_lt⟩

theorem toInt_of_fits16 {n : Int} (h : fits16 n = true) : (Int16.ofInt n).toInt = n := by
  rw [fits16, Bool.and_eq_true, decide_eq_true_eq, decide_eq_true_eq] at h
  exact Int16.toInt_ofInt_of_le h.1 (by omega)

theorem ofInt_toInt (n : Int16) : ofInt n.toInt = .integer n := by
  have fits : fits16 n.toInt = true := by
    have := Value.bounds n
    rw [fits16, Bool.and_eq_true, decide_eq_true_eq, decide_eq_true_eq]
    omega
  rw [ofInt, if_pos fits, Int16.ofInt_toInt]

/-- Whole numbers compare as what they are, integers or singles. -/
theorem rank_ofInt (memory : Array Value) {n : Int} (small : n.natAbs < 0x800000) (limit : Int16) :
    rank memory (ofInt n) (.integer limit) = .ok (.integer (sign (compare n limit.toInt))) := by
  refine rank_of_order ?_
  rw [ofInt]
  split
  · next fits => rw [order, toInt_of_fits16 fits]
  · have := Value.bounds limit
    rw [order, if_pos rfl, Single.orderFloats_ofInt small (by omega)]

end Value

/-- Both stand above, or both below. -/
def sameSide : Ordering → Ordering → Bool
  | .lt, .lt | .gt, .gt => true
  | _, _ => false

theorem sameSide_lt (o : Ordering) : sameSide o .lt = false ↔ o ≠ .lt := by cases o <;> decide

theorem sameSide_gt (o : Ordering) : sameSide o .gt = false ↔ o ≠ .gt := by cases o <;> decide

namespace Session

variable {σ : Type} {env : Environment σ} {p : Program} {memory : Array Value} {u v w : Value}

/-- Wherever the code lies, it leaves the value on the stack. -/
structure Gives (env : Environment σ) (p : Program) (memory : Array Value) (code : Code) (room : Nat) (v : Value) :
    Prop where
  computes : ∀ m : Machine, m.memory = memory → Computes env p m code room (.ok (m.stack.insert v))

namespace Gives

theorem load {address : Nat} (small : address ≤ maxPointer) (held : memory[address]? = some v) :
    Gives env p memory [.pointer .load address] 1 v := by
  refine ⟨fun m same => computes_push (Evaluates.stored_pointer small) rfl fun m' same' => ?_⟩
  rw [Action.effect, Action.pointerEffect, run_bind_ok (Action.cell_eq_ok (same'.trans same ▸ held))]

theorem pushI (n : Int16) : Gives env p memory [.short .pushI n] 1 (.integer n) := ⟨fun _ _ => computes_pushI n⟩

/-- One value after another, and an operation on both. -/
theorem operation {first second : Code} {op : Instruction} {room room' total : Nat} (h : Gives env p memory first room u)
    (h' : Gives env p memory second room' v)
    (operate : ∀ (m : Machine) (s : Stack Value), m.memory = memory → m.stack = (s.insert u).insert v →
      Computes env p m [op] 0 (.ok (s.insert w))) (some : 1 ≤ room')
    (enough : room ≤ total) (enough' : room' + 1 ≤ total) : Gives env p memory (first ++ (second ++ [op])) total w := by
  refine ⟨fun m same => ?_⟩
  let next := m.after first (m.stack.insert u)
  have later : Computes env p next (second ++ [op]) room' (.ok (m.stack.insert w)) := by
    refine (h'.computes next same).andThen 0 (Nat.le_refl _) rfl rfl ?_ (operate _ m.stack same rfl)
    rw [Stack.size_insert]
    omega
  refine (h.computes m same).andThen room' enough rfl rfl ?_ later
  rw [Stack.size_insert]
  omega

theorem cmp {m : Machine} {s : Stack Value} (same : m.memory = memory) (shape : m.stack = (s.insert u).insert v)
    (ranked : Value.rank memory u v = .ok w) : Computes env p m [.plain .cmp] 0 (.ok (s.insert w)) := by
  have done : Computes env p m _ _ _ := computes_cmp shape
  rw [same, ranked] at done
  exact done

theorem binary {f : Binary} {m : Machine} {s : Stack Value} (shape : m.stack = (s.insert u).insert v)
    (known : f.apply u v = .ok w) : Computes env p m [.plain (.binary f)] 0 (.ok (s.insert w)) := by
  have done : Computes env p m _ _ _ := computes_binary f shape
  rw [known] at done
  exact done

theorem relation {f : Relation} {m : Machine} {s : Stack Value} (same : m.memory = memory)
    (shape : m.stack = (s.insert u).insert v) (known : f.apply memory u v = .ok w) :
    Computes env p m [.plain (.relation f)] 0 (.ok (s.insert w)) := by
  have done : Computes env p m _ _ _ := computes_relation f shape
  rw [same, known] at done
  exact done

/-- The test of a loop tells whether the counter is not past the limit in the direction of the step. -/
theorem testLoop {counter limit step : Nat} {n : Int} {last stride : Int16} (small : n.natAbs < 0x800000)
    (own : counter ≤ maxPointer) (own' : limit ≤ maxPointer) (own'' : step ≤ maxPointer)
    (held : memory[counter]? = some (.ofInt n)) (held' : memory[limit]? = some (.integer last))
    (held'' : memory[step]? = some (.integer stride)) :
    Gives env p memory (Command.testLoopCode (.cell counter) limit step) 3
      (.ofBool (!sameSide (compare n last.toInt) (compare stride.toInt 0))) := by
  have product (o o' : Ordering) : Binary.multiply.apply (.integer (Value.sign o)) (.integer (Value.sign o')) =
      .ok (.integer (Value.sign o * Value.sign o')) := by cases o <;> cases o' <;> decide
  have differs (o o' : Ordering) :
      Relation.notEqual.apply memory (.integer (Value.sign o * Value.sign o')) (.integer 1) =
        .ok (.ofBool (!sameSide o o')) := by cases o <;> cases o' <;> rfl
  have side : Gives env p memory [.pointer .load counter, .pointer .load limit, .plain .cmp] 2
      (.integer (Value.sign (compare n last.toInt))) :=
    (load own held).operation (load own' held') (fun _ _ same shape => cmp same shape (Value.rank_ofInt memory small last))
      (by decide) (by decide) (by decide)
  have way : Gives env p memory [.pointer .load step, .short .pushI 0, .plain .cmp] 2
      (.integer (Value.sign (compare stride.toInt 0))) :=
    (load own'' held'').operation (pushI 0) (fun _ _ same shape => cmp same shape (Value.rank_of_order rfl)) (by decide)
      (by decide) (by decide)
  have both : Gives env p memory _ 3 _ :=
    side.operation way (fun _ _ _ shape => binary shape (product _ _)) (by decide) (by decide) (by decide)
  exact both.operation (pushI 1) (fun _ _ same shape => relation same shape (differs _ _)) (by decide) (by decide)
    (by decide)

/-- What NEXT adds up. -/
theorem increment {counter step : Nat} {n stride : Int16} (own : counter ≤ maxPointer) (own' : step ≤ maxPointer)
    (held : memory[counter]? = some (.integer n)) (held' : memory[step]? = some (.integer stride)) :
    Gives env p memory [.pointer .load counter, .pointer .load step, .plain (.binary .add)] 2
      (.ofInt (n.toInt + stride.toInt)) :=
  (load own held).operation (load own' held') (fun _ _ _ shape => binary shape rfl) (by decide) (by decide) (by decide)

end Gives

section
variable {m : Machine} {stack : Stack Value} {next : Nat} {n : Int16}

theorem moves_jz {b : Bool} (found : p.instructionAt m.pc = .ok (.short .jz n, next))
    (shape : m.stack = stack.insert (.ofBool b)) :
    Moves env p m { m.past next with stack, pc := if b then next else Action.jumpAddress n } := by
  refine moves_of_effect found rfl ?_ rfl
  rw [Action.effect, Action.shortEffect, run_bind_ok (Action.pop_eq (m := m.past next) shape), isTrue_ofBool]
  cases b <;> rfl

theorem moves_jmp (found : p.instructionAt m.pc = .ok (.short .jmp n, next)) :
    Moves env p m { m.past next with pc := Action.jumpAddress n } :=
  moves_of_effect found rfl rfl rfl

theorem moves_store {address : Nat} (found : p.instructionAt m.pc = .ok (.pointer .store address, next))
    (inside : address < m.memory.size) (shape : m.stack = stack.insert v) :
    Moves env p m { m.past next with stack, memory := m.memory.setIfInBounds address v } :=
  moves_of_effect found rfl (Action.store_eq_ok (m := m.past next) inside shape) rfl

/-- Code that gives a value is gone through from its first instruction to its last. -/
theorem Gives.roves {code : Code} {room : Nat} {through : Nat → Prop} (h : Gives env p m.memory code room v)
    (shifts : code.all (·.shift.isSome) = true) (lies : p.HasCode m.pc code)
    (enough : m.stack.size + room ≤ m.stack.limit) (within : ∀ x, m.pc ≤ x → x < m.pc + code.size → through x) :
    Roves env p through m (m.after code (m.stack.insert v)) := by
  rcases (h.computes m rfl).outcome lies with reaches | ⟨full, -⟩
  · exact .of_reaches shifts lies reaches within
  · omega

/-- Code that gives yes or no, and a jump that depends on it. -/
theorem Gives.roves_jz {code : Code} {room : Nat} {b : Bool} {through : Nat → Prop}
    (h : Gives env p m.memory code room (.ofBool b)) (shifts : code.all (·.shift.isSome) = true)
    (lies : p.HasCode m.pc code) (enough : m.stack.size + room ≤ m.stack.limit)
    (found : p.instructionAt (m.pc + code.size) = .ok (.short .jz n, m.pc + code.size + 3))
    (within : ∀ x, m.pc ≤ x → x < m.pc + code.size + 3 → through x) :
    Roves env p through m { m with
      pc := if b then m.pc + code.size + 3 else Action.jumpAddress n, clock := m.clock + code.length + 1 } := by
  have tested := h.roves shifts lies enough fun x above below => within x above (Nat.lt_add_right 3 below)
  have jump : Moves env p (m.after code (m.stack.insert (.ofBool b))) _ := moves_jz found rfl
  exact tested.trans (.single (within _ (Nat.le_add_right _ _) (Nat.lt_add_of_pos_right (by decide))) jump)

end

end Session

namespace Language

/-- The commands of FOR. -/
def loopHead (counter limit step : Nat) (top exit : Label) (initial final stride : Expr) : List Command :=
  [.assign (.scalar (.cell counter)) initial, .assign (.scalar (.cell limit)) final,
    .assign (.scalar (.cell step)) stride, .mark top, .testLoop (.cell counter) limit step exit]

/-- The commands of NEXT. -/
def loopFoot (counter step : Nat) (top exit : Label) : List Command :=
  [.assign (.scalar (.cell counter)) (.binary .plus (.variable (.cell counter)) (.variable (.cell step))),
    .jump top, .mark exit]

namespace Parser

theorem openLoop_eq_ok {name : String} {slot : Slot} {limit step : Nat} {stride : Expr} {c c' : Context} {u : Unit}
    (ran : openLoop name slot limit step stride c = .ok (u, c')) :
    ∃ top exit line, c'.rest = c.rest ∧ c.Within c' ∧ c'.forLoops = ⟨name, slot, step, top, exit, line⟩ :: c.forLoops ∧
      c'.commands = .testLoop slot limit step exit :: .mark top :: .assign (.scalar (.cell step)) stride :: c.commands := by
  rw [openLoop, emit_bind, freshLabel_bind, emit_bind, freshLabel_bind, emit_bind] at ran
  cases c
  cases ran
  exact ⟨_, _, _, rfl, ⟨Nat.le_refl _, List.suffix_refl _, List.suffix_refl _, List.suffix_refl _, ⟨[_, _, _], rfl⟩,
    fun _ h => h.labelling.labelling, rfl⟩, rfl, rfl⟩

/-- The tokens of FOR behind its word, and what they stand for. A loop without STEP counts by 1. -/
inductive LoopWords (last : Context) (name : String) (initial final : Expr) : Expr → List Token → Prop
  | one {ts us : List Token} (first : Wording last [] [initial] ts) (second : Wording last [] [final] us) :
      LoopWords last name initial final (.integer 1) (.ident name :: .operator .equal :: (ts ++ .word .TO :: us))
  | step {stride : Expr} {ts us vs : List Token} (first : Wording last [] [initial] ts) (second : Wording last [] [final] us)
      (third : Wording last [] [stride] vs) : LoopWords last name initial final stride
        (.ident name :: .operator .equal :: (ts ++ .word .TO :: (us ++ .word .STEP :: vs)))

/-- A loop was opened: the tokens of FOR, the commands that it has made, the newest first, and what it leaves for NEXT. -/
inductive Opened (c c' : Context) : Prop
  | intro (loop : ForLoop) (limit : Nat) (initial final stride : Expr) (ts : List Token) (tokens : c.rest = ts ++ c'.rest)
      (words : ∀ last, c'.Within last → LoopWords last loop.name initial final stride ts)
      (loops : c'.forLoops = loop :: c.forLoops)
      (commands : c'.commands = .testLoop loop.slot limit loop.step loop.exit :: .mark loop.top ::
        .assign (.scalar (.cell loop.step)) stride :: .assign (.scalar (.cell limit)) final ::
        .assign (.scalar loop.slot) initial :: c.commands)

theorem simple_takes {name : String} {slot : Slot} {c c' : Context} (root : c.scopes.inner = [])
    (ran : simple name c = .ok (slot, c')) : c.Takes [] c' := by
  rw [simple, peek_bind] at ran
  split at ran
  · exact absurd ran unexpected_bind_ne_ok
  · exact (resolve_takes (root ▸ Scoped.root) ran).1

theorem forLoop_eq_ok {fuel : Nat} {c c' : Context} {u : Unit} (root : c.scopes.inner = [])
    (ran : forLoop fuel c = .ok (u, c')) : Opened c c' := by
  have reads {d d' : Context} {e : Expr} (same : d.scopes.inner = []) (read : expression fuel 0 d = .ok (e, d')) :
      WroteAll [] [e] d d' := ((readsWords [] fuel).expression readBy_zero (same ▸ Scoped.root) read).all
  obtain ⟨name, c₁, named, ran⟩ := bind_eq_ok.mp ran
  obtain ⟨first, rfl⟩ := identifier_eq_ok.mp named
  obtain ⟨slot, c₂, resolved, ran⟩ := bind_eq_ok.mp ran
  obtain ⟨_, c₃, expected, ran⟩ := bind_eq_ok.mp ran
  obtain ⟨equals, rfl⟩ := expect_eq_ok.mp expected
  obtain ⟨initial, c₄, read, ran⟩ := bind_eq_ok.mp ran
  have front := (Context.Takes.past first).trans ((simple_takes (c := c.past) root resolved).trans (.past equals))
  obtain ⟨ts, takes, words⟩ := reads (front.inner.trans root) read
  have upTo := front.trans takes
  rw [emit_bind] at ran
  obtain ⟨_, c₅, expected, ran⟩ := bind_eq_ok.mp ran
  obtain ⟨limits, rfl⟩ := expect_eq_ok.mp expected
  rw [allocate_bind, allocate_bind] at ran
  obtain ⟨final, c₆, read, ran⟩ := bind_eq_ok.mp ran
  have front' := (Context.Takes.past limits).trans ((Context.Takes.allocating _ 1).trans (.allocating _ 1))
  obtain ⟨us, takes', words'⟩ := reads (front'.inner.trans (upTo.inner.trans root)) read
  have upTo' := front'.trans takes'
  rw [emit_bind, accept_bind] at ran
  -- The limit and the step have their cells before the limit is read.
  have opened {stride : Expr} {vs : List Token} {d : Context}
      (takes'' : (c₆.emitting (.assign (.scalar (.cell c₄.scopes.highWater)) final)).Takes vs d)
      (words'' : ∀ last, c₄.Within last → c₆.Within last → d.Within last →
        LoopWords last name initial final stride (.ident name :: .operator .equal :: (ts ++ .word .TO :: (us ++ vs))))
      (ran : openLoop name slot c₄.scopes.highWater (c₄.allocating 1).scopes.highWater stride d = .ok (u, c')) :
      Opened c c' := by
    obtain ⟨top, exit, line, rest, within, loops, commands⟩ := openLoop_eq_ok ran
    refine ⟨⟨name, slot, (c₄.allocating 1).scopes.highWater, top, exit, line⟩, c₄.scopes.highWater, initial, final, stride,
      .ident name :: .operator .equal :: (ts ++ .word .TO :: (us ++ vs)), ?_, fun last inside => ?_, ?_, ?_⟩
    · have middle : c₄.rest = .word .TO :: (us ++ c₆.rest) := upTo'.rest
      have later : c₆.rest = vs ++ d.rest := takes''.rest
      rw [upTo.rest, middle, later, rest]
      simp
    · have behind := within.trans inside
      have before := (Context.Within.emitting c₆ _).trans (takes''.within.trans behind)
      exact words'' last ((Context.Within.emitting c₄ _).trans (upTo'.within.trans before)) before behind
    · rw [loops, takes''.forLoops]
      exact congrArg _ (upTo'.forLoops.trans upTo.forLoops)
    · rw [commands, takes''.commands, Context.emitting, upTo'.commands, Context.emitting, upTo.commands]
  split at ran
  · next step =>
    obtain ⟨stride, c₈, read, ran⟩ := bind_eq_ok.mp ran
    obtain ⟨vs, takes'', words''⟩ := reads (d := (c₆.emitting _).past) (upTo'.inner.trans (upTo.inner.trans root)) read
    exact opened ((Context.Takes.past step).trans takes'') (fun last in₁ in₂ in₃ =>
      .step (words last in₁) (words' last in₂) (words'' last in₃)) ran
  · refine opened (.refl _) (fun last in₁ in₂ _ => ?_) ran
    rw [List.append_nil]
    exact .one (words last in₁) (words' last in₂)

end Parser

/-- The world with another value in a cell. -/
def World.keeping {σ : Type} (w : World σ) (x : Nat) (v : Value) : World σ :=
  { w with memory := w.memory.setIfInBounds x v }

/-- The counter has not passed the limit after so many steps. -/
def Within (first last stride : Int) (i : Nat) : Prop :=
  (0 < stride → first + i * stride ≤ last) ∧ (stride < 0 → last ≤ first + i * stride)

namespace Within

variable {first last stride : Int16} {i : Nat}

/-- That is what the test asks. -/
theorem iff_sameSide (moves : stride ≠ 0) : Within first.toInt last.toInt stride.toInt i ↔
    sameSide (compare (first.toInt + i * stride.toInt) last.toInt) (compare stride.toInt 0) = false := by
  have nonzero : stride.toInt ≠ 0 := fun zero => moves (Int16.toInt_inj.mp zero)
  unfold Within
  generalize first.toInt + i * stride.toInt = n
  rcases Int.lt_or_gt_of_ne nonzero with down | up
  · rw [Int.compare_eq_lt.mpr down, sameSide_lt, Ne, Int.compare_eq_lt]
    omega
  · rw [Int.compare_eq_gt.mpr up, sameSide_gt, Ne, Int.compare_eq_gt]
    omega

/-- Up to the limit, the counter lies between the first value and the last. -/
theorem between (h : Within first.toInt last.toInt stride.toInt i) (moves : stride ≠ 0) :
    first.toInt + i * stride.toInt ≤ max first.toInt last.toInt ∧
      min first.toInt last.toInt ≤ first.toInt + i * stride.toInt := by
  have nonzero : stride.toInt ≠ 0 := fun zero => moves (Int16.toInt_inj.mp zero)
  obtain ⟨up, down⟩ := h
  rcases Int.lt_or_gt_of_ne nonzero with less | more
  · have := Int.mul_nonpos_of_nonneg_of_nonpos (Int.natCast_nonneg i) (Int.le_of_lt less)
    have := down less
    omega
  · have := Int.mul_nonneg (Int.natCast_nonneg i) (Int.le_of_lt more)
    have := up more
    omega

/-- A counter up to the limit has 16 bits. -/
theorem fits (h : Within first.toInt last.toInt stride.toInt i) (moves : stride ≠ 0) :
    Value.fits16 (first.toInt + i * stride.toInt) = true := by
  have := h.between moves
  have := Value.bounds first
  have := Value.bounds last
  rw [Value.fits16, Bool.and_eq_true, decide_eq_true_eq, decide_eq_true_eq]
  omega

/-- One step past the limit, the counter is still a small number. -/
theorem small (moves : stride ≠ 0) (h : ∀ j < i, Within first.toInt last.toInt stride.toInt j) :
    (first.toInt + i * stride.toInt).natAbs < 0x800000 := by
  have := Value.bounds first
  have := Value.bounds last
  have := Value.bounds stride
  cases i with
  | zero => omega
  | succ j =>
    have := (h j (Nat.lt_succ_self j)).between moves
    rw [Int.natCast_succ, Int.add_mul, Int.one_mul]
    omega

/-- The counter passes the limit some time. -/
theorem exists_count (moves : stride ≠ 0) :
    ∃ count, ∀ i, i < count ↔ ∀ j ≤ i, Within first.toInt last.toInt stride.toInt j := by
  classical
  have passes : ∃ i, ¬ Within first.toInt last.toInt stride.toInt i := by
    refine ⟨0x10000, fun within => ?_⟩
    have := within.between moves
    have nonzero : stride.toInt ≠ 0 := fun zero => moves (Int16.toInt_inj.mp zero)
    have := Value.bounds first
    have := Value.bounds last
    omega
  refine ⟨Nat.find passes, fun i => ?_⟩
  rw [Nat.lt_find_iff]
  simp only [not_not]

end Within

namespace World

variable {σ : Type} (w : World σ) {x y : Nat} (v : Value)

@[simp] theorem size_keeping (x : Nat) : (w.keeping x v).memory.size = w.memory.size := Array.size_setIfInBounds

theorem keeping_self (inside : x < w.memory.size) : (w.keeping x v).memory[x]? = some v :=
  Array.getElem?_setIfInBounds_self_of_lt inside

theorem keeping_other (other : y ≠ x) : (w.keeping x v).memory[y]? = w.memory[y]? :=
  Array.getElem?_setIfInBounds_ne other.symm

end World

namespace Compilation

variable {source : String} {p : Program} {k : Compilation source p}

variable (k) in
/-- An assignment leads to the next command. -/
theorem assigns_on (fits : k.last.scopes.highWater ≤ maxPointer + 1) {before after : List Command} {x : Nat} {e : Expr}
    (split : k.last.program = before ++ .assign (.scalar (.cell x)) e :: after) :
    ∃ need, ∀ {σ : Type} (env : Environment σ) depth room (s : Session σ) v w, need ≤ depth →
      s.Stationed (codeSize before) room → need ≤ room → k.last.scopes.highWater ≤ s.machine.memory.size →
      e.eval env.host (k.last.apply env.host depth) [] s.world = .ok v w →
      s.world.Keeps (k.last.Uses (Steps.called e.code)) w ∧
        ∃ n t, Session.Goes env p n s t ∧ t.Stationed (codeSize (before ++ [.assign (.scalar (.cell x)) e])) room ∧
          t.world = w.keeping x v ∧ t.machine.stack = s.machine.stack ∧ t.machine.calls = s.machine.calls := by
  obtain ⟨need, assigns⟩ := k.assigns fits split
  refine ⟨need, fun env depth room s v w deep stationed enough size value => ?_⟩
  have less : s.Stationed (codeSize before) need := by
    have values := stationed.values
    have calls := stationed.calls
    exact ⟨stationed.pc, stationed.off, by omega, by omega⟩
  obtain ⟨keeps, a, idx, n, clock, goes⟩ := assigns env depth s v w deep less size value
  refine ⟨keeps, n, _, goes, ⟨?_, stationed.off, stationed.values, stationed.calls⟩, rfl, rfl, rfl⟩
  rw [codeSize_append, codeSize_cons, codeSize_nil, ← stationed.pc]
  rfl

/-- A loop of the program: the commands of its FOR, of its body and of its NEXT. -/
structure Loop (k : Compilation source p) where
  name : String
  counter : Nat
  limit : Nat
  step : Nat
  top : Label
  exit : Label
  initial : Expr
  final : Expr
  stride : Expr
  before : List Command
  body : List Command
  after : List Command
  named : (name, counter) ∈ k.last.scopes.root.names
  split : k.last.program = before ++ (loopHead counter limit step top exit initial final stride ++
    (body ++ (loopFoot counter step top exit ++ after)))

/-- A FOR statement opens a loop that some NEXT closes, and its expressions are those of the statement. -/
theorem exists_loop {c₁ c₂ : Context} (h : k.Statement c₁ c₂) (begins : c₁.rest.head? = some (.word .FOR)) :
    ∃ loop : k.Loop, codeSize loop.before = c₁.place ∧ ∃ ts, c₁.rest = .word .FOR :: (ts ++ c₂.rest) ∧
      Parser.LoopWords k.last loop.name loop.initial loop.final loop.stride ts := by
  obtain ⟨settled, proceeds, inside, -⟩ := k.settled_statement h
  obtain ⟨fuel, ran, starts, root⟩ := k.keyword_statement h begins
  have opened : Parser.Opened c₁.past c₂ := Parser.forLoop_eq_ok root ran
  obtain ⟨loop, limit, initial, final, stride, ts, tokens, words, loops, commands⟩ := opened
  obtain ⟨_, orderly, -⟩ := proceeds.settled inside settled
  have placed := orderly.loops loop (loops ▸ List.mem_cons_self)
  obtain ⟨name, slot, step, top, exit, line⟩ := loop
  cases placed.slot with
  | place offset some => exact absurd rfl some
  | @cell counter own =>
    obtain ⟨closing, d, d', closed, same, ⟨body, earlier⟩, ⟨after, later⟩⟩ := k.closes h loops
    obtain ⟨other, outer, innermost, -, rfl⟩ := Parser.closeLoop_eq_ok closed
    cases same.symm.trans innermost
    refine ⟨⟨name, counter, limit, step, top, exit, initial, final, stride, c₁.commands.reverse, body.reverse,
      (.halt :: after).reverse, own, ?_⟩, rfl, ts, by rw [starts, tokens], words _ inside⟩
    rw [Context.program, ← later]
    simp only [Context.emitting, ← earlier, commands, Context.past, loopHead, loopFoot]
    simp

namespace Loop

variable (loop : k.Loop)

def testing : Command := .testLoop (.cell loop.counter) loop.limit loop.step loop.exit

def counting : Command :=
  .assign (.scalar (.cell loop.counter)) (.binary .plus (.variable (.cell loop.counter)) (.variable (.cell loop.step)))

/-- The commands up to the test. -/
def upToTest : List Command :=
  loop.before ++ ([.assign (.scalar (.cell loop.counter)) loop.initial, .assign (.scalar (.cell loop.limit)) loop.final,
    .assign (.scalar (.cell loop.step)) loop.stride] : List Command)

/-- The commands up to NEXT. -/
def upToNext : List Command := loop.upToTest ++ Command.mark loop.top :: loop.testing :: loop.body

/-- The address of FOR. -/
def opening : Nat := codeSize loop.before

/-- The address of the test. -/
def test : Nat := codeSize loop.upToTest

/-- The address of the body. -/
def inside : Nat := loop.test + loop.testing.size

/-- The address of NEXT. -/
def closing : Nat := codeSize loop.upToNext

/-- The address behind NEXT. -/
def behind : Nat := loop.closing + loop.counting.size + 3

/-- The address is one of the test. -/
def Tests (x : Nat) : Prop := loop.test ≤ x ∧ x < loop.inside

/-- The address is one of NEXT. -/
def Counts (x : Nat) : Prop := loop.closing ≤ x ∧ x < loop.behind

theorem split_top : k.last.program = loop.upToTest ++ Command.mark loop.top ::
    (loop.testing :: (loop.body ++ (loopFoot loop.counter loop.step loop.top loop.exit ++ loop.after))) := by
  rw [loop.split, upToTest, loopHead]
  simp [testing]

theorem split_test : k.last.program = (loop.upToTest ++ [Command.mark loop.top]) ++ loop.testing ::
    (loop.body ++ (loopFoot loop.counter loop.step loop.top loop.exit ++ loop.after)) := by
  rw [loop.split_top]
  simp

theorem split_next : k.last.program = loop.upToNext ++ loop.counting :: .jump loop.top :: .mark loop.exit :: loop.after := by
  rw [loop.split_top, upToNext, loopFoot]
  simp [counting]

theorem split_jump : k.last.program =
    (loop.upToNext ++ [loop.counting]) ++ Command.jump loop.top :: .mark loop.exit :: loop.after := by
  rw [loop.split_next]
  simp

theorem split_exit : k.last.program =
    (loop.upToNext ++ [loop.counting, Command.jump loop.top]) ++ .mark loop.exit :: loop.after := by
  rw [loop.split_next]
  simp

/-- An empty body ends where it starts. -/
theorem closing_of_nil (none : loop.body = []) : loop.closing = loop.inside := by
  rw [closing, upToNext, none, codeSize_append, codeSize_cons, codeSize_cons, codeSize_nil]
  exact congrArg (_ + ·) (Nat.zero_add _)

theorem address_top : k.last.address loop.top = loop.test := by
  have there : .jump loop.top ∈ k.last.program := by rw [loop.split_jump]; simp
  exact k.address_eq loop.split_top ((k.finished.fine there).aims _ (List.mem_singleton.mpr rfl))

theorem address_exit : k.last.address loop.exit = loop.behind := by
  have there : loop.testing ∈ k.last.program := by rw [loop.split_test]; simp
  rw [k.address_eq loop.split_exit ((k.finished.fine there).aims _ (List.mem_singleton.mpr rfl))]
  rw [codeSize_append, codeSize_cons, codeSize_cons, codeSize_nil, behind, closing, Nat.add_assoc]
  rfl

/-- The counter, the limit and the step have a cell each, which no function uses. -/
structure Cells : Prop where
  counter : loop.counter < k.last.scopes.highWater
  limit : loop.limit < k.last.scopes.highWater
  step : loop.step < k.last.scopes.highWater
  counter_limit : loop.counter ≠ loop.limit
  counter_step : loop.counter ≠ loop.step
  limit_step : loop.limit ≠ loop.step
  unused : ∀ names, ∀ x ∈ [loop.counter, loop.limit, loop.step], ¬ k.last.Uses names x

/-- The statement keeps two cells. -/
theorem temporaries_eq : ∃ newer older, temporaries k.last.commands =
    newer ++ ⟨loop.step, 1⟩ :: ⟨loop.limit, 1⟩ :: older := by
  have there := Context.program_eq_iff.mp loop.split_test
  generalize (loop.upToTest ++ [Command.mark loop.top]).reverse = before at there
  generalize List.reverse _ = after at there
  cases after with
  | nil => cases there
  | cons last after =>
    have commands : k.last.commands = after ++ loop.testing :: before := (List.cons.inj there).2
    obtain ⟨newer, same⟩ := temporaries_suffix (List.suffix_append after (loop.testing :: before))
    exact ⟨newer, temporaries before, commands ▸ same.symm⟩

theorem cells : loop.Cells := by
  obtain ⟨newer, older, kept⟩ := loop.temporaries_eq
  have orderly := k.finished.settled.whole.1
  have counter : ⟨loop.counter, 1⟩ ∈ k.last.tables := List.mem_append_left _ (List.mem_map.mpr ⟨_, loop.named, rfl⟩)
  have step : ⟨loop.step, 1⟩ ∈ temporaries k.last.commands := by rw [kept]; simp
  have limit : ⟨loop.limit, 1⟩ ∈ temporaries k.last.commands := by rw [kept]; simp
  have among {b : Block} (member : b ∈ temporaries k.last.commands) :
      b ∈ frames k.last.commands ++ temporaries k.last.commands := List.mem_append_right _ member
  obtain ⟨-, others, apart⟩ := List.pairwise_append.mp k.finished.apart
  have both : Block.Apart ⟨loop.step, 1⟩ ⟨loop.limit, 1⟩ := by
    have own := (List.pairwise_append.mp others).2.1
    rw [kept] at own
    exact (List.pairwise_cons.mp (List.pairwise_append.mp own).2.1).1 _ List.mem_cons_self
  have ne {x y : Nat} (apart : Block.Apart ⟨x, 1⟩ ⟨y, 1⟩) : x ≠ y := by
    rintro rfl
    rcases apart with apart | apart <;> dsimp only at apart <;> omega
  have here (x : Nat) : Block.Has ⟨x, 1⟩ x := ⟨Nat.le_refl x, Nat.lt_succ_self x⟩
  refine ⟨(orderly.inside (List.mem_append_left _ counter)).2, (orderly.inside (List.mem_append_right _ (among limit))).2,
    (orderly.inside (List.mem_append_right _ (among step))).2, ne (apart _ counter _ (among limit)),
    ne (apart _ counter _ (among step)), (ne both).symm, fun names x member => ?_⟩
  simp only [List.mem_cons, List.not_mem_nil, or_false] at member
  rcases member with rfl | rfl | rfl
  · exact k.finished.not_uses_of_block (.inl counter) (here _) names
  · exact k.finished.not_uses_of_block (.inr limit) (here _) names
  · exact k.finished.not_uses_of_block (.inr step) (here _) names

section
variable {σ : Type} (env : Environment σ) {m : Machine} {n : Int} {last stride : Int16}

/-- The test leads into the loop or behind it. -/
theorem roves_test (fits : k.last.scopes.highWater ≤ maxPointer + 1) (pc : m.pc = loop.test) (small : n.natAbs < 0x800000)
    (counter : m.memory[loop.counter]? = some (.ofInt n)) (limit : m.memory[loop.limit]? = some (.integer last))
    (step : m.memory[loop.step]? = some (.integer stride)) (room : m.stack.size + 3 ≤ m.stack.limit) :
    ∃ clock, Session.Roves env p loop.Tests m { m with
      pc := if !sameSide (compare n last.toInt) (compare stride.toInt 0) then loop.inside else loop.behind, clock } := by
  have cells := loop.cells
  have lies := k.finished.lies loop.split_test
  have start : codeSize (loop.upToTest ++ [Command.mark loop.top]) = m.pc := by
    rw [pc, codeSize_append]
    rfl
  rw [start] at lies
  let code := Command.testLoopCode (.cell loop.counter) loop.limit loop.step
  have parts : loop.testing.code = Steps.ofCode code ++ [.jump .jz loop.exit] := rfl
  have size : code.size = 22 := rfl
  have here := lies.code
  rw [parts] at here
  obtain ⟨first, second⟩ := Context.hasCode_append here
  rw [Steps.place_ofCode] at first
  have found := (Context.hasCode_cons second).1
  rw [Steps.size_ofCode, size] at found
  have gives : Session.Gives env p m.memory code 3 _ := .testLoop small (by have := cells.counter; omega)
    (by have := cells.limit; omega) (by have := cells.step; omega) counter limit step
  have next : m.pc + code.size + 3 = loop.inside := by
    rw [pc]
    rfl
  have goes := gives.roves_jz rfl first room found fun x above below => (⟨pc ▸ above, next ▸ below⟩ : loop.Tests x)
  rw [jumpAddress_jumpOperand ((k.finished.working fits).label _), loop.address_exit, next] at goes
  exact ⟨_, goes⟩

/-- NEXT adds the step to the counter and goes back to the test. -/
theorem roves_next (fits : k.last.scopes.highWater ≤ maxPointer + 1) {n : Int16} (pc : m.pc = loop.closing)
    (counter : m.memory[loop.counter]? = some (.integer n)) (step : m.memory[loop.step]? = some (.integer stride))
    (room : m.stack.size + 2 ≤ m.stack.limit) :
    ∃ clock, Session.Roves env p loop.Counts m { m with
      pc := loop.test, memory := m.memory.setIfInBounds loop.counter (.ofInt (n.toInt + stride.toInt)), clock } := by
  have cells := loop.cells
  have lies := (k.finished.lies loop.split_next).code
  have start : codeSize loop.upToNext = m.pc := pc.symm
  let code : Code := [.pointer .load loop.counter, .pointer .load loop.step, .plain (.binary .add)]
  have parts : loop.counting.code = Steps.ofCode (code ++ [.pointer .store loop.counter]) := rfl
  rw [parts, start, Steps.place_ofCode] at lies
  have size : code.size = 9 := rfl
  have found := lies.append.2.cons.1
  have small : loop.counter ≤ maxPointer := by have := cells.counter; omega
  rw [Evaluates.stored_pointer small] at found
  have gives : Session.Gives env p m.memory code 2 _ := .increment small (by have := cells.step; omega) counter step
  have stop : m.pc + 16 = loop.behind := by
    rw [pc]
    rfl
  have within (x : Nat) (above : m.pc ≤ x) (below : x < m.pc + 16) : loop.Counts x := ⟨pc ▸ above, stop ▸ below⟩
  have added := gives.roves rfl lies.append.1 room fun x above below => within x above (by omega)
  obtain ⟨inside, -⟩ := Array.getElem?_eq_some_iff.mp counter
  let sum : Value := .ofInt (n.toInt + stride.toInt)
  have stored : Session.Moves env p (m.after code (m.stack.insert sum)) _ := Session.moves_store found inside rfl
  have jump := (k.finished.lies loop.split_jump).code
  have place : codeSize (loop.upToNext ++ [loop.counting]) = m.pc + 13 := by
    rw [codeSize_append, start]
    rfl
  rw [place] at jump
  have back : Session.Moves env p { m with
      pc := m.pc + 13, memory := m.memory.setIfInBounds loop.counter sum, clock := m.clock + 4 } _ :=
    Session.moves_jmp (Context.hasCode_cons jump).1
  rw [jumpAddress_jumpOperand ((k.finished.working fits).label _), loop.address_top] at back
  refine ⟨_, added.trans (.trans (.single (within _ (Nat.le_add_right _ _) ?_) stored) (.single (within _ ?_ ?_) back))⟩
  · exact Nat.add_lt_add_left (by decide : 9 < 16) _
  · exact Nat.le_add_right m.pc 13
  · exact Nat.add_lt_add_left (by decide : 13 < 16) _

end

section
variable {σ : Type}

/-- A machine that runs the program is at FOR, with room for so many values and return addresses. -/
structure Begins (room : Nat) (s : Session σ) : Prop where
  stationed : s.Stationed loop.opening room
  engaged : k.last.Engaged p k.values s.machine
  size : p.staticSize ≤ s.machine.memory.size

/-- The values of FOR, one after the other: each is kept before the next is known. -/
inductive Ranges (env : Environment σ) (depth : Nat) (first last stride : Int16) (w : World σ) : World σ → Prop
  | intro {w₁ w₂ w₃ : World σ}
      (initial : loop.initial.eval env.host (k.last.apply env.host depth) [] w = .ok (.integer first) w₁)
      (final : loop.final.eval env.host (k.last.apply env.host depth) [] (w₁.keeping loop.counter (.integer first)) =
        .ok (.integer last) w₂)
      (step : loop.stride.eval env.host (k.last.apply env.host depth) [] (w₂.keeping loop.limit (.integer last)) =
        .ok (.integer stride) w₃) :
      Ranges env depth first last stride w (w₃.keeping loop.step (.integer stride))

/-- The loop has come to its test with these values, and nothing else than the world has changed. -/
structure Opened (first last stride : Int16) (w : World σ) (s t : Session σ) : Prop where
  pc : t.machine.pc = loop.test
  world : t.world = w
  stack : t.machine.stack = s.machine.stack
  calls : t.machine.calls = s.machine.calls
  counter : t.machine.memory[loop.counter]? = some (.integer first)
  limit : t.machine.memory[loop.limit]? = some (.integer last)
  step : t.machine.memory[loop.step]? = some (.integer stride)

/-- The body is done: it has come to NEXT on a way of its own, and has left the counter, the limit and the step alone. -/
structure BodyDone (env : Environment σ) (s t : Session σ) : Prop where
  travels : Session.Travels env p (fun x => ¬ loop.Tests x ∧ ¬ loop.Counts x) s t
  pc : t.machine.pc = loop.closing
  cells : ∀ x ∈ [loop.counter, loop.limit, loop.step], t.machine.memory[x]? = s.machine.memory[x]?

/-- From a session at the test, so many passes lead to another one: the test leads to the body, with the counter as it
should be, the body comes to NEXT, and NEXT leads back. -/
inductive Passes (env : Environment σ) (first stride : Int16) (s : Session σ) : Nat → Session σ → Prop
  | none : Passes env first stride s 0 s
  | more {i : Nat} {n : Int16} {t b e t' : Session σ} (before : Passes env first stride s i t)
      (enters : Session.Travels env p loop.Tests t b) (body : b.machine.pc = loop.inside)
      (counter : b.machine.memory[loop.counter]? = some (.integer n)) (value : n.toInt = first.toInt + i * stride.toInt)
      (done : loop.BodyDone env b e) (returns : Session.Travels env p loop.Counts e t') (test : t'.machine.pc = loop.test) :
      Passes env first stride s (i + 1) t'

/-- Every pass that begins has its body done. -/
def Completes (env : Environment σ) (first stride : Int16) (s : Session σ) : Prop :=
  ∀ i t b, loop.Passes env first stride s i t → Session.Travels env p loop.Tests t b → b.machine.pc = loop.inside →
    ∃ e, loop.BodyDone env b e

/-- The loop is left. -/
structure Left (env : Environment σ) (n : Int) (s t u : Session σ) : Prop where
  travels : Session.Travels env p loop.Tests t u
  pc : u.machine.pc = loop.behind
  stack : u.machine.stack = s.machine.stack
  counter : u.machine.memory[loop.counter]? = some (.ofInt n)

end

section
variable {σ : Type} {env : Environment σ} {s t b e u : Session σ} {w : World σ} {first last stride : Int16} {i : Nat}

/-- FOR sets the counter and keeps the limit and the step. -/
theorem exists_opened (fits : k.last.scopes.highWater ≤ maxPointer + 1) :
    ∃ room, ∀ {σ : Type} (env : Environment σ) depth (s : Session σ) w first last stride, room ≤ depth →
      s.Stationed loop.opening room → k.last.scopes.highWater ≤ s.machine.memory.size →
      loop.Ranges env depth first last stride s.world w →
      ∃ n t, Session.Goes env p n s t ∧ loop.Opened first last stride w s t := by
  have cells := loop.cells
  let setting : Command := .assign (.scalar (.cell loop.counter)) loop.initial
  let limiting : Command := .assign (.scalar (.cell loop.limit)) loop.final
  let stepping : Command := .assign (.scalar (.cell loop.step)) loop.stride
  have second : ∃ after, k.last.program = (loop.before ++ [setting]) ++ limiting :: after :=
    ⟨stepping :: _, by rw [loop.split, List.append_assoc]; rfl⟩
  have third : ∃ after, k.last.program = (loop.before ++ [setting] ++ [limiting]) ++ stepping :: after :=
    ⟨.mark loop.top :: _, by rw [loop.split, List.append_assoc, List.append_assoc]; rfl⟩
  obtain ⟨_, second⟩ := second
  obtain ⟨_, third⟩ := third
  obtain ⟨room, sets⟩ := k.assigns_on fits (loop.split : k.last.program = loop.before ++ setting :: _)
  obtain ⟨room', limits⟩ := k.assigns_on fits second
  obtain ⟨room'', steps⟩ := k.assigns_on fits third
  refine ⟨max room (max room' room''), fun env depth s w first last stride deep stationed size ranges => ?_⟩
  obtain ⟨initial, final, step⟩ := ranges
  rename_i w₁ w₂ w₃
  obtain ⟨keeps, n, s₁, goes, at₁, world₁, stack₁, calls₁⟩ :=
    sets env depth _ s _ _ (by omega) stationed (by omega) size initial
  have size₁ : s₁.machine.memory.size = s.machine.memory.size :=
    (congrArg (·.memory.size) world₁).trans ((w₁.size_keeping _ _).trans keeps.size)
  obtain ⟨keeps', n', s₂, goes', at₂, world₂, stack₂, calls₂⟩ :=
    limits env depth _ s₁ _ _ (by omega) at₁ (by omega) (by omega) (world₁ ▸ final)
  have size₂ : s₂.machine.memory.size = s₁.machine.memory.size :=
    (congrArg (·.memory.size) world₂).trans ((w₂.size_keeping _ _).trans keeps'.size)
  obtain ⟨keeps'', n'', t, goes'', at₃, world₃, stack₃, calls₃⟩ :=
    steps env depth _ s₂ _ _ (by omega) at₂ (by omega) (by omega) (world₂ ▸ step)
  have memory : t.machine.memory = (w₃.keeping loop.step (.integer stride)).memory := congrArg (·.memory) world₃
  have := cells.counter
  have := cells.limit
  have := cells.step
  have size₃ : w₁.memory.size = s.machine.memory.size := keeps.size
  have size₄ : w₂.memory.size = s₁.machine.memory.size := keeps'.size
  have size₅ : w₃.memory.size = s₂.machine.memory.size := keeps''.size
  refine ⟨n + (n' + n''), t, goes.trans (goes'.trans goes''), ?_, world₃, stack₃.trans (stack₂.trans stack₁),
    calls₃.trans (calls₂.trans calls₁), ?_, ?_, ?_⟩
  · rw [at₃.pc, test, upToTest]
    simp [setting, limiting]
  · rw [memory, World.keeping_other _ _ cells.counter_step, keeps''.memory _ (cells.unused _ _ (by simp)), world₂,
      World.keeping_other _ _ cells.counter_limit, keeps'.memory _ (cells.unused _ _ (by simp)), world₁,
      World.keeping_self _ _ (by omega)]
  · rw [memory, World.keeping_other _ _ cells.limit_step, keeps''.memory _ (cells.unused _ _ (by simp)), world₂,
      World.keeping_self _ _ (by omega)]
  · rw [memory, World.keeping_self _ _ (by omega)]

/-- Between two passes: the machine is at the test, and the counter has been counted up so many times. -/
structure Stage (first last stride : Int16) (s : Session σ) (i : Nat) (t : Session σ) : Prop where
  pc : t.machine.pc = loop.test
  engaged : k.last.Engaged p k.values t.machine
  frame : t.machine.frame = s.machine.frame
  counter : t.machine.memory[loop.counter]? = some (.ofInt (first.toInt + i * stride.toInt))
  limit : t.machine.memory[loop.limit]? = some (.integer last)
  step : t.machine.memory[loop.step]? = some (.integer stride)

theorem opens_opening : k.last.Opens loop.opening := ⟨_, .intro loop.split rfl fun _ mark => by cases mark⟩

theorem opens_test : k.last.Opens loop.test := by
  have stands : k.last.Stands _ loop.testing := .intro loop.split_test rfl fun _ mark => by cases mark
  rw [codeSize_append] at stands
  exact ⟨_, stands⟩

theorem opens_closing : k.last.Opens loop.closing := ⟨_, .intro loop.split_next rfl fun _ mark => by cases mark⟩

variable {loop}

/-- The stack is empty at the start of a command. -/
theorem stack_eq {m m' : Machine} (engaged : k.last.Engaged p k.values m) (engaged' : k.last.Engaged p k.values m')
    (opens : k.last.Opens m.pc) (opens' : k.last.Opens m'.pc) (frame : m'.frame = m.frame) :
    m'.stack = m.stack ∧ m.stack.size = 0 := by
  have empty {m : Machine} (engaged : k.last.Engaged p k.values m) (opens : k.last.Opens m.pc) : m.stack.items = #[] := by
    have none := (engaged.underway.poised k.finished opens).values
    rwa [Machine.values, List.reverse_eq_nil_iff, Array.toList_eq_nil_iff] at none
  have items := (empty engaged' opens').trans (empty engaged opens).symm
  have named : (m'.stack.name, m'.stack.limit) = (m.stack.name, m.stack.limit) := congrArg (·.2.2.1) frame
  refine ⟨?_, ?_⟩
  · obtain ⟨name, limit⟩ := Prod.mk.inj named
    calc m'.stack = ⟨m'.stack.name, m'.stack.limit, m'.stack.items⟩ := rfl
      _ = ⟨m.stack.name, m.stack.limit, m.stack.items⟩ := by rw [name, limit, items]
  · rw [Stack.size, empty engaged opens]
    rfl

variable (env) in
/-- The test leads to the body or behind the loop and changes nothing. -/
theorem Stage.tests (stage : loop.Stage first last stride s i t) (begins : loop.Begins 3 s) (moves : stride ≠ 0)
    (within : ∀ j < i, Within first.toInt last.toInt stride.toInt j) :
    ∃ b, Session.Travels env p loop.Tests t b ∧ b.machine.memory = t.machine.memory ∧
      b.machine.stack = s.machine.stack ∧
      (Within first.toInt last.toInt stride.toInt i → b.machine.pc = loop.inside) ∧
      (¬ Within first.toInt last.toInt stride.toInt i → b.machine.pc = loop.behind) := by
  obtain ⟨same, empty⟩ := stack_eq begins.engaged stage.engaged (begins.stationed.pc ▸ loop.opens_opening)
    (stage.pc ▸ loop.opens_test) stage.frame
  have room := begins.stationed.values
  obtain ⟨clock, roves⟩ := loop.roves_test env stage.engaged.fits stage.pc (Within.small moves within) stage.counter
    stage.limit stage.step (by rw [same]; exact room)
  obtain ⟨t', travels⟩ := roves t.host
  refine ⟨_, travels, rfl, same, fun inside => ?_, fun outside => ?_⟩
  · rw [Within.iff_sameSide moves] at inside
    simp [inside]
  · rw [Within.iff_sameSide moves, Bool.not_eq_false] at outside
    simp [outside]

/-- One more pass. -/
theorem Stage.pass (stage : loop.Stage first last stride s i t) (begins : loop.Begins 3 s) (moves : stride ≠ 0)
    (within : ∀ j ≤ i, Within first.toInt last.toInt stride.toInt j) {o : Session σ}
    (passes : loop.Passes env first stride o i t) (completes : loop.Completes env first stride o) :
    ∃ t', loop.Passes env first stride o (i + 1) t' ∧ loop.Stage first last stride s (i + 1) t' := by
  obtain ⟨b, enters, memory, -, inside, -⟩ := stage.tests env begins moves fun j less => within j (Nat.le_of_lt less)
  have inside := inside (within i (Nat.le_refl i))
  obtain ⟨e, done⟩ := completes i t b passes enters inside
  have fits := (within i (Nat.le_refl i)).fits moves
  have counter : b.machine.memory[loop.counter]? = some (.integer (.ofInt (first.toInt + i * stride.toInt))) := by
    rw [memory, stage.counter, Value.ofInt, if_pos fits]
  have kept {x : Nat} (member : x ∈ [loop.counter, loop.limit, loop.step]) :
      e.machine.memory[x]? = t.machine.memory[x]? := memory ▸ done.cells x member
  obtain ⟨engaged, frame⟩ := k.finished.engaged_travels stage.engaged enters
  obtain ⟨engaged', frame'⟩ := k.finished.engaged_travels engaged done.travels
  obtain ⟨same, -⟩ := stack_eq begins.engaged engaged' (begins.stationed.pc ▸ loop.opens_opening)
    (done.pc ▸ loop.opens_closing) (frame'.trans (frame.trans stage.frame))
  have room := begins.stationed.values
  obtain ⟨clock, roves⟩ := loop.roves_next env stage.engaged.fits done.pc ((done.cells _ (by simp)).trans counter)
    ((kept (by simp)).trans stage.step) (by rw [same]; omega)
  obtain ⟨host, returns⟩ := roves e.host
  obtain ⟨engaged'', frame''⟩ := k.finished.engaged_travels engaged' returns
  have cells := loop.cells
  obtain ⟨inside', -⟩ := Array.getElem?_eq_some_iff.mp ((kept (x := loop.counter) (by simp)).trans stage.counter)
  refine ⟨_, .more passes enters inside counter (Value.toInt_of_fits16 fits) done returns rfl, rfl, engaged'',
    frame''.trans (frame'.trans (frame.trans stage.frame)), ?_, ?_, ?_⟩
  · rw [Array.getElem?_setIfInBounds_self_of_lt inside', Value.toInt_of_fits16 fits, Int.natCast_succ, Int.add_mul,
      Int.one_mul, Int.add_assoc]
  · exact (Array.getElem?_setIfInBounds_ne cells.counter_limit).trans ((kept (by simp)).trans stage.limit)
  · exact (Array.getElem?_setIfInBounds_ne cells.counter_step).trans ((kept (by simp)).trans stage.step)

/-- As many passes as the counter is within the limit. -/
theorem Stage.passes {o : Session σ} (stage : loop.Stage first last stride s 0 o) (begins : loop.Begins 3 s)
    (moves : stride ≠ 0) (completes : loop.Completes env first stride o) {count : Nat}
    (within : ∀ j < count, Within first.toInt last.toInt stride.toInt j) :
    ∃ t, loop.Passes env first stride o count t ∧ loop.Stage first last stride s count t := by
  induction count with
  | zero => exact ⟨o, .none, stage⟩
  | succ i ih =>
    obtain ⟨t, passes, stage⟩ := ih fun j less => within j (Nat.lt_succ_of_lt less)
    exact stage.pass begins moves (fun j less => within j (Nat.lt_succ_of_le less)) passes completes

end

end Loop

end Compilation

/-- A loop down to the smallest integer, with a step that passes over it. -/
def countedDown : String := "FOR I=-32764 TO -32767-1 STEP -3:NEXT"

/-- The program is that loop. -/
def Context.isCounted (c : Context) : Bool :=
  match c.program with
  | [.assign (.scalar (.cell counter)) (.negate (.integer first)),
      .assign (.scalar (.cell limit)) (.binary .minus (.negate (.integer last)) (.integer one)),
      .assign (.scalar (.cell step)) (.negate (.integer stride)), .mark top, .testLoop (.cell counter₁) limit₁ step₁ exit,
      .assign (.scalar (.cell counter₂)) (.binary .plus (.variable (.cell counter₃)) (.variable (.cell step₂))),
      .jump top₁, .mark exit₁, .halt] =>
    first == 32764 && last == 32767 && one == 1 && stride == 3 && [counter₁, counter₂, counter₃].all (· == counter) &&
      limit₁ == limit && step₁ == step && step₂ == step && top₁ == top && exit₁ == exit &&
      c.scopes.root.names.contains ("I", counter)
  | _ => false

theorem Context.of_isCounted {c : Context} (h : c.isCounted = true) :
    ∃ counter limit step top exit, ("I", counter) ∈ c.scopes.root.names ∧
      c.program = loopHead counter limit step top exit (.negate (.integer 32764))
        (.binary .minus (.negate (.integer 32767)) (.integer 1)) (.negate (.integer 3)) ++
          (loopFoot counter step top exit ++ [.halt]) := by
  unfold isCounted at h
  split at h
  · next same =>
    simp only [Bool.and_eq_true, beq_iff_eq, List.all_cons, List.all_nil, Bool.and_true, List.contains_iff_mem] at h
    obtain ⟨⟨⟨⟨⟨⟨⟨⟨⟨⟨rfl, rfl⟩, rfl⟩, rfl⟩, rfl, rfl, rfl⟩, rfl⟩, rfl⟩, rfl⟩, rfl⟩, rfl⟩, member⟩ := h
    exact ⟨_, _, _, _, _, member, same⟩
  · cases h

end Language

end BasicMachine
