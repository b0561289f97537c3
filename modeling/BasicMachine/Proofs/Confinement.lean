import BasicMachine.Proofs.Course

/-!
# What instructions leave alone

An instruction changes the registers, the stack, the memory and the heap; the program counter and the call stack are
changed by jumps, calls and returns only, and the clock by nothing but the pass over an instruction. Whatever fails on
the way fails with an error that is not one of decoding. Both facts hold of every outcome, so they are stated once for
each building block and then follow for whole instructions.
-/
namespace BasicMachine

/-- Not the error of an unknown opcode, and none of those that name what a code byte should stand for. -/
def Error.Usual (e : Error) : Prop :=
  e.code ≠ .unknownOpcode ∧ (e.code = .illegalFunctionCall → e.detail.toList.take 3 ≠ ['N', 'O', ' '])

instance (e : Error) : Decidable e.Usual := inferInstanceAs (Decidable (_ ∧ _))

@[simp] theorem Error.usual_atAddress (e : Error) (address : Nat) : (e.atAddress address).Usual ↔ e.Usual := Iff.rfl

/-- Every failure is a usual one, and none of them says that the stack is empty. -/
def FailsUsually (r : Except Error α) : Prop := ∀ e, r = .error e → e.Usual ∧ e.code ≠ .stackUnderflow

namespace FailsUsually

@[simp] theorem ok (a : α) : FailsUsually (.ok a) := by
  intro e h
  cases h

@[simp] theorem pure (a : α) : FailsUsually (Pure.pure a) := ok a

@[simp] theorem error_iff {e : Error} :
    FailsUsually (.error e : Except Error α) ↔ e.Usual ∧ e.code ≠ .stackUnderflow := by
  constructor
  · intro h
    exact h e rfl
  · rintro h _ ⟨⟩
    exact h

theorem bind {r : Except Error α} {f : α → Except Error β} (first : FailsUsually r)
    (second : ∀ a, FailsUsually (f a)) : FailsUsually (r >>= f) := by
  cases r with
  | ok a => exact second a
  | error e => exact fun _ h => by cases h; exact first e rfl

theorem ite {c : Prop} [Decidable c] {yes no : Except Error α} (first : FailsUsually yes)
    (second : FailsUsually no) : FailsUsually (if c then yes else no) := by
  split
  · exact first
  · exact second

end FailsUsually

namespace Value

open FailsUsually

theorem asPointer_usual (v : Value) : FailsUsually v.asPointer := by
  cases v <;> simp [asPointer, Error.of] <;> decide

theorem asNumber_usual (v : Value) : FailsUsually v.asNumber := by
  cases v <;> simp [asNumber, Error.of] <;> decide

theorem isTrue_usual (v : Value) : FailsUsually v.isTrue := by
  cases v <;> simp [isTrue, Error.of] <;> decide

theorem byteOf_usual (n : Int) : FailsUsually (byteOf n) := by
  unfold byteOf
  exact ite (ok _) (error_iff.mpr (by decide))

theorem asByte_usual (v : Value) : FailsUsually v.asByte := by
  cases v with
  | integer n => exact byteOf_usual _
  | float x => exact byteOf_usual _
  | _ => exact error_iff.mpr (by decide)

theorem mismatch_usual : FailsUsually mismatch := error_iff.mpr (by decide)

theorem offset_usual (address : Nat) (n : Int) : FailsUsually (offset address n) :=
  ite (error_iff.mpr (by decide)) (ok _)

theorem toInt16_usual (x : Float32) : FailsUsually (toInt16 x) := by
  unfold toInt16
  split
  · exact ok _
  · exact error_iff.mpr (by decide)

theorem bits_usual (v : Value) : FailsUsually v.bits := by
  cases v with
  | integer n => exact ok _
  | float x => exact toInt16_usual x
  | _ => exact error_iff.mpr (by decide)

theorem stringFrom_usual (memory : Array Value) (before : List Int16) (room address : Nat) :
    FailsUsually (stringFrom memory before room address) := by
  induction room generalizing before address with
  | zero => exact error_iff.mpr (by decide)
  | succ room ih =>
    unfold stringFrom
    split
    · exact ite (ok _) (ih _ _)
    · exact error_iff.mpr (by decide)
    · exact error_iff.mpr (by decide)

theorem string_usual (memory : Array Value) (address : Nat) : FailsUsually (string memory address) :=
  stringFrom_usual _ _ _ _

theorem order_usual (memory : Array Value) (mixed : Bool) (l r : Value) :
    FailsUsually (order memory mixed l r) := by
  unfold order
  split
  · exact ok _
  · exact ok _
  · exact ite (ok _) (error_iff.mpr (by decide))
  · exact ite (ok _) (error_iff.mpr (by decide))
  · exact bind (string_usual _ _) fun _ => bind (string_usual _ _) fun _ => pure _
  · exact error_iff.mpr (by decide)

theorem rank_usual (memory : Array Value) (l r : Value) : FailsUsually (rank memory l r) := by
  refine bind (order_usual _ _ _ _) fun o => ?_
  split
  · exact pure _
  · exact pure _
  · exact pure _
  · exact error_iff.mpr (by decide)

end Value

theorem Relation.apply_usual (memory : Array Value) (relation : Relation) (l r : Value) :
    FailsUsually (relation.apply memory l r) :=
  .bind (Value.order_usual _ _ _ _) fun _ => .pure _

theorem Unary.apply_usual (f : Unary) (v : Value) : FailsUsually (f.apply v) := by
  open FailsUsually Value in
  have number (g : Float32 → Float32) : FailsUsually (v.ofNumber g) := bind (asNumber_usual v) fun _ => pure _
  cases f with
  | negate => cases v <;> first | exact ok _ | exact mismatch_usual
  | not => exact bind (isTrue_usual v) fun _ => pure _
  | floor =>
    cases v with
    | integer n => exact ok _
    | float x =>
      simp only [Unary.apply, Value.floor]
      split <;> exact ok _
    | pointer p => exact ite (ok _) (error_iff.mpr (by decide))
    | unset => exact mismatch_usual
  | toPointer =>
    cases v with
    | pointer p => exact ok _
    | integer n => exact ite (ok _) (error_iff.mpr (by decide))
    | float x => exact ite (ok _) (error_iff.mpr (by decide))
    | unset => exact mismatch_usual
  | abs => cases v <;> first | exact ok _ | exact mismatch_usual
  | sqr =>
    refine bind (asNumber_usual v) fun x => ?_
    exact ite (bind (error_iff.mpr (by decide)) fun _ => pure _) (bind (pure _) fun _ => pure _)
  | log =>
    refine bind (asNumber_usual v) fun x => ?_
    exact ite (bind (error_iff.mpr (by decide)) fun _ => pure _) (bind (pure _) fun _ => pure _)
  | toFloat | sin | cos | tan | atn => exact number _

theorem Binary.apply_usual (f : Binary) (l r : Value) : FailsUsually (f.apply l r) := by
  open FailsUsually Value in
  have numbers (g : Float32 → Float32 → Value) :
      FailsUsually (do let x ← l.asNumber; let y ← r.asNumber; return g x y) :=
    bind (asNumber_usual l) fun _ => bind (asNumber_usual r) fun _ => pure _
  cases f with
  | add =>
    simp only [Binary.apply]
    unfold Value.add
    split <;> first | exact ok _ | exact offset_usual _ _ | exact mismatch_usual
  | subtract =>
    simp only [Binary.apply]
    unfold Value.subtract
    split <;> first | exact ok _ | exact offset_usual _ _ | exact mismatch_usual
  | multiply =>
    simp only [Binary.apply]
    unfold Value.multiply
    split <;> first | exact ok _ | exact mismatch_usual
  | divide => exact numbers _
  | divideWhole =>
    simp only [Binary.apply]
    unfold Value.divideWhole
    split
    · exact ite (error_iff.mpr (by decide)) (ite (ok _) (error_iff.mpr (by decide)))
    · refine bind (asNumber_usual l) fun x => bind (asNumber_usual r) fun y => ?_
      exact ite (bind (error_iff.mpr (by decide)) fun _ => bind (toInt16_usual _) fun _ => pure _)
        (bind (toInt16_usual _) fun _ => pure _)
  | remainder =>
    simp only [Binary.apply]
    unfold Value.remainder
    split
    · exact ite (error_iff.mpr (by decide)) (ok _)
    · refine bind (asNumber_usual r) fun y => ?_
      exact ite (bind (error_iff.mpr (by decide)) fun _ => bind (asNumber_usual l) fun _ => pure _)
        (bind (asNumber_usual l) fun _ => pure _)
  | power =>
    simp only [Binary.apply]
    unfold Value.power
    split
    · exact ite (ite (ok _) (ok _)) (ok _)
    · exact numbers _
  | and => exact bind (bits_usual l) fun _ => bind (bits_usual r) fun _ => pure _
  | or => exact bind (bits_usual l) fun _ => bind (bits_usual r) fun _ => pure _

theorem run_get_bind {S : Type} (f : S → EStateM Error S β) (s : S) : (get >>= f) s = f s s := rfl

namespace Action

/-- What an action has to respect: how the machine after it may differ from the one before, and the errors that it may
fail with. Every change that instructions make of their own accord is allowed, and so is one such change after another. -/
structure Bounds where
  within : Machine → Machine → Prop
  errors : Error → Prop
  refl (m : Machine) : within m m
  trans {m m' m'' : Machine} (first : within m m') (second : within m' m'') : within m m''
  registers (m : Machine) (a b c : Value) (idx : Nat) (tracing : Bool) (random : Random) :
    within m { m with a, b, c, idx, tracing, random }
  pushed (m : Machine) (v : Value) (room : m.stack.isFull = false) : within m { m with stack := m.stack.insert v }
  popped (m : Machine) : within m { m with stack := m.stack.dropTop }
  stored (m : Machine) (address : Nat) (v : Value) : within m { m with memory := m.memory.setIfInBounds address v }
  taken (m : Machine) (n : Nat) (fits : m.floor + n ≤ m.heap) : within m { m with heap := m.heap - n }
  usual (e : Error) (h : e.Usual) : errors e

/-- The bounds that keep a view of the machine, which shows nothing of what instructions compute with. -/
def Bounds.ofView (view : Machine → β) (errors : Error → Prop) (usual : ∀ e : Error, e.Usual → errors e)
    (detached : ∀ (m : Machine) (a b c : Value) (idx : Nat) (stack : Stack Value) (memory : Array Value) (heap : Nat)
      (tracing : Bool) (random : Random),
      view { m with a, b, c, idx, stack, memory, heap, tracing, random } = view m) : Bounds where
  within m m' := view m' = view m
  errors := errors
  refl _ := rfl
  trans first second := second.trans first
  registers m a b c idx tracing random := detached m a b c idx m.stack m.memory m.heap tracing random
  pushed m _ _ := detached m m.a m.b m.c m.idx _ m.memory m.heap m.tracing m.random
  popped m := detached m m.a m.b m.c m.idx _ m.memory m.heap m.tracing m.random
  stored m _ _ := detached m m.a m.b m.c m.idx m.stack _ m.heap m.tracing m.random
  taken m _ _ := detached m m.a m.b m.c m.idx m.stack m.memory _ m.tracing m.random
  usual := usual

/-- The clock, and whether the machine runs. -/
def pulse : Bounds := .ofView (fun m => (m.clock, m.status)) (fun _ => True) (fun _ _ => trivial)
  fun _ _ _ _ _ _ _ _ _ _ => rfl

/-- The program counter, the return addresses and whether the machine runs, with usual errors only. -/
def control : Bounds := .ofView (fun m => (m.pc, m.calls, m.status)) Error.Usual (fun _ h => h)
  fun _ _ _ _ _ _ _ _ _ _ => rfl

/-- Every outcome is within the bounds, and every failure is an error that is allowed. -/
structure Confined (bounds : Bounds) (a : Action α) : Prop where
  ok : ∀ {m v m'}, a m = .ok v m' → bounds.within m m'
  error : ∀ {m e m'}, a m = .error e m' → bounds.within m m' ∧ bounds.errors e

variable {bounds : Bounds}

theorem confined_pure (v : α) : Confined bounds (pure v) where
  ok h := by cases h; exact bounds.refl _
  error h := by cases h

theorem confined_bind {a : Action α} {f : α → Action γ} (first : Confined bounds a)
    (second : ∀ v, Confined bounds (f v)) : Confined bounds (a >>= f) where
  ok {m v m'} h := by
    simp only [bind, EStateM.bind] at h
    split at h
    · next r => exact bounds.trans (first.ok r) ((second _).ok h)
    · cases h
  error {m e m'} h := by
    simp only [bind, EStateM.bind] at h
    split at h
    · next r => exact ⟨bounds.trans (first.ok r) ((second _).error h).1, ((second _).error h).2⟩
    · next r =>
      cases h
      exact first.error r

theorem confined_ite {c : Prop} [Decidable c] {yes no : Action α} (first : Confined bounds yes)
    (second : Confined bounds no) : Confined bounds (if c then yes else no) := by
  split
  · exact first
  · exact second

theorem confined_get : Confined bounds get where
  ok h := by cases h; exact bounds.refl _
  error h := by cases h

theorem confined_modify {f : Machine → Machine} (h : ∀ m, bounds.within m (f m)) : Confined bounds (modify f) where
  ok r := by cases r; exact h _
  error r := by cases r

theorem confined_throw {e : Error} (h : bounds.errors e) : Confined bounds (throw e : Action α) where
  ok r := by cases r
  error r := by cases r; exact ⟨bounds.refl _, h⟩

theorem confined_fail {code : ErrorCode} {detail : String} (h : (Error.of code detail).Usual) :
    Confined bounds (fail code detail : Action α) := confined_throw (bounds.usual _ h)

theorem confined_ofExcept {r : Except Error α} (h : FailsUsually r) : Confined bounds (ofExcept r) := by
  cases r with
  | ok a => exact confined_pure a
  | error e => exact confined_throw (bounds.usual e (h e rfl).1)

theorem confined_register (r : Register) : Confined bounds (register r) :=
  confined_bind confined_get fun _ => confined_pure _

theorem memoryFault_usual (address : Int) : (memoryFault address).Usual := by
  simp [memoryFault, Error.of, Error.Usual]

theorem confined_cell (address : Nat) : Confined bounds (cell address) where
  ok h := by
    unfold cell at h
    split at h <;> cases h
    exact bounds.refl _
  error h := by
    unfold cell at h
    split at h <;> cases h
    exact ⟨bounds.refl _, bounds.usual _ (memoryFault_usual _)⟩

theorem confined_indexed (offset : Int16) : Confined bounds (indexed offset) := by
  refine confined_bind confined_get fun m => ?_
  exact confined_ite (confined_bind (confined_throw (bounds.usual _ (memoryFault_usual _))) fun _ => confined_pure _)
    (confined_pure _)

theorem confined_push (v : Value) : Confined bounds (push v) where
  ok {m _ _} h := by
    rw [push_apply] at h
    split at h
    · cases h
    · next room =>
      cases h
      exact bounds.pushed m v (Bool.eq_false_iff.mpr room)
  error {m _ _} h := by
    rw [push_apply] at h
    split at h
    · cases h
      exact ⟨bounds.refl _, bounds.usual _ (by simp [Stack.overflow, Error.of, Error.Usual])⟩
    · cases h

theorem confined_pop : Confined bounds pop where
  ok {m _ _} h := by
    rw [pop_apply] at h
    split at h
    · cases h
      exact bounds.popped m
    · cases h
  error {m _ _} h := by
    rw [pop_apply] at h
    split at h
    · cases h
    · cases h
      exact ⟨bounds.refl _, bounds.usual _ (by simp [Stack.underflow, Error.of, Error.Usual])⟩

theorem confined_pop2 : Confined bounds pop2 := by
  rw [pop2_eq_pops]
  exact confined_bind confined_pop fun _ => confined_bind confined_pop fun _ => confined_pure _

theorem confined_setRegister (r : Register) (v : Value) : Confined bounds (setRegister r v) := by
  refine confined_modify fun m => ?_
  cases r with
  | a => exact bounds.registers m v m.b m.c m.idx m.tracing m.random
  | b => exact bounds.registers m m.a v m.c m.idx m.tracing m.random
  | c => exact bounds.registers m m.a m.b v m.idx m.tracing m.random

theorem confined_setIdx (address : Nat) : Confined bounds (setIdx address) :=
  confined_modify fun m => bounds.registers m m.a m.b m.c address m.tracing m.random

theorem confined_setCell (address : Nat) (v : Value) : Confined bounds (setCell address v) where
  ok {m _ _} h := by
    unfold setCell at h
    split at h <;> cases h
    exact bounds.stored m address v
  error h := by
    unfold setCell at h
    split at h <;> cases h
    exact ⟨bounds.refl _, bounds.usual _ (memoryFault_usual _)⟩

theorem confined_clearCells (count address : Nat) : Confined bounds (clearCells count address) := by
  induction count generalizing address with
  | zero => exact confined_pure _
  | succ count ih => exact confined_bind (confined_setCell _ _) fun _ => ih _

theorem confined_storeString (bytes : List UInt8) (address : Nat) : Confined bounds (storeString bytes address) := by
  induction bytes generalizing address with
  | nil => exact confined_setCell _ _
  | cons b rest ih => exact confined_bind (confined_setCell _ _) fun _ => ih _

theorem confined_setString (bytes : List UInt8) : Confined bounds (setString bytes) := by
  have next (b : UInt8) : Confined bounds (setString.setNext b) :=
    confined_bind confined_get fun _ => confined_bind (confined_setCell _ _) fun _ => confined_setIdx _
  induction bytes with
  | nil => exact next 0
  | cons b rest ih => exact confined_bind (next b) fun _ => ih

theorem confined_allocate (n : Nat) : Confined bounds (allocate n) where
  ok {m v m'} h := by
    rw [allocate, run_get_bind] at h
    split at h
    · cases h
    · next fits =>
      cases h
      exact bounds.taken m n (by omega)
  error {m e m'} h := by
    rw [allocate, run_get_bind] at h
    split at h
    · cases h
      exact ⟨bounds.refl _, bounds.usual _ (by decide)⟩
    · cases h

theorem confined_text (address : Nat) : Confined bounds (text address) :=
  confined_bind confined_get fun _ => confined_bind (confined_ofExcept (Value.string_usual _ _)) fun _ => confined_pure _

theorem confined_popByte : Confined bounds popByte :=
  confined_bind confined_pop fun _ => confined_ofExcept (Value.asByte_usual _)

theorem confined_popCoordinate : Confined bounds popCoordinate := by
  refine confined_bind confined_pop fun v => ?_
  split
  · exact confined_pure _
  · exact confined_ite (confined_pure _) (confined_fail (by decide))
  · exact confined_fail (by decide)

theorem confined_popCount : Confined bounds popCount := by
  refine confined_bind confined_pop fun v => ?_
  split
  · exact confined_ite (confined_pure _) (confined_fail (by decide))
  · exact confined_ite (confined_pure _) (confined_fail (by decide))
  · exact confined_fail (by decide)

theorem confined_unary {f : Value → Except Error Value} (h : ∀ v, FailsUsually (f v)) : Confined bounds (unary f) :=
  confined_bind confined_pop fun _ => confined_bind (confined_ofExcept (h _)) fun _ => confined_push _

theorem confined_binary {f : Value → Value → Except Error Value} (h : ∀ l r, FailsUsually (f l r)) :
    Confined bounds (binary f) :=
  confined_bind confined_pop2 fun _ => confined_bind (confined_ofExcept (h _ _)) fun _ => confined_push _

theorem confined_compareWith {f : Array Value → Value → Value → Except Error Value}
    (h : ∀ memory l r, FailsUsually (f memory l r)) : Confined bounds (compareWith f) :=
  confined_bind confined_pop2 fun _ => confined_bind confined_get fun _ =>
    confined_bind (confined_ofExcept (h _ _ _)) fun _ => confined_push _

theorem cellCount_usual (v : Value) : FailsUsually (cellCount v) := by
  cases v with
  | integer n => exact .ite (.ok _) (FailsUsually.error_iff.mpr (by decide))
  | float x => exact .ite (.ok _) (FailsUsually.error_iff.mpr (by decide))
  | _ => exact FailsUsually.error_iff.mpr (by decide)

/-- An instruction without operand is within bounds, a return apart. -/
theorem confined_plainEffect (op : PlainOp) (h : op ≠ .ret) : Confined bounds (plainEffect op) := by
  cases op with
  | nop | halt | yield => exact confined_pure _
  | trace =>
    exact confined_modify fun m => bounds.registers m m.a m.b m.c m.idx (!m.tracing) m.random
  | pop => exact confined_bind confined_pop fun _ => confined_pure _
  | dup => exact confined_bind confined_pop fun _ => confined_bind (confined_push _) fun _ => confined_push _
  | swap => exact confined_bind confined_pop2 fun _ => confined_bind (confined_push _) fun _ => confined_push _
  | pushReg r => exact confined_bind (confined_register r) fun _ => confined_push _
  | popReg r => exact confined_bind confined_pop fun _ => confined_setRegister r _
  | loadI => exact confined_bind confined_get fun _ => confined_bind (confined_cell _) fun _ => confined_push _
  | storeI => exact confined_bind confined_pop fun _ => confined_bind confined_get fun _ => confined_setCell _ _
  | pushIdx => exact confined_bind confined_get fun _ => confined_push _
  | popIdx =>
    exact confined_bind confined_pop fun _ =>
      confined_bind (confined_ofExcept (Value.asPointer_usual _)) fun _ => confined_setIdx _
  | calloc =>
    exact confined_bind confined_pop fun _ => confined_bind (confined_ofExcept (cellCount_usual _)) fun _ =>
      confined_bind (confined_allocate _) fun _ => confined_bind (confined_setIdx _) fun _ => confined_clearCells _ _
  | unary f => exact confined_unary f.apply_usual
  | binary f => exact confined_binary f.apply_usual
  | relation f => exact confined_compareWith fun memory => f.apply_usual memory
  | cmp => exact confined_compareWith Value.rank_usual
  | rnd =>
    refine confined_bind confined_pop fun _ => confined_bind (confined_ofExcept (Value.asNumber_usual _)) fun _ => ?_
    refine confined_bind confined_get fun before => confined_bind (confined_modify fun m => ?_) fun _ => confined_push _
    exact bounds.registers m m.a m.b m.c m.idx m.tracing before.random.next
  | seed =>
    refine confined_bind confined_pop fun v => confined_modify fun m => ?_
    exact bounds.registers m m.a m.b m.c m.idx m.tracing (.ofSeed v.toWord.toUInt64)
  | len =>
    refine confined_bind confined_pop fun _ => confined_bind (confined_ofExcept (Value.asPointer_usual _)) fun _ => ?_
    refine confined_bind confined_get fun _ => confined_bind (confined_ofExcept (Value.string_usual _ _)) fun _ => ?_
    exact confined_ite (confined_bind (confined_fail (by decide)) fun _ => confined_push _) (confined_push _)
  | clock => exact confined_bind confined_get fun _ => confined_push _
  | ret => exact absurd rfl h

/-- FAIL with a number that stands for an error that is allowed. -/
theorem confined_failEffect (interrupts : Interrupts) (n : Int16)
    (allowed : ∀ code, ErrorCode.ofNumber? n = some code → bounds.errors (.of code)) :
    Confined bounds (shortEffect interrupts n .fail) := by
  simp only [shortEffect]
  split
  · next code known => exact confined_throw (allowed code known)
  · exact confined_fail (by simp [Error.of, Error.Usual])

/-- An instruction with a number is within bounds if it neither jumps, interrupts nor fails by itself. -/
theorem confined_shortEffect (interrupts : Interrupts) (n : Int16) {op : ShortOp}
    (h : op ∉ [.irq, .fail, .jmp, .jz, .jnz, .call]) : Confined bounds (shortEffect interrupts n op) := by
  cases op with
  | pushI => exact confined_push _
  | loadX => exact confined_bind (confined_indexed _) fun _ => confined_bind (confined_cell _) fun _ => confined_push _
  | storeX => exact confined_bind (confined_indexed _) fun _ => confined_bind confined_pop fun _ => confined_setCell _ _
  | deref =>
    exact confined_bind (confined_indexed _) fun _ => confined_bind (confined_cell _) fun _ =>
      confined_bind (confined_ofExcept (Value.asPointer_usual _)) fun _ => confined_setIdx _
  | alloc =>
    have rest : Confined bounds (allocate n.toInt.toNat >>= setIdx) :=
      confined_bind (confined_allocate _) fun _ => confined_setIdx _
    exact confined_ite (confined_bind (confined_fail (by decide)) fun _ => rest) rest
  | clr =>
    exact confined_ite (confined_bind (confined_indexed _) fun _ => confined_clearCells _ _) (confined_pure _)
  | _ => simp at h

theorem confined_pointerEffect (address : Nat) (op : PointerOp) : Confined bounds (pointerEffect address op) := by
  cases op with
  | pushP => exact confined_push _
  | load => exact confined_bind (confined_cell _) fun _ => confined_push _
  | store => exact confined_bind confined_pop fun _ => confined_setCell _ _
  | setIdx => exact confined_setIdx _

/-- Bounds that let an instruction go anywhere and fail with anything. -/
structure Bounds.Roaming (bounds : Bounds) : Prop where
  jumped (m : Machine) (address : Nat) : bounds.within m { m with pc := address }
  called (m : Machine) (address : Nat) (room : m.calls.isFull = false) :
    bounds.within m { m with calls := m.calls.insert address }
  returned (m : Machine) : bounds.within m { m with calls := m.calls.dropTop }
  errors (e : Error) : bounds.errors e

theorem roaming_pulse : pulse.Roaming where
  jumped _ _ := rfl
  called _ _ _ := rfl
  returned _ := rfl
  errors _ := trivial

section
variable (roaming : bounds.Roaming)
include roaming

theorem confined_setPc (address : Nat) : Confined bounds (setPc address) :=
  confined_modify fun m => roaming.jumped m address

theorem confined_ret : Confined bounds (plainEffect .ret) where
  ok {m _ _} h := by
    simp only [plainEffect] at h
    split at h <;> cases h
    next address _ => exact bounds.trans (roaming.returned m) (roaming.jumped _ address)
  error h := by
    simp only [plainEffect] at h
    split at h <;> cases h
    exact ⟨bounds.refl _, roaming.errors _⟩

theorem confined_call (interrupts : Interrupts) (n : Int16) : Confined bounds (shortEffect interrupts n .call) where
  ok {m _ _} h := by
    simp only [shortEffect] at h
    split at h
    · cases h
    · next room =>
      cases h
      exact bounds.trans (roaming.called m m.pc (Bool.eq_false_iff.mpr room)) (roaming.jumped _ (jumpAddress n))
  error h := by
    simp only [shortEffect] at h
    split at h <;> cases h
    exact ⟨bounds.refl _, roaming.errors _⟩

/-- Every instruction is within such bounds if the interrupt handlers are. -/
theorem confined_effect {interrupts : Interrupts}
    (handlers : ∀ id handler, interrupts id = some handler → Confined bounds handler) (i : Instruction) :
    Confined bounds (effect interrupts i) := by
  cases i with
  | plain op =>
    by_cases h : op = .ret
    · exact h ▸ confined_ret roaming
    · exact confined_plainEffect op h
  | short op n =>
    cases op with
    | irq =>
      simp only [effect, shortEffect]
      split
      · next handler known => exact handlers _ handler known
      · exact confined_throw (roaming.errors _)
    | fail => exact confined_failEffect interrupts n fun _ _ => roaming.errors _
    | jmp => exact confined_setPc roaming _
    | jz =>
      refine confined_bind confined_pop fun v => confined_bind (confined_ofExcept v.isTrue_usual) fun _ => ?_
      exact confined_ite (confined_pure _) (confined_setPc roaming _)
    | jnz =>
      refine confined_bind confined_pop fun v => confined_bind (confined_ofExcept v.isTrue_usual) fun _ => ?_
      exact confined_ite (confined_setPc roaming _) (confined_pure _)
    | call => exact confined_call roaming interrupts n
    | pushI | loadX | storeX | deref | alloc | clr =>
      simp only [effect]
      exact confined_shortEffect _ n (by simp)
  | pointer op address => exact confined_pointerEffect address op
  | pushF word => exact confined_push _
  | push v => exact confined_push v
  | syscall _ _ => exact confined_pure _
  | setS bytes => exact confined_setString bytes

end

end Action

namespace Session

open Action

variable {σ : Type} {bounds : Bounds}

/-- As for actions; nothing is said of the host. -/
structure Confined (bounds : Bounds) (x : SessionM σ α) : Prop where
  ok : ∀ {s v s'}, x s = .ok v s' → bounds.within s.machine s'.machine
  error : ∀ {s e s'}, x s = .error e s' → bounds.within s.machine s'.machine ∧ bounds.errors e

theorem confined_pure (v : α) : Confined bounds (pure v : SessionM σ α) where
  ok h := by cases h; exact bounds.refl _
  error h := by cases h

theorem confined_bind {x : SessionM σ α} {f : α → SessionM σ γ} (first : Confined bounds x)
    (second : ∀ v, Confined bounds (f v)) : Confined bounds (x >>= f) where
  ok {s v s'} h := by
    simp only [bind, EStateM.bind] at h
    split at h
    · next r => exact bounds.trans (first.ok r) ((second _).ok h)
    · cases h
  error {s e s'} h := by
    simp only [bind, EStateM.bind] at h
    split at h
    · next r => exact ⟨bounds.trans (first.ok r) ((second _).error h).1, ((second _).error h).2⟩
    · next r =>
      cases h
      exact first.error r

theorem confined_act {a : Action α} (h : Action.Confined bounds a) : Confined bounds (act a : SessionM σ α) where
  ok {s _ _} r := by
    rcases s with ⟨m, t⟩
    simp only [act] at r
    split at r <;> cases r
    next inner => exact h.ok inner
  error {s _ _} r := by
    rcases s with ⟨m, t⟩
    simp only [act] at r
    split at r <;> cases r
    next inner => exact h.error inner

theorem confined_ask (host : Host σ) (call : HostCall) : Confined bounds (ask host call) where
  ok h := by cases h; exact bounds.refl _
  error h := by cases h

theorem confined_plot (host : Host σ) (colour : UInt8) (points : List Raster.Point) :
    Confined bounds (plot host colour points) := by
  induction points with
  | nil => exact confined_pure _
  | cons p rest ih => exact confined_bind (confined_ask _ _) fun _ => ih

/-- One argument from the stack, and then the rest. -/
theorem confined_then {a : Action α} {f : α → SessionM σ γ} (first : Action.Confined bounds a)
    (second : ∀ v, Confined bounds (f v)) : Confined bounds (act a >>= f) :=
  confined_bind (confined_act first) second

/-- A call to the host, whose answer is not used, ends a service. -/
theorem confined_tell (host : Host σ) (call : HostCall) (v : α) :
    Confined bounds (do let _ ← ask host call; return v : SessionM σ α) :=
  confined_bind (confined_ask _ _) fun _ => confined_pure _

theorem confined_popLine : Action.Confined bounds popLine :=
  Action.confined_bind confined_popByte fun _ => Action.confined_bind confined_popCoordinate fun _ =>
    Action.confined_bind confined_popCoordinate fun _ => Action.confined_bind confined_popCoordinate fun _ =>
      Action.confined_bind confined_popCoordinate fun _ => Action.confined_pure _

theorem confined_storeLine (line : String) : Action.Confined bounds (storeLine line) :=
  Action.confined_bind (confined_allocate _) fun _ =>
    Action.confined_bind (confined_storeString _ _) fun _ => Action.confined_pure _

theorem confined_printed (v : Value) : Action.Confined bounds (printed v) := by
  cases v with
  | integer n => exact Action.confined_pure _
  | float x => exact Action.confined_pure _
  | pointer address => exact confined_text address
  | unset => exact confined_fail (by decide)

theorem mapM_asByte_usual (values : List Value) : FailsUsually (values.mapM Value.asByte) := by
  induction values with
  | nil => exact .pure _
  | cons v rest ih =>
    rw [List.mapM_cons]
    exact .bind v.asByte_usual fun _ => .bind ih fun _ => .pure _

theorem confined_cellBytes (start n : Nat) : Action.Confined bounds (cellBytes start n) := by
  refine Action.confined_bind Action.confined_get fun m => ?_
  have rest : Action.Confined bounds
      (Action.ofExcept ((m.memory.extract start (start + n)).toList.mapM Value.asByte)) :=
    confined_ofExcept (mapM_asByte_usual _)
  exact Action.confined_ite (Action.confined_bind (confined_fail (by decide)) fun _ => rest) rest

/-- A host call is within bounds, READS apart. -/
theorem confined_serve (host : Host σ) (r : Register) (room : Nat) (call : Syscall) (h : call ≠ .readS) :
    Confined bounds (serve host r room call) := by
  have byteOfRegister : Action.Confined bounds (do Action.ofExcept (← register r).asByte) :=
    Action.confined_bind (confined_register r) fun v => confined_ofExcept v.asByte_usual
  have answer (f : UInt8 → Value) (b : UInt8) :
      Confined bounds (do act (setRegister r (f b)); return .next 0 : SessionM σ Progress) :=
    confined_then (confined_setRegister _ _) fun _ => confined_pure _
  cases call with
  | cls => exact confined_tell _ _ _
  | write => exact confined_then byteOfRegister fun _ => confined_tell _ _ _
  | read => exact confined_bind (confined_ask _ _) fun b => answer (fun b => .integer (Int16.ofNat b.toNat)) b
  | readKey => exact confined_bind (confined_ask _ _) fun b => answer (fun b => .integer (Int16.ofNat b.toNat)) b
  | keySet =>
    exact confined_then byteOfRegister fun _ => confined_bind (confined_ask _ _) fun _ =>
      confined_then (confined_setRegister _ _) fun _ => confined_pure _
  | puts =>
    refine confined_then ?_ fun _ => confined_tell _ _ _
    exact Action.confined_bind (confined_register r) fun v =>
      Action.confined_bind (confined_ofExcept v.asPointer_usual) fun _ => confined_text _
  | gets =>
    refine confined_bind (confined_ask _ _) fun line => confined_then ?_ fun _ => confined_pure _
    exact Action.confined_bind (confined_storeLine line) fun _ => confined_setRegister r _
  | readS => exact absurd rfl h
  | print =>
    refine confined_then ?_ fun _ => confined_tell _ _ _
    exact Action.confined_bind (confined_register r) confined_printed
  | input =>
    exact confined_bind (confined_ask _ _) fun _ => confined_then (confined_setRegister r _) fun _ => confined_pure _
  | palette => exact confined_then byteOfRegister fun _ => confined_tell _ _ _
  | colours => exact confined_then confined_popByte fun _ => confined_then confined_popByte fun _ => confined_tell _ _ _
  | setPixel =>
    exact confined_then confined_popByte fun _ => confined_then confined_popCoordinate fun _ =>
      confined_then confined_popCoordinate fun _ => confined_tell _ _ _
  | getPixel =>
    exact confined_then confined_popCoordinate fun _ => confined_then confined_popCoordinate fun _ =>
      confined_bind (confined_ask _ _) fun b => answer (fun b => .integer (Int16.ofNat b.toNat)) b
  | cursor => exact confined_then confined_popByte fun _ => confined_then confined_popByte fun _ => confined_tell _ _ _
  | blit =>
    refine confined_then confined_popCount fun n => confined_then confined_popCoordinate fun _ =>
      confined_then confined_popCoordinate fun _ => confined_then ?_ fun _ => confined_tell _ _ _
    exact Action.confined_bind (confined_register r) fun v =>
      Action.confined_bind (confined_ofExcept v.asPointer_usual) fun _ => confined_cellBytes _ _
  | sound =>
    exact confined_then confined_popCount fun _ => confined_then confined_popCount fun _ =>
      confined_then confined_popByte fun _ => confined_tell _ _ _
  | voice =>
    exact confined_then confined_popByte fun _ => confined_then confined_popByte fun _ =>
      confined_then confined_popByte fun _ => confined_then confined_popByte fun _ =>
      confined_then confined_popByte fun _ => confined_then confined_popByte fun _ =>
      confined_then confined_popByte fun _ => confined_tell _ _ _
  | line => exact confined_then confined_popLine fun _ => confined_bind (confined_plot _ _ _) fun _ => confined_pure _
  | box => exact confined_then confined_popLine fun _ => confined_bind (confined_plot _ _ _) fun _ => confined_pure _

/-- READS is within bounds that let it count cycles and bytes. -/
theorem confined_readString (counted : ∀ (m : Machine) (clock readCursor : Nat), bounds.within m { m with clock, readCursor })
    (host : Host σ) (r : Register) (room extra : Nat) : Confined bounds (readString host r room extra) := by
  have keep (b : UInt8) : Action.Confined bounds (keepByte b) :=
    Action.confined_bind Action.confined_get fun _ => Action.confined_bind (confined_setCell _ _) fun _ =>
      confined_modify fun m => counted m _ _
  have close : Action.Confined bounds (closeLine r) := by
    refine Action.confined_bind Action.confined_get fun _ => Action.confined_bind (confined_setCell _ _) fun _ => ?_
    refine confined_modify fun m => ?_
    have closed := counted (m.setRegister r (.pointer m.idx)) (m.setRegister r (.pointer m.idx)).clock 0
    refine bounds.trans ?_ closed
    cases r with
    | a => exact bounds.registers m (.pointer m.idx) m.b m.c m.idx m.tracing m.random
    | b => exact bounds.registers m m.a (.pointer m.idx) m.c m.idx m.tracing m.random
    | c => exact bounds.registers m m.a m.b (.pointer m.idx) m.idx m.tracing m.random
  induction room using Nat.strongRecOn generalizing extra with
  | _ room ih =>
    unfold readString
    refine confined_bind (confined_ask _ _) fun b => ?_
    split
    · exact confined_pure _
    split
    · exact confined_then close fun _ => confined_pure _
    refine confined_then (keep b) fun _ => ?_
    cases room with
    | zero => exact confined_pure _
    | succ left =>
      dsimp only
      split
      · exact confined_pure _
      · exact ih left (Nat.lt_succ_self left) _

/-- An instruction is within bounds that let it go anywhere if READS and the interrupt handlers are. -/
theorem confined_perform_of_handlers {env : Environment σ} (roaming : bounds.Roaming)
    (handlers : ∀ id handler, env.interrupts id = some handler → Action.Confined bounds handler) {room : Nat}
    {i : Instruction} (reads : ∀ r, i = .syscall .readS r → Confined bounds (readString env.host r room 0)) :
    Confined bounds (perform env room i) := by
  have plain (i : Instruction) :
      Confined bounds (do act (Action.effect env.interrupts i); return i.progress : SessionM σ Progress) :=
    confined_then (Action.confined_effect roaming handlers i) fun _ => confined_pure _
  cases i with
  | syscall call r =>
    by_cases special : call = .readS
    · subst special
      exact reads r rfl
    · exact confined_serve _ _ _ _ special
  | _ => exact plain _

theorem confined_perform_of_roaming {env : Environment σ} (roaming : bounds.Roaming)
    (handlers : env.interrupts = fun _ => none) {room : Nat} {i : Instruction}
    (reads : ∀ r, i = .syscall .readS r → Confined bounds (readString env.host r room 0)) :
    Confined bounds (perform env room i) := by
  refine confined_perform_of_handlers roaming (fun id handler known => ?_) reads
  rw [handlers] at known
  cases known

end Session

end BasicMachine
