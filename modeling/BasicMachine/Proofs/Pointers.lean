import BasicMachine.Proofs.LineInput
import BasicMachine.Proofs.PackedValues

/-!
# How far pointers reach

Every pointer in a machine comes from an operand, from arithmetic, which stays below the largest address that a value
can hold, or from the heap. Operands are wider than that, and so is one address after the last cell of a full memory;
a machine that is given neither holds only pointers that pack into a word.
-/
namespace BasicMachine

open Session

namespace Single

open Float.Model

/-- The exponent of a word whose number is not above the largest address. -/
theorem biased_le {x : Float32} (number : x.isNaN = false) (sign : (parts x).negative = false)
    (h : x ≤ Float32.ofNat maxPointer) : x.toBits.toNat / 0x800000 % 256 ≤ 147 := by
  have largest : (Float32.ofNat maxPointer).toModel.unpack = ofWhole maxPointer (by decide) :=
    unpack_ofScientific (by decide) (by decide)
  have log : maxPointer.log2 = 20 := by decide
  have order : x.toModel.unpack.le (ofWhole maxPointer (by decide)) = true := by
    rw [← largest]
    exact of_decide_eq_true h
  have positive : UnpackedFloat.Sign.ofBitVec (@UnpackedFloat.unpackSign .binary32 x.toBits.toBitVec) = .positive := by
    have below : x.toBits.toBitVec.toNat < 0x80000000 := Nat.lt_of_not_le (of_decide_eq_false sign)
    have zero : @UnpackedFloat.unpackSign .binary32 x.toBits.toBitVec = 0#1 := by
      apply BitVec.eq_of_toNat_eq
      rw [unpackSign_toNat, Nat.div_eq_of_lt below]
      rfl
    rw [zero]
    rfl
  by_contra big
  have exponent := unpackExponent_toNat x.toBits.toBitVec
  have plain : x.toModel.unpack.isNaN = false := number
  have large : 147 < (@UnpackedFloat.unpackExponent .binary32 x.toBits.toBitVec).toNat := by
    rw [exponent]
    exact Nat.lt_of_not_le big
  have normal : @UnpackedFloat.unpackExponent .binary32 x.toBits.toBitVec ≠ 0#8 := by
    intro zero
    rw [zero] at large
    exact absurd large (by decide)
  change (UnpackedFloat.unpack .binary32 x.toBits.toBitVec).le _ = true at order
  change (UnpackedFloat.unpack .binary32 x.toBits.toBitVec).isNaN = false at plain
  rw [UnpackedFloat.unpack] at order plain
  by_cases top : @UnpackedFloat.unpackExponent .binary32 x.toBits.toBitVec = -1#8
  · by_cases zero : @UnpackedFloat.unpackMantissa .binary32 x.toBits.toBitVec = 0#23
    · simp only [top, zero, if_true, positive] at order
      cases order
    · simp only [top, if_true] at plain
      rw [if_neg zero] at plain
      cases plain
  · simp only [top, normal, if_false, positive, ofWhole, log] at order
    rw [UnpackedFloat.le, UnpackedFloat.compare, Option.any_some, Int.compare_eq_gt.mpr] at order
    · cases order
    · have bias : Format.binary32.exponentBias = 127 := rfl
      show (20 : Int) - 23 < _ - ((Format.binary32.exponentBias : Nat) + (23 : Nat))
      omega

theorem truncate_le_maxPointer {x : Float32} (h : x ≤ Float32.ofNat maxPointer) : truncate x ≤ maxPointer := by
  unfold truncate
  split
  · exact Int.natCast_nonneg _
  next number =>
    split
    · have := Int.natCast_nonneg (parts x).whole
      omega
    next sign =>
      have small := biased_le (Bool.eq_false_iff.mpr number) (Bool.eq_false_iff.mpr sign) h
      have exponent : (parts x).exponent ≤ -3 := by
        show ((max (x.toBits.toNat / 0x800000 % 256) 1 : Nat) : Int) - 150 ≤ -3
        omega
      have mantissa : (parts x).mantissa < 0x1000000 := by
        have fraction := Nat.mod_lt x.toBits.toNat (show 0x800000 > 0 by decide)
        show (if _ then _ else _) < 0x1000000
        split
        · exact Nat.lt_trans fraction (by decide)
        · exact Nat.add_lt_add_left fraction 0x800000
      have whole : (parts x).whole ≤ maxPointer := by
        rw [Parts.whole, if_neg (by omega), Nat.shiftRight_eq_div_pow]
        have divisor : 2 ^ 3 ≤ 2 ^ (-(parts x).exponent).toNat := Nat.pow_le_pow_right (by decide) (by omega)
        have less := Nat.div_le_div (Nat.le_of_lt_succ mantissa) divisor (by decide)
        exact Nat.le_trans less (by decide)
      exact Int.ofNat_le.mpr whole

end Single

/-- A pointer up to the limit, or no pointer. -/
def Value.Upto (limit : Nat) : Value → Prop
  | .pointer address => address ≤ limit
  | _ => True

/-- A machine that holds no pointer past `limit`, and an index and cells not past `reach`. -/
structure Machine.Upto (limit reach : Nat) (m : Machine) : Prop where
  a : m.a.Upto limit
  b : m.b.Upto limit
  c : m.c.Upto limit
  stack : ∀ v ∈ m.stack.items, v.Upto limit
  memory : ∀ v ∈ m.memory, v.Upto limit
  idx : m.idx ≤ reach
  cells : m.memory.size ≤ limit + 1
  room : m.memory.size ≤ reach
  heap : m.heap ≤ m.memory.size

/-- The computation keeps to `inv`, and its result to `post`. -/
structure Preserves {S α : Type} (inv : S → Prop) (post : α → Prop) (x : EStateM Error S α) : Prop where
  ok : ∀ {s a s'}, inv s → x s = .ok a s' → inv s' ∧ post a
  error : ∀ {s e s'}, inv s → x s = .error e s' → inv s'

namespace Preserves

variable {S α β : Type} {inv : S → Prop} {post : α → Prop} {later : β → Prop}

theorem pure {a : α} (h : post a) : Preserves inv post (Pure.pure a) where
  ok kept same := by cases same; exact ⟨kept, h⟩
  error _ same := by cases same

theorem bind {x : EStateM Error S α} {f : α → EStateM Error S β} (first : Preserves inv post x)
    (second : ∀ a, post a → Preserves inv later (f a)) : Preserves inv later (x >>= f) where
  ok {s b s'} kept h := by
    simp only [Bind.bind, EStateM.bind] at h
    split at h
    · next r => exact (second _ (first.ok kept r).2).ok (first.ok kept r).1 h
    · cases h
  error {s e s'} kept h := by
    simp only [Bind.bind, EStateM.bind] at h
    split at h
    · next r => exact (second _ (first.ok kept r).2).error (first.ok kept r).1 h
    · next r =>
      cases h
      exact first.error kept r

theorem mono {post' : α → Prop} {x : EStateM Error S α} (h : Preserves inv post x) (weaker : ∀ a, post a → post' a) :
    Preserves inv post' x where
  ok kept same := (h.ok kept same).imp_right (weaker _)
  error := h.error

theorem ite {c : Prop} [Decidable c] {yes no : EStateM Error S α} (first : c → Preserves inv post yes)
    (second : ¬ c → Preserves inv post no) : Preserves inv post (if c then yes else no) := by
  split
  next h => exact first h
  next h => exact second h

theorem throw {e : Error} : Preserves inv post (MonadExcept.throw e) where
  ok _ same := by cases same
  error kept same := by cases same; exact kept

/-- What follows a failure does not matter. -/
theorem throw_bind {e : Error} {f : α → EStateM Error S β} : Preserves inv later (MonadExcept.throw e >>= f) :=
  have fails : Preserves inv (fun _ : α => False) (MonadExcept.throw e) := throw
  .bind fails fun _ never => never.elim

theorem get : Preserves inv inv (MonadState.get : EStateM Error S S) where
  ok kept same := by cases same; exact ⟨kept, kept⟩
  error _ same := by cases same

theorem modify {f : S → S} (h : ∀ s, inv s → inv (f s)) :
    Preserves inv (fun _ => True) (modify f : EStateM Error S PUnit) where
  ok kept same := by cases same; exact ⟨h _ kept, trivial⟩
  error _ same := by cases same

end Preserves

/-- Every result is a pointer up to the limit, or no pointer. -/
def Yields (limit : Nat) (r : Except Error Value) : Prop := ∀ v, r = .ok v → v.Upto limit

namespace Yields

variable {limit : Nat}

theorem ok {v : Value} (h : v.Upto limit) : Yields limit (.ok v) := by
  intro w same
  cases same
  exact h

theorem error {e : Error} : Yields limit (.error e) := nofun

theorem bind {α : Type} {r : Except Error α} {f : α → Except Error Value} (h : ∀ a, Yields limit (f a)) :
    Yields limit (r >>= f) := by
  cases r with
  | ok a => exact h a
  | error e => exact error

theorem ite {c : Prop} [Decidable c] {yes no : Except Error Value} (first : c → Yields limit yes)
    (second : ¬ c → Yields limit no) : Yields limit (if c then yes else no) := by
  split
  next h => exact first h
  next h => exact second h

end Yields

section
variable {limit : Nat}

theorem Value.upto_ofInt (n : Int) : (Value.ofInt n).Upto limit := by
  unfold Value.ofInt
  split <;> trivial

theorem Value.yields_rank (memory : Array Value) (l r : Value) : Yields limit (rank memory l r) := by
  refine .bind fun o => ?_
  split
  · exact .ok trivial
  · exact .ok trivial
  · exact .ok trivial
  · exact .error

theorem Relation.yields_apply (f : Relation) (memory : Array Value) (l r : Value) : Yields limit (f.apply memory l r) := by
  refine .bind fun o => .ok ?_
  cases f.holds o <;> trivial

variable (wide : maxPointer ≤ limit)
include wide

theorem Value.yields_offset (address : Nat) (n : Int) : Yields limit (offset address n) := by
  refine .ite (fun _ => .error) fun inside => .ok ?_
  rw [not_or] at inside
  show (shifted address n).toNat ≤ limit
  omega

theorem Unary.yields_apply (f : Unary) {v : Value} (given : v.Upto limit) : Yields limit (f.apply v) := by
  have number (g : Float32 → Float32) : Yields limit (v.ofNumber g) := .bind fun _ => .ok trivial
  cases f with
  | negate =>
    cases v with
    | integer n => exact .ok (Value.upto_ofInt _)
    | float x => exact .ok trivial
    | _ => exact .error
  | not => exact .bind fun b => .ok (by cases b <;> trivial)
  | floor =>
    cases v with
    | integer n => exact .ok trivial
    | float x =>
      simp only [Unary.apply, Value.floor]
      split <;> exact .ok trivial
    | pointer p => exact .ite (fun _ => .ok trivial) fun _ => .error
    | unset => exact .error
  | toPointer =>
    cases v with
    | pointer p => exact .ok given
    | integer n =>
      refine .ite (fun _ => .ok ?_) fun _ => .error
      have high := n.toInt_lt
      show n.toInt.toNat ≤ limit
      unfold maxPointer at wide
      omega
    | float x =>
      refine .ite (fun inside => .ok ?_) fun _ => .error
      have most := Single.truncate_le_maxPointer inside.2
      show (Single.truncate x).toNat ≤ limit
      omega
    | unset => exact .error
  | abs =>
    cases v with
    | integer n => exact .ok (Value.upto_ofInt _)
    | float x => exact .ok trivial
    | _ => exact .error
  | sqr => exact .bind fun _ => .ite (fun _ => .bind fun _ => .ok trivial) fun _ => .ok trivial
  | log => exact .bind fun _ => .ite (fun _ => .bind fun _ => .ok trivial) fun _ => .ok trivial
  | toFloat | sin | cos | tan | atn => exact number _

theorem Binary.yields_apply (f : Binary) (l r : Value) : Yields limit (f.apply l r) := by
  cases f with
  | add =>
    simp only [Binary.apply]
    unfold Value.add
    split <;> first
      | exact .ok (Value.upto_ofInt _) | exact .ok trivial | exact Value.yields_offset wide _ _ | exact .error
  | subtract =>
    simp only [Binary.apply]
    unfold Value.subtract
    split <;> first
      | exact .ok (Value.upto_ofInt _) | exact .ok trivial | exact Value.yields_offset wide _ _ | exact .error
  | multiply =>
    simp only [Binary.apply]
    unfold Value.multiply
    split <;> first | exact .ok (Value.upto_ofInt _) | exact .ok trivial | exact .error
  | divide => exact .bind fun _ => .bind fun _ => .ok trivial
  | divideWhole =>
    simp only [Binary.apply]
    unfold Value.divideWhole
    split
    · exact .ite (fun _ => .error) fun _ => .ite (fun _ => .ok trivial) fun _ => .error
    · refine .bind fun _ => .bind fun _ => .ite (fun _ => ?_) fun _ => ?_
      · exact .bind fun _ => .bind fun _ => .ok trivial
      · exact .bind fun _ => .ok trivial
  | remainder =>
    simp only [Binary.apply]
    unfold Value.remainder
    split
    · exact .ite (fun _ => .error) fun _ => .ok trivial
    · refine .bind fun _ => .ite (fun _ => ?_) fun _ => ?_
      · exact .bind fun _ => .bind fun _ => .ok trivial
      · exact .bind fun _ => .ok trivial
  | power =>
    simp only [Binary.apply]
    unfold Value.power
    split
    · exact .ite (fun _ => .ite (fun _ => .ok trivial) fun _ => .ok trivial) fun _ => .ok trivial
    · exact .bind fun _ => .bind fun _ => .ok trivial
  | and => exact .bind fun _ => .bind fun _ => .ok trivial
  | or => exact .bind fun _ => .bind fun _ => .ok trivial

end

/-- The values that an instruction holds. -/
def Instruction.offers : Instruction → List Value
  | .pointer .pushP address => [.pointer address]
  | .push v => [v]
  | _ => []

namespace Action

variable {limit reach : Nat} {α : Type}

/-- The action makes no pointer past the limit, and its result is as `post` says. -/
abbrev Upto (limit reach : Nat) (post : α → Prop) (a : Action α) : Prop := Preserves (Machine.Upto limit reach) post a

theorem upto_fail {post : α → Prop} {code : ErrorCode} {detail : String} :
    Upto limit reach post (fail code detail : Action α) := .throw

theorem upto_ofExcept {r : Except Error α} {post : α → Prop} (h : ∀ a, r = .ok a → post a) :
    Upto limit reach post (ofExcept r) := by
  cases r with
  | ok a => exact .pure (h a rfl)
  | error e => exact .throw

/-- A result that is no value. -/
theorem upto_some {r : Except Error α} : Upto limit reach (fun _ => True) (ofExcept r) := upto_ofExcept fun _ _ => trivial

theorem upto_push {v : Value} (h : v.Upto limit) : Upto limit reach (fun _ => True) (push v) where
  ok {m _ _} kept same := by
    rw [push_apply] at same
    split at same <;> cases same
    refine ⟨{ kept with stack := fun w member => ?_ }, trivial⟩
    rcases Array.mem_push.mp member with older | rfl
    · exact kept.stack w older
    · exact h
  error kept same := by
    rw [push_apply] at same
    split at same <;> cases same
    exact kept

theorem upto_pop : Upto limit reach (Value.Upto limit) pop where
  ok {m v _} kept same := by
    rw [pop_apply] at same
    split at same <;> cases same
    next top =>
      exact ⟨{ kept with stack := fun w member => kept.stack w (Stack.mem_of_mem_dropTop member) },
        kept.stack v (Array.mem_of_back? top)⟩
  error kept same := by
    rw [pop_apply] at same
    split at same <;> cases same
    exact kept

theorem upto_pop2 : Upto limit reach (fun vs => vs.1.Upto limit ∧ vs.2.Upto limit) pop2 := by
  rw [pop2_eq_pops]
  exact .bind upto_pop fun _ second => .bind upto_pop fun _ first => .pure ⟨first, second⟩

theorem upto_register (r : Register) : Upto limit reach (Value.Upto limit) (register r) := by
  refine .bind .get fun m kept => .pure ?_
  cases r with
  | a => exact kept.a
  | b => exact kept.b
  | c => exact kept.c

theorem upto_setRegister (r : Register) {v : Value} (h : v.Upto limit) : Upto limit reach (fun _ => True) (setRegister r v) := by
  refine .modify fun m kept => ?_
  cases r with
  | a => exact { kept with a := h }
  | b => exact { kept with b := h }
  | c => exact { kept with c := h }

theorem upto_setIdx {address : Nat} (h : address ≤ reach) : Upto limit reach (fun _ => True) (setIdx address) :=
  .modify fun _ kept => { kept with idx := h }

theorem upto_setPc (address : Nat) : Upto limit reach (fun _ => True) (setPc address) := .modify fun _ kept => { kept with }

theorem upto_cell (address : Nat) : Upto limit reach (Value.Upto limit) (cell address) where
  ok {m v _} kept same := by
    unfold cell at same
    split at same <;> cases same
    next found => exact ⟨kept, kept.memory v (Array.mem_of_getElem? found)⟩
  error kept same := by
    unfold cell at same
    split at same <;> cases same
    exact kept

/-- What is stored has a cell. -/
theorem upto_setCell {address : Nat} {v : Value} (h : v.Upto limit) :
    Upto limit reach (fun _ => address < limit + 1 ∧ address < reach) (setCell address v) where
  ok {m _ _} kept same := by
    unfold setCell at same
    split at same <;> cases same
    next inside =>
      have size : (m.memory.setIfInBounds address v).size = m.memory.size := Array.size_setIfInBounds ..
      refine ⟨{ kept with
        memory := fun w member => ?_
        cells := size.symm ▸ kept.cells
        room := size.symm ▸ kept.room
        heap := size.symm ▸ kept.heap }, Nat.lt_of_lt_of_le inside kept.cells, Nat.lt_of_lt_of_le inside kept.room⟩
      rcases Array.mem_or_eq_of_mem_setIfInBounds member with older | rfl
      · exact kept.memory w older
      · exact h
  error kept same := by
    unfold setCell at same
    split at same <;> cases same
    exact kept

theorem upto_indexed (offset : Int16) : Upto limit reach (fun _ => True) (indexed offset) :=
  .bind .get fun _ _ => .ite (fun _ => .throw_bind) fun _ => .pure trivial

theorem upto_clearCells (count address : Nat) : Upto limit reach (fun _ => True) (clearCells count address) := by
  induction count generalizing address with
  | zero => exact .pure trivial
  | succ count ih => exact .bind (upto_setCell trivial) fun _ _ => ih _

theorem upto_storeString (bytes : List UInt8) (address : Nat) : Upto limit reach (fun _ => True) (storeString bytes address) := by
  induction bytes generalizing address with
  | nil => exact .mono (upto_setCell trivial) fun _ _ => trivial
  | cons b rest ih => exact .bind (upto_setCell trivial) fun _ _ => ih _

theorem upto_setString (bytes : List UInt8) : Upto limit reach (fun _ => True) (setString bytes) := by
  have next (b : UInt8) : Upto limit reach (fun _ => True) (setString.setNext b) :=
    .bind .get fun _ _ => .bind (upto_setCell trivial) fun _ inside => upto_setIdx inside.2
  induction bytes with
  | nil => exact next 0
  | cons b rest ih => exact .bind (next b) fun _ _ => ih

theorem upto_allocate (n : Nat) : Upto limit reach (fun address => address ≤ reach ∧ address + n ≤ limit + 1) (allocate n) where
  ok {m _ _} kept same := by
    rw [allocate, run_get_bind] at same
    split at same <;> cases same
    next fits =>
      have less : m.heap - n ≤ m.memory.size := Nat.le_trans (Nat.sub_le _ _) kept.heap
      have cells := kept.cells
      have heap := kept.heap
      exact ⟨{ kept with heap := less }, Nat.le_trans less kept.room, by omega⟩
  error kept same := by
    rw [allocate, run_get_bind] at same
    split at same <;> cases same
    exact kept

theorem upto_text (address : Nat) : Upto limit reach (fun _ => True) (text address) :=
  .bind .get fun _ _ => .bind upto_some fun _ _ => .pure trivial

theorem upto_popByte : Upto limit reach (fun _ => True) popByte := .bind upto_pop fun _ _ => upto_some

theorem upto_popCoordinate : Upto limit reach (fun _ => True) popCoordinate := by
  refine .bind upto_pop fun v _ => ?_
  split
  · exact .pure trivial
  · exact .ite (fun _ => .pure trivial) fun _ => upto_fail
  · exact upto_fail

theorem upto_popCount : Upto limit reach (fun _ => True) popCount := by
  refine .bind upto_pop fun v _ => ?_
  split
  · exact .ite (fun _ => .pure trivial) fun _ => upto_fail
  · exact .ite (fun _ => .pure trivial) fun _ => upto_fail
  · exact upto_fail

/-- The address of a pointer. -/
theorem upto_asPointer {v : Value} (given : v.Upto limit) : Upto limit reach (· ≤ limit) (ofExcept v.asPointer) := by
  refine upto_ofExcept fun address same => ?_
  cases v with
  | pointer p => cases same; exact given
  | _ => cases same

theorem upto_compareWith {f : Array Value → Value → Value → Except Error Value}
    (h : ∀ memory l r, Yields limit (f memory l r)) : Upto limit reach (fun _ => True) (compareWith f) :=
  .bind upto_pop2 fun _ _ => .bind .get fun _ _ => .bind (upto_ofExcept (h _ _ _)) fun _ => upto_push

theorem upto_ret : Upto limit reach (fun _ => True) (plainEffect .ret) where
  ok kept same := by
    simp only [plainEffect] at same
    split at same <;> cases same
    exact ⟨{ kept with }, trivial⟩
  error kept same := by
    simp only [plainEffect] at same
    split at same <;> cases same
    exact kept

theorem upto_call (n : Int16) : Upto limit reach (fun _ => True) (shortEffect (fun _ => none) n .call) where
  ok kept same := by
    simp only [shortEffect] at same
    split at same <;> cases same
    exact ⟨{ kept with }, trivial⟩
  error kept same := by
    simp only [shortEffect] at same
    split at same <;> cases same
    exact kept

section
variable (wide : maxPointer ≤ limit) (order : limit ≤ reach)
include wide order

/-- An instruction without operand, PUSHIDX apart. -/
theorem upto_plainEffect {op : PlainOp} (other : op ≠ .pushIdx) : Upto limit reach (fun _ => True) (plainEffect op) := by
  cases op with
  | nop | halt | yield => exact .pure trivial
  | trace => exact .modify fun _ kept => { kept with }
  | pop => exact .bind upto_pop fun _ _ => .pure trivial
  | dup => exact .bind upto_pop fun _ given => .bind (upto_push given) fun _ _ => upto_push given
  | swap => exact .bind upto_pop2 fun _ given => .bind (upto_push given.2) fun _ _ => upto_push given.1
  | pushReg r => exact .bind (upto_register r) fun _ => upto_push
  | popReg r => exact .bind upto_pop fun _ => upto_setRegister r
  | loadI => exact .bind .get fun _ _ => .bind (upto_cell _) fun _ => upto_push
  | storeI =>
    exact .bind upto_pop fun _ given => .bind .get fun _ _ => (upto_setCell given).mono fun _ _ => trivial
  | pushIdx => exact absurd rfl other
  | popIdx =>
    exact .bind upto_pop fun _ given => .bind (upto_asPointer given) fun _ inside => upto_setIdx (Nat.le_trans inside order)
  | calloc =>
    exact .bind upto_pop fun _ _ => .bind upto_some fun _ _ => .bind (upto_allocate _) fun _ inside =>
      .bind (upto_setIdx inside.1) fun _ _ => upto_clearCells _ _
  | unary f => exact .bind upto_pop fun _ given => .bind (upto_ofExcept (f.yields_apply wide given)) fun _ => upto_push
  | binary f =>
    exact .bind upto_pop2 fun _ _ => .bind (upto_ofExcept (f.yields_apply wide _ _)) fun _ => upto_push
  | relation f => exact upto_compareWith fun memory => f.yields_apply memory
  | cmp => exact upto_compareWith Value.yields_rank
  | rnd =>
    exact .bind upto_pop fun _ _ => .bind upto_some fun _ _ => .bind .get fun _ _ =>
      .bind (.modify fun _ kept => { kept with }) fun _ _ => upto_push trivial
  | seed => exact .bind upto_pop fun _ _ => .modify fun _ kept => { kept with }
  | len =>
    exact .bind upto_pop fun _ _ => .bind upto_some fun _ _ => .bind .get fun _ _ => .bind upto_some fun _ _ =>
      .ite (fun _ => .throw_bind) fun _ => upto_push trivial
  | clock => exact .bind .get fun _ _ => upto_push trivial
  | ret => exact upto_ret

theorem upto_effect {i : Instruction} (other : i ≠ .plain .pushIdx)
    (offered : ∀ v ∈ i.offers, v.Upto limit) (target : ∀ address, i = .pointer .setIdx address → address ≤ reach) :
    Upto limit reach (fun _ => True) (effect (fun _ => none) i) := by
  cases i with
  | plain op => exact upto_plainEffect wide order fun same => other (same ▸ rfl)
  | short op n =>
    cases op with
    | irq => exact upto_fail
    | fail =>
      simp only [effect, shortEffect]
      split <;> exact upto_fail
    | pushI => exact upto_push trivial
    | loadX => exact .bind (upto_indexed _) fun _ _ => .bind (upto_cell _) fun _ => upto_push
    | storeX =>
      exact .bind (upto_indexed _) fun _ _ => .bind upto_pop fun _ given => (upto_setCell given).mono fun _ _ => trivial
    | deref =>
      exact .bind (upto_indexed _) fun _ _ => .bind (upto_cell _) fun _ given =>
        .bind (upto_asPointer given) fun _ inside => upto_setIdx (Nat.le_trans inside order)
    | alloc =>
      have rest : Upto limit reach (fun _ => True) (allocate n.toInt.toNat >>= setIdx) :=
        .bind (upto_allocate _) fun _ inside => upto_setIdx inside.1
      exact .ite (fun _ => .throw_bind) fun _ => rest
    | clr => exact .ite (fun _ => .bind (upto_indexed _) fun _ _ => upto_clearCells _ _) fun _ => .pure trivial
    | jmp => exact upto_setPc _
    | jz =>
      exact .bind upto_pop fun _ _ => .bind upto_some fun _ _ =>
        .ite (fun _ => .pure trivial) fun _ => upto_setPc _
    | jnz =>
      exact .bind upto_pop fun _ _ => .bind upto_some fun _ _ =>
        .ite (fun _ => upto_setPc _) fun _ => .pure trivial
    | call => exact upto_call n
  | pointer op address =>
    cases op with
    | pushP => exact upto_push (offered _ List.mem_cons_self)
    | load => exact .bind (upto_cell _) fun _ => upto_push
    | store => exact .bind upto_pop fun _ given => (upto_setCell given).mono fun _ _ => trivial
    | setIdx => exact upto_setIdx (target address rfl)
  | pushF word => exact upto_push trivial
  | push v => exact upto_push (offered v List.mem_cons_self)
  | syscall call r => exact .pure trivial
  | setS bytes => exact upto_setString bytes

end

end Action

namespace Session

variable {σ α : Type} {limit reach : Nat}

/-- As for actions; nothing is said of the host. -/
abbrev Upto (limit reach : Nat) (post : α → Prop) (x : SessionM σ α) : Prop :=
  Preserves (fun s : Session σ => s.machine.Upto limit reach) post x

/-- An action does in a session what it does to the machine. -/
theorem preserves_act {inv : Machine → Prop} {a : Action α} {post : α → Prop} (h : Preserves inv post a) :
    Preserves (fun s : Session σ => inv s.machine) post (act a : SessionM σ α) where
  ok {s _ _} kept same := by
    rcases s with ⟨m, t⟩
    simp only [act] at same
    split at same <;> cases same
    next inner => exact h.ok kept inner
  error {s _ _} kept same := by
    rcases s with ⟨m, t⟩
    simp only [act] at same
    split at same <;> cases same
    next inner => exact h.error kept inner

theorem upto_ask (host : Host σ) (call : HostCall) : Upto limit reach (fun _ => True) (ask host call) where
  ok kept same := by cases same; exact ⟨kept, trivial⟩
  error _ same := by cases same

theorem upto_plot (host : Host σ) (colour : UInt8) (points : List Raster.Point) :
    Upto limit reach (fun _ => True) (plot host colour points) := by
  induction points with
  | nil => exact .pure trivial
  | cons p rest ih =>
    have asked : Upto limit reach (fun _ => True) (ask host (.setPixel (Int16.ofInt p.x) (Int16.ofInt p.y) colour)) :=
      upto_ask _ _
    exact .bind asked fun _ _ => ih

/-- One argument from the machine, and then the rest. -/
theorem upto_then {β : Type} {a : Action α} {f : α → SessionM σ β} {post : α → Prop} {later : β → Prop}
    (first : Action.Upto limit reach post a) (second : ∀ v, post v → Upto limit reach later (f v)) :
    Upto limit reach later (act a >>= f) :=
  .bind (preserves_act first) second

/-- A call to the host, whose answer is not used, ends a service. -/
theorem upto_tell (host : Host σ) (call : HostCall) (v : α) :
    Upto limit reach (fun _ => True) (do let _ ← ask host call; return v : SessionM σ α) :=
  .bind (upto_ask _ _) fun _ _ => .pure trivial

theorem upto_popLine : Action.Upto limit reach (fun _ => True) popLine :=
  .bind Action.upto_popByte fun _ _ => .bind Action.upto_popCoordinate fun _ _ => .bind Action.upto_popCoordinate fun _ _ =>
    .bind Action.upto_popCoordinate fun _ _ => .bind Action.upto_popCoordinate fun _ _ => .pure trivial

/-- A line has at least one cell, which its pointer names. -/
theorem upto_storeLine (line : String) : Action.Upto limit reach (· ≤ limit) (storeLine line) := by
  refine .bind (Action.upto_allocate _) fun address inside => .bind (Action.upto_storeString _ _) fun _ _ => .pure ?_
  omega

theorem upto_printed (v : Value) : Action.Upto limit reach (fun _ => True) (printed v) := by
  cases v with
  | integer n => exact .pure trivial
  | float x => exact .pure trivial
  | pointer address => exact Action.upto_text address
  | unset => exact Action.upto_fail

theorem upto_cellBytes (start n : Nat) : Action.Upto limit reach (fun _ => True) (cellBytes start n) :=
  .bind .get fun _ _ => .ite (fun _ => .throw_bind) fun _ => Action.upto_some

theorem upto_inputValue (line : String) : (inputValue line).Upto limit := by
  unfold inputValue
  dsimp only
  split <;> trivial

/-- The line lies at the index, which names a cell. -/
theorem upto_closeLine (r : Register) : Action.Upto limit reach (fun _ => True) (closeLine r) where
  ok {m _ _} kept same := by
    rw [closeLine_eq] at same
    split at same <;> cases same
    next inside =>
      have named : m.idx ≤ limit := by
        have cells := kept.cells
        omega
      have done := Action.setCell_eq_ok (.integer 0) inside
      have stored := ((Action.upto_setCell (show (Value.integer 0).Upto limit from trivial)).ok kept done).1
      cases r with
      | a => exact ⟨{ stored with a := named }, trivial⟩
      | b => exact ⟨{ stored with b := named }, trivial⟩
      | c => exact ⟨{ stored with c := named }, trivial⟩
  error kept same := by
    rw [closeLine_eq] at same
    split at same <;> cases same
    exact kept

theorem upto_readString (host : Host σ) (r : Register) (room extra : Nat) :
    Upto limit reach (fun _ => True) (readString host r room extra) := by
  have keep (b : UInt8) : Action.Upto limit reach (fun _ => True) (keepByte b) :=
    .bind .get fun _ _ => .bind (Action.upto_setCell trivial) fun _ _ => .modify fun _ kept => { kept with }
  have close : Action.Upto limit reach (fun _ => True) (closeLine r) := upto_closeLine r
  induction room using Nat.strongRecOn generalizing extra with
  | _ room ih =>
    unfold readString
    refine .bind (upto_ask _ _) fun b _ => ?_
    split
    · exact .pure trivial
    split
    · exact upto_then close fun _ _ => .pure trivial
    refine upto_then (keep b) fun _ _ => ?_
    cases room with
    | zero => exact .pure trivial
    | succ left =>
      dsimp only
      split
      · exact .pure trivial
      · exact ih left (Nat.lt_succ_self left) _

theorem upto_serve (host : Host σ) (r : Register) (room : Nat) (call : Syscall) :
    Upto limit reach (fun _ => True) (serve host r room call) := by
  have byteOfRegister : Action.Upto limit reach (fun _ => True) (do Action.ofExcept (← Action.register r).asByte) :=
    .bind (Action.upto_register r) fun _ _ => Action.upto_some
  have answer {v : Value} (h : v.Upto limit) :
      Upto limit reach (fun _ => True) (do act (Action.setRegister r v); return .next 0 : SessionM σ Progress) :=
    upto_then (Action.upto_setRegister _ h) fun _ _ => .pure trivial
  cases call with
  | cls => exact upto_tell _ _ _
  | write => exact upto_then byteOfRegister fun _ _ => upto_tell _ _ _
  | read => exact .bind (upto_ask _ _) fun b _ => answer trivial
  | readKey => exact .bind (upto_ask _ _) fun b _ => answer trivial
  | keySet =>
    exact upto_then byteOfRegister fun _ _ => .bind (upto_ask _ _) fun down _ => answer (by cases down <;> trivial)
  | puts =>
    have shown : Action.Upto limit reach (fun _ => True)
        (do Action.text (← Action.ofExcept (← Action.register r).asPointer)) :=
      .bind (Action.upto_register r) fun v _ => .bind Action.upto_some fun _ _ => Action.upto_text _
    exact upto_then shown fun _ _ => upto_tell _ _ _
  | gets =>
    refine .bind (upto_ask _ _) fun line _ => ?_
    have stored : Action.Upto limit reach (fun _ => True) (do Action.setRegister r (.pointer (← storeLine line))) :=
      .bind (upto_storeLine line) fun _ inside => Action.upto_setRegister r inside
    exact upto_then stored fun _ _ => .pure trivial
  | readS => exact upto_readString host r room 0
  | print =>
    have shown : Action.Upto limit reach (fun _ => True) (do printed (← Action.register r)) :=
      .bind (Action.upto_register r) fun v _ => upto_printed v
    exact upto_then shown fun _ _ => upto_tell _ _ _
  | input => exact .bind (upto_ask _ _) fun line _ => answer (upto_inputValue line)
  | palette => exact upto_then byteOfRegister fun _ _ => upto_tell _ _ _
  | colours => exact upto_then Action.upto_popByte fun _ _ => upto_then Action.upto_popByte fun _ _ => upto_tell _ _ _
  | setPixel =>
    exact upto_then Action.upto_popByte fun _ _ => upto_then Action.upto_popCoordinate fun _ _ =>
      upto_then Action.upto_popCoordinate fun _ _ => upto_tell _ _ _
  | getPixel =>
    exact upto_then Action.upto_popCoordinate fun _ _ => upto_then Action.upto_popCoordinate fun _ _ =>
      .bind (upto_ask _ _) fun b _ => answer trivial
  | cursor => exact upto_then Action.upto_popByte fun _ _ => upto_then Action.upto_popByte fun _ _ => upto_tell _ _ _
  | blit =>
    have bytes (n : Nat) : Action.Upto limit reach (fun _ => True)
        (do cellBytes (← Action.ofExcept (← Action.register r).asPointer) n) :=
      .bind (Action.upto_register r) fun v _ => .bind Action.upto_some fun _ _ => upto_cellBytes _ _
    exact upto_then Action.upto_popCount fun n _ => upto_then Action.upto_popCoordinate fun _ _ =>
      upto_then Action.upto_popCoordinate fun _ _ => upto_then (bytes n.toNat) fun _ _ => upto_tell _ _ _
  | sound =>
    exact upto_then Action.upto_popCount fun _ _ => upto_then Action.upto_popCount fun _ _ =>
      upto_then Action.upto_popByte fun _ _ => upto_tell _ _ _
  | voice =>
    exact upto_then Action.upto_popByte fun _ _ => upto_then Action.upto_popByte fun _ _ => upto_then Action.upto_popByte fun _ _ =>
      upto_then Action.upto_popByte fun _ _ => upto_then Action.upto_popByte fun _ _ => upto_then Action.upto_popByte fun _ _ =>
      upto_then Action.upto_popByte fun _ _ => upto_tell _ _ _
  | line => exact upto_then upto_popLine fun _ _ => .bind (upto_plot _ _ _) fun _ _ => .pure trivial
  | box => exact upto_then upto_popLine fun _ _ => .bind (upto_plot _ _ _) fun _ _ => .pure trivial

/-- The machine that an instruction leads to. -/
def Outcome.machine : Outcome σ → Machine
  | .next _ s => s.machine
  | .stop _ s => s.machine

/-- What the next instruction has in it for a machine does not lead past the limits. -/
structure Grants (p : Program) (limit reach : Nat) (m : Machine) : Prop where
  operand : ∀ address next, p.instructionAt m.pc = .ok (.pointer .pushP address, next) → address ≤ limit
  target : ∀ address next, p.instructionAt m.pc = .ok (.pointer .setIdx address, next) → address ≤ reach
  index : ∀ next, p.instructionAt m.pc = .ok (.plain .pushIdx, next) → m.idx ≤ limit

theorem upto_reset {m : Machine} (kept : m.Upto limit reach) : m.reset.Upto limit reach where
  a := trivial
  b := trivial
  c := trivial
  stack := nofun
  memory v member := by
    obtain ⟨_, -, rfl⟩ := Array.mem_map.mp member
    trivial
  idx := Nat.zero_le _
  cells := (Array.size_map ..).symm ▸ kept.cells
  room := (Array.size_map ..).symm ▸ kept.room
  heap := Nat.le_of_eq (Array.size_map ..).symm

theorem upto_ofStep {address left : Nat} {r : EStateM.Result Error (Session σ) Progress}
    (ok : ∀ progress s, r = .ok progress s → s.machine.Upto limit reach)
    (error : ∀ e s, r = .error e s → s.machine.Upto limit reach) :
    (Outcome.ofStep address left r).machine.Upto limit reach := by
  unfold Outcome.ofStep
  split
  next e s => exact { error e s rfl with }
  next extra s => exact ok _ s rfl
  next s => exact ok _ s rfl
  next s => exact { ok _ s rfl with }
  next s => exact upto_reset (ok _ s rfl)

/-- A packed value holds no more than an address of 21 bits. -/
theorem upto_ofWord (wide : maxPointer ≤ limit) (w : UInt32) : (Value.ofWord w).Upto limit := by
  have small : (w &&& Value.addressMask).toNat ≤ maxPointer := by
    rw [UInt32.toNat_and]
    exact Nat.and_le_right
  unfold Value.ofWord
  split
  · trivial
  split
  · exact Nat.le_trans small wide
  split
  · split <;> trivial
  · trivial

theorem offered_of_decoded (wide : maxPointer ≤ limit) {p : Program} {op : Opcode} {address : Nat} {i : Instruction}
    (decoded : p.instructionOf op address = .ok i) (operand : ∀ target, i = .pointer .pushP target → target ≤ limit) :
    ∀ v ∈ i.offers, v.Upto limit := by
  intro v member
  cases i with
  | pointer pop target =>
    cases pop with
    | pushP => cases List.mem_singleton.mp member; exact operand target rfl
    | _ => cases member
  | push w =>
    have same := opcode_of_instructionOf decoded
    subst same
    cases decoded
    cases List.mem_singleton.mp member
    exact upto_ofWord wide _
  | _ => cases member

section
variable (wide : maxPointer ≤ limit) (order : limit ≤ reach) {env : Environment σ} {p : Program}
  (handlers : env.interrupts = fun _ => none)
include wide order handlers

theorem upto_perform {i : Instruction} (other : i ≠ .plain .pushIdx) (offered : ∀ v ∈ i.offers, v.Upto limit)
    (target : ∀ address, i = .pointer .setIdx address → address ≤ reach) (room : Nat) :
    Upto limit reach (fun _ => True) (perform env room i) := by
  have effect : Action.Upto limit reach (fun _ => True) (Action.effect env.interrupts i) := by
    rw [handlers]
    exact Action.upto_effect wide order other offered target
  cases i with
  | syscall call r => exact upto_serve _ _ _ _
  | _ => exact upto_then effect fun _ _ => .pure trivial

/-- An instruction leads no further than what it has in it. -/
theorem upto_advance {s : Session σ} (kept : s.machine.Upto limit reach) (grants : Grants p limit reach s.machine)
    (left : Nat) : (advance env p left s).machine.Upto limit reach := by
  have seen (op : Opcode) : (watched env op s).machine.Upto limit reach := by
    rw [machine_watched]
    exact kept
  cases left with
  | zero => exact kept
  | succ left =>
    cases fetched : Opcode.ofByte (p.fetch s.machine.pc) with
    | error e =>
      rw [advance_unknown fetched]
      exact { kept with }
    | ok op =>
      by_cases nop : op = .plain .nop
      · subst nop
        rw [advance_nop fetched]
        exact { seen (.plain .nop) with }
      · have passed : (withMachine (passed p op) (watched env op s)).machine.Upto limit reach := { seen op with }
        rw [advance_step fetched nop]
        cases decoded : p.instructionOf op (s.machine.pc + 1) with
        | error e =>
          rw [step_undecoded decoded]
          refine upto_ofStep (by simp) fun _ _ h => ?_
          cases h
          exact passed
        | ok i =>
          have found := Program.instructionAt_of_decoded fetched decoded
          have offered : ∀ v ∈ i.offers, v.Upto limit := offered_of_decoded wide decoded fun address same =>
            grants.operand address _ (same ▸ found)
          have target : ∀ address, i = .pointer .setIdx address → address ≤ reach := fun address same =>
            grants.target address _ (same ▸ found)
          rw [step_decoded decoded]
          by_cases index : i = .plain .pushIdx
          · have small : s.machine.idx ≤ limit := grants.index _ (index ▸ found)
            have same : (watched env op s).machine.idx = s.machine.idx := by rw [machine_watched]
            have pushes : perform env left i (withMachine (Session.passed p op) (watched env op s)) =
                perform env left (.push (.pointer s.machine.idx)) (withMachine (Session.passed p op) (watched env op s)) := by
              subst index
              rw [← same]
              rfl
            have does := upto_perform wide order handlers (i := .push (.pointer s.machine.idx)) (by simp)
              (fun v member => by cases List.mem_singleton.mp member; exact small) (by simp) left
            rw [pushes]
            exact upto_ofStep (fun _ _ h => (does.ok passed h).1) fun _ _ h => does.error passed h
          · have does := upto_perform wide order handlers index offered target left
            exact upto_ofStep (fun _ _ h => (does.ok passed h).1) fun _ _ h => does.error passed h

end

/-- The machines that occur while a program runs on one that was new, with any hosts and cut into any runs: after each
run, and before each instruction. -/
inductive Occurs (p : Program) (config : Config) : Machine → Prop
  | new : Occurs p config (.new config)
  | ran {σ : Type} {m : Machine} (before : Occurs p config m) (env : Environment σ)
      (handlers : env.interrupts = fun _ => none) (budget : Nat) (t : σ) :
      Occurs p config (machineAfter (run env p budget ⟨m, t⟩))
  | visited {σ : Type} {m : Machine} (before : Occurs p config m) (env : Environment σ)
      (handlers : env.interrupts = fun _ => none) (budget : Nat) (t : σ) {start s : Session σ}
      (begun : act (begin p) ⟨m, t⟩ = .ok () start) (visits : Visits env p budget start s) : Occurs p config s.machine

section
variable {p : Program} {config : Config} {inv : Machine → Prop}

/-- What holds of a new machine and is kept by the start of a run and by each instruction holds at all times. -/
theorem Occurs.invariant (new : inv (.new config)) (begins : ∀ {m m'}, inv m → begin p m = .ok () m' → inv m')
    (refuses : ∀ {m e m'}, inv m → begin p m = .error e m' → inv m')
    (advances : ∀ {σ : Type} {env : Environment σ} (left : Nat) {s : Session σ}, env.interrupts = (fun _ => none) →
      Occurs p config s.machine → s.machine.status = .running → inv s.machine → inv (advance env p (left + 1) s).machine)
    {m : Machine} (occurs : Occurs p config m) : inv m := by
  have goes {σ : Type} {env : Environment σ} (left : Nat) {s : Session σ} (handlers : env.interrupts = fun _ => none)
      (occur : ∀ v, Visits env p left s v → Occurs p config v.machine) (running : s.machine.status = .running)
      (holds : inv s.machine) : inv (advance env p left s).machine := by
    cases left with
    | zero => exact holds
    | succ left => exact advances left handlers (occur s (.here left s)) running holds
  have goesOn {σ : Type} {env : Environment σ} {left left' : Nat} {s s' : Session σ}
      (handlers : env.interrupts = fun _ => none) (occur : ∀ v, Visits env p left s v → Occurs p config v.machine)
      (running : s.machine.status = .running) (holds : inv s.machine) (went : advance env p left s = .next left' s') :
      (∀ v, Visits env p left' s' v → Occurs p config v.machine) ∧ s'.machine.status = .running ∧ inv s'.machine := by
    have upkept := upkept_advance handlers p left s
    have after := goes left handlers occur running holds
    rw [went] at upkept after
    exact ⟨fun v visits => occur v (.next went visits), upkept.status.trans running, after⟩
  induction occurs with
  | new => exact new
  | @ran σ m before env handlers budget t ih =>
    have ends (left : Nat) {s : Session σ} (occur : ∀ v, Visits env p left s v → Occurs p config v.machine)
        (running : s.machine.status = .running) (holds : inv s.machine) : inv (course env p left s).2.machine := by
      fun_induction course env p left s with
      | case1 left s why t stopped =>
        have after := goes left handlers occur running holds
        rwa [stopped] at after
      | case2 left s left' s' went less ih =>
        obtain ⟨occur, running, holds⟩ := goesOn handlers occur running holds went
        exact ih occur running holds
    rw [run_eq_slice, slice]
    cases begun : act (begin p) ⟨m, t⟩ with
    | ok v s =>
      have went := begin_eq_ok begun
      have after := ends budget (fun v visits => .visited before env handlers budget t begun visits)
        (running_of_begun went) (begins ih went)
      dsimp only
      cases (course env p budget s).1 <;> exact after
    | error e s =>
      simp only [act] at begun
      split at begun <;> cases begun
      next refused => exact refuses ih refused
  | @visited σ m before env handlers budget t start s begun visits ih =>
    have went := begin_eq_ok begun
    have occur : ∀ v, Visits env p budget start v → Occurs p config v.machine :=
      fun v visits => .visited before env handlers budget t begun visits
    have running := running_of_begun went
    have holds := begins ih went
    clear begun went
    induction visits with
    | here => exact holds
    | next went later ih =>
      obtain ⟨occur, running, holds⟩ := goesOn handlers occur running holds went
      exact ih occur running holds

theorem upto_new (limit reach : Nat) (cells : min config.memorySize (maxPointer + 1) ≤ limit + 1)
    (room : min config.memorySize (maxPointer + 1) ≤ reach) : (Machine.new config).Upto limit reach where
  a := trivial
  b := trivial
  c := trivial
  stack := nofun
  memory v member := by
    rw [(Array.mem_replicate.mp member).2]
    trivial
  idx := Nat.zero_le _
  cells := by simpa [Machine.new] using cells
  room := by simpa [Machine.new] using room
  heap := by simp [Machine.new]

theorem upto_begin {limit reach : Nat} {m m' : Machine} (kept : m.Upto limit reach) (went : begin p m = .ok () m') :
    m'.Upto limit reach := by
  unfold begin at went
  split at went
  · cases went
  · cases went; exact kept
  · split at went <;> cases went
    exact { kept with }

theorem upto_refuse {limit reach : Nat} {m m' : Machine} {e : Error} (kept : m.Upto limit reach)
    (went : begin p m = .error e m') : m'.Upto limit reach := by
  unfold begin at went
  split at went
  · cases went; exact kept
  · cases went
  · split at went <;> cases went
    exact { kept with }

/-- No operand of a PUSHP or a SETIDX that the program comes to is past the limit. -/
def Points (p : Program) (config : Config) (limit : Nat) : Prop :=
  ∀ m, Occurs p config m → ∀ op target next, p.instructionAt m.pc = .ok (.pointer op target, next) →
    op = .pushP ∨ op = .setIdx → target ≤ limit

theorem upto_of_occurs {limit : Nat} (wide : maxPointer ≤ limit) (points : Points p config limit)
    (room : min config.memorySize (maxPointer + 1) ≤ limit) {m : Machine} (occurs : Occurs p config m) :
    m.Upto limit limit := by
  refine occurs.invariant (upto_new limit limit (Nat.le_succ_of_le room) room) upto_begin upto_refuse ?_
  intro σ env left s handlers occurs running kept
  exact upto_advance wide (Nat.le_refl _) handlers kept
    { operand := fun address next found => points _ occurs _ _ _ found (.inl rfl)
      target := fun address next found => points _ occurs _ _ _ found (.inr rfl)
      index := fun _ _ => kept.idx } (left + 1)

/-- An operand has 23 bits. -/
theorem points_all (p : Program) (config : Config) : Points p config 0x7fffff := by
  intro m _ op target next found _
  obtain ⟨opcode, -, decoded, -⟩ := instructionAt_eq_ok found
  obtain rfl := opcode_of_instructionOf decoded
  cases decoded
  have first := (p.byteAt (m.pc + 1)).toNat_lt
  have second := (p.byteAt (m.pc + 1 + 1)).toNat_lt
  have third := Nat.mod_lt (p.byteAt (m.pc + 1 + 2)).toNat (show 128 > 0 by decide)
  unfold Program.pointerAt
  omega

end

end Session

end BasicMachine
