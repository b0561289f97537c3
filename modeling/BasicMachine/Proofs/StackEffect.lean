import BasicMachine.Proofs.Access

/-!
# What instructions do to the stack

Most instructions take some values off the stack, put others on it, and leave memory and the course of the program
alone. How many values they take and give depends on nothing but the instruction, and only an instruction that finds
fewer values than it takes fails for want of them.
-/
namespace BasicMachine

namespace Machine

/-- The values on the stack, the topmost first. -/
def values (m : Machine) : List Value := m.stack.items.toList.reverse

theorem values_insert (m : Machine) (v : Value) :
    ({ m with stack := m.stack.insert v } : Machine).values = v :: m.values := by
  simp [values, Stack.insert]

theorem values_dropTop (m : Machine) : ({ m with stack := m.stack.dropTop } : Machine).values = m.values.tail := by
  simp [values, Stack.dropTop]

theorem top?_eq (m : Machine) : m.stack.top? = m.values.head? := by
  simp [values, Stack.top?, Array.back?_eq_getElem?, List.getLast?_eq_getElem?]

/-- Nothing has changed but values on the stack, registers and clocks. -/
structure Still (m m' : Machine) : Prop where
  pc : m'.pc = m.pc
  calls : m'.calls = m.calls
  memory : m'.memory = m.memory
  heap : m'.heap = m.heap
  floor : m'.floor = m.floor

theorem Still.refl (m : Machine) : m.Still m := ⟨rfl, rfl, rfl, rfl, rfl⟩

theorem Still.trans {m m' m'' : Machine} (first : m.Still m') (second : m'.Still m'') : m.Still m'' :=
  ⟨second.pc.trans first.pc, second.calls.trans first.calls, second.memory.trans first.memory,
    second.heap.trans first.heap, second.floor.trans first.floor⟩

/-- So many values were taken off the stack, and so many put on it. -/
structure Shifted (takes gives : Nat) (m m' : Machine) : Prop extends m.Still m' where
  enough : takes ≤ m.values.length
  values : ∃ new : List Value, new.length = gives ∧ m'.values = new ++ m.values.drop takes

end Machine

/-- Every success shifts the stack of the machine that `view` shows, and only a stack with too few values on it makes
the action fail for want of them. -/
structure Shifts {S : Type} (view : S → Machine) (takes gives : Nat) (a : EStateM Error S α) : Prop where
  ok : ∀ {s v s'}, a s = .ok v s' → (view s).Shifted takes gives (view s')
  error : ∀ {s e s'}, a s = .error e s' → e.code = .stackUnderflow → (view s).values.length < takes

namespace Shifts

variable {S : Type} {view : S → Machine} {takes gives takes' gives' : Nat} {a : EStateM Error S α}
  {f : α → EStateM Error S β}

theorem pure (v : α) : Shifts view 0 0 (Pure.pure v : EStateM Error S α) where
  ok h := by cases h; exact ⟨.refl _, Nat.zero_le _, [], rfl, rfl⟩
  error h := by cases h

theorem throw {e : Error} (other : e.code ≠ .stackUnderflow) : Shifts view 0 0 (MonadExcept.throw e : EStateM Error S α) where
  ok h := by cases h
  error h same := by cases h; exact absurd same other

theorem get : Shifts view 0 0 (MonadState.get : EStateM Error S S) where
  ok h := by cases h; exact ⟨.refl _, Nat.zero_le _, [], rfl, rfl⟩
  error h := by cases h

/-- An action that takes values before another one. -/
theorem take (first : Shifts view takes 0 a) (second : ∀ v, Shifts view takes' gives (f v)) :
    Shifts view (takes' + takes) gives (a >>= f) where
  ok {s v s'} h := by
    obtain ⟨u, s₁, ran, rest⟩ := run_bind_eq_ok h
    have one := first.ok ran
    have two := (second u).ok rest
    obtain ⟨none, length, left⟩ := one.values
    obtain ⟨new, size, stack⟩ := two.values
    rw [List.eq_nil_of_length_eq_zero length, List.nil_append] at left
    have enough := two.enough
    rw [left, List.length_drop] at enough
    refine ⟨one.toStill.trans two.toStill, ?_, new, size, ?_⟩
    · have := one.enough
      omega
    · rw [stack, left, List.drop_drop, Nat.add_comm]
  error {s e s'} h same := by
    simp only [bind, EStateM.bind] at h
    split at h
    · next u s₁ ran =>
      obtain ⟨none, length, left⟩ := (first.ok ran).values
      rw [List.eq_nil_of_length_eq_zero length, List.nil_append] at left
      have short := (second u).error h same
      rw [left, List.length_drop] at short
      omega
    · next ran =>
      cases h
      have := first.error ran same
      omega

/-- An action that only gives values after another one. -/
theorem give (first : Shifts view takes gives a) (second : ∀ v, Shifts view 0 gives' (f v)) :
    Shifts view takes (gives' + gives) (a >>= f) where
  ok {s v s'} h := by
    obtain ⟨u, s₁, ran, rest⟩ := run_bind_eq_ok h
    have one := first.ok ran
    have two := (second u).ok rest
    obtain ⟨new, size, stack⟩ := one.values
    obtain ⟨new', size', stack'⟩ := two.values
    refine ⟨one.toStill.trans two.toStill, one.enough, new' ++ new, ?_, ?_⟩
    · rw [List.length_append, size, size']
    · rw [stack', stack, List.drop_zero, List.append_assoc]
  error {s e s'} h same := by
    simp only [bind, EStateM.bind] at h
    split at h
    · next u s₁ ran => exact absurd ((second u).error h same) (Nat.not_lt_zero _)
    · next ran =>
      cases h
      exact first.error ran same

theorem ite {q : Prop} [Decidable q] {yes no : EStateM Error S α} (first : Shifts view takes gives yes)
    (second : Shifts view takes gives no) : Shifts view takes gives (if q then yes else no) := by
  split
  · exact first
  · exact second

end Shifts

namespace Action

/-- As above, for actions of the machine itself. -/
abbrev Shifts (takes gives : Nat) (a : Action α) : Prop := BasicMachine.Shifts id takes gives a

theorem shifts_modify {f : Machine → Machine} (still : ∀ m, Machine.Still m (f m))
    (stack : ∀ m, (f m).stack = m.stack) :
    Shifts 0 0 (modify f : Action Unit) where
  ok {m v m'} h := by
    cases h
    refine ⟨still m, Nat.zero_le _, [], rfl, ?_⟩
    show (f m).values = m.values
    rw [Machine.values, stack]
    rfl
  error h := by cases h

theorem shifts_ofExcept {r : Except Error α} (h : FailsUsually r) : Shifts 0 0 (ofExcept r) := by
  cases r with
  | ok a => exact .pure a
  | error e => exact .throw (h e rfl).2

theorem shifts_fail {code : ErrorCode} {detail : String} (other : code ≠ .stackUnderflow) :
    Shifts 0 0 (fail code detail : Action α) := .throw other

theorem shifts_pop : Shifts 1 0 pop where
  ok {m v m'} h := by
    rw [pop_apply] at h
    split at h
    · next top =>
      cases h
      rw [Machine.top?_eq] at top
      refine ⟨⟨rfl, rfl, rfl, rfl, rfl⟩, ?_, [], rfl, ?_⟩
      · show 1 ≤ m.values.length
        exact List.length_pos_of_mem (List.mem_of_mem_head? top)
      · exact (Machine.values_dropTop m).trans List.drop_one.symm
    · cases h
  error {m e m'} h same := by
    rw [pop_apply] at h
    split at h
    · cases h
    · next empty =>
      rw [Machine.top?_eq] at empty
      show m.values.length < 1
      rw [List.head?_eq_none_iff.mp empty]
      exact Nat.one_pos

theorem shifts_push (v : Value) : Shifts 0 1 (push v) where
  ok {m _ m'} h := by
    rw [push_apply] at h
    split at h
    · cases h
    · cases h
      exact ⟨⟨rfl, rfl, rfl, rfl, rfl⟩, Nat.zero_le _, [v], rfl, m.values_insert v⟩
  error {m e m'} h same := by
    rw [push_apply] at h
    split at h
    · cases h
      cases same
    · cases h

theorem shifts_pop2 : Shifts 2 0 pop2 := by
  rw [pop2_eq_pops]
  exact .take shifts_pop fun _ => .take shifts_pop fun _ => .pure _

theorem shifts_register (r : Register) : Shifts 0 0 (register r) := .take .get fun _ => .pure _

theorem shifts_setRegister (r : Register) (v : Value) : Shifts 0 0 (setRegister r v) := by
  refine shifts_modify (fun m => ?_) fun m => ?_
  · cases r <;> exact ⟨rfl, rfl, rfl, rfl, rfl⟩
  · cases r <;> rfl

theorem shifts_setIdx (address : Nat) : Shifts 0 0 (setIdx address) :=
  shifts_modify (fun _ => ⟨rfl, rfl, rfl, rfl, rfl⟩) fun _ => rfl

theorem shifts_cell (address : Nat) : Shifts 0 0 (cell address) where
  ok h := by
    unfold cell at h
    split at h <;> cases h
    exact ⟨.refl _, Nat.zero_le _, [], rfl, rfl⟩
  error h same := by
    unfold cell at h
    split at h <;> cases h
    cases same

theorem shifts_indexed (offset : Int16) : Shifts 0 0 (indexed offset) := by
  have fault (address : Int) : Shifts 0 0 (throw (memoryFault address) : Action Unit) := .throw (by simp [memoryFault, Error.of])
  exact .take .get fun m => .ite (.take (fault _) fun _ => .pure _) (.pure _)

theorem shifts_text (address : Nat) : Shifts 0 0 (text address) :=
  .take .get fun _ => .take (shifts_ofExcept (Value.string_usual _ _)) fun _ => .pure _

theorem shifts_popByte : Shifts 1 0 popByte := .take shifts_pop fun _ => shifts_ofExcept (Value.asByte_usual _)

theorem shifts_popCoordinate : Shifts 1 0 popCoordinate := by
  refine .take shifts_pop fun v => ?_
  split
  · exact .pure _
  · exact .ite (.pure _) (shifts_fail (by decide))
  · exact shifts_fail (by decide)

theorem shifts_popCount : Shifts 1 0 popCount := by
  refine .take shifts_pop fun v => ?_
  split
  · exact .ite (.pure _) (shifts_fail (by decide))
  · exact .ite (.pure _) (shifts_fail (by decide))
  · exact shifts_fail (by decide)

theorem shifts_unary {f : Value → Except Error Value} (h : ∀ v, FailsUsually (f v)) : Shifts 1 1 (unary f) :=
  .take shifts_pop fun _ => .take (shifts_ofExcept (h _)) fun _ => shifts_push _

theorem shifts_binary {f : Value → Value → Except Error Value} (h : ∀ l r, FailsUsually (f l r)) :
    Shifts 2 1 (binary f) :=
  .take shifts_pop2 fun _ => .take (shifts_ofExcept (h _ _)) fun _ => shifts_push _

theorem shifts_compareWith {f : Array Value → Value → Value → Except Error Value}
    (h : ∀ memory l r, FailsUsually (f memory l r)) : Shifts 2 1 (compareWith f) :=
  .take shifts_pop2 fun _ => .take .get fun _ => .take (shifts_ofExcept (h _ _ _)) fun _ => shifts_push _

end Action

/-- The values that an instruction without operand takes and gives, if it does nothing else. -/
def PlainOp.shift : PlainOp → Option (Nat × Nat)
  | .trace | .yield => some (0, 0)
  | .pop | .popReg _ | .popIdx | .seed => some (1, 0)
  | .dup => some (1, 2)
  | .swap => some (2, 2)
  | .pushReg _ | .loadI | .pushIdx | .clock => some (0, 1)
  | .unary _ | .rnd | .len => some (1, 1)
  | .binary _ | .relation _ | .cmp => some (2, 1)
  | .nop | .halt | .storeI | .calloc | .ret => none

def ShortOp.shift : ShortOp → Option (Nat × Nat)
  | .pushI | .loadX => some (0, 1)
  | .deref => some (0, 0)
  | _ => none

def PointerOp.shift : PointerOp → Option (Nat × Nat)
  | .pushP | .load => some (0, 1)
  | .setIdx => some (0, 0)
  | .store => none

def Syscall.shift : Syscall → Option (Nat × Nat)
  | .cls | .write | .read | .readKey | .keySet | .puts | .print | .input | .palette => some (0, 0)
  | .colours | .getPixel | .cursor => some (2, 0)
  | .setPixel | .blit | .sound => some (3, 0)
  | .line | .box => some (5, 0)
  | .voice => some (7, 0)
  | .gets | .readS => none

/-- The values that an instruction takes and gives, if it does nothing else to memory and the course of the program. -/
def Instruction.shift : Instruction → Option (Nat × Nat)
  | .plain op => op.shift
  | .short op _ => op.shift
  | .pointer op _ => op.shift
  | .pushF _ | .push _ => some (0, 1)
  | .syscall call _ => call.shift
  | .setS _ => none

@[simp] theorem Instruction.shift_stored (i : Instruction) : i.stored.shift = i.shift := by
  cases i <;> rfl

namespace Action

theorem shifts_plainEffect {op : PlainOp} {takes gives : Nat} (h : op.shift = some (takes, gives)) :
    Shifts takes gives (plainEffect op) := by
  cases op with
  | nop | halt | storeI | calloc | ret => cases h
  | yield => cases h; exact .pure _
  | trace => cases h; exact shifts_modify (fun _ => ⟨rfl, rfl, rfl, rfl, rfl⟩) fun _ => rfl
  | pop => cases h; exact .take shifts_pop fun _ => .pure _
  | dup => cases h; exact .take shifts_pop fun v => .give (shifts_push v) fun _ => shifts_push v
  | swap => cases h; exact .take shifts_pop2 fun _ => .give (shifts_push _) fun _ => shifts_push _
  | pushReg r => cases h; exact .take (shifts_register r) fun _ => shifts_push _
  | popReg r => cases h; exact .take shifts_pop fun _ => shifts_setRegister r _
  | loadI => cases h; exact .take .get fun _ => .take (shifts_cell _) fun _ => shifts_push _
  | pushIdx => cases h; exact .take .get fun _ => shifts_push _
  | popIdx =>
    cases h
    exact .take shifts_pop fun _ => .take (shifts_ofExcept (Value.asPointer_usual _)) fun _ => shifts_setIdx _
  | unary f => cases h; exact shifts_unary f.apply_usual
  | binary f => cases h; exact shifts_binary f.apply_usual
  | relation f => cases h; exact shifts_compareWith fun memory => f.apply_usual memory
  | cmp => cases h; exact shifts_compareWith Value.rank_usual
  | rnd =>
    cases h
    have drawn (random : Random) : Shifts 0 0 (modify fun m => { m with random := random.next } : Action Unit) :=
      shifts_modify (fun _ => ⟨rfl, rfl, rfl, rfl, rfl⟩) fun _ => rfl
    exact .take shifts_pop fun _ => .take (shifts_ofExcept (Value.asNumber_usual _)) fun _ => .take .get fun m =>
      .take (drawn m.random) fun _ => shifts_push _
  | seed =>
    cases h
    exact .take shifts_pop fun _ => shifts_modify (fun _ => ⟨rfl, rfl, rfl, rfl, rfl⟩) fun _ => rfl
  | len =>
    cases h
    refine .take shifts_pop fun _ => .take (shifts_ofExcept (Value.asPointer_usual _)) fun _ => .take .get fun _ => ?_
    refine .take (shifts_ofExcept (Value.string_usual _ _)) fun _ => .ite ?_ (shifts_push _)
    exact .take (shifts_fail (by decide)) fun _ => shifts_push _
  | clock => cases h; exact .take .get fun _ => shifts_push _

theorem shifts_shortEffect (interrupts : Interrupts) {op : ShortOp} (n : Int16) {takes gives : Nat}
    (h : op.shift = some (takes, gives)) : Shifts takes gives (shortEffect interrupts n op) := by
  cases op with
  | pushI => cases h; exact shifts_push _
  | loadX => cases h; exact .take (shifts_indexed n) fun _ => .take (shifts_cell _) fun _ => shifts_push _
  | deref =>
    cases h
    exact .take (shifts_indexed n) fun _ => .take (shifts_cell _) fun _ =>
      .take (shifts_ofExcept (Value.asPointer_usual _)) fun _ => shifts_setIdx _
  | _ => cases h

theorem shifts_pointerEffect {op : PointerOp} (address : Nat) {takes gives : Nat}
    (h : op.shift = some (takes, gives)) : Shifts takes gives (pointerEffect address op) := by
  cases op with
  | pushP => cases h; exact shifts_push _
  | load => cases h; exact .take (shifts_cell _) fun _ => shifts_push _
  | setIdx => cases h; exact shifts_setIdx _
  | store => cases h

end Action

namespace Session

open Action

variable {σ : Type}

/-- As above, for steps of a session. -/
abbrev Shifts (takes gives : Nat) (x : SessionM σ α) : Prop := BasicMachine.Shifts Session.machine takes gives x

theorem shifts_act {takes gives : Nat} {a : Action α} (h : Action.Shifts takes gives a) :
    Shifts takes gives (act a : SessionM σ α) where
  ok {s _ _} r := by
    rcases s with ⟨m, t⟩
    simp only [act] at r
    split at r <;> cases r
    next inner => exact h.ok inner
  error {s _ _} r same := by
    rcases s with ⟨m, t⟩
    simp only [act] at r
    split at r <;> cases r
    next inner => exact h.error inner same

theorem shifts_ask (host : Host σ) (call : HostCall) : Shifts 0 0 (ask host call) where
  ok h := by cases h; exact ⟨.refl _, Nat.zero_le _, [], rfl, rfl⟩
  error h := by cases h

/-- A call to the host, whose answer is not used, ends a service. -/
theorem shifts_tell (host : Host σ) (call : HostCall) (v : α) :
    Shifts 0 0 (do let _ ← ask host call; return v : SessionM σ α) :=
  .take (shifts_ask _ _) fun _ => .pure _

theorem shifts_plot (host : Host σ) (colour : UInt8) (points : List Raster.Point) :
    Shifts 0 0 (plot host colour points) := by
  induction points with
  | nil => exact .pure _
  | cons p rest ih => exact .take (shifts_ask _ _) fun _ => ih

theorem shifts_popLine : Action.Shifts 5 0 popLine :=
  .take shifts_popByte fun _ => .take shifts_popCoordinate fun _ => .take shifts_popCoordinate fun _ =>
    .take shifts_popCoordinate fun _ => .take shifts_popCoordinate fun _ => .pure _

theorem shifts_printed (v : Value) : Action.Shifts 0 0 (printed v) := by
  cases v with
  | integer n => exact .pure _
  | float x => exact .pure _
  | pointer address => exact shifts_text address
  | unset => exact shifts_fail (by decide)

theorem shifts_cellBytes (start n : Nat) : Action.Shifts 0 0 (cellBytes start n) := by
  refine .take .get fun m => ?_
  have rest : Action.Shifts 0 0 (Action.ofExcept ((m.memory.extract start (start + n)).toList.mapM Value.asByte)) :=
    shifts_ofExcept (mapM_asByte_usual _)
  exact .ite (.take (shifts_fail (by decide)) fun _ => rest) rest

theorem shifts_serve (host : Host σ) (r : Register) (room : Nat) {call : Syscall} {takes gives : Nat}
    (h : call.shift = some (takes, gives)) : Shifts takes gives (serve host r room call) := by
  have byteOfRegister : Action.Shifts 0 0 (do Action.ofExcept (← register r).asByte) :=
    .take (shifts_register r) fun v => shifts_ofExcept v.asByte_usual
  have answer (v : Value) : Shifts 0 0 (do act (setRegister r v); return .next 0 : SessionM σ Progress) :=
    .take (shifts_act (shifts_setRegister _ _)) fun _ => .pure _
  have byte := shifts_act (σ := σ) shifts_popByte
  have coordinate := shifts_act (σ := σ) shifts_popCoordinate
  have count := shifts_act (σ := σ) shifts_popCount
  have corners := shifts_act (σ := σ) shifts_popLine
  cases call with
  | gets | readS => cases h
  | cls => cases h; exact shifts_tell _ _ _
  | write => cases h; exact .take (shifts_act byteOfRegister) fun _ => shifts_tell _ _ _
  | read => cases h; exact .take (shifts_ask _ _) fun _ => answer _
  | readKey => cases h; exact .take (shifts_ask _ _) fun _ => answer _
  | keySet =>
    cases h
    exact .take (shifts_act byteOfRegister) fun _ => .take (shifts_ask _ _) fun _ => answer _
  | puts =>
    cases h
    have named : Action.Shifts 0 0 (do Action.text (← Action.ofExcept (← register r).asPointer)) :=
      .take (shifts_register r) fun v => .take (shifts_ofExcept v.asPointer_usual) fun _ => shifts_text _
    exact .take (shifts_act named) fun _ => shifts_tell _ _ _
  | print =>
    cases h
    exact .take (shifts_act (.take (shifts_register r) shifts_printed)) fun _ => shifts_tell _ _ _
  | input => cases h; exact .take (shifts_ask _ _) fun _ => answer _
  | palette => cases h; exact .take (shifts_act byteOfRegister) fun _ => shifts_tell _ _ _
  | colours => cases h; exact .take byte fun _ => .take byte fun _ => shifts_tell _ _ _
  | setPixel =>
    cases h
    exact .take byte fun _ => .take coordinate fun _ => .take coordinate fun _ => shifts_tell _ _ _
  | getPixel =>
    cases h
    exact .take coordinate fun _ => .take coordinate fun _ => .take (shifts_ask _ _) fun _ => answer _
  | cursor => cases h; exact .take byte fun _ => .take byte fun _ => shifts_tell _ _ _
  | blit =>
    cases h
    have bytes (n : Nat) : Action.Shifts 0 0 (do cellBytes (← Action.ofExcept (← register r).asPointer) n) :=
      .take (shifts_register r) fun v => .take (shifts_ofExcept v.asPointer_usual) fun _ => shifts_cellBytes _ _
    exact .take count fun n => .take coordinate fun _ => .take coordinate fun _ =>
      .take (shifts_act (bytes n.toNat)) fun _ => shifts_tell _ _ _
  | sound => cases h; exact .take count fun _ => .take count fun _ => .take byte fun _ => shifts_tell _ _ _
  | voice =>
    cases h
    exact .take byte fun _ => .take byte fun _ => .take byte fun _ => .take byte fun _ => .take byte fun _ =>
      .take byte fun _ => .take byte fun _ => shifts_tell _ _ _
  | line => cases h; exact .take corners fun _ => .take (shifts_plot _ _ _) fun _ => .pure _
  | box => cases h; exact .take corners fun _ => .take (shifts_plot _ _ _) fun _ => .pure _

/-- An instruction that only shifts the stack does so. -/
theorem shifts_perform (env : Environment σ) (room : Nat) {i : Instruction} {takes gives : Nat}
    (h : i.shift = some (takes, gives)) : Shifts takes gives (perform env room i) := by
  have effect (shifts : Action.Shifts takes gives (Action.effect env.interrupts i)) :
      Shifts takes gives (do act (Action.effect env.interrupts i); return i.progress : SessionM σ Progress) := by
    have both : Shifts takes (0 + gives)
        (do act (Action.effect env.interrupts i); return i.progress : SessionM σ Progress) :=
      .give (shifts_act shifts) fun _ => .pure _
    rwa [Nat.zero_add] at both
  cases i with
  | plain op => exact effect (shifts_plainEffect h)
  | short op n => exact effect (shifts_shortEffect _ n h)
  | pointer op address => exact effect (shifts_pointerEffect address h)
  | pushF word => cases h; exact effect (shifts_push _)
  | push v => cases h; exact effect (shifts_push v)
  | syscall call r => exact shifts_serve env.host r room h
  | setS bytes => cases h

end Session

end BasicMachine
