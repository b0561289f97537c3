import BasicMachine.Proofs.Closure
import BasicMachine.Proofs.Parsing

/-!
# Labels that code uses

The jumps of a command go to its own labels and to the functions that its expressions call.
-/
namespace BasicMachine.Language

section
variable {known : Label → Prop}

/-- The jumps of an expression go to known labels. -/
def Expr.Sound (known : Label → Prop) (e : Expr) : Prop := Steps.Sound known e.code

/-- So do those of each of the expressions. -/
def SoundAll (known : Label → Prop) (es : List Expr) : Prop := ∀ e ∈ es, e.Sound known

def Target.Sound (known : Label → Prop) : Target → Prop
  | .scalar _ => True
  | .element _ subscripts => SoundAll known subscripts

theorem sound_arguments {args : List Expr} (h : SoundAll known args) : Steps.Sound known (argumentsBefore [] args) := by
  induction args with
  | nil => exact .nil
  | cons e rest ih =>
    rw [argumentsBefore, Expr.codeBefore_eq]
    exact Steps.Sound.append (h e (by simp)) (ih fun d member => h d (by simp [member]))

theorem sound_inner {subscripts : List Expr} (extents : List Int16) (h : SoundAll known subscripts) :
    Steps.Sound known (innerBefore extents [] subscripts) := by
  induction subscripts generalizing extents with
  | nil => exact .nil
  | cons e rest ih =>
    rw [innerBefore, Expr.codeBefore_eq]
    refine (Steps.sound_ofCode rfl).append (Steps.Sound.append (h e (by simp)) ((Steps.sound_ofCode rfl).append ?_))
    exact ih _ fun d member => h d (by simp [member])

theorem sound_index {subscripts : List Expr} (extents : List Int16) (h : SoundAll known subscripts) :
    Steps.Sound known (indexBefore extents [] subscripts) := by
  cases subscripts with
  | nil => exact .nil
  | cons e rest =>
    rw [indexBefore, Expr.codeBefore_eq]
    refine Steps.Sound.append (h e (by simp)) ((Steps.sound_ofCode rfl).append ?_)
    exact sound_inner _ fun d member => h d (by simp [member])

theorem all_emitted_load (slot : Slot) : slot.load.all emitted = true := by
  cases slot <;> rfl

theorem all_emitted_store (slot : Slot) : slot.store.all emitted = true := by
  cases slot <;> rfl

theorem all_emitted_operator (op : Operator) : op.code.all emitted = true := by
  cases op <;> rfl

theorem all_emitted_builtin (f : Builtin) : f.code.all emitted = true := by
  cases f <;> rfl

theorem sound_variable (slot : Slot) : (Expr.variable slot).Sound known := by
  rw [Expr.Sound, Expr.code, Expr.codeBefore, List.append_nil]
  exact Steps.sound_ofCode (all_emitted_load slot)

theorem sound_element {array : ArrayBlock} {subscripts : List Expr} (h : SoundAll known subscripts) :
    (Expr.element array subscripts).Sound known := by
  rw [Expr.Sound, Expr.code_element]
  exact (sound_index _ h).append ((Steps.sound_checkSteps array).append
    ((Steps.sound_ofCode rfl).append (Steps.sound_ofCode rfl)))

theorem sound_negate {e : Expr} (h : e.Sound known) : (Expr.negate e).Sound known := by
  rw [Expr.Sound, Expr.code_negate]
  exact .fixed (.inl rfl) (Steps.Sound.append h (Steps.sound_ofCode rfl))

theorem sound_not {e : Expr} (h : e.Sound known) : (Expr.not e).Sound known := by
  rw [Expr.Sound, Expr.code_not]
  exact Steps.Sound.append h (.fixed (.inl rfl) .nil)

theorem sound_binary {op : Operator} {left right : Expr} (first : left.Sound known) (second : right.Sound known) :
    (Expr.binary op left right).Sound known := by
  rw [Expr.Sound, Expr.code_binary]
  exact Steps.Sound.append first (Steps.Sound.append second (Steps.sound_ofCode (all_emitted_operator op)))

theorem sound_builtin {f : Builtin} {args : List Expr} (h : SoundAll known args) :
    (Expr.builtin f args).Sound known := by
  rw [Expr.Sound, Expr.code_builtin]
  exact (sound_arguments h).append (Steps.sound_ofCode (all_emitted_builtin f))

theorem sound_call {name : String} {args : List Expr} (h : SoundAll known args) (found : known (.function name)) :
    (Expr.call name args).Sound known := by
  rw [Expr.Sound, Expr.code_call]
  exact (sound_arguments h).append (.jump rfl found .nil)

end

namespace Command

variable {known : Label → Prop}

/-- The jumps of a command go to known labels. -/
def Sound (known : Label → Prop) (c : Command) : Prop := Steps.Sound known c.code

theorem sound_address {t : Target} (h : t.Sound known) : Steps.Sound known t.address := by
  cases t with
  | scalar slot => exact .nil
  | element array subscripts =>
    rw [Target.address, indexBefore_eq]
    exact (sound_index _ h).append ((Steps.sound_checkSteps array).append (Steps.sound_ofCode rfl))

theorem all_emitted_targetStore (t : Target) : t.store.all emitted = true := by
  cases t with
  | scalar slot => exact all_emitted_store slot
  | element array subscripts => rfl

theorem sound_before {e : Expr} {after : Steps} (h : e.Sound known) (rest : Steps.Sound known after) :
    Steps.Sound known (e.codeBefore after) := by
  rw [Expr.codeBefore_eq]
  exact Steps.Sound.append h rest

theorem sound_jump {l : Label} (h : known l) : (jump l).Sound known := .jump rfl h .nil

theorem sound_call {l : Label} (h : known l) : (call l).Sound known := .jump rfl h .nil

theorem sound_ret : ret.Sound known := .fixed (.inr rfl) .nil

theorem sound_branchUnless {e : Expr} {l : Label} (h : e.Sound known) (target : known l) :
    (branchUnless e l).Sound known := sound_before h (.jump rfl target .nil)

theorem sound_branchOn {cell : Nat} {n : Int16} {equal : Bool} {l : Label} (target : known l) :
    (branchOn cell n equal l).Sound known := by
  refine (Steps.sound_ofCode rfl).append (.jump ?_ target .nil)
  cases equal <;> rfl

theorem sound_testLoop {slot : Slot} {limit step : Nat} {exit : Label} (target : known exit) :
    (testLoop slot limit step exit).Sound known := by
  refine (Steps.sound_ofCode ?_).append (.jump rfl target .nil)
  rw [testLoopCode, List.all_append, all_emitted_load]
  rfl

theorem sound_assign {t : Target} {e : Expr} (place : t.Sound known) (h : e.Sound known) :
    (assign t e).Sound known :=
  (sound_address place).append (sound_before h (Steps.sound_ofCode (all_emitted_targetStore t)))

theorem sound_set {slot : Slot} {e : Expr} (h : e.Sound known) : (assign (.scalar slot) e).Sound known :=
  sound_assign trivial h

theorem sound_print {e : Expr} (h : e.Sound known) : (print e).Sound known := sound_before h (Steps.sound_ofCode rfl)

theorem sound_input {t : Target} {isText : Bool} (place : t.Sound known) : (input t isText).Sound known := by
  refine (sound_address place).append (Steps.sound_ofCode ?_)
  rw [List.all_append, List.all_cons, all_emitted_targetStore]
  cases isText <;> rfl

theorem sound_read {t : Target} {count : Nat} (place : t.Sound known) : (read t count).Sound known := by
  refine ((sound_address place).append (Steps.sound_remainingSteps count)).append (Steps.sound_ofCode ?_)
  rw [List.all_append, all_emitted_targetStore]
  rfl

theorem sound_function {frame arity : Nat} {body : Expr} (h : body.Sound known) :
    (function frame arity body).Sound known := by
  refine (Steps.sound_ofCode ?_).append (sound_before h ?_)
  · rw [enterCode, List.all_append, List.all_append, List.all_map]
    exact Bool.and_eq_true _ _ |>.mpr ⟨Bool.and_eq_true _ _ |>.mpr ⟨rfl, List.all_eq_true.mpr fun _ _ => rfl⟩, rfl⟩
  · have leave : Steps.Sound known (Steps.ofCode (frameCode ++ [.short .loadX 0, .pointer .store frameCell])) :=
      Steps.sound_ofCode rfl
    exact leave.append (.fixed (.inr rfl) .nil)

theorem sound_poke {address value : Expr} (first : address.Sound known) (second : value.Sound known) :
    (poke address value).Sound known :=
  sound_before first (.fixed (.inl rfl) (sound_before second (Steps.sound_ofCode rfl)))

theorem sound_swap {left right : Slot} : (swap left right).Sound known := by
  refine Steps.sound_ofCode ?_
  simp only [List.all_append, all_emitted_load, all_emitted_store, Bool.and_self]

theorem sound_host {request : Syscall} {args : List Expr} (h : SoundAll known args) (other : request ≠ .readS) :
    (host request args).Sound known := by
  rw [Sound, code, argumentsBefore_eq]
  exact (sound_arguments h).append (.fixed (.inl (Bool.and_eq_true_iff.mpr ⟨bne_iff_ne.mpr other, rfl⟩)) .nil)

theorem sound_blit {x y : Expr} {array : ArrayBlock} (first : x.Sound known) (second : y.Sound known) :
    (blit x y array).Sound known := sound_before first (sound_before second (Steps.sound_ofCode rfl))

end Command

end BasicMachine.Language
