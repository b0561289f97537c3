import BasicMachine.Proofs.Placement
import BasicMachine.Proofs.StackEffect

/-!
# Levels of the stack

How high the stack stands before each step of the code of an expression, above where it stood before the expression.
A call takes its arguments and leaves its value, so the height behind a step depends on nothing but the height before
it, and behind every expression the stack stands one value higher.
-/
namespace BasicMachine.Language

/-- The stack behind code that starts with `d` values, where all instructions only shift the stack. -/
def level (d : Nat) : Code → Option Nat
  | [] => some d
  | i :: rest =>
    match i.shift with
    | some (takes, gives) => if takes ≤ d then level (d - takes + gives) rest else none
    | none => none

namespace Steps

/-- The function that a step calls. -/
def callee : Step → Option String
  | .jump .call (.function name) => some name
  | _ => none

/-- The functions that steps call. -/
def called (steps : Steps) : List String := steps.filterMap callee

@[simp] theorem called_nil : called [] = [] := rfl

@[simp] theorem called_append (first second : Steps) : called (first ++ second) = called first ++ called second :=
  List.filterMap_append

@[simp] theorem called_ofCode (code : Code) : called (ofCode code) = [] := by
  rw [called, List.filterMap_eq_nil_iff]
  intro s member
  obtain ⟨i, -, rfl⟩ := List.mem_map.mp member
  rfl

/-- Steps that start with `d` values and end with `d'`, where a jump over some steps finds as many values behind them
as one that goes through them. -/
inductive Levels (functions : List (String × Nat)) : Nat → Steps → Nat → Prop
  | nil (d : Nat) : Levels functions d [] d
  | fixed {i : Instruction} {takes gives d d' : Nat} {rest : Steps} (shift : i.shift = some (takes, gives))
      (enough : takes ≤ d) (later : Levels functions (d - takes + gives) rest d') :
      Levels functions d (.fixed i :: rest) d'
  | fail {n : Int16} {d d' : Nat} {rest : Steps} (other : ErrorCode.ofNumber? n ≠ some .stackUnderflow)
      (later : Levels functions d rest d') : Levels functions d (.fixed (.short .fail n) :: rest) d'
  | skip {op : ShortOp} {distance d d' : Nat} (covered rest : Steps) (branch : op = .jz ∨ op = .jnz)
      (size : 3 + covered.size = distance) (silent : called covered = [])
      (through : Levels functions d (covered ++ rest) d') (beyond : Levels functions d rest d') :
      Levels functions (d + 1) (.skip op distance :: (covered ++ rest)) d'
  | call {name : String} {arity d d' : Nat} {rest : Steps} (known : functions.lookup name = some arity)
      (few : arity < 0x8000) (later : Levels functions (d + 1) rest d') :
      Levels functions (d + arity) (.jump .call (.function name) :: rest) d'

namespace Levels

variable {functions : List (String × Nat)} {d d' d'' : Nat} {first second : Steps}

theorem append (h : Levels functions d first d') (h' : Levels functions d' second d'') :
    Levels functions d (first ++ second) d'' := by
  induction h with
  | nil => exact h'
  | fixed shift enough _ ih => exact .fixed shift enough (ih h')
  | fail other _ ih => exact .fail other (ih h')
  | @skip op distance d d' covered rest branch size silent _ _ through beyond =>
    rw [List.cons_append, List.append_assoc]
    exact .skip covered _ branch size silent (List.append_assoc covered rest second ▸ through h') (beyond h')
  | call known few _ ih => exact .call known few (ih h')

/-- More values below. -/
theorem lift (k : Nat) (h : Levels functions d first d') : Levels functions (d + k) first (d' + k) := by
  induction h with
  | nil d => exact .nil _
  | @fixed i takes gives d d' rest shift enough _ ih =>
    refine .fixed shift (by omega) ?_
    rwa [show d + k - takes + gives = d - takes + gives + k by omega]
  | fail other _ ih => exact .fail other ih
  | @skip op distance d d' covered rest branch size silent _ _ through beyond =>
    rw [show d + 1 + k = d + k + 1 by omega]
    exact .skip covered rest branch size silent through beyond
  | @call name arity d d' rest known few _ ih =>
    rw [show d + arity + k = d + k + arity by omega]
    refine .call known few ?_
    rwa [show d + k + 1 = d + 1 + k by omega]

theorem of_code {code : Code} (h : level d code = some d') : Levels functions d (ofCode code) d' := by
  induction code generalizing d with
  | nil =>
    cases h
    exact .nil _
  | cons i rest ih =>
    rw [level] at h
    split at h
    · next takes gives shift =>
      split at h
      · next enough => exact .fixed shift enough (ih h)
      · cases h
    · cases h

end Levels

end Steps

namespace ArrayBlock

/-- The check of an index leaves the index. -/
theorem levels_checkSteps (functions : List (String × Nat)) (array : ArrayBlock) :
    Steps.Levels functions 1 array.checkSteps 1 := by
  have fails : Steps.Levels functions 1 [.fixed (.short .fail ErrorCode.subscriptOutOfRange.number)] 1 :=
    .fail (by decide) (.nil 1)
  have upper : Steps.Levels functions 2 [.skip .jnz 6, .fixed (.short .fail ErrorCode.subscriptOutOfRange.number)] 1 :=
    .skip [_] [] (.inr rfl) rfl rfl fails (.nil 1)
  have lower : Steps.Levels functions 1
      (Steps.ofCode ([.plain .dup, .short .pushI 0] ++ Operator.relation (-1) .notEqual)) 2 := .of_code rfl
  have below : Steps.Levels functions 2 (.skip .jz 15 :: (Steps.ofCode ([.plain .dup, .short .pushI 0] ++
      Operator.relation (-1) .notEqual) ++ [.skip .jnz 6] ++
        [.fixed (.short .fail ErrorCode.subscriptOutOfRange.number)])) 1 := by
    refine .skip _ _ (.inl rfl) rfl rfl ?_ fails
    rw [List.append_assoc]
    exact lower.append upper
  rw [checkSteps, List.append_assoc]
  exact (Steps.Levels.of_code rfl).append below

@[simp] theorem called_checkSteps (array : ArrayBlock) : Steps.called array.checkSteps = [] := rfl

end ArrayBlock

/-- Calls have as many arguments as the functions take, and elements have subscripts. -/
inductive Expr.Proper (functions : List (String × Nat)) : Expr → Prop
  | integer (n : Int16) : Proper functions (.integer n)
  | float (x : Float32) : Proper functions (.float x)
  | text (address : Nat) : Proper functions (.text address)
  | variable (slot : Slot) : Proper functions (.variable slot)
  | element {array : ArrayBlock} {subscripts : List Expr} (some : subscripts ≠ [])
      (all : ∀ e ∈ subscripts, Proper functions e) : Proper functions (.element array subscripts)
  | negate {e : Expr} (h : Proper functions e) : Proper functions (.negate e)
  | not {e : Expr} (h : Proper functions e) : Proper functions (.not e)
  | binary {op : Operator} {left right : Expr} (first : Proper functions left) (second : Proper functions right) :
      Proper functions (.binary op left right)
  | builtin {f : Builtin} {args : List Expr} (count : args.length = f.arity) (all : ∀ e ∈ args, Proper functions e) :
      Proper functions (.builtin f args)
  | call {name : String} {args : List Expr} (known : functions.lookup name = some args.length)
      (all : ∀ e ∈ args, Proper functions e) : Proper functions (.call name args)

section
variable {functions : List (String × Nat)}

theorem levels_arguments {args : List Expr} (h : ∀ e ∈ args, Steps.Levels functions 0 e.code 1) (d : Nat) :
    Steps.Levels functions d (argumentsBefore [] args) (d + args.length) := by
  induction args generalizing d with
  | nil => exact .nil d
  | cons e rest ih =>
    rw [argumentsBefore, Expr.codeBefore_eq, List.length_cons, show d + (rest.length + 1) = d + 1 + rest.length by omega]
    have first := (h e (by simp)).lift d
    rw [Nat.zero_add, Nat.add_comm 1 d] at first
    exact first.append (ih (fun e' member => h e' (by simp [member])) (d + 1))

theorem levels_inner {subscripts : List Expr} (h : ∀ e ∈ subscripts, Steps.Levels functions 0 e.code 1)
    (extents : List Int16) : Steps.Levels functions 1 (innerBefore extents [] subscripts) 1 := by
  induction subscripts generalizing extents with
  | nil => exact .nil 1
  | cons e rest ih =>
    rw [innerBefore, Expr.codeBefore_eq]
    have scale : Steps.Levels functions 1 (Steps.ofCode (ArrayBlock.scaleCode (extents.headD 0))) 1 := .of_code rfl
    have sum : Steps.Levels functions 2 (Steps.ofCode ArrayBlock.addCode) 1 := .of_code rfl
    exact scale.append (((h e (by simp)).lift 1).append (sum.append (ih (fun e' member => h e' (by simp [member])) _)))

theorem levels_index {subscripts : List Expr} (some : subscripts ≠ [])
    (h : ∀ e ∈ subscripts, Steps.Levels functions 0 e.code 1) (extents : List Int16) :
    Steps.Levels functions 0 (indexBefore extents [] subscripts) 1 := by
  cases subscripts with
  | nil => exact absurd rfl some
  | cons e rest =>
    rw [indexBefore, Expr.codeBefore_eq]
    have whole : Steps.Levels functions 1 (Steps.ofCode ArrayBlock.firstCode) 1 := .of_code rfl
    exact (h e (by simp)).append (whole.append (levels_inner (fun e' member => h e' (by simp [member])) _))

theorem level_load (slot : Slot) (d : Nat) : level d slot.load = some (d + 1) := by
  cases slot <;> simp [Slot.load, frameCode, level, Instruction.shift, PointerOp.shift, ShortOp.shift]

theorem level_operator (op : Operator) : level 2 op.code = some 1 := by
  cases op <;> rfl

theorem level_builtin (f : Builtin) : level f.arity f.code = some 1 := by
  cases f <;> rfl

/-- No expression has less than three bytes of code. -/
theorem Expr.Proper.three_le_size {e : Expr} (h : e.Proper functions) : 3 ≤ e.code.size := by
  have fixed {i : Instruction} {rest : Steps} : i.size ≤ Steps.size (.fixed i :: rest) := by
    rw [Steps.size_cons, Step.size]
    omega
  induction h with
  | integer n => exact Nat.le_refl 3
  | float x => exact (by decide : 3 ≤ 5)
  | text a => exact (by decide : 3 ≤ 4)
  | «variable» slot =>
    rw [code, codeBefore, List.append_nil]
    cases slot with
    | cell => exact (by decide : 3 ≤ 4)
    | place => exact (by decide : 3 ≤ 10)
  | @element array subscripts _ _ _ =>
    rw [code_element]
    simp only [Steps.size_append]
    have base : 3 ≤ Steps.size (Steps.ofCode array.baseCode) := (by decide : 3 ≤ 5)
    omega
  | negate =>
    rw [code_negate, Steps.size_cons]
    exact Nat.le_add_right 3 _
  | not _ ih =>
    rw [code_not, Steps.size_append]
    omega
  | binary _ _ first _ =>
    rw [code_binary, Steps.size_append]
    omega
  | @builtin f args count _ ih =>
    rw [code_builtin, Steps.size_append]
    cases args with
    | nil =>
      have ends : 3 ≤ Steps.size (Steps.ofCode f.code) := by
        cases f <;> first | exact (by decide : 3 ≤ 6) | cases count
      omega
    | cons e rest =>
      rw [argumentsBefore, Expr.codeBefore_eq, Steps.size_append]
      have := ih e (by simp)
      omega
  | call =>
    rw [code_call, Steps.size_append]
    exact Nat.le_add_left 3 _

theorem three_mul_length_le {args : List Expr} (h : ∀ e ∈ args, e.Proper functions) :
    3 * args.length ≤ (argumentsBefore [] args).size := by
  induction args with
  | nil => exact Nat.zero_le _
  | cons e rest ih =>
    rw [argumentsBefore, Expr.codeBefore_eq, Steps.size_append, List.length_cons]
    have first := (h e (by simp)).three_le_size
    have later := ih fun e' member => h e' (by simp [member])
    omega

theorem size_le_arguments {args : List Expr} {e : Expr} (member : e ∈ args) :
    e.code.size ≤ (argumentsBefore [] args).size := by
  induction args with
  | nil => cases member
  | cons first rest ih =>
    rw [argumentsBefore, Expr.codeBefore_eq, Steps.size_append]
    rcases List.mem_cons.mp member with rfl | later
    · exact Nat.le_add_right _ _
    · exact Nat.le_trans (ih later) (Nat.le_add_left _ _)

theorem size_le_inner {subscripts : List Expr} {e : Expr} (member : e ∈ subscripts) (extents : List Int16) :
    e.code.size ≤ (innerBefore extents [] subscripts).size := by
  induction subscripts generalizing extents with
  | nil => cases member
  | cons first rest ih =>
    rw [innerBefore, Expr.codeBefore_eq]
    simp only [Steps.size_append]
    rcases List.mem_cons.mp member with rfl | later
    · omega
    · have := ih later extents.tail
      omega

theorem size_le_index {subscripts : List Expr} {e : Expr} (member : e ∈ subscripts) (extents : List Int16) :
    e.code.size ≤ (indexBefore extents [] subscripts).size := by
  cases subscripts with
  | nil => cases member
  | cons first rest =>
    rw [indexBefore, Expr.codeBefore_eq]
    simp only [Steps.size_append]
    rcases List.mem_cons.mp member with rfl | later
    · omega
    · have := size_le_inner later extents.tail
      omega

/-- An expression leaves one value. A call has no more arguments than there is room for in code. -/
theorem Expr.Proper.levels {e : Expr} (h : e.Proper functions) (small : e.code.size ≤ maxCode) :
    Steps.Levels functions 0 e.code 1 := by
  induction h with
  | integer | float | text => exact .fixed rfl (Nat.zero_le _) (.nil 1)
  | «variable» slot =>
    rw [code, codeBefore, List.append_nil]
    exact .of_code (level_load slot 0)
  | @element array subscripts some _ ih =>
    rw [code_element] at small ⊢
    rw [Steps.size_append] at small
    have parts := fun e member => ih e member (by have := size_le_index member array.extents; omega)
    have base : Steps.Levels functions 1 (Steps.ofCode array.baseCode) 1 := .of_code rfl
    have fetch : Steps.Levels functions 1 (Steps.ofCode fetchCode) 1 := .of_code rfl
    exact (levels_index some parts _).append ((array.levels_checkSteps functions).append (base.append fetch))
  | negate _ ih =>
    rw [code_negate] at small ⊢
    rw [Steps.size_cons, Steps.size_append] at small
    have operate : Steps.Levels functions 2 (Steps.ofCode Operator.minus.code) 1 := .of_code rfl
    exact .fixed rfl (Nat.zero_le _) (((ih (by omega)).lift 1).append operate)
  | not _ ih =>
    rw [code_not] at small ⊢
    rw [Steps.size_append] at small
    exact (ih (by omega)).append (.fixed rfl (Nat.le_refl 1) (.nil 1))
  | @binary op left right _ _ first second =>
    rw [code_binary] at small ⊢
    rw [Steps.size_append, Steps.size_append] at small
    exact (first (by omega)).append (((second (by omega)).lift 1).append (.of_code (level_operator op)))
  | @builtin f args count _ ih =>
    rw [code_builtin] at small ⊢
    rw [Steps.size_append] at small
    have arguments := levels_arguments
      (fun e member => ih e member (by have := size_le_arguments member; omega)) 0
    rw [Nat.zero_add, count] at arguments
    exact arguments.append (.of_code (level_builtin f))
  | @call name args known all ih =>
    rw [code_call] at small ⊢
    rw [Steps.size_append] at small
    have arguments := levels_arguments
      (fun e member => ih e member (by have := size_le_arguments member; omega)) 0
    have few : args.length < 0x8000 := by
      have := three_mul_length_le all
      unfold maxCode at small
      omega
    exact arguments.append (.call known few (.nil 1))

end

end BasicMachine.Language
