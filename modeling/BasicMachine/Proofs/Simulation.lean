import BasicMachine.Proofs.Calls

/-!
# Expressions at work

The code of an expression does what its evaluation says, as long as the functions that it calls do. From one function to
those that call it, this holds of all functions whose calls come to an end.
-/
namespace BasicMachine.Language

open Session

namespace Context

variable {σ : Type} {c : Context} {p : Program} {names : List String} {args : List Value} {w w' : World σ}

/-- All static cells exist, and the parameters, if there are any, have their values in the active frame, which none of the
functions uses. -/
structure Ready (c : Context) (names : List String) (args : List Value) (w : World σ) : Prop where
  size : c.scopes.highWater ≤ w.memory.size
  bound : args = [] ∨ ∃ r : Routine, Active r args w.memory ∧ r.frame ≤ maxPointer ∧ args.length ≤ r.arity ∧
    ∀ x, r.Holds x → ¬ c.Uses names x

/-- Calls leave the parameters of who calls alone. -/
theorem Ready.keeps (works : c.Working p) (h : c.Ready names args w) (keeps : w.Keeps (c.Uses names) w') :
    c.Ready names args w' := by
  refine ⟨keeps.size ▸ h.size, h.bound.imp_right ?_⟩
  rintro ⟨r, active, small, few, own⟩
  refine ⟨r, ⟨?_, fun i less => ?_⟩, small, few, own⟩
  · exact (keeps.memory _ (not_uses_frameCell works _)).trans active.pointer
  · refine (keeps.memory _ (own _ ?_)).trans (active.held i less)
    constructor <;> omega

/-- Calls of the function do what `call` says, with room for `need` more values and `calls` return addresses. -/
structure Answers (c : Context) (p : Program) (env : Environment σ) (call : String → List Value → Evaluation σ Value)
    (need calls : Nat) (name : String) : Prop where
  keeping : ∀ {args : List Value}, c.functions.lookup name = some args.length →
    Evaluation.Keeping (c.Uses [name]) (call name args)
  does : ∀ {s : Session σ} {args : List Value} {stack : Stack Value}, c.functions.lookup name = some args.length →
    args.length < 0x8000 → c.scopes.highWater ≤ s.machine.memory.size →
    Session.Poised c p [.jump .call (.function name)] 1 calls s → s.machine.stack = args.foldl Stack.insert stack →
    stack.size + need ≤ stack.limit → Does env p s 3 ((stack.insert <$> call name args) s.world)

end Context

/-- The code of the expression does what its evaluation says, with room for `need` more values than it has bytes. -/
structure Expr.Honest {σ : Type} (c : Context) (p : Program) (env : Environment σ)
    (call : String → List Value → Evaluation σ Value) (names : List String) (args : List Value) (need calls : Nat)
    (e : Expr) : Prop where
  some : 3 ≤ e.code.size
  keeping : Evaluation.Keeping (c.Uses names) (e.eval env.host call args)
  does : ∀ {s : Session σ}, Session.Poised c p e.code (e.code.size + need) calls s → c.Ready names args s.world →
    Does env p s e.code.size ((s.machine.stack.insert <$> e.eval env.host call args) s.world)

section
variable {σ : Type} {c : Context} {p : Program} {env : Environment σ} {s : Session σ} {stack : Stack Value} {depth : Nat}

/-- An operation between the value on top and one that is pushed for it. -/
theorem does_operation {i : Instruction} {f : Binary} {u v : Value} (shape : s.machine.stack = stack.insert u)
    (push : Computes env p s.machine [i] 1 (.ok (s.machine.stack.insert v)))
    (poised : Session.Poised c p (Steps.ofCode [i, .plain (.binary f)]) 1 depth s) :
    Does env p s (Steps.ofCode [i, .plain (.binary f)]).size
      ((stack.insert <$> (Evaluation.answer (f.apply u v) : Evaluation σ Value)) s.world) := by
  have operate : Computes env p (s.machine.after [i] (s.machine.stack.insert v)) [.plain (.binary f)] 0
      (stack.insert <$> f.apply u v) := computes_binary f (congrArg (Stack.insert · v) shape)
  exact poised.looks (push.afterPush operate)

/-- The whole part of a value. -/
theorem does_floor {v : Value} (shape : s.machine.stack = stack.insert v)
    (poised : Session.Poised c p (Steps.ofCode ArrayBlock.firstCode) 0 depth s) :
    Does env p s (Steps.ofCode ArrayBlock.firstCode).size
      ((stack.insert <$> (Evaluation.answer v.floor : Evaluation σ Value)) s.world) :=
  poised.looks (computes_unary .floor shape)

/-- A subscript comes to what stands below it. -/
theorem does_subscript {u v : Value} (shape : s.machine.stack = (stack.insert u).insert v)
    (poised : Session.Poised c p (Steps.ofCode ArrayBlock.addCode) 0 depth s) :
    Does env p s (Steps.ofCode ArrayBlock.addCode).size
      ((stack.insert <$> (Evaluation.answer (v.floor >>= u.add) : Evaluation σ Value)) s.world) := by
  have both : Computes env p s.machine ArrayBlock.addCode 0 (stack.insert <$> (v.floor >>= u.add)) := by
    rw [map_bind]
    refine (computes_unary .floor shape).append 0 (Nat.le_refl 0) fun x _ => ⟨?_, ?_, ?_, computes_binary .add rfl⟩ <;>
      simp [shape]
  exact poised.looks both

/-- The address of an element, once its index is known. -/
theorem does_address {array : ArrayBlock} {index : Value} (small : array.base ≤ maxPointer)
    (shape : s.machine.stack = stack.insert index)
    (poised : Session.Poised c p (array.checkSteps ++ Steps.ofCode array.baseCode) 2 depth s) :
    Does env p s (array.checkSteps.size + (Steps.ofCode array.baseCode).size)
      ((stack.insert <$> (do
        Evaluation.looking fun memory => array.check memory index
        Evaluation.answer (index.add (.pointer array.base)) : Evaluation σ Value)) s.world) := by
  rw [map_bind]
  refine .bind (does_check array shape poised.first) fun _ w _ a idx clock => ?_
  have second := poised.second 2 s.machine.stack w a idx clock rfl (Nat.le_refl _)
  have push (m : Machine) : Computes env p m [.pointer .pushP array.base] 1 (.ok (m.stack.insert (.pointer array.base))) :=
    computes_push (Evaluates.stored_pointer small) rfl fun _ _ => rfl
  exact does_operation shape (push _) (second.mono (by decide))

/-- The value of an element, once its index is known. -/
theorem does_element {array : ArrayBlock} {index : Value} (small : array.base ≤ maxPointer)
    (shape : s.machine.stack = stack.insert index)
    (poised : Session.Poised c p (array.checkSteps ++ (Steps.ofCode array.baseCode ++ Steps.ofCode fetchCode)) 2 depth s) :
    Does env p s (array.checkSteps.size + ((Steps.ofCode array.baseCode).size + (Steps.ofCode fetchCode).size))
      ((stack.insert <$> (do
        Evaluation.looking fun memory => array.check memory index
        Evaluation.fetch (← Evaluation.answer (index.add (.pointer array.base) >>= Value.asPointer)) :
          Evaluation σ Value)) s.world) := by
  have size : (array.checkSteps ++ Steps.ofCode array.baseCode).size =
      array.checkSteps.size + (Steps.ofCode array.baseCode).size := Steps.size_append ..
  rw [← List.append_assoc] at poised
  have address : Does env p s _ _ := does_address small shape poised.first
  rw [← size] at address
  rw [← Nat.add_assoc, answer_bind, bind_assoc, ← bind_assoc, map_bind, ← size]
  refine .bind address fun v w _ a idx clock => ?_
  refine does_fetch rfl (poised.second 0 (stack.insert v) w a idx clock ?_ ?_)
  · exact (congrArg Stack.limit shape).symm
  · have height : s.machine.stack.size = (stack.insert v).size := by rw [shape, Stack.size_insert, Stack.size_insert]
    exact height ▸ Nat.le_add_right _ _

/-- The value of a parameter. -/
theorem does_parameter {names : List String} {args : List Value} {offset : Int16} {i : Nat}
    (less : i < args.length) (same : offset.toInt = (i + 1 : Nat))
    (poised : Session.Poised c p (Steps.ofCode (Slot.place offset).load) 1 depth s)
    (ready : c.Ready names args s.world) :
    Does env p s (Steps.ofCode (Slot.place offset).load).size
      ((s.machine.stack.insert <$> (Evaluation.answer (argument args offset) : Evaluation σ Value)) s.world) := by
  rcases ready.bound with none | ⟨r, active, small, -, -⟩
  · rw [none] at less
    cases less
  · have held := active.held i less
    rw [List.getElem?_eq_getElem less, Nat.add_assoc, Nat.add_comm 1 i] at held
    have value : argument args offset = .ok args[i] := by
      rw [argument, same, Int.toNat_natCast, Nat.add_sub_cancel, List.getElem?_eq_getElem less]
    rw [value]
    exact does_place active.pointer small same held poised

end

section
variable {σ : Type} {c : Context} {p : Program} {env : Environment σ}
  {call : String → List Value → Evaluation σ Value} {names : List String} {args : List Value} {need calls : Nat}
  {s : Session σ} (works : c.Working p)
include works

/-- Arguments, one above the other. -/
theorem does_arguments {es : List Expr} (all : ∀ e ∈ es, e.Honest c p env call names args need calls)
    (poised : Session.Poised c p (argumentsBefore [] es) ((argumentsBefore [] es).size + need) calls s)
    (ready : c.Ready names args s.world) :
    Does env p s (argumentsBefore [] es).size
      (((fun vs => vs.foldl Stack.insert s.machine.stack) <$> evalAll env.host call args es) s.world) := by
  induction es generalizing s with
  | nil => exact ⟨_, _, .refl s⟩
  | cons e rest ih =>
    have first := all e List.mem_cons_self
    have code : argumentsBefore [] (e :: rest) = e.code ++ argumentsBefore [] rest := Expr.codeBefore_eq _ e
    rw [code] at poised ⊢
    rw [Steps.size_append] at poised ⊢
    have less := first.some
    simp only [evalAll, bind_pure_comp, map_bind, Functor.map_map]
    refine .bind (first.does (poised.first.mono (by omega)) ready) fun v w done a idx clock => ?_
    have later := poised.second ((argumentsBefore [] rest).size + need) (s.machine.stack.insert v) w a idx clock rfl (by
      rw [Stack.size_insert]
      omega)
    exact ih (fun d member => all d (List.mem_cons_of_mem _ member)) later (ready.keeps works (first.keeping.keeps done))

/-- Subscripts after the first, from the index so far to the whole one. -/
theorem does_inner {es : List Expr} (all : ∀ e ∈ es, e.Honest c p env call names args need calls) (extents : List Int16)
    {stack : Stack Value} {index : Value}
    (poised : Session.Poised c p (innerBefore extents [] es) ((innerBefore extents [] es).size + need) calls s)
    (ready : c.Ready names args s.world) (shape : s.machine.stack = stack.insert index) :
    Does env p s (innerBefore extents [] es).size
      ((stack.insert <$> evalInner env.host call args extents index es) s.world) := by
  induction es generalizing s extents index with
  | nil =>
    have same : Does env p s 0 (.ok s.machine.stack s.world) := ⟨_, _, .refl s⟩
    rwa [shape] at same
  | cons e rest ih =>
    have first := all e List.mem_cons_self
    have less := first.some
    let scale : Steps := Steps.ofCode (ArrayBlock.scaleCode (extents.headD 0))
    let add : Steps := Steps.ofCode ArrayBlock.addCode
    have code : innerBefore extents [] (e :: rest) = scale ++ (e.code ++ (add ++ innerBefore extents.tail [] rest)) := by
      rw [innerBefore, Expr.codeBefore_eq]
    have height : s.machine.stack.size = stack.size + 1 := by rw [shape, Stack.size_insert]
    have limit : stack.limit = s.machine.stack.limit := by rw [shape, Stack.limit_insert]
    rw [code] at poised ⊢
    simp only [Steps.size_append] at poised ⊢
    simp only [evalInner, map_bind]
    refine .bind (does_operation shape (computes_pushI _) (poised.first.mono (by omega))) fun u w done a idx clock => ?_
    have readyW := ready.keeps works ((Evaluation.keeping_answer _).keeps done)
    have second := poised.second (e.code.size + (add.size + (innerBefore extents.tail [] rest).size) + need)
      (stack.insert u) w a idx clock limit (by
        rw [Stack.size_insert]
        omega)
    refine .bind (first.does (second.first.mono (by omega)) readyW) fun v w' done a idx clock => ?_
    have readyW' := readyW.keeps works (first.keeping.keeps done)
    have third := second.second (add.size + (innerBefore extents.tail [] rest).size + need) ((stack.insert u).insert v)
      w' a idx clock rfl (by
        rw [Stack.size_insert]
        show _ ≤ (stack.insert u).size + _
        omega)
    refine .bind (does_subscript rfl (third.first.mono (Nat.zero_le _))) fun x w'' done a idx clock => ?_
    have readyW'' := readyW'.keeps works ((Evaluation.keeping_answer _).keeps done)
    have fourth := third.second ((innerBefore extents.tail [] rest).size + need) (stack.insert x) w'' a idx clock rfl (by
      rw [Stack.size_insert]
      show _ ≤ ((stack.insert u).insert v).size + _
      rw [Stack.size_insert, Stack.size_insert]
      omega)
    exact ih (fun d member => all d (List.mem_cons_of_mem _ member)) extents.tail fourth readyW'' rfl

theorem does_index {es : List Expr} (all : ∀ e ∈ es, e.Honest c p env call names args need calls) (some : es ≠ [])
    (extents : List Int16)
    (poised : Session.Poised c p (indexBefore extents [] es) ((indexBefore extents [] es).size + need) calls s)
    (ready : c.Ready names args s.world) :
    Does env p s (indexBefore extents [] es).size
      ((s.machine.stack.insert <$> evalIndex env.host call args extents es) s.world) := by
  cases es with
  | nil => exact absurd rfl some
  | cons e rest =>
    have first := all e List.mem_cons_self
    have less := first.some
    have code : indexBefore extents [] (e :: rest) =
        e.code ++ (Steps.ofCode ArrayBlock.firstCode ++ innerBefore extents.tail [] rest) := by
      rw [indexBefore, Expr.codeBefore_eq]
    rw [code] at poised ⊢
    simp only [Steps.size_append] at poised ⊢
    simp only [evalIndex, map_bind]
    refine .bind (first.does (poised.first.mono (by omega)) ready) fun v w done a idx clock => ?_
    have readyW := ready.keeps works (first.keeping.keeps done)
    have second := poised.second ((innerBefore extents.tail [] rest).size + need) (s.machine.stack.insert v) w a idx clock
      rfl (by
        rw [Stack.size_insert]
        omega)
    refine .bind (does_floor rfl (second.first.mono (Nat.zero_le _))) fun x w' done a idx clock => ?_
    have readyW' := readyW.keeps works ((Evaluation.keeping_answer _).keeps done)
    have third := second.second ((innerBefore extents.tail [] rest).size + need) (s.machine.stack.insert x) w' a idx clock
      rfl (by
        rw [Stack.size_insert]
        exact Nat.le_of_eq (congrArg (· + _) (Stack.size_insert ..).symm))
    exact does_inner works (fun d member => all d (List.mem_cons_of_mem _ member)) extents.tail third readyW' rfl

end

theorem Expr.Part.trans {e part whole : Expr} (first : e.Part part) (second : part.Part whole) : e.Part whole := by
  induction second with
  | whole => exact first
  | element member _ ih => exact .element member ih
  | negate _ ih => exact .negate ih
  | not _ ih => exact .not ih
  | left _ ih => exact .left ih
  | right _ ih => exact .right ih
  | builtin member _ ih => exact .builtin member ih
  | call member _ ih => exact .call member ih

theorem Steps.Below.part {limit : Nat} {first second : Steps} (h : Below limit second) (within : first <:+: second) :
    Below limit first :=
  fun address member => h address ((within.filterMap _).subset member)

/-- The expression calls only `names`, reads no more than `count` parameters and is otherwise as compiled ones are. -/
structure Expr.Apt (c : Context) (names : List String) (count : Nat) (e : Expr) : Prop where
  proper : e.Proper c.functions
  below : Steps.Below (maxPointer + 1) e.code
  places : ∀ k, (Expr.variable (.place k)).Part e → ∃ i < count, k.toInt = (i + 1 : Nat)
  called : ∀ name ∈ Steps.called e.code, name ∈ names

theorem Expr.Apt.part {c : Context} {names : List String} {count : Nat} {e whole : Expr} (h : whole.Apt c names count)
    (part : e.Part whole) : e.Apt c names count where
  proper := part.proper h.proper
  below := h.below.part part.isInfix
  places k reads := h.places k (reads.trans part)
  called name member := h.called name (part.called member)

/-- Every function has its frame among the static cells, and the body of one that can be called reads no parameters but its
own. -/
structure Context.Tidy (c : Context) : Prop where
  inside : ∀ {name r}, c.routine? name = some r → r.frame + r.arity < c.scopes.highWater
  apt : ∀ {name r}, c.routine? name = some r → r.arity < 0x8000 → r.body.Apt c r.called r.arity

section
variable {σ : Type} {c : Context} {p : Program} {env : Environment σ}
  {call : String → List Value → Evaluation σ Value} {names : List String} {args : List Value} {need calls : Nat}

theorem Expr.Apt.keeping (answers : ∀ name ∈ names, c.Answers p env call need calls name) {count : Nat} {e : Expr}
    (apt : e.Apt c names count) : Evaluation.Keeping (c.Uses names) (e.eval env.host call args) :=
  Evaluation.keeping_eval apt.proper fun name called _ arity =>
    ((answers name (apt.called name called)).keeping arity).mono fun _ uses =>
      uses.mono fun _ same => List.mem_singleton.mp same ▸ apt.called name called

/-- Expressions are honest if the functions are. -/
theorem Expr.Apt.honest (works : c.Working p) (answers : ∀ name ∈ names, c.Answers p env call need calls name) {e : Expr}
    (apt : e.Apt c names args.length) : e.Honest c p env call names args need calls := by
  have proper := apt.proper
  induction proper with
  | integer n =>
    refine ⟨apt.proper.three_le_size, apt.keeping answers, fun poised _ => ?_⟩
    exact (poised.mono (Nat.le_trans (by decide : 1 ≤ 3) (Nat.le_add_right _ _))).pushes (computes_pushI n)
  | float x =>
    refine ⟨apt.proper.three_le_size, apt.keeping answers, fun poised _ => ?_⟩
    exact (poised.mono (Nat.le_trans (by decide : 1 ≤ 5) (Nat.le_add_right _ _))).pushes
      (computes_push rfl rfl fun _ _ => by rw [Action.effect, Single.ofBits_toBits])
  | text address =>
    have small : address ≤ maxPointer := Nat.le_of_lt_succ (apt.below address (List.mem_singleton.mpr rfl))
    refine ⟨apt.proper.three_le_size, apt.keeping answers, fun poised _ => ?_⟩
    exact (poised.mono (Nat.le_trans (by decide : 1 ≤ 4) (Nat.le_add_right _ _))).pushes
      (computes_push (Evaluates.stored_pointer small) rfl fun _ _ => rfl)
  | «variable» slot =>
    refine ⟨apt.proper.three_le_size, apt.keeping answers, fun poised ready => ?_⟩
    have poised := poised.mono (Nat.le_trans (Nat.le_trans (by decide : 1 ≤ 3) apt.proper.three_le_size) (Nat.le_add_right _ _))
    have code : (Expr.variable slot).code = Steps.ofCode slot.load := List.append_nil _
    rw [code] at poised ⊢
    cases slot with
    | cell address =>
      exact does_load (Nat.le_of_lt_succ (apt.below address (List.mem_singleton.mpr rfl))) poised
    | place offset =>
      obtain ⟨i, less, same⟩ := apt.places offset .whole
      exact does_parameter less same poised ready
  | @element array subscripts some _ ih =>
    have all := fun e member => ih e member (apt.part (.element member .whole))
    refine ⟨apt.proper.three_le_size, apt.keeping answers, fun poised ready => ?_⟩
    have small : array.base ≤ maxPointer := by
      refine Nat.le_of_lt_succ (apt.below array.base ?_)
      have base : array.base ∈ Steps.pointers (Steps.ofCode array.baseCode) := List.mem_singleton.mpr rfl
      rw [code_element]
      simp [Steps.pointers_append, base]
    rw [code_element] at poised ⊢
    simp only [Steps.size_append] at poised ⊢
    have checking : array.checkSteps.size = 27 := rfl
    rw [eval, map_bind]
    refine .bind (does_index works all some _ (poised.first.mono (by omega)) ready) fun v w done a idx clock => ?_
    refine does_element small rfl (poised.second 2 _ w a idx clock rfl ?_)
    rw [Stack.size_insert]
    omega
  | @negate e _ ih =>
    have inner := ih (apt.part (.negate .whole))
    refine ⟨apt.proper.three_le_size, apt.keeping answers, fun {s} poised ready => ?_⟩
    have value : (Expr.negate e).eval env.host call args = (do
        let zero ← pure (Value.integer 0)
        let v ← e.eval env.host call args
        Evaluation.answer (zero.subtract v)) := by rw [pure_bind, eval]
    have code : (Expr.negate e).code = Steps.ofCode [.short .pushI 0] ++ (e.code ++ Steps.ofCode Operator.minus.code) :=
      code_negate e
    have push : (Steps.ofCode [.short .pushI 0]).size = 3 := rfl
    rw [code] at poised ⊢
    simp only [Steps.size_append] at poised ⊢
    rw [value, map_bind]
    refine .bind ((poised.first.mono (by omega)).pushes (computes_pushI 0)) fun zero w done a idx clock => ?_
    cases done
    have second := poised.second (e.code.size + need) (s.machine.stack.insert (.integer 0)) s.world a idx clock rfl (by
      rw [Stack.size_insert]
      omega)
    rw [map_bind]
    refine .bind (inner.does second.first ready) fun v w done a idx clock => ?_
    have third := second.second 0 ((s.machine.stack.insert (.integer 0)).insert v) w a idx clock rfl (by
      have := inner.some
      rw [Stack.size_insert]
      show _ ≤ (s.machine.stack.insert (.integer 0)).size + _
      omega)
    exact Poised.looks (f := fun _ => (Value.integer 0).subtract v) third (computes_operator .minus rfl)
  | @not e _ ih =>
    have inner := ih (apt.part (.not .whole))
    refine ⟨apt.proper.three_le_size, apt.keeping answers, fun {s} poised ready => ?_⟩
    have some := inner.some
    rw [code_not] at poised ⊢
    simp only [Steps.size_append] at poised ⊢
    rw [eval, map_bind]
    refine .bind (inner.does (poised.first.mono (by omega)) ready) fun v w done a idx clock => ?_
    have second := poised.second 0 (s.machine.stack.insert v) w a idx clock rfl (by
      rw [Stack.size_insert]
      omega)
    exact Poised.looks (f := fun _ => Unary.not.apply v) second (computes_unary .not rfl)
  | @binary op left right _ _ ih ih' =>
    have first := ih (apt.part (.left .whole))
    have second := ih' (apt.part (.right .whole))
    refine ⟨apt.proper.three_le_size, apt.keeping answers, fun {s} poised ready => ?_⟩
    have some := first.some
    have some' := second.some
    rw [code_binary] at poised ⊢
    simp only [Steps.size_append] at poised ⊢
    simp only [eval, map_bind]
    refine .bind (first.does (poised.first.mono (by omega)) ready) fun l w done a idx clock => ?_
    have readyW := ready.keeps works (first.keeping.keeps done)
    have later := poised.second (right.code.size + (Steps.ofCode op.code).size + need) (s.machine.stack.insert l) w a idx
      clock rfl (by
        rw [Stack.size_insert]
        omega)
    refine .bind (second.does (later.first.mono (by omega)) readyW) fun r w' done a idx clock => ?_
    have last := later.second 0 ((s.machine.stack.insert l).insert r) w' a idx clock rfl (by
      rw [Stack.size_insert]
      show _ ≤ (s.machine.stack.insert l).size + _
      omega)
    exact Poised.looks last (computes_operator op rfl)
  | @builtin f es count proper ih =>
    have all := fun e member => ih e member (apt.part (.builtin member .whole))
    have some := apt.proper.three_le_size
    have long := three_mul_length_le proper
    refine ⟨some, apt.keeping answers, fun {s} poised ready => ?_⟩
    rw [code_builtin] at poised some ⊢
    simp only [Steps.size_append] at poised some ⊢
    rw [eval, map_bind]
    refine .bind (does_arguments works all (poised.first.mono (by omega)) ready) fun vs w done a idx clock => ?_
    have length := Evaluation.length_evalAll done
    refine does_builtin f (length.trans count) rfl (poised.second 1 _ w a idx clock (Context.limit_foldl _ _) ?_)
    rw [Context.size_foldl]
    omega
  | @call name es known proper ih =>
    have all := fun e member => ih e member (apt.part (.call member .whole))
    have long := three_mul_length_le proper
    have own : name ∈ names := by
      refine apt.called name ?_
      rw [code_call, Steps.called_append]
      simp [Steps.called, Steps.callee]
    refine ⟨apt.proper.three_le_size, apt.keeping answers, fun {s} poised ready => ?_⟩
    have reach := poised.reach
    have values := poised.values
    rw [code_call] at poised reach values ⊢
    simp only [Steps.size_append] at poised reach values ⊢
    have last : Steps.size [.jump .call (.function name)] = 3 := rfl
    rw [eval, map_bind]
    refine .bind (does_arguments works all (poised.first.mono (by omega)) ready) fun vs w done a idx clock => ?_
    have length := Evaluation.length_evalAll done
    have readyW := ready.keeps works ((Evaluation.keeping_evalAll fun e member => (all e member).keeping).keeps done)
    have called := poised.second 1 (vs.foldl Stack.insert s.machine.stack) w a idx clock (Context.limit_foldl _ _) (by
      rw [Context.size_foldl]
      omega)
    refine (answers name own).does (by rw [known, length]) ?_ readyW.size called rfl (by omega)
    unfold maxCode at reach
    omega

namespace Context

variable {name : String} {r : Routine} {need' calls' depth : Nat}

theorem Answers.mono (h : c.Answers p env call need calls name) (le : need ≤ need') (le' : calls ≤ calls') :
    c.Answers p env call need' calls' name where
  keeping := h.keeping
  does arity few size poised shape room := by
    refine h.does arity few size ⟨poised.lies, poised.reach, poised.off, poised.values, ?_⟩ shape (by omega)
    have := poised.calls
    omega

/-- The frame of a function is none of those that its body uses. -/
theorem Ends.own (works : c.Working p) (ends : c.Ends names) (member : name ∈ names) (found : c.routine? name = some r)
    {x : Nat} (holds : r.Holds x) : ¬ c.Uses r.called x := by
  rintro ⟨other, r', calls, found', holds'⟩
  obtain rfl := works.apart found found' holds holds'
  exact ends.not_calls (.direct member) found calls

/-- A function answers if those do that its body calls. -/
theorem answers_routine (works : c.Working p) (tidy : c.Tidy) (known : c.Knows (.function name))
    (found : c.routine? name = some r) (own : ∀ x, r.Holds x → ¬ c.Uses r.called x)
    (inner : ∀ other ∈ r.called, c.Answers p env (c.apply env.host depth) need calls other) :
    c.Answers p env (c.apply env.host (depth + 1)) (r.body.code.size + need + 2) (calls + 1) name where
  keeping arity := keeping_apply works (depth + 1) known arity
  does {s args stack} arity few size poised shape room := by
    obtain ⟨r', found', count⟩ := works.routine known arity
    cases found.symm.trans found'
    have apt := tidy.apt found (count ▸ few)
    rw [count] at apt
    have honest : r.body.Honest c p env (c.apply env.host depth) r.called args need calls := apt.honest works inner
    have body (s' : Session σ) (poised : Session.Poised c p r.body.code (r.body.code.size + need) calls s')
        (active : Active r args s'.machine.memory) (same : s'.machine.memory.size = s.machine.memory.size) :
        Does env p s' r.body.code.size
          ((s'.machine.stack.insert <$> r.body.eval env.host (c.apply env.host depth) args) s'.world) := by
      refine honest.does poised ⟨same ▸ size, .inr ⟨r, active, ?_, Nat.le_of_eq count.symm, own⟩⟩
      have := (works.frame found).2
      omega
    exact does_call works found own count.symm few honest.keeping body poised shape (by omega)
      (Nat.lt_of_lt_of_le (tidy.inside found) size)

/-- One bound for all functions of a list. -/
theorem exists_bound {P : Nat → String → Prop} (mono : ∀ {k k' name}, k ≤ k' → P k name → P k' name)
    (h : ∀ name ∈ names, ∃ k, P k name) : ∃ k, ∀ name ∈ names, P k name := by
  induction names with
  | nil => exact ⟨0, fun _ member => nomatch member⟩
  | cons first rest ih =>
    obtain ⟨k, holds⟩ := h first List.mem_cons_self
    obtain ⟨k', others⟩ := ih fun name member => h name (List.mem_cons_of_mem _ member)
    refine ⟨max k k', List.forall_mem_cons.mpr ⟨mono (Nat.le_max_left _ _) holds, fun name member => ?_⟩⟩
    exact mono (Nat.le_max_right _ _) (others name member)

/-- Functions whose calls come to an end answer, with enough room. -/
theorem exists_answers (works : c.Working p) (tidy : c.Tidy) (ends : c.Ends names)
    (known : ∀ name ∈ names, c.Knows (.function name)) :
    ∃ k, ∀ name ∈ names, ∀ {σ : Type} (env : Environment σ) (depth : Nat), k ≤ depth →
      c.Answers p env (c.apply env.host depth) k k name := by
  have whole := ends
  induction ends with
  | @intro names h ih =>
    refine exists_bound (fun le answers _ env depth deep =>
      (answers env depth (Nat.le_trans le deep)).mono le le) fun name member => ?_
    cases found : c.routine? name with
    | none =>
      refine ⟨0, fun {σ} env depth _ => ⟨keeping_apply works depth (known name member), fun arity => ?_⟩⟩
      obtain ⟨r, found', -⟩ := works.routine (known name member) arity
      cases found.symm.trans found'
    | some r =>
      obtain ⟨k, inner⟩ := ih name member r found (works.known found) (h name member r found)
      refine ⟨r.body.code.size + k + 2, fun {σ} env depth deep => ?_⟩
      obtain ⟨below, rfl⟩ : ∃ below, depth = below + 1 := ⟨depth - 1, by omega⟩
      refine (answers_routine works tidy (known name member) found (fun x => whole.own works member found)
        fun other called => inner other called env below (by omega)).mono (Nat.le_refl _) (by omega)

end Context

end

end BasicMachine.Language
