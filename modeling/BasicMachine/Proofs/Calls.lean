import BasicMachine.Proofs.Operands
import BasicMachine.Proofs.StackDiscipline

/-!
# Calls of functions

The code of an expression does what its evaluation says, however deep the functions call each other, as long as none
comes back to itself. While a function is at work the frame pointer shows its frame, which holds its arguments; what its
body calls uses other frames, and gives the frame pointer back.
-/
namespace BasicMachine.Language

open Session

/-- A part of an expression calls no other functions. -/
theorem Expr.Part.called {e whole : Expr} (part : e.Part whole) {name : String} (member : name ∈ Steps.called e.code) :
    name ∈ Steps.called whole.code := by
  obtain ⟨before, after, same⟩ := part.isInfix
  rw [← same, Steps.called_append, Steps.called_append]
  simp [member]

/-- The other world differs at most in these cells of memory. -/
structure World.Keeps {σ : Type} (cells : Nat → Prop) (w w' : World σ) : Prop where
  size : w'.memory.size = w.memory.size
  memory : ∀ x, ¬ cells x → w'.memory[x]? = w.memory[x]?

namespace World.Keeps

variable {σ : Type} {cells cells' : Nat → Prop} {w w' w'' : World σ}

theorem of_memory (h : w'.memory = w.memory) : w.Keeps cells w' := ⟨by rw [h], fun x _ => by rw [h]⟩

theorem trans (first : w.Keeps cells w') (second : w'.Keeps cells w'') : w.Keeps cells w'' :=
  ⟨second.size.trans first.size, fun x other => (second.memory x other).trans (first.memory x other)⟩

theorem mono (h : w.Keeps cells w') (more : ∀ x, cells x → cells' x) : w.Keeps cells' w' :=
  ⟨h.size, fun x other => h.memory x fun cell => other (more x cell)⟩

end World.Keeps

namespace Evaluation

variable {σ α β : Type} {cells cells' : Nat → Prop} {x : Evaluation σ α} {f : α → Evaluation σ β}

/-- An evaluation that comes to its end has changed at most these cells. -/
structure Keeping (cells : Nat → Prop) (x : Evaluation σ α) : Prop where
  keeps : ∀ {w a w'}, x w = .ok a w' → w.Keeps cells w'

theorem Keeping.mono (h : Keeping cells x) (more : ∀ y, cells y → cells' y) : Keeping cells' x :=
  ⟨fun done => (h.keeps done).mono more⟩

theorem keeping_of_memory (same : ∀ {w a w'}, x w = .ok a w' → w'.memory = w.memory) : Keeping cells x :=
  ⟨fun done => .of_memory (same done)⟩

theorem keeping_bind (first : Keeping cells x) (second : ∀ a, Keeping cells (f a)) : Keeping cells (x >>= f) := by
  refine ⟨fun done => ?_⟩
  obtain ⟨a, w₁, done₁, done₂⟩ := run_bind_eq_ok done
  exact (first.keeps done₁).trans ((second a).keeps done₂)

theorem keeping_pure (a : α) : Keeping cells (pure a : Evaluation σ α) :=
  keeping_of_memory fun done => by cases done; rfl

theorem keeping_throw (e : Error) : Keeping cells (throw e : Evaluation σ α) :=
  keeping_of_memory fun done => by cases done

theorem keeping_looking (g : Array Value → Except Error α) : Keeping cells (looking g : Evaluation σ α) := by
  refine keeping_of_memory fun {w a w'} done => ?_
  rw [looking] at done
  split at done <;> cases done
  rfl

theorem keeping_answer (r : Except Error α) : Keeping cells (answer r : Evaluation σ α) := keeping_looking _

theorem fetch_eq_ok {address : Nat} {v : Value} {w w' : World σ} (h : fetch address w = .ok v w') :
    w' = w ∧ w.memory[address]? = some v := by
  rw [fetch, looking, held] at h
  split at h
  · next a found =>
    split at found <;> cases found
    cases h
    exact ⟨rfl, by assumption⟩
  · cases h

theorem keeping_fetch (address : Nat) : Keeping cells (fetch address : Evaluation σ Value) := keeping_looking _

theorem keeping_ask (host : Host σ) (call : HostCall) : Keeping cells (ask host call) :=
  keeping_of_memory fun done => by cases done; rfl

theorem keeping_draw (scale : Float32) : Keeping cells (draw scale : Evaluation σ Value) :=
  keeping_of_memory fun done => by cases done; rfl

theorem keeping_builtin (host : Host σ) (g : Builtin) (args : List Value) : Keeping cells (g.eval host args) := by
  unfold Builtin.eval
  split
  · exact keeping_bind (keeping_ask _ _) fun _ => keeping_pure _
  · exact keeping_bind (keeping_answer _) fun _ => keeping_bind (keeping_ask _ _) fun _ => keeping_pure _
  · exact keeping_bind (keeping_answer _) fun _ => keeping_fetch _
  · exact keeping_bind (keeping_answer _) fun _ => keeping_bind (keeping_answer _) fun _ =>
      keeping_bind (keeping_ask _ _) fun _ => keeping_pure _
  · exact keeping_bind (keeping_answer _) fun _ => keeping_draw _
  · split
    · exact keeping_looking _
    · exact keeping_throw _

section
variable {functions : List (String × Nat)} {host : Host σ} {call : String → List Value → Evaluation σ Value}
  {args : List Value}

theorem keeping_evalAll {es : List Expr} (h : ∀ e ∈ es, Keeping cells (e.eval host call args)) :
    Keeping cells (evalAll host call args es) := by
  induction es with
  | nil => exact keeping_pure _
  | cons e rest ih =>
    exact keeping_bind (h e (by simp)) fun _ =>
      keeping_bind (ih fun d member => h d (by simp [member])) fun _ => keeping_pure _

theorem keeping_evalInner {es : List Expr} (h : ∀ e ∈ es, Keeping cells (e.eval host call args)) (extents : List Int16)
    (index : Value) : Keeping cells (evalInner host call args extents index es) := by
  induction es generalizing extents index with
  | nil => exact keeping_pure _
  | cons e rest ih =>
    exact keeping_bind (keeping_answer _) fun _ => keeping_bind (h e (by simp)) fun _ =>
      keeping_bind (keeping_answer _) fun _ => ih (fun d member => h d (by simp [member])) _ _

theorem keeping_evalIndex {es : List Expr} (h : ∀ e ∈ es, Keeping cells (e.eval host call args)) (extents : List Int16) :
    Keeping cells (evalIndex host call args extents es) := by
  cases es with
  | nil => exact keeping_throw _
  | cons e rest =>
    exact keeping_bind (h e (by simp)) fun _ => keeping_bind (keeping_answer _) fun _ =>
      keeping_evalInner (fun d member => h d (by simp [member])) _ _

theorem length_evalAll {es : List Expr} {w w' : World σ} {vs : List Value}
    (done : evalAll host call args es w = .ok vs w') : vs.length = es.length := by
  induction es generalizing w w' vs with
  | nil =>
    cases done
    rfl
  | cons e rest ih =>
    obtain ⟨v, w₁, -, done⟩ := run_bind_eq_ok done
    obtain ⟨us, w₂, later, done⟩ := run_bind_eq_ok done
    cases done
    exact congrArg Nat.succ (ih later)

/-- An expression changes what the functions that it calls change. -/
theorem keeping_eval {e : Expr} (proper : e.Proper functions)
    (calls : ∀ name ∈ Steps.called e.code, ∀ vs : List Value, functions.lookup name = some vs.length →
      Keeping cells (call name vs)) : Keeping cells (e.eval host call args) := by
  induction proper with
  | integer n => exact keeping_pure _
  | float x => exact keeping_pure _
  | text a => exact keeping_pure _
  | «variable» slot =>
    cases slot with
    | cell address => exact keeping_fetch _
    | place offset => exact keeping_answer _
  | element _ _ ih =>
    have all := fun e member => ih e member fun name called => calls name (Expr.Part.called (.element member .whole) called)
    exact keeping_bind (keeping_evalIndex all _) fun _ => keeping_bind (keeping_looking _) fun _ =>
      keeping_bind (keeping_answer _) fun _ => keeping_fetch _
  | negate _ ih =>
    exact keeping_bind (ih fun name called => calls name (Expr.Part.called (.negate .whole) called)) fun _ =>
      keeping_answer _
  | not _ ih =>
    exact keeping_bind (ih fun name called => calls name (Expr.Part.called (.not .whole) called)) fun _ =>
      keeping_answer _
  | binary _ _ first second =>
    exact keeping_bind (first fun name called => calls name (Expr.Part.called (.left .whole) called)) fun _ =>
      keeping_bind (second fun name called => calls name (Expr.Part.called (.right .whole) called)) fun _ =>
        keeping_looking _
  | builtin _ _ ih =>
    have all := fun e member => ih e member fun name called => calls name (Expr.Part.called (.builtin member .whole) called)
    exact keeping_bind (keeping_evalAll all) fun _ => keeping_builtin _ _ _
  | @call name es known _ ih =>
    have all := fun e member => ih e member fun name called => calls name (Expr.Part.called (.call member .whole) called)
    have own : name ∈ Steps.called (Expr.call name es).code := by
      rw [Expr.code_call, Steps.called_append]
      simp [Steps.called, Steps.callee]
    refine ⟨fun done => ?_⟩
    obtain ⟨vs, w₁, first, second⟩ := run_bind_eq_ok done
    have called : Keeping cells (call name vs) := calls name own vs (by rw [length_evalAll first, known])
    exact ((keeping_evalAll all).keeps first).trans (called.keeps second)

end

end Evaluation

section
variable {start : Nat} {args : List Value} {memory : Array Value}

@[simp] theorem size_settle (start : Nat) (args : List Value) (memory : Array Value) :
    (settle start args memory).size = memory.size := by
  induction args generalizing start with
  | nil => rfl
  | cons v rest ih => rw [settle, Array.size_setIfInBounds, ih]

theorem getElem?_settle_of_not {x : Nat} (other : x < start ∨ start + args.length ≤ x) :
    (settle start args memory)[x]? = memory[x]? := by
  induction args generalizing start with
  | nil => rfl
  | cons v rest ih =>
    rw [List.length_cons] at other
    rw [settle, Array.getElem?_setIfInBounds_ne (by omega), ih (by omega)]

theorem getElem?_settle {i : Nat} (inside : start + args.length ≤ memory.size) (less : i < args.length) :
    (settle start args memory)[start + i]? = args[i]? := by
  induction args generalizing start i with
  | nil => cases less
  | cons v rest ih =>
    rw [List.length_cons] at inside less
    cases i with
    | zero =>
      have there : start < (settle (start + 1) rest memory).size := by
        rw [size_settle]
        omega
      exact Array.getElem?_setIfInBounds_self_of_lt there
    | succ i =>
      have later : (settle (start + 1) rest memory)[start + 1 + i]? = rest[i]? := ih (by omega) (by omega)
      rw [settle, Array.getElem?_setIfInBounds_ne (by omega), List.getElem?_cons_succ, ← later, Nat.add_right_comm,
        Nat.add_assoc]

theorem settle_append (front : List Value) (v : Value) :
    settle start (front ++ [v]) memory = settle start front (memory.setIfInBounds (start + front.length) v) := by
  induction front generalizing start with
  | nil => rfl
  | cons u rest ih =>
    rw [List.cons_append, settle, settle, ih, List.length_cons, Nat.add_right_comm, Nat.add_assoc]

end

section
variable {σ : Type} {env : Environment σ} {p : Program} {s : Session σ} {frame : Nat} {args : List Value}
  {stack : Stack Value}

/-- Arguments go from the stack to their places, the last of them first. -/
theorem leads_arguments
    (before : Before p ((List.range args.length).reverse.map fun i => .short .storeX (Int16.ofNat (i + 1))) s)
    (few : args.length < 0x8000) (small : frame ≤ maxPointer) (idx : s.machine.idx = frame)
    (inside : frame + args.length < s.machine.memory.size) (shape : s.machine.stack = args.foldl Stack.insert stack) :
    Session.Leads env p s
      (Code.size ((List.range args.length).reverse.map fun i => .short .storeX (Int16.ofNat (i + 1)))) stack
      { s.world with memory := settle (frame + 1) args s.machine.memory } s.machine.a s.machine.idx := by
  -- The last argument is on top, so the induction takes the list from its end.
  induction args using List.reverseRecOn generalizing s with
  | nil =>
    have shape : s.machine.stack = stack := shape
    subst shape
    exact .refl s
  | append_singleton front v ih =>
    rw [List.length_append, List.length_singleton] at few inside before ⊢
    rw [List.range_succ, List.reverse_append, List.reverse_singleton, List.singleton_append, List.map_cons] at before ⊢
    rw [List.foldl_append] at shape
    have place : (Int16.ofNat (front.length + 1)).toInt = (front.length + 1 : Nat) :=
      Int16.toInt_ofNat_of_lt (by omega)
    refine before.leads (before.storeX frame (front.length + 1) idx small place (by omega) shape) fun clock before => ?_
    rw [settle_append, Nat.add_right_comm, Nat.add_assoc]
    refine ih before (by omega) idx ?_ rfl
    show frame + front.length < (s.machine.memory.setIfInBounds _ v).size
    rw [Array.size_setIfInBounds]
    omega

/-- A function takes its arguments from the stack and makes its frame the active one. -/
theorem leads_enter {r : Routine} {caller : Value} (few : args.length < 0x8000) (count : args.length = r.arity)
    (small : r.frame ≤ maxPointer) (inside : r.frame + r.arity < s.machine.memory.size)
    (held : s.machine.memory[frameCell]? = some caller) (shape : s.machine.stack = args.foldl Stack.insert stack)
    (room : s.machine.stack.size < s.machine.stack.limit) (room' : stack.size < stack.limit)
    (before : Before p (Command.enterCode r.frame r.arity) s) :
    Session.Leads env p s (Command.enterCode r.frame r.arity).size stack
      { s.world with memory := r.enter caller args s.machine.memory } s.machine.a r.frame := by
  obtain ⟨there, -⟩ := Array.getElem?_eq_some_iff.mp held
  have code : Command.enterCode r.frame r.arity =
      .pointer .setIdx r.frame :: .pointer .load frameCell :: .short .storeX 0 ::
        (((List.range args.length).reverse.map fun i => .short .storeX (Int16.ofNat (i + 1))) ++
          [.plain .pushIdx, .pointer .store frameCell]) := by
    rw [Command.enterCode, ← count, Context.argumentCount_eq few, List.append_assoc]
    rfl
  rw [← count] at inside
  rw [code] at before ⊢
  refine before.leads (before.setIdx small) fun _ before => ?_
  refine before.leads (before.load (by decide) held room) fun _ before => ?_
  refine before.leads (before.storeX r.frame 0 rfl small rfl (by exact Nat.lt_of_le_of_lt (Nat.le_add_right _ _) inside)
    rfl) fun clock before => ?_
  rw [Code.size_append]
  refine (leads_arguments before.first few small rfl ?_ shape).trans fun clock => ?_
  · exact (Array.size_setIfInBounds ..).symm ▸ inside
  have before := before.second stack { s.world with
    memory := settle (r.frame + 1) args (s.machine.memory.setIfInBounds r.frame caller) } s.machine.a r.frame clock
  refine before.leads (before.pushIdx room') fun _ before => ?_
  refine before.leads (before.store (by decide) ?_ rfl) fun _ _ => .refl _
  show frameCell < (settle _ _ _).size
  rw [size_settle, Array.size_setIfInBounds]
  exact there

/-- The frame of the caller becomes the active one again. -/
theorem leads_leave {caller : Value}
    (before : Before p (frameCode ++ [.short .loadX 0, .pointer .store frameCell]) s)
    (pointer : s.machine.memory[frameCell]? = some (.pointer frame)) (small : frame ≤ maxPointer)
    (saved : s.machine.memory[frame]? = some caller) (room : s.machine.stack.size < s.machine.stack.limit) :
    Session.Leads env p s (Code.size (frameCode ++ [.short .loadX 0, .pointer .store frameCell])) s.machine.stack
      { s.world with memory := s.machine.memory.setIfInBounds frameCell caller } s.machine.a frame := by
  obtain ⟨there, -⟩ := Array.getElem?_eq_some_iff.mp pointer
  refine before.leads (before.setIdx (by decide)) fun _ before => ?_
  refine before.leads (before.deref frameCell 0 rfl (by decide) rfl pointer) fun _ before => ?_
  refine before.leads (before.loadX frame 0 rfl small rfl saved room) fun _ before => ?_
  exact before.leads (before.store (by decide) there rfl) fun _ _ => .refl _

end

namespace Context

variable {σ : Type} {c : Context} {p : Program} {host : Host σ} {name : String} {r : Routine}

/-- Memory at the beginning of a body differs in the frame and the frame pointer. -/
theorem getElem?_enter {caller : Value} {args : List Value} {memory : Array Value} {x : Nat}
    (count : args.length = r.arity) (pointer : x ≠ frameCell) (other : ¬ r.Holds x) :
    (r.enter caller args memory)[x]? = memory[x]? := by
  rw [Routine.Holds] at other
  rw [Routine.enter, Array.getElem?_setIfInBounds_ne pointer.symm, getElem?_settle_of_not (by omega),
    Array.getElem?_setIfInBounds_ne (by omega)]

/-- A function changes frames only: its own and those of the functions that it comes to call. -/
theorem keeping_apply (works : c.Working p) (depth : Nat) {args : List Value} (known : c.Knows (.function name))
    (arity : c.functions.lookup name = some args.length) :
    Evaluation.Keeping (c.Uses [name]) (c.apply host depth name args) := by
  induction depth generalizing name args with
  | zero => exact Evaluation.keeping_throw _
  | succ depth ih =>
    obtain ⟨r, found, count⟩ := works.routine known arity
    have body : Evaluation.Keeping (c.Uses [name]) (r.body.eval host (c.apply host depth) args) :=
      Evaluation.keeping_eval (works.proper found) fun other member vs lookup =>
        (ih (works.known found other member) lookup).mono fun x uses =>
          .body found (uses.mono fun n same => List.mem_singleton.mp same ▸ member)
    refine ⟨fun {w v w'} done => ?_⟩
    rw [apply, found] at done
    obtain ⟨caller, w₁, fetched, done₁⟩ := run_bind_eq_ok done
    obtain ⟨⟨⟩, w₂, entered, done₂⟩ := run_bind_eq_ok done₁
    obtain ⟨u, w₃, evaluated, done₃⟩ := run_bind_eq_ok done₂
    cases entered
    cases done₃
    obtain ⟨rfl, held⟩ := Evaluation.fetch_eq_ok fetched
    have keeps := body.keeps evaluated
    have size : w₃.memory.size = w₁.memory.size := by
      rw [keeps.size]
      exact (Array.size_setIfInBounds ..).trans ((size_settle ..).trans (Array.size_setIfInBounds ..))
    refine ⟨(Array.size_setIfInBounds ..).trans size, fun x other => ?_⟩
    by_cases pointer : x = frameCell
    · subst pointer
      obtain ⟨inside, -⟩ := Array.getElem?_eq_some_iff.mp held
      rw [held]
      exact Array.getElem?_setIfInBounds_self_of_lt (size ▸ inside)
    · refine (Array.getElem?_setIfInBounds_ne (Ne.symm pointer)).trans ((keeps.memory x other).trans ?_)
      exact getElem?_enter count.symm pointer fun holds => other (.frame found holds)

theorem limit_foldl (args : List Value) (stack : Stack Value) : (args.foldl Stack.insert stack).limit = stack.limit := by
  induction args generalizing stack with
  | nil => rfl
  | cons v rest ih => exact ih (stack.insert v)

theorem size_foldl (args : List Value) (stack : Stack Value) :
    (args.foldl Stack.insert stack).size = stack.size + args.length := by
  induction args generalizing stack with
  | nil => rfl
  | cons v rest ih =>
    rw [List.foldl_cons, ih, Stack.size_insert, List.length_cons]
    omega

section
variable {env : Environment σ} {s : Session σ}

/-- No frame holds the frame pointer. -/
theorem not_uses_frameCell (works : c.Working p) (names : List String) : ¬ c.Uses names frameCell := by
  rintro ⟨other, r, -, found, holds⟩
  have := (works.frame found).1
  have := holds.1
  omega

/-- The arguments of a function lie in its frame, which is the active one. -/
structure Active (r : Routine) (args : List Value) (memory : Array Value) : Prop where
  pointer : memory[frameCell]? = some (.pointer r.frame)
  held : ∀ i, i < args.length → memory[r.frame + 1 + i]? = args[i]?

theorem active_enter {args : List Value} {caller : Value} {memory : Array Value} (apart : frameCell < r.frame)
    (count : args.length = r.arity) (inside : r.frame + r.arity < memory.size) :
    Active r args (r.enter caller args memory) where
  pointer := by
    refine Array.getElem?_setIfInBounds_self_of_lt ?_
    rw [size_settle, Array.size_setIfInBounds]
    omega
  held i less := by
    rw [Routine.enter, Array.getElem?_setIfInBounds_ne (by omega)]
    refine getElem?_settle ?_ less
    rw [Array.size_setIfInBounds]
    omega

/-- The session at the first instruction of what it has called, to come back behind the call. -/
def arriving (s : Session σ) (start : Nat) : Session σ :=
  ⟨{ s.machine.past start with calls := s.machine.calls.insert (s.machine.pc + 3) }, s.host⟩

theorem goes_call (works : c.Working p) {room calls : Nat}
    (poised : Session.Poised c p [.jump .call (.function name)] room (calls + 1) s) :
    Goes env p 1 s (arriving s (c.address (.function name))) := by
  refine goes_of_effect poised.head rfl poised.off ?_
  have free : s.machine.calls.isFull = false := by
    have := poised.calls
    rw [← Bool.not_eq_true, Stack.isFull_iff]
    omega
  have target : Action.jumpAddress (jumpOperand (c.address (.function name))) = c.address (.function name) :=
    jumpAddress_jumpOperand (works.label _)
  show (if s.machine.calls.isFull = true then _ else _) = _
  rw [free, target]
  rfl

theorem goes_ret {back : Nat} {calls : Stack Nat} (before : Before p [.plain .ret] s)
    (shape : s.machine.calls = calls.insert back) :
    Goes env p 1 s ⟨{ s.machine.past (s.machine.pc + 1) with pc := back, calls }, s.host⟩ := by
  refine goes_of_effect before.lies.cons.1 rfl before.off ?_
  have top : (s.machine.past (s.machine.pc + 1)).calls.top? = some back := by
    rw [Machine.past, shape, Stack.top?_insert]
  have rest : (s.machine.past (s.machine.pc + 1)).calls.dropTop = calls := by
    rw [Machine.past, shape, Stack.dropTop_insert]
  show Action.plainEffect .ret (s.machine.past (s.machine.pc + 1)) = _
  simp only [Action.plainEffect, top, rest]

/-- The frame pointer of the caller is the first cell of a frame. -/
theorem getElem?_enter_frame {args : List Value} {caller : Value} {memory : Array Value} (apart : frameCell < r.frame)
    (inside : r.frame < memory.size) : (r.enter caller args memory)[r.frame]? = some caller := by
  rw [Routine.enter, Array.getElem?_setIfInBounds_ne (by omega), getElem?_settle_of_not (.inl (Nat.lt_succ_self _))]
  exact Array.getElem?_setIfInBounds_self_of_lt inside

section
variable {args : List Value} {stack : Stack Value} {depth need calls : Nat}

/-- What a function does that has been called, up to its return. -/
theorem does_routine (works : c.Working p) (found : c.routine? name = some r)
    (own : ∀ x, r.Holds x → ¬ c.Uses r.called x) (count : args.length = r.arity) (few : args.length < 0x8000)
    {call : String → List Value → Evaluation σ Value} {caller : Value}
    (keeping : Evaluation.Keeping (c.Uses r.called) (r.body.eval env.host call args))
    (body : ∀ s' : Session σ, Session.Poised c p r.body.code need calls s' → Active r args s'.machine.memory →
      s'.machine.memory.size = s.machine.memory.size →
      Does env p s' r.body.code.size ((s'.machine.stack.insert <$> r.body.eval env.host call args) s'.world))
    {lower : Steps} (poised : Session.Poised c p (Steps.ofCode (Command.enterCode r.frame r.arity) ++ (r.body.code ++
      (Steps.ofCode (frameCode ++ [.short .loadX 0, .pointer .store frameCell]) ++ lower)))
      (stack.limit - s.machine.stack.size) calls s)
    (free : s.machine.stack.size < stack.limit) (held : s.machine.memory[frameCell]? = some caller)
    (shape : s.machine.stack = args.foldl Stack.insert stack) (enough : stack.size + max need 2 ≤ stack.limit)
    (inside : r.frame + r.arity < s.machine.memory.size) :
    Does env p s ((Steps.ofCode (Command.enterCode r.frame r.arity)).size + (r.body.code.size +
        (Steps.ofCode (frameCode ++ [.short .loadX 0, .pointer .store frameCell])).size))
      ((do
          let v ← r.body.eval env.host call args
          Evaluation.remember (·.setIfInBounds frameCell caller)
          return stack.insert v)
        { s.world with memory := r.enter caller args s.machine.memory }) := by
  have apart := works.frame found
  have limit : s.machine.stack.limit = stack.limit := by rw [shape, limit_foldl]
  have values := poised.values
  have active : Active r args (r.enter caller args s.machine.memory) := active_enter apart.1 count inside
  have entering : Session.Leads env p s (Steps.ofCode (Command.enterCode r.frame r.arity)).size stack
      { s.world with memory := r.enter caller args s.machine.memory } s.machine.a r.frame := by
    rw [Steps.size_ofCode]
    exact leads_enter few count (by omega) inside held shape (by omega) (by omega) poised.first.before
  refine .after entering fun clock => ?_
  have within := poised.second (max need 2) stack
    { s.world with memory := r.enter caller args s.machine.memory } s.machine.a r.frame clock limit.symm (by omega)
  refine .bind (g := stack.insert) (body _ (within.first.mono (Nat.le_max_left _ _)) active ?_) ?_
  · exact (Array.size_setIfInBounds ..).trans ((size_settle ..).trans (Array.size_setIfInBounds ..))
  · intro v w done a idx clock
    have keeps := keeping.keeps done
    have leaving := within.second 1 (stack.insert v) w a idx clock rfl (by
      rw [Stack.size_insert]
      show _ ≤ stack.size + max need 2
      omega)
    have before := leaving.first.before
    rw [Steps.size_ofCode] at before
    rw [Steps.size_ofCode, Steps.size_ofCode]
    refine ⟨a, r.frame, leads_leave before ?_ (by omega) ?_ leaving.values⟩
    · exact (keeps.memory _ (not_uses_frameCell works _)).trans active.pointer
    · exact (keeps.memory _ (own _ ⟨Nat.le_refl _, Nat.le_add_right _ _⟩)).trans
        (getElem?_enter_frame apart.1 (by omega))

/-- A call does what is done before its return. -/
theorem does_of_routine (works : c.Working p) {room size : Nat} {answer : EStateM.Result Error (World σ) (Stack Value)}
    (poised : Session.Poised c p [.jump .call (.function name)] room (calls + 1) s)
    (doing : Does env p (arriving s (c.address (.function name))) size answer)
    (lies : p.HasCode (c.address (.function name) + size) [.plain .ret]) : Does env p s 3 answer := by
  have calling : Goes env p 1 s (arriving s (c.address (.function name))) := goes_call works poised
  cases answer with
  | error e w => exact doing.imp fun _ breaks => breaks.after calling
  | ok stack' w =>
    obtain ⟨a, idx, n, clock, goes⟩ := doing
    have returning := (calling.trans goes).trans (goes_ret ⟨lies, poised.off⟩ rfl)
    exact ⟨a, idx, _, _, returning⟩

/-- A call of a function whose body does what its evaluation says. -/
theorem does_call (works : c.Working p) (found : c.routine? name = some r)
    (own : ∀ x, r.Holds x → ¬ c.Uses r.called x)
    (count : args.length = r.arity) (few : args.length < 0x8000)
    (keeping : Evaluation.Keeping (c.Uses r.called) (r.body.eval env.host (c.apply env.host depth) args))
    (body : ∀ s' : Session σ, Session.Poised c p r.body.code need calls s' → Active r args s'.machine.memory →
      s'.machine.memory.size = s.machine.memory.size →
      Does env p s' r.body.code.size
        ((s'.machine.stack.insert <$> r.body.eval env.host (c.apply env.host depth) args) s'.world))
    (poised : Session.Poised c p [.jump .call (.function name)] 1 (calls + 1) s)
    (shape : s.machine.stack = args.foldl Stack.insert stack) (room : stack.size + max need 2 ≤ stack.limit)
    (inside : r.frame + r.arity < s.machine.memory.size) :
    Does env p s 3 ((stack.insert <$> c.apply env.host (depth + 1) name args) s.world) := by
  have limit : s.machine.stack.limit = stack.limit := by rw [shape, limit_foldl]
  have values := poised.values
  obtain ⟨caller, held⟩ : ∃ caller, s.machine.memory[frameCell]? = some caller := by
    have := (works.frame found).1
    exact ⟨_, Array.getElem?_eq_getElem (show frameCell < s.machine.memory.size by omega)⟩
  have steps : r.steps = Steps.ofCode (Command.enterCode r.frame r.arity) ++ (r.body.code ++
      (Steps.ofCode (frameCode ++ [.short .loadX 0, .pointer .store frameCell]) ++ Steps.ofCode [.plain .ret])) := by
    rw [Routine.steps, Command.code, Expr.codeBefore_eq]
    rfl
  have lies := works.lies found
  have reach := works.reach found
  rw [steps] at lies reach
  have fetched : (Evaluation.fetch frameCell : Evaluation σ Value) s.world = .ok caller s.world := by
    simp only [Evaluation.fetch, Evaluation.looking, Evaluation.held, world, held]
  simp only [apply, found, map_bind, map_pure]
  rw [run_bind_ok fetched]
  refine does_of_routine works poised (does_routine works found own count few keeping body
    ⟨lies, reach, poised.off, ?_, ?_⟩ ?_ held shape room inside) ?_
  · show s.machine.stack.size + (stack.limit - s.machine.stack.size) ≤ s.machine.stack.limit
    omega
  · have deep := poised.calls
    show (s.machine.calls.insert _).size + calls ≤ s.machine.calls.limit
    rw [Stack.size_insert]
    omega
  · show s.machine.stack.size < stack.limit
    omega
  · have last := (Context.hasCode_append (Context.hasCode_append (Context.hasCode_append lies).2).2).2
    rw [Steps.place_ofCode] at last
    simpa only [Nat.add_assoc] using last

end

end

end Context

end BasicMachine.Language
