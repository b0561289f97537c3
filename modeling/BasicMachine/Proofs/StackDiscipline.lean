import BasicMachine.Proofs.Heap
import BasicMachine.Proofs.Occurrences
import BasicMachine.Proofs.Underway

/-!
# The stacks of compiled programs

Whatever a host answers and however its runs are cut, a compiled program takes no value off an empty stack. At the start
of each statement the stack is empty and the return addresses are those of GOSUB, and an expression leaves its value and
nothing else.
-/
namespace BasicMachine

open Language Session

namespace Session

variable {σ : Type} {env : Environment σ} {p : Program} {left : Nat} {s s' : Session σ}

/-- A machine that halts is reset. -/
theorem advance_halted {i : Instruction} {next : Nat} (found : p.instructionAt s.machine.pc = .ok (i, next))
    (once : ∀ r, i ≠ .syscall .readS r) (h : advance env p left s = .stop .halted s') :
    s'.machine = (s.machine.past next).reset := by
  obtain ⟨m, t⟩ := s
  cases left with
  | zero => cases h
  | succ left =>
    by_cases free : i = .plain .nop
    · obtain ⟨op, fetched, decoded, -⟩ := instructionAt_eq_ok found
      obtain rfl : op = .plain .nop := by rw [← opcode_of_instructionOf decoded, free]; rfl
      rw [advance_nop fetched] at h
      cases h
    · obtain ⟨t', -, goes⟩ := advance_decoded env found free t
      rw [goes] at h
      cases result : perform env left i ⟨m.past next, t'⟩ with
      | error e s =>
        rw [result] at h
        cases h
      | ok progress s =>
        have same := perform_progress once result
        rw [result] at h
        cases progress with
        | halt =>
          cases h
          obtain rfl : i = .plain .halt := by
            cases i with
            | plain op => cases op <;> first | rfl | cases same
            | _ => cases same
          cases result
          rfl
        | _ => cases h

theorem slice_of_run_ok {budget : Nat} {halted : Bool} (h : run env p budget s = .ok halted s') :
    (slice env p budget s).2 = s' := by
  rw [run_eq_slice] at h
  cases why : (slice env p budget s).1 <;> rw [why] at h <;> cases h <;> rfl

theorem slice_of_run_error {budget : Nat} {e : Error} (h : run env p budget s = .error e s') :
    slice env p budget s = (.failed e, s') := by
  rw [run_eq_slice] at h
  generalize slice env p budget s = stopped at h
  obtain ⟨why, t⟩ := stopped
  cases why <;> cases h
  rfl

theorem spares_begin (p : Program) : Spares (begin p) where
  code {m e m'} h := by
    unfold begin at h
    split at h
    · cases h
      exact nofun
    · cases h
    · split at h <;> cases h
      exact nofun

end Session

namespace Language

/-- A machine that runs a compiled program whose cells fit its memory. -/
structure Context.Engaged (c : Context) (p : Program) (values : List Value) (m : Machine) : Prop
    extends m.Roams ((c.code values).starts 0) where
  underway : c.Underway p values m
  floor : m.floor = p.staticSize
  small : m.memory.size ≤ maxPointer + 1
  fits : c.scopes.highWater ≤ maxPointer + 1

/-- A machine between two runs. -/
inductive Context.AtRest (c : Context) (p : Program) (values : List Value) (m : Machine) : Prop
  | ready (status : m.status = .ready) (small : m.memory.size ≤ maxPointer + 1) (first : m.pc = 0)
      (empty : m.values = []) (uncalled : m.calls.items = #[])
  | running (engaged : c.Engaged p values m)
  | faulted (status : m.status = .faulted)

namespace Finished

variable {c : Context} {values : List Value} {p : Program} (h : Finished c values p)
include h

theorem closed : p.Closed ((c.code values).starts 0) := closed_of_link h.linked h.sound

section
variable {σ : Type} {env : Environment σ} {left : Nat} {s : Session σ} (engaged : c.Engaged p values s.machine)
include engaged

theorem engaged_next {left' : Nat} {s' : Session σ} (went : advance env p left s = .next left' s') :
    c.Engaged p values s'.machine := by
  have carries : p.Carries s.machine s'.machine := ⟨σ, env, left, _, _, .inl ⟨left', went⟩⟩
  have safe : (advance env p left s).Safe _ := safe_advance h.closed engaged.toRoams left
  rw [went] at safe
  obtain ⟨underway, size, floor⟩ := engaged.underway.step h engaged.fits carries
  exact ⟨safe, underway, floor.trans engaged.floor, size ▸ engaged.small, engaged.fits⟩

/-- A machine that stops is at rest, and no instruction has missed a value. -/
theorem atRest_stop {why : Stop} {s' : Session σ} (stopped : advance env p left s = .stop why s') :
    c.AtRest p values s'.machine ∧ ∀ e, why = .failed e → e.code ≠ .stackUnderflow := by
  have safe : (advance env p left s).Safe _ := safe_advance h.closed engaged.toRoams left
  rw [stopped] at safe
  obtain ⟨rests, status, -⟩ := safe
  have goesOn (kind : why = .paused ∨ why = .waiting) (running : s'.machine.status = .running) :
      c.AtRest p values s'.machine := by
    have carries : p.Carries s.machine s'.machine := ⟨σ, env, left, _, _, .inr ⟨why, kind, stopped⟩⟩
    obtain ⟨underway, size, floor⟩ := engaged.underway.step h engaged.fits carries
    exact .running ⟨⟨rests.toInside, running⟩, underway, floor.trans engaged.floor, size ▸ engaged.small, engaged.fits⟩
  cases why with
  | spent =>
    cases left with
    | zero =>
      cases stopped
      exact ⟨.running engaged, nofun⟩
    | succ left => exact absurd stopped (advance_ne_spent left s s')
  | paused => exact ⟨goesOn (.inl rfl) status, nofun⟩
  | waiting => exact ⟨goesOn (.inr rfl) status, nofun⟩
  | halted =>
    obtain ⟨i, next, found, leads⟩ := h.closed.leads _ engaged.pc
    have once (r : Register) : i ≠ .syscall .readS r := by
      rintro rfl
      rcases leads with ⟨n, impossible, -⟩ | ⟨-, impossible | impossible | ⟨op, n, impossible, -⟩⟩ <;> cases impossible
    have reset := advance_halted found once stopped
    refine ⟨.ready status ?_ ?_ ?_ ?_, nofun⟩ <;> rw [reset]
    · exact (Array.size_map ..).trans_le engaged.small
    · rfl
    · rfl
    · rfl
  | failed e =>
    refine ⟨.faulted status, ?_⟩
    rintro _ ⟨⟩
    exact engaged.underway.healthy env left _ e s' stopped

/-- All instructions of a run. -/
theorem atRest_course :
    c.AtRest p values (course env p left s).2.machine ∧
      ∀ e, (course env p left s).1 = .failed e → e.code ≠ .stackUnderflow := by
  fun_induction course env p left s with
  | case1 left s why t stopped => exact h.atRest_stop engaged stopped
  | case2 left s left' s' went less ih => exact ih (h.engaged_next engaged went)

theorem engaged_visits {t : Session σ} (visits : Visits env p left s t) : c.Engaged p values t.machine := by
  induction visits with
  | here => exact engaged
  | next went later ih => exact ih (h.engaged_next engaged went)

end

/-- A run begins at the entry point or goes on where the last one stopped. -/
theorem engaged_begin {σ : Type} {m : Machine} {t : σ} {s : Session σ} (rest : c.AtRest p values m)
    (start : m.status = .ready → m.start = none) (inside : m.Inside ((c.code values).starts 0))
    (begun : act (begin p) ⟨m, t⟩ = .ok () s) : c.Engaged p values s.machine := by
  rcases begin_started begun with ⟨running, rfl⟩ | ⟨ready, large, rfl⟩
  · cases rest with
    | ready status => cases running.symm.trans status
    | running engaged => exact engaged
    | faulted status => cases running.symm.trans status
  · cases rest with
    | ready _ small _ empty uncalled =>
      let begun : Machine :=
        { m with floor := p.staticSize, pc := m.start.getD p.entry, start := none, status := .running }
      have pc : begun.pc = p.entry := by
        change m.start.getD p.entry = p.entry
        rw [start ready]
        rfl
      have entered : begun.pc ∈ (c.code values).starts 0 := pc.symm ▸ h.closed.entry
      have fits : c.scopes.highWater ≤ maxPointer + 1 := h.size_eq ▸ Nat.le_trans large small
      exact ⟨⟨⟨entered, inside.calls⟩, rfl⟩, .starting pc empty uncalled (h.initializes fits (h.size_eq ▸ large) pc), rfl, small,
        fits⟩
    | running engaged => cases ready.symm.trans engaged.running
    | faulted status => cases ready.symm.trans status

theorem atRest_slice {σ : Type} (env : Environment σ) (budget : Nat) (t : σ) {m : Machine} (rest : c.AtRest p values m)
    (rests : m.Rests ((c.code values).starts 0)) :
    c.AtRest p values (slice env p budget ⟨m, t⟩).2.machine ∧
      ∀ e, (slice env p budget ⟨m, t⟩).1 = .failed e → e.code ≠ .stackUnderflow := by
  unfold slice
  split
  · next begun => exact h.atRest_course (h.engaged_begin rest rests.start rests.toInside begun)
  · next e s refused =>
    refine ⟨.faulted ?_, ?_⟩
    · rw [begin_refused refused]
      rfl
    · rintro _ ⟨⟩
      exact (Spares.act (spares_begin p)).code refused

theorem atRest_of_reached {m : Machine} (reached : Reached p m) : c.AtRest p values m := by
  induction reached with
  | fresh config =>
    refine .ready rfl ?_ rfl rfl rfl
    exact (Array.size_replicate ..).trans_le (Nat.min_le_right _ _)
  | ran before env budget t went ih =>
    have rest := (h.atRest_slice env budget t ih (rests_of_reached h.closed before)).1
    rwa [slice_of_run_ok went] at rest
  | failed before env budget t went ih =>
    have rest := (h.atRest_slice env budget t ih (rests_of_reached h.closed before)).1
    rwa [slice_of_run_error went] at rest

end Finished

/-- From the address on, a command of the program evaluates the expression, which may be a part of another one. -/
inductive Context.Evaluates (c : Context) : Nat → Expr → Prop
  | intro {before after : List Command} {command : Command} {whole e : Expr} {first rest : Steps}
      (split : c.program = before ++ command :: after) (member : whole ∈ command.expressions) (part : e.Part whole)
      (code : command.code = first ++ (e.code ++ rest)) : Evaluates c (codeSize before + first.size) e

section
variable {e whole : Expr}

theorem infix_arguments {args : List Expr} (member : e ∈ args) : e.code <:+: argumentsBefore [] args := by
  induction args with
  | nil => cases member
  | cons first rest ih =>
    rw [argumentsBefore, Expr.codeBefore_eq]
    rcases List.mem_cons.mp member with rfl | member
    · exact (List.prefix_append _ _).isInfix
    · exact (ih member).trans (List.suffix_append _ _).isInfix

theorem infix_inner {subscripts : List Expr} (member : e ∈ subscripts) (extents : List Int16) :
    e.code <:+: innerBefore extents [] subscripts := by
  induction subscripts generalizing extents with
  | nil => cases member
  | cons first rest ih =>
    rw [innerBefore, Expr.codeBefore_eq]
    refine List.IsInfix.trans ?_ (List.suffix_append _ _).isInfix
    rcases List.mem_cons.mp member with rfl | member
    · exact (List.prefix_append _ _).isInfix
    · exact (ih member _).trans ((List.suffix_append _ _).trans (List.suffix_append _ _)).isInfix

theorem infix_index {subscripts : List Expr} (member : e ∈ subscripts) (extents : List Int16) :
    e.code <:+: indexBefore extents [] subscripts := by
  cases subscripts with
  | nil => cases member
  | cons first rest =>
    rw [indexBefore, Expr.codeBefore_eq]
    rcases List.mem_cons.mp member with rfl | member
    · exact (List.prefix_append _ _).isInfix
    · exact (infix_inner member _).trans ((List.suffix_append _ _).trans (List.suffix_append _ _)).isInfix

/-- The code of an expression lies in that of all that it is a part of. -/
theorem Expr.Part.isInfix (h : e.Part whole) : e.code <:+: whole.code := by
  induction h with
  | whole => exact List.infix_rfl
  | element member _ ih =>
    rw [code_element]
    exact ih.trans ((infix_index member _).trans (List.prefix_append _ _).isInfix)
  | negate _ ih =>
    rw [code_negate]
    exact ih.trans ((List.prefix_append _ _).isInfix.trans (List.suffix_cons _ _).isInfix)
  | not _ ih =>
    rw [code_not]
    exact ih.trans (List.prefix_append _ _).isInfix
  | left _ ih =>
    rw [code_binary]
    exact ih.trans (List.prefix_append _ _).isInfix
  | right _ ih =>
    rw [code_binary]
    exact ih.trans ((List.prefix_append _ _).isInfix.trans (List.suffix_append _ _).isInfix)
  | builtin member _ ih =>
    rw [code_builtin]
    exact ih.trans ((infix_arguments member).trans (List.prefix_append _ _).isInfix)
  | call member _ ih =>
    rw [code_call]
    exact ih.trans ((infix_arguments member).trans (List.prefix_append _ _).isInfix)

theorem Expr.Part.proper {functions : List (String × Nat)} (h : e.Part whole) (proper : whole.Proper functions) :
    e.Proper functions := by
  induction h with
  | whole => exact proper
  | element member _ ih =>
    cases proper with
    | element some all => exact ih (all _ member)
  | negate _ ih =>
    cases proper with
    | negate h => exact ih h
  | not _ ih =>
    cases proper with
    | not h => exact ih h
  | left _ ih =>
    cases proper with
    | binary first second => exact ih first
  | right _ ih =>
    cases proper with
    | binary first second => exact ih second
  | builtin member _ ih =>
    cases proper with
    | builtin count all => exact ih (all _ member)
  | call member _ ih =>
    cases proper with
    | call known all => exact ih (all _ member)

theorem Target.infix_address {t : Target} (member : e ∈ t.subscripts) : e.code <:+: t.address := by
  cases t with
  | scalar slot => cases member
  | element array subscripts =>
    rw [address, indexBefore_eq]
    exact (infix_index member _).trans (List.prefix_append _ _).isInfix

/-- The code of a command evaluates its expressions. -/
theorem Command.infix_code {command : Command} (member : e ∈ command.expressions) : e.code <:+: command.code := by
  have single {e' : Expr} {after : Steps} (member : e ∈ [e']) : e.code <:+: e'.codeBefore after := by
    rw [List.mem_singleton.mp member, Expr.codeBefore_eq]
    exact (List.prefix_append _ _).isInfix
  have behind {e' : Expr} {after : Steps} (h : e.code <:+: after) : e.code <:+: e'.codeBefore after := by
    rw [Expr.codeBefore_eq]
    exact h.trans (List.suffix_append _ _).isInfix
  cases command with
  | branchUnless e' l => exact single member
  | print e' => exact single member
  | assign t e' =>
    rcases List.mem_append.mp member with member | member
    · exact (Target.infix_address member).trans (List.prefix_append _ _).isInfix
    · exact (single member).trans (List.suffix_append _ _).isInfix
  | input t isText => exact (Target.infix_address member).trans (List.prefix_append _ _).isInfix
  | read t count =>
    exact (Target.infix_address member).trans ((List.prefix_append _ _).trans (List.prefix_append _ _)).isInfix
  | function frame arity body => exact (single member).trans (List.suffix_append _ _).isInfix
  | poke address value =>
    rcases List.mem_cons.mp member with rfl | member
    · exact single (List.mem_singleton_self _)
    · exact behind ((single member).trans (List.suffix_cons _ _).isInfix)
  | seed e' =>
    cases e' with
    | none => cases member
    | some e' => exact single member
  | host request args =>
    rw [code, argumentsBefore_eq]
    exact (infix_arguments member).trans (List.prefix_append _ _).isInfix
  | blit x y array =>
    rcases List.mem_cons.mp member with rfl | member
    · exact single (List.mem_singleton_self _)
    · exact behind (single member)
  | _ => cases member

theorem Command.Proper.expression {command : Command} {functions : List (String × Nat)} {limit : Nat}
    (h : command.Proper functions limit) (member : e ∈ command.expressions) : e.Proper functions := by
  have inTarget {t : Target} (proper : t.Proper functions limit) (member : e ∈ t.subscripts) : e.Proper functions := by
    cases proper with
    | scalar inside => cases member
    | element some all inside short => exact all e member
  cases h with
  | branchUnless h l => exact List.mem_singleton.mp member ▸ h
  | print h => exact List.mem_singleton.mp member ▸ h
  | assign target h =>
    rcases List.mem_append.mp member with member | member
    · exact inTarget target member
    · exact List.mem_singleton.mp member ▸ h
  | input target isText => exact inTarget target member
  | read target count => exact inTarget target member
  | function frame arity h => exact List.mem_singleton.mp member ▸ h
  | poke first second =>
    rcases List.mem_cons.mp member with rfl | member
    · exact first
    · exact List.mem_singleton.mp member ▸ second
  | seed h => exact h e (Option.mem_toList.mp member)
  | host takes all => exact all e member
  | blit first second array =>
    rcases List.mem_cons.mp member with rfl | member
    · exact first
    · exact List.mem_singleton.mp member ▸ second
  | _ => cases member

end

/-- Every expression of a command and every part of it is evaluated somewhere. -/
theorem Context.exists_evaluates {c : Context} {command : Command} {whole e : Expr} (there : command ∈ c.program)
    (member : whole ∈ command.expressions) (part : e.Part whole) : ∃ x, c.Evaluates x e := by
  obtain ⟨before, after, split⟩ := List.append_of_mem there
  obtain ⟨first, rest, code⟩ := part.isInfix.trans (Command.infix_code member)
  have placed : command.code = first ++ (e.code ++ rest) := by rw [← code, List.append_assoc]
  exact ⟨_, .intro split member part placed⟩

/-- An expression leaves one value. -/
theorem Finished.evaluates {c : Context} {values : List Value} {p : Program} (h : Finished c values p)
    (fits : c.scopes.highWater ≤ maxPointer + 1) {x : Nat} {e : Expr} (evaluates : c.Evaluates x e) {m : Machine}
    (pc : m.pc = x) :
    p.Until (c.Going p (c.Touches (Steps.called e.code)) False x (x + e.code.size) m)
      (c.Past (Steps.called e.code) (x + e.code.size) 1 m.values m) m := by
  obtain @⟨before, after, command, whole, _, first, rest, split, member, part, code⟩ := evaluates
  have lies := h.lies split
  have there : command ∈ c.program := by rw [split]; simp
  have proper := part.proper ((h.fine there).proper.expression member)
  have size : command.size = first.size + (e.code.size + rest.size) := by
    rw [Command.size, code, Steps.size_append, Steps.size_append]
  have positive := proper.three_le_size
  have reach := lies.reach
  have here := lies.code
  rw [code] at here
  have known : ∀ name ∈ Steps.called e.code, c.Knows (.function name) := by
    intro name member
    refine lies.known name ?_
    rw [Command.called, code, Steps.called_append, Steps.called_append]
    exact List.mem_append_right _ (List.mem_append_left _ member)
  exact Context.until_levels (h.working fits) (proper.levels (by omega)) known
    (Context.hasCode_append (Context.hasCode_append here).2).1 (by omega) (by omega) pc

/-- No command ends with the call of a function. -/
theorem Command.Proper.last_of_code {command : Command} {functions : List (String × Nat)} {limit : Nat}
    (h : command.Proper functions limit) {s : Step} (last : command.code.getLast? = some s) : Steps.callee s = none := by
  have ends (first final : Steps) (code : command.code = first ++ final) (some : final ≠ [])
      (silent : Steps.called final = []) : Steps.callee s = none := by
    rw [code, List.getLast?_append_of_ne_nil _ some] at last
    exact List.filterMap_eq_nil_iff.mp silent s (List.mem_of_getLast? last)
  have endsCode (first : Steps) (final : Code) (code : command.code = first ++ Steps.ofCode final)
      (some : Steps.ofCode final ≠ []) : Steps.callee s = none := ends first _ code some (Steps.called_ofCode final)
  have silent (code : Steps.called command.code = []) : Steps.callee s = none :=
    List.filterMap_eq_nil_iff.mp code s (List.mem_of_getLast? last)
  cases h with
  | mark l => cases last
  | jump | call | ret | halt | yield | write | prompt => exact silent rfl
  | swap => exact silent (Steps.called_ofCode _)
  | branchUnless h l => exact ends _ _ (Expr.codeBefore_eq _ _) (List.cons_ne_nil _ _) rfl
  | branchOn cell n equal l => exact ends _ _ rfl (List.cons_ne_nil _ _) (by cases equal <;> rfl)
  | testLoop slot bound step exit => exact ends _ _ rfl (List.cons_ne_nil _ _) rfl
  | @assign t e target h =>
    refine endsCode (t.address ++ e.code) t.store ?_ t.store_ne_nil
    rw [code, Expr.codeBefore_eq, List.append_assoc]
  | print h => exact endsCode _ _ (Expr.codeBefore_eq _ _) (List.cons_ne_nil _ _)
  | input target isText => exact endsCode _ _ rfl (List.cons_ne_nil _ _)
  | read target count => exact endsCode _ _ rfl (List.cons_ne_nil _ _)
  | @function body frame arity h =>
    refine endsCode (Steps.ofCode (enterCode frame arity) ++ body.code) leaveCode ?_ (List.cons_ne_nil _ _)
    rw [code, Expr.codeBefore_eq, List.append_assoc]
  | @poke address value first second =>
    refine endsCode (address.code ++ .fixed (.plain (.unary .toPointer)) :: value.code) depositCode ?_
      (List.cons_ne_nil _ _)
    rw [code, Expr.codeBefore_eq, Expr.codeBefore_eq, List.append_assoc]
    rfl
  | @seed e h =>
    cases e with
    | none => exact silent rfl
    | some e => exact endsCode _ _ (Expr.codeBefore_eq _ _) (List.cons_ne_nil _ _)
  | host takes all => exact endsCode _ _ (argumentsBefore_eq _ _) (List.cons_ne_nil _ _)
  | @blit x y first second array =>
    have split {final : Steps} : x.codeBefore (y.codeBefore final) = (x.code ++ y.code) ++ final := by
      rw [Expr.codeBefore_eq, Expr.codeBefore_eq, List.append_assoc]
    exact endsCode _ _ split (List.cons_ne_nil _ _)

namespace Context

/-- The address behind the call of a function in an expression. -/
inductive Continues (c : Context) : Nat → Prop
  | intro {before after : List Command} {command : Command} {first rest : Steps} {name : String}
      (split : c.program = before ++ command :: after)
      (code : command.code = first ++ .jump .call (.function name) :: rest) :
      Continues c (codeSize before + first.size + 3)

end Context

/-- No command starts behind the call of a function. -/
theorem Finished.not_opens_continues {c : Context} {values : List Value} {p : Program} (h : Finished c values p) {x : Nat}
    (continues : c.Continues x) : ¬ c.Opens x := by
  obtain @⟨before, after, command, first, rest, name, split, code⟩ := continues
  have there : command ∈ c.program := by rw [split]; simp
  have some : rest ≠ [] := by
    rintro rfl
    have last := (h.fine there).proper.last_of_code (by rw [code, List.getLast?_concat])
    cases last
  have size : command.size = first.size + (3 + rest.size) := by
    rw [Command.size, code, Steps.size_append]
    rfl
  have := Steps.size_pos some
  exact Context.not_opens_inside split (by omega) (by omega)

namespace Compilation

variable {source : String} {p : Program} (k : Compilation source p)

/-- At the start of a statement the stack is empty, and the return addresses are those of GOSUB, not those of functions. -/
def Balances (m : Machine) : Prop :=
  ∀ c₁ c₂, k.Statement c₁ c₂ → m.pc = c₁.place →
    m.values = [] ∧ ∀ back ∈ m.calls.items, k.last.Resumes back ∧ ¬ k.last.Continues back

/-- An expression that the machine begins to evaluate leaves one more value on the stack, if it comes to its end. -/
def Deepens (m : Machine) : Prop :=
  ∀ x e, k.last.Evaluates x e → m.pc = x → ∀ m',
    p.Comes (fun m' => m'.pc = x + e.code.size ∧ m'.calls.size = m.calls.size) m m' →
      m'.calls = m.calls ∧ ∃ v, m'.values = v :: m.values

theorem balances_of_underway {m : Machine} (h : k.last.Underway p k.values m) : k.Balances m := by
  intro c₁ c₂ statement pc
  have poised := h.poised k.finished (pc ▸ k.opens_statement statement)
  refine ⟨poised.values, fun back member => ⟨poised.calls back member, fun continues => ?_⟩⟩
  exact k.finished.not_opens_continues continues (k.finished.opens_of_resumes (poised.calls back member))

theorem balances_of_atRest {m : Machine} (h : k.last.AtRest p k.values m) (sane : m.status ≠ .faulted) :
    k.Balances m := by
  cases h with
  | ready _ _ _ empty uncalled =>
    intro c₁ c₂ _ _
    refine ⟨empty, fun back member => ?_⟩
    rw [uncalled] at member
    cases Array.not_mem_empty _ member
  | running engaged => exact k.balances_of_underway engaged.underway
  | faulted status => exact absurd status sane

theorem deepens_of_fits (fits : k.last.scopes.highWater ≤ maxPointer + 1) (m : Machine) : k.Deepens m := by
  intro x e evaluates pc m' comes
  have goes := k.finished.evaluates fits evaluates pc
  have past := Program.Unless.comes goes.relaxed (fun m₁ going there => ?_) (fun m₁ past => ?_) comes
  · exact ⟨past.calls, past.one⟩
  · cases going.busy with
    | start some _ same =>
      have := there.1
      rw [same] at this
      omega
    | inside _ before _ =>
      have := there.1
      omega
    | called _ deeper =>
      have := there.2
      omega
  · exact ⟨past.pc, by rw [past.calls]⟩

end Compilation

end Language

open Language

/-- Stack discipline of compiled programs, for every host, every configuration and every row of runs. No instruction that
is reached fails for want of a value. Whenever a machine is at the first instruction of a statement, its stack is empty,
and its return addresses are those of GOSUB, none of a function; so it is between runs, faulted machines apart, which run
no further. And an expression that is evaluated to its end leaves one value. -/
theorem stacks_balance {source : String} {p : Program} (h : compile source = .ok p) :
    ∃ k : Compilation source p,
      (∀ m, Reached p m → (m.status ≠ .faulted → k.Balances m) ∧
        ∀ {σ : Type} (env : Environment σ) budget t,
          (∀ e s, run env p budget ⟨m, t⟩ = .error e s → e.code ≠ .stackUnderflow) ∧
          ∀ s v, act (begin p) ⟨m, t⟩ = .ok () s → Visits env p budget s v →
            p.Healthy v.machine ∧ k.Balances v.machine ∧ k.Deepens v.machine) ∧
      ∀ command ∈ k.last.program, ∀ whole ∈ command.expressions, ∀ e : Expr, e.Part whole →
        ∃ x, k.last.Evaluates x e := by
  obtain ⟨k⟩ := compilation_of_ok h
  refine ⟨k, fun m reached => ?_, fun command there whole member e part => Context.exists_evaluates there member part⟩
  have rest := k.finished.atRest_of_reached reached
  have rests := rests_of_reached k.finished.closed reached
  refine ⟨k.balances_of_atRest rest, fun env budget t => ⟨fun e s failed => ?_, fun s v begun visits => ?_⟩⟩
  · have slice := (k.finished.atRest_slice env budget t rest rests).2
    rw [slice_of_run_error failed] at slice
    exact slice e rfl
  · have engaged := k.finished.engaged_begin rest rests.start rests.toInside begun
    have here := k.finished.engaged_visits engaged visits
    exact ⟨here.underway.healthy, k.balances_of_underway here.underway, k.deepens_of_fits here.fits v.machine⟩

/-- A subroutine in a loop that calls a function in a subscript and writes to a cell by its address. -/
def pokedSquares : String :=
  "10 DEF FN S(X)=X*X\n20 DIM A(20)\n30 FOR I=1 TO 3:GOSUB 60:NEXT\n40 ON I GOSUB 60,60\n50 END\n60 A(FN S(I))=I:POKE 5,A(FN S(I)):RETURN"

theorem stacks_balance_pokedSquares :
    ∃ p, compile pokedSquares = .ok p ∧ ∀ {σ : Type} (env : Environment σ) config budget t e s,
      run env p budget ⟨.new config, t⟩ = .error e s → e.code ≠ .stackUnderflow := by
  have found : (compile pokedSquares).toOption.isSome = true := by decide +kernel
  cases compiled : compile pokedSquares with
  | error e =>
    rw [compiled] at found
    cases found
  | ok p =>
    obtain ⟨k, balanced, -⟩ := stacks_balance compiled
    exact ⟨p, rfl, fun env config budget t => ((balanced _ (.fresh config)).2 env budget t).1⟩

end BasicMachine
