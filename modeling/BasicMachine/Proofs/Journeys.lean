import BasicMachine.Proofs.CallingConvention
import BasicMachine.Proofs.Nesting
import BasicMachine.Proofs.Renewal

/-!
# Journeys through a program

How a session goes on from one statement to another, whatever the budgets of its runs are and however often it pauses. The
code of an assignment leads to where the variable has its value, and the test of a loop to its body or to its exit.
-/
namespace BasicMachine

namespace Language

section
variable {σ : Type} {host : Host σ} {call : String → List Value → Evaluation σ Value} {args : List Value} {name : String}

/-- The function gives a value somewhere. -/
def Replies (call : String → List Value → Evaluation σ Value) (name : String) : Prop :=
  ∃ vs w v w', call name vs w = .ok v w'

theorem replies_of_evalAll {es : List Expr} {w w' : World σ} {vs : List Value}
    (all : ∀ e ∈ es, ∀ {w w' v}, e.eval host call args w = .ok v w' → name ∈ Steps.called e.code → Replies call name)
    (done : evalAll host call args es w = .ok vs w') (member : name ∈ Steps.called (argumentsBefore [] es)) :
    Replies call name := by
  induction es generalizing w w' vs with
  | nil => cases member
  | cons e rest ih =>
    rw [argumentsBefore, Expr.codeBefore_eq, Steps.called_append, List.mem_append] at member
    obtain ⟨v, w₁, first, done⟩ := run_bind_eq_ok done
    obtain ⟨us, w₂, later, done⟩ := run_bind_eq_ok done
    rcases member with here | there
    · exact all e List.mem_cons_self first here
    · exact ih (fun d member => all d (List.mem_cons_of_mem _ member)) later there

theorem replies_of_evalInner {es : List Expr} {extents : List Int16} {index v : Value} {w w' : World σ}
    (all : ∀ e ∈ es, ∀ {w w' v}, e.eval host call args w = .ok v w' → name ∈ Steps.called e.code → Replies call name)
    (done : evalInner host call args extents index es w = .ok v w')
    (member : name ∈ Steps.called (innerBefore extents [] es)) : Replies call name := by
  induction es generalizing extents index w with
  | nil => cases member
  | cons e rest ih =>
    rw [innerBefore, Expr.codeBefore_eq] at member
    simp only [Steps.called_append, Steps.called_ofCode, List.nil_append, List.mem_append] at member
    obtain ⟨scaled, w₁, -, done⟩ := run_bind_eq_ok done
    obtain ⟨u, w₂, first, done⟩ := run_bind_eq_ok done
    obtain ⟨index, w₃, -, later⟩ := run_bind_eq_ok done
    rcases member with here | there
    · exact all e List.mem_cons_self first here
    · exact ih (fun d member => all d (List.mem_cons_of_mem _ member)) later there

/-- An expression that has a value has called all functions that its code calls. -/
theorem replies_of_eval {functions : List (String × Nat)} {e : Expr} (proper : e.Proper functions) {w w' : World σ}
    {v : Value} (done : e.eval host call args w = .ok v w') (member : name ∈ Steps.called e.code) : Replies call name := by
  induction proper generalizing w v w' with
  | integer n => cases member
  | float x => cases member
  | text a => cases member
  | «variable» slot =>
    have code : (Expr.variable slot).code = Steps.ofCode slot.load := List.append_nil _
    rw [code, Steps.called_ofCode] at member
    cases member
  | @element array subscripts _ _ ih =>
    rw [Expr.code_element] at member
    simp only [Steps.called_append, ArrayBlock.called_checkSteps, Steps.called_ofCode, List.append_nil] at member
    obtain ⟨index, w₁, indexed, -⟩ := run_bind_eq_ok done
    cases subscripts with
    | nil => cases member
    | cons e rest =>
      rw [indexBefore, Expr.codeBefore_eq] at member
      simp only [Steps.called_append, Steps.called_ofCode, List.nil_append, List.mem_append] at member
      obtain ⟨u, w₂, first, indexed⟩ := run_bind_eq_ok indexed
      obtain ⟨index, w₃, -, later⟩ := run_bind_eq_ok indexed
      rcases member with here | there
      · exact ih e List.mem_cons_self first here
      · exact replies_of_evalInner (fun d member => ih d (List.mem_cons_of_mem _ member)) later there
  | @negate e _ ih =>
    have code : (Expr.negate e).code = Steps.ofCode [.short .pushI 0] ++ (e.code ++ Steps.ofCode Operator.minus.code) :=
      Expr.code_negate e
    rw [code] at member
    obtain ⟨u, w₁, inner, -⟩ := run_bind_eq_ok done
    exact ih inner (by simpa using member)
  | @not e _ ih =>
    have code : (Expr.not e).code = e.code ++ Steps.ofCode [.plain (.unary .not)] := Expr.code_not e
    rw [code] at member
    obtain ⟨u, w₁, inner, -⟩ := run_bind_eq_ok done
    exact ih inner (by simpa using member)
  | @binary op left right _ _ ih ih' =>
    rw [Expr.code_binary] at member
    simp only [Steps.called_append, Steps.called_ofCode, List.append_nil, List.mem_append] at member
    obtain ⟨l, w₁, first, done⟩ := run_bind_eq_ok done
    obtain ⟨r, w₂, second, -⟩ := run_bind_eq_ok done
    exact member.elim (ih first) (ih' second)
  | @builtin f es _ _ ih =>
    rw [Expr.code_builtin, Steps.called_append, Steps.called_ofCode, List.append_nil] at member
    obtain ⟨vs, w₁, all, -⟩ := run_bind_eq_ok done
    exact replies_of_evalAll ih all member
  | @call own es _ _ ih =>
    rw [Expr.code_call, Steps.called_append, List.mem_append] at member
    obtain ⟨vs, w₁, all, last⟩ := run_bind_eq_ok done
    rcases member with inner | own'
    · exact replies_of_evalAll ih all inner
    · obtain rfl : name = own := List.mem_singleton.mp own'
      exact ⟨vs, w₁, v, w', last⟩

end

/-- If an expression has a value, the calls of its functions have come to an end. -/
theorem Context.ends_of_eval {σ : Type} {c : Context} (tidy : ∀ {name r}, c.routine? name = some r →
      r.body.Proper c.functions) {host : Host σ} {depth : Nat} {args : List Value} {e : Expr} {w w' : World σ} {v : Value}
    (proper : e.Proper c.functions) (done : e.eval host (c.apply host depth) args w = .ok v w') :
    c.Ends (Steps.called e.code) := by
  induction depth generalizing e args w v w' with
  | zero =>
    refine .intro fun name member r found => ?_
    obtain ⟨vs, w₁, u, w₂, impossible⟩ := replies_of_eval proper done member
    cases impossible
  | succ depth ih =>
    refine .intro fun name member r found => ?_
    obtain ⟨vs, w₁, u, w₂, replied⟩ := replies_of_eval proper done member
    rw [apply, found] at replied
    obtain ⟨caller, w₃, -, replied⟩ := run_bind_eq_ok replied
    obtain ⟨⟨⟩, w₄, -, replied⟩ := run_bind_eq_ok replied
    obtain ⟨u', w₅, body, -⟩ := run_bind_eq_ok replied
    exact ih (tidy found) body

end Language

open Language

namespace Session

variable {σ : Type} {env : Environment σ} {p : Program} {s s' s'' : Session σ} {m m' m'' : Machine}
  {through through' : Nat → Prop}

/-- One instruction takes the session on, or lets it pause, whatever the budget. -/
def Advances (env : Environment σ) (p : Program) (s s' : Session σ) : Prop :=
  (∀ left, advance env p (left + 1) s = .next left s') ∨ ∀ left, advance env p (left + 1) s = .stop .paused s'

/-- The session comes to `s'`, and all instructions on its way lie where `through` says. -/
inductive Travels (env : Environment σ) (p : Program) (through : Nat → Prop) : Session σ → Session σ → Prop
  | refl (s : Session σ) : Travels env p through s s
  | step {s s' s'' : Session σ} (here : through s.machine.pc) (first : Advances env p s s')
      (later : Travels env p through s' s'') : Travels env p through s s''

namespace Travels

theorem trans (first : Travels env p through s s') (second : Travels env p through s' s'') :
    Travels env p through s s'' := by
  induction first with
  | refl => exact second
  | step here move _ ih => exact .step here move (ih second)

theorem of_goes {n : Nat} (h : Goes env p n s s') : Travels env p (fun _ => True) s s' := by
  induction h with
  | refl s => exact .refl s
  | step first _ ih => exact .step trivial (.inl first) ih

end Travels

/-- The machine comes to `m'` in the same way, whatever the host. -/
def Roves (env : Environment σ) (p : Program) (through : Nat → Prop) (m m' : Machine) : Prop :=
  ∀ t, ∃ t', Travels env p through ⟨m, t⟩ ⟨m', t'⟩

namespace Roves

theorem trans (first : Roves env p through m m') (second : Roves env p through m' m'') : Roves env p through m m'' := by
  intro t
  obtain ⟨t', before⟩ := first t
  obtain ⟨t'', after⟩ := second t'
  exact ⟨t'', before.trans after⟩

theorem single (here : through m.pc) (move : Moves env p m m') : Roves env p through m m' := by
  intro t
  obtain ⟨t', -, goes⟩ := move.goes t
  exact ⟨t', .step here (.inl goes) (.refl _)⟩

/-- Code that only shifts the stack is gone through from its first instruction to its last. -/
theorem of_reaches {code : Code} (shifts : code.all (·.shift.isSome) = true)
    (lies : p.HasCode m.pc code) (reaches : Reaches env p code.length m m')
    (within : ∀ x, m.pc ≤ x → x < m.pc + code.size → through x) : Roves env p through m m' := by
  induction code generalizing m with
  | nil =>
    cases reaches
    exact fun t => ⟨t, .refl _⟩
  | cons i rest ih =>
    obtain ⟨found, lies⟩ := lies.cons
    obtain ⟨here, later⟩ := Bool.and_eq_true_iff.mp (List.all_cons ▸ shifts)
    obtain ⟨⟨takes, gives⟩, shift⟩ := Option.isSome_iff_exists.mp here
    have one : 0 < i.size := i.size_pos
    rw [Code.size_cons] at within
    have inside : through m.pc := within _ (Nat.le_refl _) (by omega)
    cases reaches with
    | @step n _ m₁ _ first rest =>
      intro t
      obtain ⟨t', -, goes⟩ := first.goes t
      have carries : p.Carries m m₁ := ⟨_, _, 1, _, _, .inl ⟨0, goes 0⟩⟩
      have pc : m₁.pc = m.pc + i.size := (carries.shifted found ((Instruction.shift_stored i).trans shift)).pc
      have onward : Roves env p through m₁ m' := by
        refine ih later ?_ rest ?_
        · rwa [pc]
        · exact fun x above below => within x (by omega) (by omega)
      obtain ⟨t'', travels⟩ := onward t'
      exact ⟨t'', .step inside (.inl goes) travels⟩

end Roves

/-- Only IRQ asks an interrupt handler. -/
theorem perform_uninterrupted {i : Instruction} (other : ∀ n, i ≠ .short .irq n) (room : Nat) :
    perform env room i = perform { env with interrupts := fun _ => none } room i := by
  have same : Action.effect env.interrupts i = Action.effect (fun _ => none) i := by
    cases i with
    | short op n =>
      cases op with
      | irq => exact absurd rfl (other n)
      | _ => rfl
    | _ => rfl
  cases i with
  | syscall call r => rfl
  | _ => simp only [perform, same]

/-- The sizes and limits of a machine stay as they are while it runs closed code, whatever the interrupt handlers. -/
theorem Advances.frame {starts : List Nat} (closed : p.Closed starts) (inside : s.machine.pc ∈ starts)
    (h : Advances env p s s') : s'.machine.frame = s.machine.frame := by
  obtain ⟨i, next, found, leads⟩ := closed.leads _ inside
  have other (n : Int16) : i ≠ .short .irq n := by
    rintro rfl
    rcases leads with ⟨n, impossible, -⟩ | ⟨-, impossible | impossible | ⟨op, n, impossible, jump, -⟩⟩ <;>
      cases impossible
    cases jump
  let bare : Environment σ := { env with interrupts := fun _ => none }
  have same (left : Nat) : advance env p (left + 1) s = advance bare p (left + 1) s := by
    obtain ⟨op, fetched, decoded, -⟩ := instructionAt_eq_ok found
    by_cases nop : op = .plain .nop
    · subst nop
      rw [advance_nop fetched, advance_nop fetched]
      rfl
    · rw [advance_step fetched nop, advance_step fetched nop, step_decoded decoded, step_decoded decoded,
        perform_uninterrupted other]
      rfl
  have framed : (advance bare p 1 s).Framed s.machine := framed_advance (fun _ _ none => by cases none) p 1 s
  rcases h with next | paused
  · rw [← same 0, next 0] at framed
    exact framed
  · rw [← same 0, paused 0] at framed
    exact framed.1

end Session

namespace Language.Finished

variable {c : Context} {values : List Value} {p : Program} (h : Finished c values p)
include h

theorem apart : c.blocks.Pairwise Block.Apart := by
  obtain ⟨row, fills, perm⟩ := h.settled.whole.1.filled
  exact (perm.pairwise_iff fun h => Block.Apart.symm h).mp fills.pairwise

/-- The frames of functions hold no cell of a variable or of a statement. -/
theorem not_uses_of_block {b : Block} (kept : b ∈ c.tables ∨ b ∈ temporaries c.commands) {x : Nat} (has : b.Has x)
    (names : List String) : ¬ c.Uses names x := by
  rintro ⟨name, r, -, found, above, below⟩
  have frame : ⟨r.frame, 1 + r.arity⟩ ∈ frames c.commands := by
    refine List.mem_flatMap.mpr ⟨.function r.frame r.arity r.body, ?_, List.mem_singleton.mpr rfl⟩
    exact (Context.mem_program.mp (h.routine_mem found)).resolve_left (by simp)
  obtain ⟨-, others, tables⟩ := List.pairwise_append.mp h.apart
  obtain ⟨-, -, kept'⟩ := List.pairwise_append.mp others
  have apart : Block.Apart b ⟨r.frame, 1 + r.arity⟩ := by
    rcases kept with table | kept
    · exact tables _ table _ (List.mem_append_left _ frame)
    · exact Block.Apart.symm (kept' _ frame _ kept)
  obtain ⟨above', below'⟩ := has
  rcases apart with apart | apart <;> dsimp only at apart <;> omega

end Language.Finished

namespace Language.Finished

open Session

variable {σ : Type} {env : Environment σ} {p : Program} {s s' : Session σ} {through : Nat → Prop} {c : Context}
  {values : List Value} (h : Finished c values p)
include h

/-- A machine that runs a program goes on running it. -/
theorem engaged_advances (engaged : c.Engaged p values s.machine) (advances : Advances env p s s') :
    c.Engaged p values s'.machine := by
  rcases advances with next | paused
  · exact h.engaged_next engaged (next 0)
  · have safe : (advance env p 1 s).Safe _ := safe_advance h.closed engaged.toRoams 1
    rw [paused 0] at safe
    have running : s'.machine.status = .running := safe.2.1
    cases (h.atRest_stop engaged (paused 0)).1 with
    | ready status => cases status.symm.trans running
    | running engaged => exact engaged
    | faulted status => cases status.symm.trans running

theorem engaged_travels (engaged : c.Engaged p values s.machine) (travels : Travels env p through s s') :
    c.Engaged p values s'.machine ∧ s'.machine.frame = s.machine.frame := by
  induction travels with
  | refl => exact ⟨engaged, rfl⟩
  | step _ first _ ih =>
    obtain ⟨last, kept⟩ := ih (h.engaged_advances engaged first)
    exact ⟨last, kept.trans (first.frame h.closed engaged.pc)⟩

end Language.Finished

namespace Session

/-- A machine that nobody watches is at the address, with room for so many values and return addresses. -/
structure Stationed {σ : Type} (address room : Nat) (s : Session σ) : Prop where
  pc : s.machine.pc = address
  off : s.machine.tracing = false
  values : s.machine.stack.size + room ≤ s.machine.stack.limit
  calls : s.machine.calls.size + room ≤ s.machine.calls.limit

end Session

namespace Language.Compilation

open Session

variable {source : String} {p : Program} (k : Compilation source p)

/-- The code of an expression outside of functions does what its evaluation says, if that comes to an end. -/
theorem honest (fits : k.last.scopes.highWater ≤ maxPointer + 1) {command : Command} {e : Expr}
    (there : command ∈ k.last.program) (member : e ∈ command.expressions) (outside : command.arity = 0)
    (ends : k.last.Ends (Steps.called e.code)) :
    ∃ need, ∀ {σ : Type} (env : Environment σ) depth, need ≤ depth →
      e.Honest k.last p env (k.last.apply env.host depth) (Steps.called e.code) [] need need := by
  have works := k.finished.working fits
  obtain ⟨before, after, split⟩ := List.append_of_mem there
  have known (name : String) (called : name ∈ Steps.called e.code) : k.last.Knows (.function name) :=
    (k.finished.lies split).known name (((Command.infix_code member).filterMap _).subset called)
  obtain ⟨need, answers⟩ := Context.exists_answers works (k.tidy fits) ends known
  refine ⟨need, fun env depth deep => ?_⟩
  have apt : e.Apt k.last (Steps.called e.code) ([] : List Value).length := by
    have apt := k.apt fits there member (outside ▸ by decide)
    rwa [outside] at apt
  exact apt.honest works fun name called => answers name called env depth deep

/-- An assignment to a variable with a cell of its own. -/
theorem assigns (fits : k.last.scopes.highWater ≤ maxPointer + 1) {before after : List Command} {x : Nat} {e : Expr}
    (split : k.last.program = before ++ .assign (.scalar (.cell x)) e :: after) :
    ∃ room, ∀ {σ : Type} (env : Environment σ) depth (s : Session σ) v w, room ≤ depth →
      s.Stationed (codeSize before) room → k.last.scopes.highWater ≤ s.machine.memory.size →
      e.eval env.host (k.last.apply env.host depth) [] s.world = .ok v w →
      s.world.Keeps (k.last.Uses (Steps.called e.code)) w ∧
        ∃ a idx, Session.Leads env p s (Command.assign (.scalar (.cell x)) e).size s.machine.stack
          { w with memory := w.memory.setIfInBounds x v } a idx := by
  let command : Command := .assign (.scalar (.cell x)) e
  have there : command ∈ k.last.program := split ▸ List.mem_append_right _ List.mem_cons_self
  have member : e ∈ command.expressions := List.mem_singleton.mpr rfl
  have fine := k.finished.fine there
  have code : command.code = e.code ++ Steps.ofCode [.pointer .store x] := Expr.codeBefore_eq _ e
  have own : x < k.last.scopes.highWater := by
    refine fine.below x ?_
    rw [code, Steps.pointers_append]
    exact List.mem_append_right _ (List.mem_singleton.mpr rfl)
  by_cases ends : k.last.Ends (Steps.called e.code)
  · obtain ⟨need, honest⟩ := k.honest fits there member rfl ends
    refine ⟨e.code.size + need, fun env depth s v w deep stationed size value => ?_⟩
    have honest := honest env depth (by omega)
    have keeps := honest.keeping.keeps value
    refine ⟨keeps, ?_⟩
    have lies := k.finished.lies split
    have poised : Session.Poised k.last p (e.code ++ Steps.ofCode [.pointer .store x]) (e.code.size + need) need s := by
      rw [← code]
      refine ⟨stationed.pc ▸ lies.code, stationed.pc ▸ lies.reach, stationed.off, stationed.values, ?_⟩
      have := stationed.calls
      omega
    have does := honest.does poised.first ⟨size, .inl rfl⟩
    simp only [Functor.map, EStateM.map, value] at does
    obtain ⟨a, idx, leads⟩ := does
    refine ⟨a, idx, ?_⟩
    have whole : command.size = e.code.size + (Steps.ofCode [.pointer .store x]).size := by
      rw [Command.size, code, Steps.size_append]
    rw [whole]
    refine leads.trans fun clock => ?_
    have before := (poised.second 0 (s.machine.stack.insert v) w a idx clock rfl (by
      have := honest.some
      rw [Stack.size_insert]
      omega)).before
    exact before.store (Nat.le_of_lt_succ (Nat.lt_of_lt_of_le own fits)) (keeps.size ▸ Nat.lt_of_lt_of_le own size) rfl
  · refine ⟨0, fun env depth s v w _ _ _ value => absurd ?_ ends⟩
    refine Context.ends_of_eval ?_ (fine.proper.expression member) value
    exact (k.finished.working fits).proper

end Language.Compilation

end BasicMachine
