import BasicMachine.Proofs.References
import BasicMachine.Proofs.Sites

/-!
# Marks and loops

A label is taken anew, owed while jumps to it are made, and paid with its mark, so that every mark is the only one of its
label. The exit of a loop is owed as long as the loop is open: a NEXT finds the FOR loop that was opened last among those
that are open, and marks its exit.
-/
namespace BasicMachine.Language

/-- The label that a command marks. -/
def Command.marked? : Command → Option Label
  | mark l => some l
  | _ => none

namespace Context

/-- The labels that open loops owe. -/
def exits (c : Context) : List Label := c.forLoops.map ForLoop.exit ++ c.whileLoops.map WhileLoop.exit

/-- The labels that have a mark. -/
def marks (c : Context) : List Label := c.commands.filterMap Command.marked?

/-- How often a label is marked or still owed. -/
def pledges (c : Context) (owed : List Label) (l : Label) : Nat := owed.count l + c.exits.count l + c.marks.count l

/-- No line and no place inside statements has two marks, not even when all that is owed is paid, and labels that are not
taken yet have none. -/
structure Owes (c : Context) (owed : List Label) : Prop where
  once : ∀ l, l.isFunction = false → c.pledges owed l ≤ 1
  fresh : ∀ n, c.labelCount ≤ n → c.pledges owed (.inside n) = 0
  taken : ∀ n, n < c.labelCount → c.pledges owed (.inside n) = 1
  lines : ∀ n, owed.count (.line n) + c.exits.count (.line n) = 0

variable {c c' : Context} {owed owed' : List Label} {l : Label} {command : Command}

theorem Owes.of_pledges (h : c.Owes owed) (same : ∀ l, l.isFunction = false → c'.pledges owed' l = c.pledges owed l)
    (labels : c'.labelCount = c.labelCount)
    (lines : ∀ n, owed'.count (.line n) + c'.exits.count (.line n) ≤ owed.count (.line n) + c.exits.count (.line n)) :
    c'.Owes owed' where
  once l other := same l other ▸ h.once l other
  fresh n above := same (.inside n) rfl ▸ h.fresh n (labels ▸ above)
  taken n below := same (.inside n) rfl ▸ h.taken n (labels ▸ below)
  lines n := Nat.eq_zero_of_le_zero (h.lines n ▸ lines n)

theorem exits_steady (h : c.Steady c') : c'.exits = c.exits := by
  rw [exits, exits, h.forLoops, h.whileLoops]

theorem marks_of_unmarked {new : List Command} (commands : c'.commands = new ++ c.commands)
    (none : ∀ command ∈ new, command.marked? = none) : c'.marks = c.marks := by
  rw [marks, marks, commands, List.filterMap_append, List.filterMap_eq_nil_iff.mpr none, List.nil_append]

/-- Commands that mark nothing. -/
theorem Owes.steady (h : c.Owes owed) (new : List Command) (steady : c.Steady c')
    (commands : c'.commands = new ++ c.commands) (none : ∀ command ∈ new, command.marked? = none) : c'.Owes owed := by
  refine h.of_pledges (fun l _ => ?_) steady.labels fun n => ?_
  · rw [pledges, pledges, exits_steady steady, marks_of_unmarked commands none]
  · rw [exits_steady steady]

theorem Owes.emitting (h : c.Owes owed) (none : command.marked? = none) : (c.emitting command).Owes owed :=
  h.steady [command] ⟨rfl, rfl, rfl⟩ rfl (List.forall_mem_singleton.mpr none)

/-- Loops owe what was owed before, or the other way round. -/
theorem Owes.exchanging (h : c.Owes owed) (commands : c'.commands = c.commands) (labels : c'.labelCount = c.labelCount)
    (count : ∀ l, owed'.count l + c'.exits.count l = owed.count l + c.exits.count l) : c'.Owes owed' := by
  refine h.of_pledges (fun l _ => ?_) labels fun n => (count _).le
  rw [pledges, pledges, count, marks, marks, commands]

theorem Owes.perm (h : c.Owes owed) (perm : owed.Perm owed') : c.Owes owed' := by
  have same (l : Label) : owed'.count l = owed.count l := (perm.count_eq l).symm
  exact h.of_pledges (fun l _ => by rw [pledges, pledges, same]) rfl fun n => by rw [same]

/-- A new label is owed. -/
theorem Owes.labelling (h : c.Owes owed) : c.labelling.Owes (.inside c.labelCount :: owed) := by
  have none := h.fresh c.labelCount (Nat.le_refl _)
  have same (l : Label) : c.labelling.pledges (.inside c.labelCount :: owed) l =
      c.pledges owed l + if (Label.inside c.labelCount == l) = true then 1 else 0 := by
    rw [pledges, pledges, List.count_cons]
    change _ + _ + List.count l c.exits + List.count l c.marks = _
    omega
  refine ⟨fun l other => ?_, fun n above => ?_, fun n below => ?_, fun n => ?_⟩
  · have before := h.once l other
    rw [same]
    split
    · next equal => rw [← eq_of_beq equal, none]
    · exact before
  · have above : c.labelCount + 1 ≤ n := above
    rw [same, if_neg (by simp; omega)]
    exact h.fresh n (by omega)
  · have below : n < c.labelCount + 1 := below
    rw [same]
    by_cases last : n = c.labelCount
    · rw [last, none, if_pos (by simp)]
    · rw [if_neg (by simp; omega), h.taken n (by omega)]
  · rw [List.count_cons_of_ne (by simp)]
    exact h.lines n

/-- A mark pays what is owed. -/
theorem Owes.marking (h : c.Owes (l :: owed)) : (c.emitting (.mark l)).Owes owed := by
  refine h.of_pledges (fun l' _ => ?_) rfl fun n => ?_
  · have marks : (c.emitting (.mark l)).marks = l :: c.marks := rfl
    rw [pledges, pledges, marks, List.count_cons, List.count_cons]
    change List.count l' owed + List.count l' c.exits + _ = _
    omega
  · exact Nat.add_le_add_right (List.count_le_count_cons) _

/-- The mark of a function. -/
theorem Owes.defining (h : c.Owes owed) (name : String) : (c.emitting (.mark (.function name))).Owes owed := by
  refine h.of_pledges (fun l other => ?_) rfl fun _ => Nat.le_refl _
  have marks : (c.emitting (.mark (.function name))).marks = .function name :: c.marks := rfl
  rw [pledges, marks, List.count_cons_of_ne]
  · rfl
  · rintro rfl
    cases other

/-- The mark of a line that has none yet. -/
theorem Owes.lining {n : UInt16} (h : c.Owes owed) (new : .mark (.line n) ∉ c.commands) :
    (c.emitting (.mark (.line n))).Owes owed := by
  have marks : (c.emitting (.mark (.line n))).marks = .line n :: c.marks := rfl
  have none : c.marks.count (.line n) = 0 := by
    refine List.count_eq_zero.mpr fun member => new ?_
    obtain ⟨command, there, marked⟩ := List.mem_filterMap.mp member
    cases command with
    | mark l =>
      cases marked
      exact there
    | _ => cases marked
  refine ⟨fun l other => ?_, fun k above => ?_, fun k below => ?_, fun k => h.lines k⟩
  · have before := h.once l other
    have lines := h.lines n
    rw [pledges] at before
    rw [pledges, marks, List.count_cons]
    change List.count l owed + List.count l c.exits + _ ≤ 1
    split
    · next equal =>
      obtain rfl := eq_of_beq equal
      omega
    · exact before
  · rw [pledges, marks, List.count_cons_of_ne (by simp)]
    exact h.fresh k above
  · rw [pledges, marks, List.count_cons_of_ne (by simp)]
    exact h.taken k below

/-- What becomes of a FOR loop that is open inside the loops `outer` and behind the commands `base`: it stays open, or a
NEXT that finds it as the innermost one closes it. -/
inductive Pursues (loop : ForLoop) (outer : List ForLoop) (base : List Command) (c : Context) : Prop
  | opened {inner : List ForLoop} (loops : c.forLoops = inner ++ loop :: outer) (behind : base <:+ c.commands)
  | closed {d d' : Context} {name : Option String} (ran : Parser.closeLoop name d = .ok ((), d'))
      (loops : d.forLoops = loop :: outer) (behind : base <:+ d.commands) (later : d'.commands <:+ c.commands)

variable {loop : ForLoop} {outer : List ForLoop} {base : List Command}

theorem Pursues.grow (h : c.Pursues loop outer base) (loops : c'.forLoops = c.forLoops)
    (grows : c.commands <:+ c'.commands) : c'.Pursues loop outer base := by
  cases h with
  | opened same behind => exact .opened (loops.trans same) (behind.trans grows)
  | closed ran same behind later => exact .closed ran same behind (later.trans grows)

/-- Another loop is opened inside. -/
theorem Pursues.opening {new : ForLoop} (h : c.Pursues loop outer base) (loops : c'.forLoops = new :: c.forLoops)
    (grows : c.commands <:+ c'.commands) : c'.Pursues loop outer base := by
  cases h with
  | @opened inner same behind =>
    exact @opened _ _ _ _ (new :: inner) (by rw [loops, same]; rfl) (behind.trans grows)
  | closed ran same behind later => exact .closed ran same behind (later.trans grows)

/-- NEXT closes this loop or one inside it. -/
theorem Pursues.closing {name : Option String} {u : Unit} (h : c.Pursues loop outer base)
    (ran : Parser.closeLoop name c = .ok (u, c')) : c'.Pursues loop outer base := by
  obtain ⟨innermost, others, opened, -, rfl⟩ := Parser.closeLoop_eq_ok ran
  cases h with
  | @opened inner same behind =>
    cases inner with
    | nil => exact .closed ran same behind (List.suffix_refl _)
    | cons first inner =>
      rw [opened, List.cons_append, List.cons.injEq] at same
      exact .opened same.2 (behind.trans (List.suffix_append [_, _, _] _))
  | closed ran same behind later =>
    exact .closed ran same behind (later.trans (List.suffix_append [_, _, _] _))

end Context

namespace Parser

variable {α β : Type} {owed : List Label} {p : Parser α} {f : α → Parser β}

/-- Where the labels `owed` are owed, the parser leaves others owed, and it pursues the FOR loops that are open. -/
structure Nesting (owed : List Label) (p : Parser α) (left : α → List Label) : Prop where
  owes : ∀ {c a c'}, p c = .ok (a, c') → c.Owes owed → c'.Owes (left a)
  pursues : ∀ {c a c' loop outer base}, p c = .ok (a, c') → c.Pursues loop outer base → c'.Pursues loop outer base

theorem nests_bind {between : α → List Label} {left : β → List Label} (first : Nesting owed p between)
    (second : ∀ a, Nesting (between a) (f a) left) : Nesting owed (p >>= f) left where
  owes ran before := by
    obtain ⟨a, d, ran, later⟩ := bind_eq_ok.mp ran
    exact (second a).owes later (first.owes ran before)
  pursues ran before := by
    obtain ⟨a, d, ran, later⟩ := bind_eq_ok.mp ran
    exact (second a).pursues later (first.pursues ran before)

theorem nests_then {left : β → List Label} (first : Nesting owed p fun _ => owed) (second : ∀ a, Nesting owed (f a) left) :
    Nesting owed (p >>= f) left :=
  nests_bind first second

theorem nests_either {q : Prop} [Decidable q] {yes no : Parser α} {left : α → List Label} (first : Nesting owed yes left)
    (second : Nesting owed no left) : Nesting owed (if q then yes else no) left := by
  split
  · exact first
  · exact second

/-- The licence for commands that mark nothing. -/
def unmarked : Licence := ⟨fun command => command.marked? = none, False, True⟩

theorem nests_of_keeping (h : Keeping unmarked (-1) .unknown p) : Nesting owed p fun _ => owed where
  owes ran before := by
    obtain ⟨new, makes, none⟩ := (h.course trivial ran).makes
    exact before.steady new makes.steady makes.commands none
  pursues ran before := by
    obtain ⟨new, makes, -⟩ := (h.course trivial ran).makes
    exact before.grow makes.steady.forLoops (makes.commands ▸ List.suffix_append _ _)

theorem nests_fail {left : α → List Label} (code : ErrorCode) (detail : String) :
    Nesting owed (fail code detail : Parser α) left :=
  ⟨fun ran => absurd ran fail_ne_ok, fun ran => absurd ran fail_ne_ok⟩

theorem nests_pure {left : α → List Label} (a : α) (same : left a = owed) : Nesting owed (pure a : Parser α) left where
  owes ran before := by
    obtain ⟨rfl, rfl⟩ := pure_eq_ok.mp ran
    exact same ▸ before
  pursues ran before := by
    obtain ⟨-, rfl⟩ := pure_eq_ok.mp ran
    exact before

theorem nests_freshLabel : Nesting owed freshLabel fun l => l :: owed where
  owes ran before := by
    cases ran
    exact before.labelling
  pursues ran before := by
    cases ran
    exact before.grow rfl (List.suffix_refl _)

/-- The mark of a label that is owed. -/
theorem nests_mark {l : Label} {owed' : List Label} (perm : owed.Perm (l :: owed')) :
    Nesting owed (emit (.mark l)) fun _ => owed' where
  owes ran before := by
    cases ran
    exact (before.perm perm).marking
  pursues ran before := by
    cases ran
    exact before.grow rfl (List.suffix_cons _ _)

theorem nests_place {l : Label} {owed' : List Label} (perm : owed.Perm (l :: owed')) :
    Nesting owed (place l) fun _ => owed' :=
  nests_then (nests_of_keeping keeping_checkReach) fun _ => nests_mark perm

theorem nests_emit {command : Command} (none : command.marked? = none) : Nesting owed (emit command) fun _ => owed :=
  nests_of_keeping (keeping_emit none)

theorem nests_expression (fuel power : Nat) : Nesting owed (expression fuel power) fun _ => owed :=
  nests_of_keeping (keeping_expression fuel power)

theorem nests_skip : Nesting owed skip fun _ => owed := nests_of_keeping (keeping_skipAny trivial)

theorem nests_accept {t : Token} (other : t ≠ .word .DATA) : Nesting owed (accept t) fun _ => owed :=
  nests_of_keeping (keeping_accept other)

theorem nests_expect {t : Token} (other : t ≠ .word .DATA) : Nesting owed (expect t) fun _ => owed :=
  nests_of_keeping (keeping_expect other)

theorem nests_lineJump {command : Label → Command} (none : ∀ l, (command l).marked? = none) :
    Nesting owed (lineJump command) fun _ => owed :=
  nests_of_keeping (keeping_lineJump none)

/-- The exit of the loop is owed by the loop from here on. -/
theorem nests_openWhile (top exit : Label) :
    Nesting (exit :: owed) (modify fun c => { c with whileLoops := { top, exit, line := c.line } :: c.whileLoops })
      fun _ => owed where
  owes {c a c'} ran before := by
    cases ran
    refine before.exchanging rfl rfl fun l => ?_
    simp only [Context.exits, List.count_append, List.map_cons, List.count_cons]
    omega
  pursues ran before := by
    cases ran
    exact before.grow rfl (List.suffix_refl _)

theorem nests_whileLoop (fuel : Nat) : Nesting owed (whileLoop fuel) fun _ => owed := by
  refine nests_bind nests_freshLabel fun top => nests_bind (nests_mark (.refl _)) fun _ => ?_
  refine nests_then (nests_expression fuel 0) fun e => nests_bind nests_freshLabel fun exit => ?_
  exact nests_then (nests_emit rfl) fun _ => nests_openWhile top exit

theorem nests_openFor (name : String) (slot : Slot) (step : Nat) (top exit : Label) :
    Nesting (exit :: owed)
      (modify fun c => { c with forLoops := { name, slot, step, top, exit, line := c.line } :: c.forLoops })
      fun _ => owed where
  owes {c a c'} ran before := by
    cases ran
    refine before.exchanging rfl rfl fun l => ?_
    simp only [Context.exits, List.count_append, List.map_cons, List.count_cons]
    omega
  pursues ran before := by
    cases ran
    exact before.opening rfl (List.suffix_refl _)

theorem nests_forLoop (fuel : Nat) : Nesting owed (forLoop fuel) fun _ => owed := by
  have opens (name : String) (slot : Slot) (limit step : Nat) (e : Expr) :
      Nesting owed (openLoop name slot limit step e) fun _ => owed := by
    refine nests_then (nests_emit rfl) fun _ => nests_bind nests_freshLabel fun top => ?_
    refine nests_bind (nests_mark (.refl _)) fun _ => nests_bind nests_freshLabel fun exit => ?_
    exact nests_then (nests_emit rfl) fun _ => nests_openFor name slot step top exit
  refine nests_then (nests_of_keeping keeping_identifier) fun name => ?_
  refine nests_then (nests_of_keeping (keeping_simple name)) fun slot => ?_
  refine nests_then (nests_expect (by simp)) fun _ => nests_then (nests_expression fuel 0) fun start => ?_
  refine nests_then (nests_emit rfl) fun _ => nests_then (nests_expect (by simp)) fun _ => ?_
  refine nests_then (nests_of_keeping (keeping_allocate 1)) fun limit => ?_
  refine nests_then (nests_of_keeping (keeping_allocate 1)) fun step => nests_then (nests_expression fuel 0) fun last => ?_
  refine nests_then (nests_emit rfl) fun _ => nests_then (nests_accept (by simp)) fun _ => ?_
  refine nests_either ?_ (opens name slot limit step _)
  exact nests_then (nests_expression fuel 0) fun e => opens name slot limit step e

/-- What an inner loop owed is paid. -/
theorem nests_wend : Nesting owed wend fun _ => owed := by
  refine ⟨fun {c a c'} ran before => ?_, fun {c a c' loop outer base} ran before => ?_⟩
  · obtain ⟨loop, outer, opened, rfl⟩ := wend_eq_ok ran
    have owes : { c with whileLoops := outer }.Owes (loop.exit :: owed) := by
      refine before.exchanging rfl rfl fun l => ?_
      simp only [Context.exits, List.count_append, List.map_cons, List.count_cons, opened]
      omega
    exact (owes.emitting rfl).marking
  · obtain ⟨_, _, -, rfl⟩ := wend_eq_ok ran
    exact before.grow rfl (List.suffix_append [_, _] _)

theorem nests_closeLoop (name : Option String) : Nesting owed (closeLoop name) fun _ => owed := by
  refine ⟨fun {c a c'} ran before => ?_, fun ran before => before.closing ran⟩
  obtain ⟨loop, outer, opened, -, rfl⟩ := closeLoop_eq_ok ran
  have owes : { c with forLoops := outer }.Owes (loop.exit :: owed) := by
    refine before.exchanging rfl rfl fun l => ?_
    simp only [Context.exits, List.count_append, List.map_cons, List.count_cons, opened]
    omega
  exact ((owes.emitting rfl).emitting rfl).marking

theorem nests_next (fuel : Nat) : Nesting owed (next fuel) fun _ => owed := by
  induction fuel with
  | zero => exact nests_fail _ _
  | succ fuel ih =>
    refine nests_then (nests_of_keeping keeping_peek) fun t => ?_
    split
    · refine nests_then (nests_skip) fun _ => nests_then (nests_closeLoop _) fun _ => ?_
      exact nests_then (nests_accept (by simp)) fun _ => nests_either ih (nests_pure () rfl)
    · exact nests_closeLoop _

theorem nests_wait (fuel : Nat) : Nesting owed (wait fuel) fun _ => owed := by
  refine nests_then (nests_of_keeping (keeping_allocate 1)) fun cell => nests_then (nests_expression fuel 0) fun e => ?_
  refine nests_then (nests_emit rfl) fun _ => nests_bind nests_freshLabel fun top => ?_
  refine nests_bind nests_freshLabel fun done => nests_bind (nests_mark (.swap ..)) fun _ => ?_
  refine nests_then (nests_emit rfl) fun _ => nests_then (nests_emit rfl) fun _ => nests_then (nests_emit rfl) fun _ => ?_
  exact nests_then (nests_emit rfl) fun _ => nests_place (.refl _)

theorem nests_choices (fuel cell : Nat) (gosubEnd : Option Label) (choice : Int16) :
    Nesting owed (choices fuel cell gosubEnd choice) fun _ => owed := by
  induction fuel generalizing choice with
  | zero => exact nests_fail _ _
  | succ fuel ih =>
    have more : Nesting owed (do if ← accept .comma then choices fuel cell gosubEnd (choice + 1)) fun _ => owed :=
      nests_then (nests_accept (by simp)) fun _ => nests_either (ih _) (nests_pure () rfl)
    refine nests_then (nests_of_keeping keeping_lineNumber) fun n => ?_
    split
    · refine nests_bind nests_freshLabel fun other => nests_then (nests_emit rfl) fun _ => ?_
      refine nests_then (nests_emit rfl) fun _ => nests_then (nests_of_keeping (keeping_refer (by simp))) fun _ => ?_
      exact nests_then (nests_emit rfl) fun _ => nests_bind (nests_place (.refl _)) fun _ => more
    · exact nests_then (nests_emit rfl) fun _ => nests_then (nests_of_keeping (keeping_refer (by simp))) fun _ => more

theorem nests_on (fuel : Nat) : Nesting owed (on fuel) fun _ => owed := by
  refine nests_then (nests_of_keeping (keeping_allocate 1)) fun cell => nests_then (nests_expression fuel 0) fun e => ?_
  refine nests_then (nests_emit rfl) fun _ => nests_then (nests_accept (by simp)) fun _ => nests_either ?_ ?_
  · refine nests_bind nests_freshLabel fun done => nests_then (nests_choices fuel cell _ _) fun _ => ?_
    exact nests_place (.refl _)
  · exact nests_then (nests_expect (by simp)) fun _ => nests_choices fuel cell _ _

theorem nests_define (fuel : Nat) : Nesting owed (define fuel) fun _ => owed := by
  refine nests_then (nests_expect (by simp)) fun _ => nests_then (nests_of_keeping keeping_identifier) fun name => ?_
  refine nests_then (nests_of_keeping (keeping_parameters fuel)) fun names => ?_
  refine nests_then (nests_expect (by simp)) fun _ => nests_bind nests_freshLabel fun after => ?_
  refine nests_then (nests_emit rfl) fun _ => ?_
  have marked : Nesting (after :: owed) (emit (.mark (.function name))) fun _ => after :: owed := by
    refine ⟨fun ran before => ?_, fun ran before => ?_⟩
    · cases ran
      exact before.defining name
    · cases ran
      exact before.grow rfl (List.suffix_cons _ _)
  refine nests_then marked fun _ => ?_
  -- the scope of the function is no matter of labels and loops
  have scopes (g : Scopes → Scopes) :
      Nesting (after :: owed) (modify fun c => { c with scopes := g c.scopes } : Parser Unit) fun _ => after :: owed := by
    refine ⟨fun ran before => ?_, fun ran before => ?_⟩
    · cases ran
      exact before.steady [] ⟨rfl, rfl, rfl⟩ rfl (List.forall_mem_nil _)
    · cases ran
      exact before.grow rfl (List.suffix_refl _)
  refine nests_then (scopes fun s => names.foldl (fun s n => (s.define n).2) s.enter) fun _ => ?_
  refine nests_then (nests_of_keeping keeping_get) fun c => nests_then (nests_of_keeping (keeping_allocate _)) fun frame => ?_
  refine nests_then (nests_of_keeping (keeping_accountCode _)) fun _ => nests_then (nests_expression fuel 0) fun body => ?_
  refine nests_then (scopes Scopes.leave) fun _ => nests_then (nests_emit rfl) fun _ => ?_
  exact nests_place (.refl _)

theorem nests_keyword {fuel : Nat} {k : Keyword} (other : k ≠ .IF) :
    Nesting owed (keyword (fuel + 1) k) fun _ => owed := by
  have host (request : Syscall) (args : List Expr) : unmarked.commands (.host request args) := rfl
  cases k with
  | COLOR => exact nests_of_keeping (keeping_hostCallOr host fuel 1 0)
  | DATA => exact nests_of_keeping (keeping_data trivial)
  | DEF => exact nests_define fuel
  | DIM => exact nests_of_keeping (keeping_dim fuel)
  | FOR => exact nests_forLoop fuel
  | GOSUB => exact nests_lineJump fun _ => rfl
  | GOTO => exact nests_lineJump fun _ => rfl
  | IF => exact absurd rfl other
  | INPUT => exact nests_of_keeping (keeping_input (fun _ => rfl) (fun _ _ => rfl) fuel)
  | LET => exact nests_of_keeping (keeping_assignment (fun _ _ => rfl) fuel)
  | LINE => exact nests_of_keeping (keeping_line host fuel)
  | LOCATE => exact nests_of_keeping (keeping_hostCall host fuel 2)
  | NEXT => exact nests_next fuel
  | ON => exact nests_on fuel
  | POKE => exact nests_of_keeping (keeping_poke (fun _ _ => rfl) fuel)
  | PRINT => exact nests_of_keeping (keeping_print (fun _ => rfl) (fun _ => rfl) fuel)
  | PSET => exact nests_of_keeping (keeping_hostCallOr host fuel 2 _)
  | PUT => exact nests_of_keeping (keeping_put (fun _ _ _ => rfl) fuel)
  | RANDOMIZE => exact nests_of_keeping (keeping_randomize (fun _ => rfl) fuel)
  | READ => exact nests_of_keeping (keeping_read (fun _ _ => rfl) fuel)
  | SOUND => exact nests_of_keeping (keeping_hostCall host fuel 3)
  | SWAP => exact nests_of_keeping (keeping_swap fun _ _ => rfl)
  | VOICE => exact nests_of_keeping (keeping_hostCall host fuel 7)
  | WAIT => exact nests_wait fuel
  | WEND => exact nests_wend
  | WHILE => exact nests_whileLoop fuel
  | BEEP | CLS | END | RESTORE | RETURN => exact nests_emit rfl
  | ELSE | FN | REM | STEP | THEN | TO => exact nests_of_keeping (keeping_unexpected _)

theorem nests_condition (fuel : Nat) : Nesting owed (condition fuel) fun l => l :: owed := by
  refine nests_then (nests_expression fuel 0) fun e => nests_bind nests_freshLabel fun l => ?_
  exact nests_then (nests_emit rfl) fun _ => nests_pure l rfl

theorem nests_consequence {fuel : Nat} (branched : Nesting owed (branch fuel) fun _ => owed) :
    Nesting owed (consequence fuel) fun _ => owed := by
  refine nests_then (nests_accept (by simp)) fun _ => nests_either (nests_lineJump fun _ => rfl) ?_
  exact nests_then (nests_expect (by simp)) fun _ => branched

theorem nests_alternative (l : Label) : Nesting (l :: owed) (alternative l) fun l' => l' :: owed := by
  refine nests_bind nests_freshLabel fun l' => nests_then (nests_emit rfl) fun _ => ?_
  exact nests_bind (nests_place (.swap ..)) fun _ => nests_pure l' rfl

/-- Reading leaves owed what was owed, and pursues the FOR loops that are open. -/
structure Nested (c c' : Context) : Prop where
  owes : ∀ {owed}, c.Owes owed → c'.Owes owed
  pursues : ∀ {loop outer base}, c.Pursues loop outer base → c'.Pursues loop outer base

theorem Nested.of_nesting {c c' : Context} {a : α} (h : ∀ owed, Nesting owed p fun _ => owed) (ran : p c = .ok (a, c')) :
    Nested c c' :=
  ⟨(h _).owes ran, (h []).pursues ran⟩

theorem nests_of_nested {p : Parser Unit} (h : ∀ {c c'}, p c = .ok ((), c') → Nested c c') : Nesting owed p fun _ => owed :=
  ⟨fun ran => (h ran).owes, fun ran => (h ran).pursues⟩

theorem nests_ifThen {fuel : Nat} (branched : ∀ {owed}, Nesting owed (branch fuel) fun _ => owed) :
    Nesting owed (ifThen (fuel + 1)) fun _ => owed := by
  rw [ifThen_eq]
  refine nests_bind (nests_condition fuel) fun l => nests_then (nests_consequence branched) fun _ => ?_
  refine nests_then (nests_accept (by simp)) fun _ => nests_either ?_ (nests_place (.refl _))
  refine nests_bind (nests_alternative l) fun l' => nests_then branched fun _ => ?_
  exact nests_place (.refl _)

theorem strides_nested : Strides Nested where
  refl _ := ⟨id, id⟩
  trans first second := ⟨fun before => second.owes (first.owes before), fun before => second.pursues (first.pursues before)⟩
  past c := .of_nesting (a := ()) (fun _ => nests_skip) rfl
  jump ran := .of_nesting (fun _ => nests_lineJump fun _ => rfl) ran
  assignment ran := .of_nesting (fun _ => nests_of_keeping (keeping_assignment (fun _ _ => rfl) _)) ran
  keyword {fuel k c c'} other _ ran _ := by
    have whole : (do
        skip
        keyword (fuel + 1) k) c = .ok ((), c') := ran
    exact .of_nesting (fun _ => nests_then nests_skip fun _ => nests_keyword other) whole
  ifThen branched _ _ ran := .of_nesting (fun _ => nests_ifThen (nests_of_nested branched)) ran

theorem nests_site (site : Site) (fuel : Nat) (owed : List Label) (inner : ∀ c, site.Leaves c) :
    Nesting owed (site.parser fuel) fun _ => owed :=
  nests_of_nested fun ran => strides_nested.site site ran (inner _)

theorem spans_pursues (loop : ForLoop) (outer : List ForLoop) (base : List Command) :
    Spans fun c c' => c.Pursues loop outer base → c'.Pursues loop outer base where
  refl _ := id
  trans first second before := second (first before)
  past _ before := before.grow rfl (List.suffix_refl _)
  site site _ _ _ ran leaves := (strides_nested.site site ran leaves).pursues
  condition ran := (@nests_condition [] _).pursues ran
  consequence {fuel _ _} ran := (nests_consequence (nests_site .branch fuel [] fun _ => trivial)).pursues ran
  alternative _ ran := (@nests_alternative [] _).pursues ran
  place _ ran := (nests_place (.refl [_])).pursues ran

end Parser

open Parser

theorem nests_startLine {owed : List Label} (s : SourceLine) : Nesting owed (startLine s) fun _ => owed := by
  have turned : Nesting owed (modify fun c => { c with rest := s.line.tokens, line := s.id } : Parser Unit)
      fun _ => owed := by
    refine ⟨fun ran before => ?_, fun ran before => ?_⟩
    · cases ran
      exact before.steady [] ⟨rfl, rfl, rfl⟩ rfl (List.forall_mem_nil _)
    · cases ran
      exact before.grow rfl (List.suffix_refl _)
  refine nests_then turned fun _ => ?_
  split
  · refine ⟨fun ran before => ?_, fun ran before => ?_⟩
    · obtain ⟨new, rfl⟩ := markLine_eq_ok ran
      exact before.lining new
    · obtain ⟨-, rfl⟩ := markLine_eq_ok ran
      exact before.grow rfl (List.suffix_cons _ _)
  · exact nests_pure () rfl

theorem nests_compileLines {owed : List Label} (lines : List SourceLine) :
    Nesting owed (lines.forM compileLine) fun _ => owed := by
  induction lines with
  | nil => exact nests_pure () rfl
  | cons s rest ih =>
    have first : Nesting owed (compileLine s) fun _ => owed := by
      refine ⟨fun ran before => ?_, fun ran before => ?_⟩ <;> obtain ⟨d, begun, read, -⟩ := compileLine_eq_ok ran
      · exact (nests_site .statements (fuelFor d.rest) _ fun _ => trivial).owes read ((nests_startLine s).owes begun before)
      · exact (nests_site .statements (fuelFor d.rest) [] fun _ => trivial).pursues read
          ((@nests_startLine [] s).pursues begun before)
    exact nests_then first fun _ => ih

/-- What is read around a statement, which reaches to its end. -/
theorem Statement.around {R : Context → Context → Prop} (spans : Spans R) {lines : List SourceLine}
    {start last c₁ c₂ : Context} (h : Statement lines start c₁ c₂)
    (compiled : lines.forM compileLine start = .ok ((), last)) :
    ∃ before line after c d e fuel, lines = before ++ line :: after ∧ before.forM compileLine start = .ok ((), c) ∧
      startLine line c = .ok ((), d) ∧ R d c₁ ∧ statement fuel c₁ = .ok ((), c₂) ∧ Ends c₂.rest ∧ R c₂ e ∧
      after.forM compileLine e = .ok ((), last) := by
  obtain @⟨before, after, line, c, d, fuel, rfl, read, begun, meets, ran⟩ := h
  obtain ⟨c', e, read', first, later⟩ := forM_append_cons compiled
  cases read.symm.trans read'
  obtain ⟨d', begun', whole, -⟩ := compileLine_eq_ok first
  cases begun.symm.trans begun'
  obtain ⟨e', ran', leaves, above, below⟩ := meets.run spans whole trivial
  cases ran.symm.trans ran'
  exact ⟨before, line, after, c, d, e, fuel, rfl, read, begun, above, ran, leaves, below, later⟩

/-- A loop that a statement leaves open is pursued to the end of the program. -/
theorem Statement.pursues {lines : List SourceLine} {start last c₁ c₂ : Context} {loop : ForLoop} {outer : List ForLoop}
    {base : List Command} (h : Statement lines start c₁ c₂) (compiled : lines.forM compileLine start = .ok ((), last))
    (now : c₂.Pursues loop outer base) : last.Pursues loop outer base := by
  obtain ⟨-, -, after, -, -, e, -, -, -, -, -, -, -, below, later⟩ := h.around (spans_pursues loop outer base) compiled
  exact (@nests_compileLines [] after).pursues later (below now)

theorem quiet_dataValues (items : List DataItem) : Quiet (items.mapM dataValue) := by
  induction items with
  | nil => exact keeping_pure []
  | cons item rest ih =>
    have first : Quiet (dataValue item) := by
      cases item with
      | number v => exact keeping_pure v
      | text t => exact keeping_bind (keeping_intern t) fun _ => keeping_pure _
    rw [List.mapM_cons]
    exact keeping_bind first fun _ => keeping_bind ih fun _ => keeping_pure _

/-- In a program every label is marked once. -/
theorem owes_of_readLines {lines : List SourceLine} {items : List DataItem} {functions : List (String × Nat)}
    {values : List Value} {c : Context} (h : readLines lines items (.initial items functions) = .ok (values, c)) :
    c.Owes [] := by
  obtain ⟨start, interned, compiled, -⟩ := readLines_eq_ok h
  have initial : (Context.initial items functions).Owes [] :=
    ⟨fun _ _ => Nat.zero_le _, fun _ _ => rfl, fun _ below => absurd below (Nat.not_lt_zero _), fun _ => rfl⟩
  have makes := (quiet_dataValues items).quiet interned
  exact (nests_compileLines lines).owes compiled
    (initial.steady [] makes.steady makes.commands (List.forall_mem_nil _))

/-- Each label that is taken or referred to is known in a program. -/
theorem knows_of_cites {lines : List SourceLine} {items : List DataItem} {functions : List (String × Nat)}
    {values : List Value} {c : Context} (h : readLines lines items (.initial items functions) = .ok (values, c)) {l : Label}
    (cited : c.Cites l) : c.Knows l := by
  obtain ⟨-, -, -, noFor, noWhile⟩ := readLines_eq_ok h
  cases l with
  | inside n =>
    have marked := (owes_of_readLines h).taken n cited
    rw [Context.pledges, Context.exits, noFor, noWhile] at marked
    have some : .inside n ∈ c.marks := List.count_pos_iff.mp (by simpa using Nat.lt_of_lt_of_eq Nat.one_pos marked.symm)
    obtain ⟨command, member, own⟩ := List.mem_filterMap.mp some
    cases command with
    | mark l =>
      cases own
      exact .inr member
    | _ => cases own
  | _ => exact .inl cited

end BasicMachine.Language
