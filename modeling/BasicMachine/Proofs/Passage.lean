import BasicMachine.Proofs.Workings

/-!
# From command to command

A machine that comes to a command does it and comes to another one. Between the two it is inside the code of the command
or of a function, where no command starts, so that a machine that has come to the start of a command is between two
commands of its program.
-/
namespace BasicMachine.Language

theorem Target.store_ne_nil (t : Target) : Steps.ofCode t.store ≠ [] := by
  cases t with
  | scalar slot => cases slot <;> exact List.cons_ne_nil _ _
  | element array subscripts => exact List.cons_ne_nil _ _

theorem Command.code_ne_nil {command : Command} (coded : ∀ l, command ≠ .mark l) : command.code ≠ [] := by
  have behind (e : Expr) {after : Steps} (some : after ≠ []) : e.codeBefore after ≠ [] := by
    rw [Expr.codeBefore_eq]
    exact List.append_ne_nil_of_right_ne_nil _ some
  cases command with
  | mark l => exact absurd rfl (coded l)
  | jump | call | ret | halt | yield | write | prompt => exact List.cons_ne_nil _ _
  | branchUnless e l => exact behind e (List.cons_ne_nil _ _)
  | branchOn | testLoop => exact List.append_ne_nil_of_right_ne_nil _ (List.cons_ne_nil _ _)
  | assign t e => exact List.append_ne_nil_of_right_ne_nil _ (behind e t.store_ne_nil)
  | print e => exact behind e (List.cons_ne_nil _ _)
  | input t isText => exact List.append_ne_nil_of_right_ne_nil _ (List.cons_ne_nil _ _)
  | read t count => exact List.append_ne_nil_of_right_ne_nil _ (List.cons_ne_nil _ _)
  | function frame arity body => exact List.append_ne_nil_of_right_ne_nil _ (behind body (List.cons_ne_nil _ _))
  | poke address value => exact behind address (List.cons_ne_nil _ _)
  | swap left right =>
    rw [code, Steps.ofCode_append]
    exact List.append_ne_nil_of_right_ne_nil _ (Target.store_ne_nil (.scalar right))
  | seed e =>
    cases e with
    | none => exact List.cons_ne_nil _ _
    | some e => exact behind e (List.cons_ne_nil _ _)
  | host request args =>
    rw [code, argumentsBefore_eq]
    exact List.append_ne_nil_of_right_ne_nil _ (List.cons_ne_nil _ _)
  | blit x y array => exact behind x (behind y (List.cons_ne_nil _ _))

theorem Command.size_pos {command : Command} (coded : ∀ l, command ≠ .mark l) : 0 < command.size :=
  Steps.size_pos (code_ne_nil coded)

namespace Context

variable {c : Context} {before after : List Command} {command : Command} {x : Nat}

/-- The command starts at the address. It is no part of a function. -/
inductive Stands (c : Context) : Nat → Command → Prop
  | intro {before after : List Command} {command : Command} (split : c.program = before ++ command :: after)
      (plain : command.isPlain = true) (coded : ∀ l, command ≠ .mark l) : Stands c (codeSize before) command

/-- A command starts at the address. -/
def Opens (c : Context) (x : Nat) : Prop := ∃ command, c.Stands x command

/-- Where two pieces of a program start in the same place or one inside the other, they are the same. -/
theorem split_unique {before' after' : List Command} {command' : Command}
    (split : c.program = before ++ command :: after) (split' : c.program = before' ++ command' :: after')
    (above : codeSize before ≤ codeSize before') (below : codeSize before' < codeSize before + command.size)
    (coded' : 0 < command'.size) : before' = before ∧ command' = command := by
  rcases List.append_eq_append_iff.mp (split.symm.trans split') with ⟨between, same, rest⟩ | ⟨between, same, rest⟩
  · cases between with
    | nil =>
      obtain ⟨rfl, -⟩ := List.cons.inj rest
      exact ⟨by rw [same, List.append_nil], rfl⟩
    | cons first between =>
      obtain ⟨rfl, -⟩ := List.cons.inj rest
      rw [same, codeSize_append, codeSize_cons] at below
      omega
  · cases between with
    | nil =>
      obtain ⟨rfl, -⟩ := List.cons.inj rest
      exact ⟨by rw [same, List.append_nil], rfl⟩
    | cons first between =>
      obtain ⟨rfl, -⟩ := List.cons.inj rest
      rw [same, codeSize_append, codeSize_cons] at above
      omega

/-- No command starts inside the code of another one. -/
theorem not_opens_inside (split : c.program = before ++ command :: after) (above : codeSize before < x)
    (below : x < codeSize before + command.size) : ¬ c.Opens x := by
  rintro ⟨other, split', plain, coded⟩
  obtain ⟨rfl, -⟩ := split_unique split split' (Nat.le_of_lt above) below (Command.size_pos coded)
  exact Nat.lt_irrefl _ above

/-- Commands end with the entry block. -/
theorem Opens.lt_size (h : c.Opens x) : x < c.main.size := by
  obtain ⟨command, split, plain, coded⟩ := h
  have whole : c.main.size = codeSize c.program := rfl
  have := Command.size_pos coded
  rw [whole, split, codeSize_append, codeSize_cons]
  omega

end Context

namespace Finished

variable {c : Context} {values : List Value} {p : Program} {before after : List Command} {command : Command} {x : Nat}

/-- Behind marks stands a command. -/
theorem opens_of_plain (h : Finished c values p) (split : c.program = before ++ command :: after)
    (plain : command.isPlain = true) : c.Opens (codeSize before) := by
  induction after generalizing before command with
  | nil =>
    cases Context.halt_last split
    exact ⟨.halt, .intro split rfl (by simp)⟩
  | cons next after ih =>
    by_cases marks : ∃ l, command = .mark l
    · obtain ⟨l, rfl⟩ := marks
      have later : c.program = (before ++ [.mark l]) ++ next :: after := by rw [split]; simp
      have opens := ih later (Context.isPlain_next h.grouped split plain (by simp))
      rwa [codeSize_append, codeSize_cons, codeSize_nil] at opens
    · exact ⟨command, .intro split plain fun l same => marks ⟨l, same⟩⟩

/-- So it does behind a command that goes on. -/
theorem opens_behind (h : Finished c values p) (stands : c.Stands x command) (goes : ∀ l, command ≠ .jump l)
    (on : command ≠ .halt) : c.Opens (x + command.size) := by
  obtain @⟨before, after, command, split, plain, coded⟩ := stands
  cases after with
  | nil => exact absurd (Context.halt_last split) on
  | cons next after =>
    have later : c.program = (before ++ [command]) ++ next :: after := by rw [split]; simp
    have opens := h.opens_of_plain later (Context.isPlain_next h.grouped split plain goes)
    rwa [codeSize_append, codeSize_cons, codeSize_nil, Nat.add_zero] at opens

/-- The first command of a program. -/
theorem opens_zero (h : Finished c values p) : c.Opens 0 := by
  cases split : c.program with
  | nil => simp [Context.program] at split
  | cons command after =>
    exact h.opens_of_plain (show c.program = [] ++ command :: after from split) (Context.isPlain_first h.grouped split)

/-- A label that is known is the start of a command, if it is not that of a function. -/
theorem opens_label (h : Finished c values p) {l : Label} (known : c.Knows l) (other : l.isFunction = false) :
    c.Opens (c.address l) := by
  obtain ⟨checked, -⟩ := link_eq_ok h.linked
  obtain ⟨before, after, split, place⟩ := mem_labelsFrom.mp (address_mem_labels checked known)
  have plain : (Command.mark l).isPlain = true := by
    cases l with
    | function name => cases other
    | _ => rfl
  rw [place, Nat.zero_add]
  exact h.opens_of_plain split plain

theorem not_opens_function (h : Finished c values p) (inside : c.InFunction x) : ¬ c.Opens x := by
  obtain ⟨name, r, found, above, below⟩ := inside
  obtain ⟨before, after, split, address⟩ := h.routine_place found
  have size : Command.size (.function r.frame r.arity r.body) = r.steps.size := rfl
  rintro ⟨command, split', plain, coded⟩
  obtain ⟨-, rfl⟩ := Context.split_unique split split' (by omega) (by omega) (Command.size_pos coded)
  cases plain

theorem lies_of_stands (h : Finished c values p) (stands : c.Stands x command) : command.Lies c p x := by
  obtain ⟨split, -, -⟩ := stands
  exact h.lies split

theorem mem_of_stands (stands : c.Stands x command) : command ∈ c.program := by
  obtain ⟨split, -, -⟩ := stands
  rw [split]
  simp

/-- A machine at a command does it. -/
theorem performs (h : Finished c values p) (fits : c.scopes.highWater ≤ maxPointer + 1) (stands : c.Stands x command) :
    command.Performs c p x := by
  have lies := h.lies_of_stands stands
  have fine := h.fine (mem_of_stands stands)
  obtain ⟨split, plain, coded⟩ := stands
  refine Command.performs (h.working fits) fits fine.proper (fun frame arity body same => ?_) coded lies
  rw [same] at plain
  cases plain

/-- Inside a command or a function, no command starts. -/
theorem not_opens_going (h : Finished c values p) (stands : c.Stands x command) {cells : Nat → Prop} {fresh : Prop}
    {m m' : Machine} (going : c.Going p cells fresh x (x + command.size) m m') : m' = m ∨ ¬ c.Opens m'.pc := by
  obtain ⟨split, -, -⟩ := stands
  cases going.busy with
  | start some pc same => exact .inl same
  | inside above below => exact .inr (Context.not_opens_inside split above below)
  | called inside => exact .inr (h.not_opens_function inside)

/-- Past a command, the machine is at another one. -/
theorem opens_of_leaves (h : Finished c values p) {m m' : Machine} (stands : c.Stands m.pc command)
    (returns : ∀ back, m.calls.top? = some back → c.Opens back)
    (leaves : command.Leaves c (m.pc + command.size) m m') : c.Opens m'.pc := by
  have fine := h.fine (mem_of_stands stands)
  have sound := h.soundness (mem_of_stands stands)
  have leads := leaves.leads
  have behind := h.opens_behind stands
  have aimed {l : Label} (aims : l ∈ command.aims) (known : c.Knows l) : c.Opens (c.address l) :=
    h.opens_label known (fine.aims l aims)
  have known (op : ShortOp) {l : Label} (first rest : Steps) (split : command.code = first ++ .jump op l :: rest) :
      c.Knows l := by
    rcases sound.cases split with ⟨_, impossible, -⟩ | ⟨_, _, same, -, known⟩ | ⟨_, _, _, _, impossible, -⟩
    · cases impossible
    · cases same
      exact known
    · cases impossible
  cases command with
  | jump l =>
    rw [leads.1]
    exact aimed (by simp [Command.aims]) (known .jmp [] [] rfl)
  | call l =>
    rw [leads.1]
    exact aimed (by simp [Command.aims]) (known .call [] [] rfl)
  | ret =>
    obtain ⟨back, top, pc, -⟩ := leads
    rw [pc]
    exact returns back top
  | halt => exact leads.elim
  | branchUnless e l =>
    rcases leads.1 with pc | pc <;> rw [pc]
    · exact behind (by simp) (by simp)
    · exact aimed (by simp [Command.aims]) (known _ _ _ (by rw [Command.code, Expr.codeBefore_eq]))
  | branchOn cell n equal l =>
    rcases leads.1 with pc | pc <;> rw [pc]
    · exact behind (by simp) (by simp)
    · exact aimed (by simp [Command.aims]) (known _ _ _ rfl)
  | testLoop slot limit step exit =>
    rcases leads.1 with pc | pc <;> rw [pc]
    · exact behind (by simp) (by simp)
    · exact aimed (by simp [Command.aims]) (known _ _ _ rfl)
  | _ =>
    rw [leads.1]
    exact behind (by simp) (by simp)

end Finished

end BasicMachine.Language
