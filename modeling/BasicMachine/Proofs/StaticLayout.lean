import BasicMachine.Proofs.Definitions
import BasicMachine.Proofs.InitialMemory

/-!
# The static cells of a program

A compiled program has a cell for the frame pointer, one for the DATA cursor and one for each DATA item, and behind them
a row of blocks without gaps, with one for each thing that its source names. Its code names no cell beyond the last block.
An address that code cannot hold belongs to a program that no memory can hold, and such a program does not start.
-/
namespace BasicMachine

open Language Session

/-- Code keeps the lowest 21 bits of an address. -/
theorem Instruction.pointer?_stored (i : Instruction) : i.stored.pointer? = i.pointer?.map (· % 0x200000) := by
  cases i with
  | push v =>
    cases v with
    | float x =>
      by_cases number : x.isNaN = true
      · have word : (Value.float x).toWord = Value.nanWord := if_pos number
        rw [stored, word]
        rfl
      · rw [stored, Value.ofWord_toWord (v := .float x) (by rintro _ ⟨⟩; exact Bool.not_eq_true _ ▸ number)]
        rfl
    | unset => rw [stored, Value.ofWord_toWord (by rintro _ ⟨⟩)]; rfl
    | integer n => rw [stored, Value.ofWord_toWord (by rintro _ ⟨⟩)]; rfl
    | pointer address => rw [stored, Value.ofWord_toWord (by rintro _ ⟨⟩)]; rfl
  | _ => rfl

namespace Language

/-- The instructions of the code name cells below `limit` only. -/
def Code.Below (limit : Nat) (code : Code) : Prop := ∀ i ∈ code, ∀ address ∈ i.pointer?, address < limit

variable {limit : Nat}

theorem Code.Below.append {first second : Code} (h : Code.Below limit first) (h' : Code.Below limit second) :
    Code.Below limit (first ++ second) :=
  List.forall_mem_append.mpr ⟨h, h'⟩

theorem below_place {steps : Steps} (h : steps.Below limit) (link : Label → Nat) (address : Nat) :
    Code.Below limit (steps.place link address) := by
  intro i member other named
  obtain ⟨before, after, split⟩ := List.append_of_mem member
  obtain ⟨first, s, rest, rfl, -, rfl⟩ := Steps.place_eq_append_cons split
  cases s with
  | fixed i => exact h other (List.mem_filterMap.mpr ⟨.fixed i, by simp, named⟩)
  | jump op l => cases named
  | skip op distance => cases named

theorem below_flatMap {commands : List Command} (h : ∀ command ∈ commands, Steps.Below limit command.code) :
    Steps.Below limit (commands.flatMap Command.code) := by
  induction commands with
  | nil => exact Steps.below_of_nil rfl
  | cons command rest ih =>
    have ⟨first, later⟩ := List.forall_mem_cons.mp h
    rw [List.flatMap_cons]
    exact first.append (ih later)

theorem below_clearCode {start count : Nat} (inside : start + count ≤ limit) : Code.Below limit (clearCode start count) := by
  fun_induction clearCode start count with
  | case1 => exact List.forall_mem_nil _
  | case2 start count some n ih =>
    have fits : n ≤ count := Nat.min_le_left _ _
    refine List.forall_mem_cons.mpr ⟨?_, List.forall_mem_cons.mpr ⟨?_, ih (by omega)⟩⟩
    · rintro address ⟨⟩
      omega
    · rintro address ⟨⟩

theorem below_entryCode {texts : List (String × Nat)} {items : List Value} (room : dataBase + items.length ≤ limit)
    (inside : ∀ text ∈ texts, text.2 < limit)
    (named : ∀ v ∈ items, ∀ address ∈ (Instruction.push v).pointer?, address < limit) :
    Code.Below limit (entryCode limit texts items) := by
  have cells : frameCell < limit ∧ cursorCell < limit := by
    have : dataBase = 2 := rfl
    have : frameCell = 0 := rfl
    have : cursorCell = 1 := rfl
    omega
  refine ((((?_ : Code.Below limit _).append ?_).append ?_).append ?_).append ?_
  · intro i member address names
    simp only [List.mem_cons, List.not_mem_nil, or_false] at member
    rcases member with rfl | rfl | rfl | rfl <;> cases names
    · exact cells.1
    · exact cells.1
    · exact cells.2
  · exact below_clearCode (by omega)
  · intro i member address names
    obtain ⟨text, there, member⟩ := List.mem_flatMap.mp member
    simp only [textCode, List.mem_cons, List.not_mem_nil, or_false] at member
    rcases member with rfl | rfl <;> cases names
    exact inside text there
  · intro i member address names
    obtain ⟨⟨v, cell⟩, placed, member⟩ := List.mem_flatMap.mp member
    simp only [itemCode, List.mem_cons, List.not_mem_nil, or_false] at member
    rcases member with rfl | rfl
    · exact named v (List.fst_mem_of_mem_zipIdx placed) address names
    · cases names
      have := List.snd_lt_of_mem_zipIdx placed
      omega
  · intro i member address names
    rw [List.mem_singleton.mp member] at names
    cases names

/-- All code of a program names static cells only. -/
theorem below_code {values : List Value} {c : Context} {p : Program} (finished : Finished c values p) :
    Code.Below c.scopes.highWater (c.code values) := by
  obtain ⟨orderly, -, -⟩ := finished.settled.whole
  obtain ⟨row, fills, -⟩ := orderly.filled
  refine Code.Below.append (below_place (below_flatMap fun command member => (finished.fine member).below) _ _)
    (below_entryCode fills.le (fun text member => ?_) finished.named)
  exact orderly.text (List.mem_reverse.mp member)

end Language

/-- No block is empty. -/
theorem Language.Context.Orderly.some {s : Setting} {c : Context} (h : c.Orderly s) :
    ∀ b ∈ c.blocks, 0 < b.length := by
  have kept (before : Option Command) (command : Command) : ∀ b ∈ command.temporaries before, b.length = 1 := by
    intro b member
    unfold Command.temporaries at member
    split at member
    · simp only [List.mem_cons, List.not_mem_nil, or_false] at member
      rcases member with rfl | rfl <;> rfl
    · split at member
      · rw [List.mem_singleton.mp member]
      · cases member
    · split at member
      · rw [List.mem_singleton.mp member]
      · cases member
    · cases member
  intro b member
  simp only [Context.blocks, Context.tables, List.mem_append, List.mem_map] at member
  rcases member with (⟨entry, -, rfl⟩ | ⟨entry, there, rfl⟩ | ⟨entry, -, rfl⟩) | member | member
  · exact Nat.one_pos
  · exact (h.short entry there).1
  · exact Nat.succ_pos _
  · obtain ⟨command, -, member⟩ := List.mem_flatMap.mp member
    cases command with
    | function frame arity body =>
      rw [List.mem_singleton.mp member]
      exact Nat.add_pos_left Nat.one_pos arity
    | _ => cases member
  · generalize c.commands = commands at member
    induction commands with
    | nil => cases member
    | cons command older ih =>
      rcases List.mem_append.mp member with member | member
      · exact (kept _ command b member) ▸ Nat.one_pos
      · exact ih member

/-- A program whose static cells do not fit the memory does not start, and the host is not called. -/
theorem Session.run_of_large {σ : Type} (env : Environment σ) {p : Program} (budget : Nat) {m : Machine} (t : σ)
    (ready : m.status = .ready) (large : m.memory.size < p.staticSize) :
    run env p budget ⟨m, t⟩ = .error (.of .outOfMemory "STATIC SEGMENT") ⟨m.faulted, t⟩ := by
  have begins : begin p m = .error (.of .outOfMemory "STATIC SEGMENT") m.faulted := by
    rw [begin, ready]
    exact if_pos large
  have fails : (act (begin p) : SessionM σ Unit) ⟨m, t⟩ = .error (.of .outOfMemory "STATIC SEGMENT") ⟨m.faulted, t⟩ := by
    rw [act, begins]
  exact run_bind_error fails

/-- What the source names has a block, and what is made of it has the addresses of that block. -/
structure Language.Compilation.Allots {source : String} {p : Program} (k : Compilation source p) : Prop where
  items : List.Forall₂ (DataItem.Valued k.last) k.items k.values
  /-- Each name and each text of an expression stands for its entry in the tables. -/
  expressions : ∀ {parameters fuel c c' e}, Scoped parameters c.scopes.inner →
    Parser.expression fuel 0 c = .ok (e, c') → c'.Within k.last →
    ∃ ts, c.rest = ts ++ c'.rest ∧ Wording k.last parameters [e] ts
  targets : ∀ {parameters fuel name c c' t}, Scoped parameters c.scopes.inner →
    Parser.target fuel name c = .ok (t, c') → c'.Within k.last →
    ∃ ts, c.rest = ts ++ c'.rest ∧ t.Words k.last parameters name ts
  dimensions : ∀ {name extents c c' array}, Parser.dimension name extents c = .ok (array, c') → c'.Within k.last →
    (name, array) ∈ k.last.arrays ∧ array.extents = extents ∧
      array.length = extents.foldl (fun n d => n * d.toInt.toNat) 1
  prompts : ∀ {fuel c c'}, Parser.input fuel c = .ok ((), c') → c'.Within k.last →
    ∃ address, .prompt address :: c.commands <:+ c'.commands ∧ (promptText c.rest, address) ∈ k.last.texts
  functions : Traced k.last k.lines k.last.commands
  /-- Code reaches scalars and texts by their addresses, and elements from the first cell of their array. -/
  operands : ∀ address, (Expr.text address).code = [.fixed (.pointer .pushP address)] ∧
    (Expr.variable (.cell address)).code = [.fixed (.pointer .load address)] ∧
    (Target.scalar (.cell address)).store = [.pointer .store address] ∧
    (Command.prompt address).code.head? = some (.fixed (.pointer .pushP address))
  elements : ∀ array subscripts, ∃ index, Target.address (.element array subscripts) = index ++ Steps.ofCode array.baseCode ∧
    (Expr.element array subscripts).code = index ++ Steps.ofCode array.baseCode ++ Steps.ofCode fetchCode

theorem Language.Compilation.allots {source : String} {p : Program} (k : Compilation source p) : k.Allots where
  items := k.valued
  expressions scope ran within := by
    obtain ⟨ts, takes, words⟩ := ((Parser.readsWords _ _).expression Parser.readBy_zero scope ran).all
    exact ⟨ts, takes.rest, words _ within⟩
  targets scope ran within := by
    obtain ⟨ts, takes, words⟩ := (Parser.readsWords _ _).target scope ran
    exact ⟨ts, takes.rest, words _ within⟩
  dimensions ran within := by
    obtain ⟨rfl, -, -, -, -, extents, length⟩ := Parser.dimension_eq_ok ran
    exact ⟨within.arrays.subset List.mem_cons_self, extents, length⟩
  prompts ran within := by
    obtain ⟨address, made, there⟩ := Parser.input_prompt ran
    exact ⟨address, made, there _ within⟩
  functions := k.traced
  operands _ := ⟨rfl, rfl, rfl, rfl⟩
  elements array subscripts := by
    refine ⟨indexBefore array.extents [] subscripts ++ array.checkSteps, ?_, ?_⟩
    · rw [Target.address, indexBefore_eq, List.append_assoc]
    · rw [Expr.code, Expr.codeBefore, indexBefore_eq]
      simp only [List.append_assoc, List.append_nil]

/-- A program with blocks of every kind: texts of DATA, PRINT and INPUT, of which two are equal, an array, a frame, a
variable and the cells of FOR, WAIT and ON. -/
def everyBlock : String :=
  "10 DATA 5,\"HI\"\n20 DIM A(3)\n30 DEF FN F(X)=X+1\n40 FOR I=1 TO FN F(1)\n50 WAIT I:NEXT\n60 ON I GOTO 20\n" ++
    "70 PRINT \"HI\",\"YOU\"\n80 INPUT \"N\";A(1)"

end BasicMachine
