import BasicMachine.Proofs.Names

/-!
# Who holds which cells

Behind the DATA items, memory is a row of blocks. A variable, an array, a text and the frame of a function each have one
of their own, and so do the limit and the step of a loop, the counter of WAIT and the selector of ON. While lines are
read, cells are taken before the command that holds them is made; until then they are owed.
-/
namespace BasicMachine

/-- The address that an instruction names, as its operand or inside the value that it pushes. -/
def Instruction.pointer? : Instruction → Option Nat
  | .pointer _ address => some address
  | .push (.pointer address) => some address
  | _ => none

namespace Language

/-- The blocks lie one behind another, the last of them first in the list, from `start` to `stop`. -/
def Fills (start : Nat) : List Block → Nat → Prop
  | [], stop => stop = start
  | b :: older, stop => b.first + b.length = stop ∧ Fills start older b.first

/-- The cell is one of the block. -/
def Block.Has (b : Block) (x : Nat) : Prop := b.first ≤ x ∧ x < b.first + b.length

namespace Fills

variable {start stop : Nat} {row : List Block}

theorem le (h : Fills start row stop) : start ≤ stop := by
  induction row generalizing stop with
  | nil => exact Nat.le_of_eq h.symm
  | cons b older ih =>
    have := ih h.2
    have := h.1
    omega

theorem inside (h : Fills start row stop) {b : Block} (member : b ∈ row) :
    start ≤ b.first ∧ b.first + b.length ≤ stop := by
  induction row generalizing stop with
  | nil => cases member
  | cons newest older ih =>
    have ends := h.1
    rcases List.mem_cons.mp member with rfl | member
    · exact ⟨h.2.le, Nat.le_of_eq ends⟩
    · have := ih h.2 member
      omega

theorem pairwise (h : Fills start row stop) : row.Pairwise Block.Apart := by
  induction row generalizing stop with
  | nil => exact .nil
  | cons newest older ih => exact .cons (fun b member => .inr (h.2.inside member).2) (ih h.2)

/-- No cell between the two ends is left out. -/
theorem covers (h : Fills start row stop) (x : Nat) : (∃ b ∈ row, b.Has x) ↔ start ≤ x ∧ x < stop := by
  constructor
  · rintro ⟨b, member, above, below⟩
    have := h.inside member
    omega
  · rintro ⟨above, below⟩
    induction row generalizing stop with
    | nil =>
      have : stop = start := h
      omega
    | cons newest older ih =>
      have ends := h.1
      by_cases mine : newest.first ≤ x
      · exact ⟨newest, List.mem_cons_self, mine, by omega⟩
      · obtain ⟨b, member, has⟩ := ih h.2 (by omega)
        exact ⟨b, List.mem_cons_of_mem _ member, has⟩

end Fills

namespace Command

/-- The frame of a function: a cell for the frame pointer of the caller and one for each parameter. -/
def frame : Command → List Block
  | .function frame arity _ => [⟨frame, 1 + arity⟩]
  | _ => []

/-- The cells that a statement keeps for itself: the step and the limit of FOR, the counter of WAIT, which is tested
before each turn is given up, and the selector of ON, which is set before the first test of it. -/
def temporaries (before : Option Command) : Command → List Block
  | .testLoop _ limit step _ => [⟨step, 1⟩, ⟨limit, 1⟩]
  | .yield =>
    match before with
    | some (.branchUnless (.binary _ (.variable (.cell counter)) _) _) => [⟨counter, 1⟩]
    | _ => []
  | .branchOn selector _ _ _ =>
    match before with
    | some (.assign _ _) => [⟨selector, 1⟩]
    | _ => []
  | _ => []

end Command

/-- The frames of the functions among commands. -/
def frames (commands : List Command) : List Block := commands.flatMap Command.frame

/-- The cells that statements keep for themselves, where the newest command is the first. -/
def temporaries : List Command → List Block
  | [] => []
  | command :: older => command.temporaries older.head? ++ temporaries older

theorem temporaries_suffix {older commands : List Command} (h : older <:+ commands) :
    temporaries older <:+ temporaries commands := by
  obtain ⟨newer, rfl⟩ := h
  induction newer with
  | nil => exact List.suffix_refl _
  | cons command newer ih => exact ih.trans (List.suffix_append _ _)

namespace Context

/-- The blocks of variables, arrays and texts. -/
def tables (c : Context) : List Block :=
  c.scopes.root.names.map (fun entry => ⟨entry.2, 1⟩) ++
    (c.arrays.map (fun entry => ⟨entry.2.base, entry.2.length⟩) ++
      c.texts.map fun entry => ⟨entry.2, Parser.textCells entry.1⟩)

/-- The blocks of a context. -/
def blocks (c : Context) : List Block := c.tables ++ (frames c.commands ++ temporaries c.commands)

/-- No name has two blocks. -/
structure Distinct (c : Context) : Prop where
  names : (c.scopes.root.names.map Prod.fst).Nodup
  arrays : (c.arrays.map Prod.fst).Nodup
  texts : (c.texts.map Prod.fst).Nodup

/-- The blocks of the context and those that are owed fill the cells from `start` to the next free one. -/
def Filled (c : Context) (start : Nat) (owed : List Block) : Prop :=
  ∃ row, Fills start row c.scopes.highWater ∧ row.Perm (owed ++ c.blocks)

/-- The label has been taken, or it is referred to. -/
def Cites (c : Context) : Label → Prop
  | .inside n => n < c.labelCount
  | l => ∃ line, (l, line) ∈ c.references

theorem Cites.labelling {c : Context} {l : Label} (h : c.Cites l) : c.labelling.Cites l := by
  cases l with
  | inside n => exact Nat.lt_succ_of_lt h
  | _ => exact h

theorem Cites.referring {c : Context} {l : Label} (h : c.Cites l) (l' : Label) : (c.referring l').Cites l := by
  cases l with
  | inside n => exact h
  | _ =>
    obtain ⟨line, member⟩ := h
    exact ⟨line, List.mem_cons_of_mem _ member⟩

theorem Cites.of_referring {c : Context} {l : Label} (outer : ∀ n, l ≠ .inside n) : (c.referring l).Cites l := by
  cases l with
  | inside n => exact absurd rfl (outer n)
  | _ => exact ⟨c.line, List.mem_cons_self⟩

/-- What the context has is in the other one too. -/
structure Within (c c' : Context) : Prop where
  highWater : c.scopes.highWater ≤ c'.scopes.highWater
  names : c.scopes.root.names <:+ c'.scopes.root.names
  arrays : c.arrays <:+ c'.arrays
  texts : c.texts <:+ c'.texts
  commands : c.commands <:+ c'.commands
  cites : ∀ l, c.Cites l → c'.Cites l
  dataCount : c'.dataCount = c.dataCount

namespace Within

theorem refl (c : Context) : c.Within c :=
  ⟨Nat.le_refl _, List.suffix_refl _, List.suffix_refl _, List.suffix_refl _, List.suffix_refl _, fun _ => id, rfl⟩

theorem trans {c c' c'' : Context} (first : c.Within c') (second : c'.Within c'') : c.Within c'' :=
  ⟨Nat.le_trans first.highWater second.highWater, first.names.trans second.names, first.arrays.trans second.arrays,
    first.texts.trans second.texts, first.commands.trans second.commands,
    fun l h => second.cites l (first.cites l h), second.dataCount.trans first.dataCount⟩

theorem of_same {c c' : Context} (root : c'.scopes.root = c.scopes.root) (arrays : c'.arrays = c.arrays)
    (texts : c'.texts = c.texts) (commands : c'.commands = c.commands) (count : c'.dataCount = c.dataCount)
    (cites : ∀ l, c.Cites l → c'.Cites l) : c.Within c' := by
  refine ⟨Nat.le_of_eq (by rw [Scopes.highWater, Scopes.highWater, root]), ?_, ?_, ?_, ?_, cites, count⟩
  · exact root ▸ List.suffix_refl _
  · exact arrays ▸ List.suffix_refl _
  · exact texts ▸ List.suffix_refl _
  · exact commands ▸ List.suffix_refl _

theorem emitting (c : Context) (command : Command) : c.Within (c.emitting command) :=
  ⟨Nat.le_refl _, List.suffix_refl _, List.suffix_refl _, List.suffix_refl _, List.suffix_cons _ _,
    fun _ => id, rfl⟩

theorem allocating (c : Context) (n : Nat) : c.Within (c.allocating n) :=
  ⟨Nat.le_add_right _ _, List.suffix_refl _, List.suffix_refl _, List.suffix_refl _, List.suffix_refl _, fun _ => id, rfl⟩

end Within

end Context

/-- The functions have as many parameters as the definitions among the tokens give them. -/
def Agrees (functions : List (String × Nat)) (tokens : List Token) : Prop :=
  ∀ name after, (.word .DEF :: .word .FN :: .ident name :: after) <:+ tokens →
    functions.lookup name = some (parameterCount after)

theorem Agrees.suffix {functions : List (String × Nat)} {tokens rest : List Token} (h : Agrees functions tokens)
    (suffix : rest <:+ tokens) : Agrees functions rest :=
  fun name after found => h name after (found.trans suffix)

/-- The functions of the tokens before are not defined again. -/
theorem functionsOfTokens_keeps {known functions : List (String × Nat)} {tokens : List Token}
    (h : functionsOfTokens known tokens = .ok functions) {name : String} {arity : Nat}
    (found : known.lookup name = some arity) : functions.lookup name = some arity := by
  fun_induction functionsOfTokens known tokens with
  | case1 => cases h; exact found
  | case2 => cases h
  | case3 known other after fresh ih =>
    refine ih h ?_
    rw [List.lookup_cons]
    split
    · next same =>
      rw [beq_iff_eq.mp same] at found
      rw [found] at fresh
      simp at fresh
    · exact found
  | case4 => cases h
  | case5 known t rest _ ih => exact ih h found

theorem agrees_of_functionsOfTokens {known functions : List (String × Nat)} {tokens : List Token}
    (h : functionsOfTokens known tokens = .ok functions) : Agrees functions tokens := by
  intro name after found
  fun_induction functionsOfTokens known tokens with
  | case1 => simp at found
  | case2 => cases h
  | case3 known other rest fresh ih =>
    rcases List.suffix_cons_iff.mp found with same | later
    · cases same
      exact functionsOfTokens_keeps h (by rw [List.lookup_cons, beq_self_eq_true])
    · exact ih h later
  | case4 => cases h
  | case5 known t rest other ih =>
    rcases List.suffix_cons_iff.mp found with same | later
    · cases same
      exact absurd rfl other
    · exact ih h later

theorem functionsOfLine_eq_ok {known functions : List (String × Nat)} {s : SourceLine}
    (h : functionsOfLine known s = .ok functions) : functionsOfTokens known s.line.tokens = .ok functions := by
  cases found : functionsOfTokens known s.line.tokens with
  | error e =>
    have failed : functionsOfLine known s = .error (e.inLine s.id) := by rw [functionsOfLine, found]; rfl
    rw [failed] at h
    cases h
  | ok result =>
    have same : functionsOfLine known s = .ok result := by rw [functionsOfLine, found]; rfl
    rw [← same, h]

theorem foldlM_functionsOfLine {known functions : List (String × Nat)} {lines : List SourceLine}
    (h : lines.foldlM functionsOfLine known = .ok functions) :
    (∀ name arity, known.lookup name = some arity → functions.lookup name = some arity) ∧
      ∀ s ∈ lines, Agrees functions s.line.tokens := by
  induction lines generalizing known with
  | nil =>
    cases h
    exact ⟨fun _ _ => id, List.forall_mem_nil _⟩
  | cons s rest ih =>
    rw [List.foldlM_cons] at h
    cases first : functionsOfLine known s with
    | error e =>
      rw [first] at h
      cases h
    | ok more =>
      rw [first] at h
      obtain ⟨kept, agrees⟩ := ih h
      have tokens := functionsOfLine_eq_ok first
      refine ⟨fun name arity found => kept name arity (functionsOfTokens_keeps tokens found), ?_⟩
      refine List.forall_mem_cons.mpr ⟨fun name after found => ?_, agrees⟩
      exact kept name _ (agrees_of_functionsOfTokens tokens name after found)

/-- Every definition of a program is counted with its parameters. -/
theorem agrees_of_sourceFunctions {functions : List (String × Nat)} {lines : List SourceLine}
    (h : sourceFunctions lines = .ok functions) : ∀ s ∈ lines, Agrees functions s.line.tokens :=
  (foldlM_functionsOfLine h).2

end Language

end BasicMachine
