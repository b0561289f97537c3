import BasicMachine.Machine.Run
import BasicMachine.Proofs.Placement

/-!
# Closed code

A linked program decodes into instructions from its first byte to its last, and none of them leads anywhere but to the
start of another one.
-/
namespace BasicMachine

open Language

/-- What an instruction that ends before `next` leads to lies among `starts`. -/
def Leads (starts : List Nat) (next : Nat) (i : Instruction) : Prop :=
  (∃ n, i = .short .jmp n ∧ Action.jumpAddress n ∈ starts) ∨
    next ∈ starts ∧ (tame i ∨ i = .plain .ret ∨ ∃ op n, i = .short op n ∧ jumps op ∧ Action.jumpAddress n ∈ starts)

/-- A program whose instructions start at `starts` and lead nowhere else. -/
structure Program.Closed (p : Program) (starts : List Nat) : Prop where
  tiles : p.Tiles 0 starts
  small : p.size ≤ maxCode
  entry : p.entry ∈ starts
  labels : ∀ name address, (name, address) ∈ p.labels → address ∈ starts
  leads : ∀ address ∈ starts, ∃ i next, p.instructionAt address = .ok (i, next) ∧ Leads starts next i

namespace Language

theorem jumpAddress_jumpOperand {address : Nat} (h : address < maxCode) :
    Action.jumpAddress (jumpOperand address) = address := by
  simp only [Action.jumpAddress, jumpOperand, UInt16.toUInt16_toInt16, UInt16.toNat_ofNat', maxCode] at h ⊢
  omega

@[simp] theorem tame_stored (i : Instruction) : tame i.stored = tame i := by
  cases i <;> rfl

/-- A place between two of the steps, or at one of their ends. -/
def Steps.Boundary (steps : Steps) (offset : Nat) : Prop :=
  ∃ before after : Steps, steps = before ++ after ∧ before.size = offset

/-- An item of two lists in a row is one of the first or one of the second. -/
theorem append_eq_append_cons {α : Type} {first second before after : List α} {a : α}
    (h : first ++ second = before ++ a :: after) :
    (∃ rest, first = before ++ a :: rest ∧ after = rest ++ second) ∨
      ∃ rest, before = first ++ rest ∧ second = rest ++ a :: after := by
  rcases List.append_eq_append_iff.mp h with ⟨rest, rfl, rfl⟩ | ⟨rest, rfl, later⟩
  · exact .inr ⟨rest, rfl, rfl⟩
  · cases rest with
    | nil => exact .inr ⟨[], by simp, later.symm⟩
    | cons b rest =>
      obtain ⟨rfl, rfl⟩ := List.cons.inj later
      exact .inl ⟨rest, rfl, rfl⟩

section
variable {main : Steps} {entry : Code} {link : Label → Nat}

/-- Every boundary is the start of an instruction where more code follows. -/
theorem boundary_mem_starts {offset : Nat} (h : main.Boundary offset) (more : entry ≠ []) :
    offset ∈ Code.starts 0 (main.place link 0 ++ entry) := by
  obtain ⟨before, after, rfl, rfl⟩ := h
  rw [Steps.place_append, List.append_assoc]
  cases rest : Steps.place link (0 + before.size) after ++ entry with
  | nil => exact absurd (List.append_eq_nil_iff.mp rest).2 more
  | cons i later => exact Code.mem_starts.mpr ⟨_, i, later, rfl, by rw [Steps.size_place, Nat.zero_add]⟩

/-- Sound steps before an entry block lead to the starts of instructions only, if every label known to them does. -/
theorem leads_of_sound {setup : Code} {known : Label → Prop} (sound : Steps.Sound known main)
    (labelled : ∀ l, known l → main.Boundary (link l)) (simple : setup.all tame = true)
    (small : main.size < maxCode) {before after : Code} {i : Instruction}
    (split : main.place link 0 ++ (setup ++ [.short .jmp 0]) = before ++ i :: after) :
    Leads (Code.starts 0 (main.place link 0 ++ (setup ++ [.short .jmp 0]))) (before.size + i.size) i.stored := by
  have boundary {offset : Nat} (h : main.Boundary offset) :
      Action.jumpAddress (jumpOperand offset) ∈ Code.starts 0 (main.place link 0 ++ (setup ++ [.short .jmp 0])) := by
    rw [jumpAddress_jumpOperand]
    · exact boundary_mem_starts h (by simp)
    · obtain ⟨_, _, rfl, rfl⟩ := h
      rw [Steps.size_append] at small
      omega
  rcases append_eq_append_cons (List.append_assoc .. ▸ split) with ⟨rest, inside, ends⟩ | ⟨rest, rfl, ends⟩
  · -- An instruction before the last one is followed by another one.
    have next : before.size + i.size ∈ Code.starts 0 (main.place link 0 ++ (setup ++ [.short .jmp 0])) := by
      cases after with
      | nil => simp at ends
      | cons j later =>
        refine Code.mem_starts.mpr ⟨before ++ [i], j, later, ?_, ?_⟩
        · rw [split, List.append_assoc, List.singleton_append]
        · rw [Code.size_append, Code.size_cons, Code.size_nil, Nat.add_zero, Nat.zero_add]
    refine .inr ⟨next, ?_⟩
    rcases append_eq_append_cons inside with ⟨rest, placed, -⟩ | ⟨rest, -, inSetup⟩
    · obtain ⟨first, s, last, rfl, rfl, rfl⟩ := Steps.place_eq_append_cons placed
      rcases sound.cases rfl with ⟨j, rfl, simple | rfl⟩ | ⟨op, l, rfl, jump, target⟩ |
        ⟨op, distance, covered, rest, rfl, jump, rfl, rfl⟩
      · exact .inl ((tame_stored j).trans (tame_of_emitted simple))
      · exact .inr (.inl rfl)
      · exact .inr (.inr ⟨op, _, rfl, jump, boundary (labelled l target)⟩)
      · refine .inr (.inr ⟨op, _, rfl, jump, boundary ⟨first ++ .skip op (3 + Steps.size covered) :: covered, rest, ?_, ?_⟩⟩)
        · rw [List.append_assoc, List.cons_append]
        · rw [Steps.size_append, Steps.size_cons, Step.size, Nat.zero_add]
    · refine .inl ((tame_stored i).trans (List.all_eq_true.mp simple i ?_))
      rw [inSetup]
      simp
  · have last : i = .short .jmp 0 := by
      cases rest with
      | nil => exact (List.cons.inj ends).1.symm
      | cons j rest => simp at ends
    refine .inl ⟨0, by rw [last]; rfl, boundary ⟨[], main, rfl, rfl⟩⟩

end

theorem all_tame_clearCode (start count : Nat) : (clearCode start count).all tame = true := by
  fun_induction clearCode start count with
  | case1 => rfl
  | case2 start count some n ih =>
    rw [List.all_cons, List.all_cons, ih]
    rfl

/-- The entry block is tame up to the jump at its end. -/
theorem entryCode_eq (limit : Nat) (texts : List (String × Nat)) (items : List Value) :
    ∃ setup : Code, entryCode limit texts items = setup ++ [.short .jmp 0] ∧ setup.all tame = true := by
  refine ⟨_, rfl, ?_⟩
  simp only [List.all_append, List.all_flatMap, Bool.and_eq_true]
  refine ⟨⟨⟨rfl, all_tame_clearCode _ _⟩, ?_⟩, ?_⟩
  · exact List.all_eq_true.mpr fun text _ => rfl
  · exact List.all_eq_true.mpr fun item _ => rfl

theorem lookup_of_checkReferences {labels references : List (Label × Nat)} {l : Label} {line : Nat}
    (h : checkReferences labels references = .ok ()) (member : (l, line) ∈ references) :
    ∃ address, labels.lookup l = some address := by
  induction references with
  | nil => simp at member
  | cons first rest ih =>
    obtain ⟨m, n⟩ := first
    unfold checkReferences at h
    cases found : labels.lookup m with
    | none =>
      rw [found] at h
      cases h
    | some address =>
      rw [found] at h
      dsimp only at h
      split at h
      · cases h
      · rcases List.mem_cons.mp member with same | later
        · cases same
          exact ⟨address, found⟩
        · exact ih h later

namespace Context

/-- The commands of a program, a HALT after them. -/
def program (c : Context) : List Command := (Command.halt :: c.commands).reverse

/-- The addresses of the labels of a program. -/
def labels (c : Context) : List (Label × Nat) := labelsFrom 0 c.program

def address (c : Context) (l : Label) : Nat := (c.labels.lookup l).getD 0

/-- The code of the commands, before it is placed. -/
def main (c : Context) : Steps := c.program.flatMap Command.code

def entry (c : Context) (items : List Value) : Code := entryCode c.scopes.highWater c.texts.reverse items

/-- All of the code of a program. -/
def code (c : Context) (items : List Value) : Code := c.main.place c.address 0 ++ c.entry items

/-- The label is referred to, or it has a mark. -/
def Knows (c : Context) (l : Label) : Prop := (∃ line, (l, line) ∈ c.references) ∨ .mark l ∈ c.commands

end Context

/-- What a successful link has checked and put together. -/
theorem link_eq_ok {c : Context} {items : List Value} {p : Program} (h : link c items = .ok p) :
    checkReferences c.labels c.references.reverse = .ok () ∧ c.main.size + (c.entry items).size ≤ maxCode ∧
      p = { code := (c.code items).bytes.toArray, labels := shownLabels c.labels, entry := c.main.size,
            staticSize := c.scopes.highWater } := by
  unfold link at h
  simp only [bind, Except.bind] at h
  split at h
  · cases h
  · next checked =>
    split at h
    · cases h
    · next small =>
      cases h
      exact ⟨checked, Nat.le_of_not_lt small, rfl⟩

theorem hasCode_of_link {c : Context} {items : List Value} {p : Program} (h : link c items = .ok p) :
    p.HasCode 0 (c.code items) := by
  obtain ⟨-, -, rfl⟩ := link_eq_ok h
  exact ⟨[], [], by simp, rfl⟩

theorem boundary_of_mem_labels {c : Context} {l : Label} {address : Nat} (h : (l, address) ∈ c.labels) :
    c.main.Boundary address := by
  obtain ⟨before, after, split, rfl⟩ := mem_labelsFrom.mp h
  exact ⟨_, _, by rw [Context.main, split, List.flatMap_append], (Nat.zero_add _).symm⟩

/-- A label that is known has an address. -/
theorem lookup_address {c : Context} {l : Label} (checked : checkReferences c.labels c.references.reverse = .ok ())
    (known : c.Knows l) : c.labels.lookup l = some (c.address l) := by
  have found : ∃ address, c.labels.lookup l = some address := by
    rcases known with ⟨line, member⟩ | member
    · exact lookup_of_checkReferences checked (List.mem_reverse.mpr member)
    · have inProgram : .mark l ∈ c.program := by simp [Context.program, member]
      obtain ⟨before, after, split⟩ := List.append_of_mem inProgram
      have there : (l, 0 + Steps.size (before.flatMap Command.code)) ∈ c.labels :=
        mem_labelsFrom.mpr ⟨before, after, split, rfl⟩
      exact Option.isSome_iff_exists.mp (List.lookup_isSome_iff.mpr ⟨_, there, beq_self_eq_true l⟩)
  obtain ⟨address, found⟩ := found
  rw [Context.address, found, Option.getD_some]

theorem address_mem_labels {c : Context} {l : Label} (checked : checkReferences c.labels c.references.reverse = .ok ())
    (known : c.Knows l) : (l, c.address l) ∈ c.labels := by
  obtain ⟨before, after, split, -⟩ := List.lookup_eq_some_iff.mp (lookup_address checked known)
  rw [split]
  simp

/-- Jumps reach all of the commands. -/
theorem main_size_lt {c : Context} {items : List Value} (small : c.main.size + (c.entry items).size ≤ maxCode) :
    c.main.size < maxCode := by
  obtain ⟨setup, split, -⟩ := entryCode_eq c.scopes.highWater c.texts.reverse items
  rw [Context.entry, split, Code.size_append] at small
  have : Code.size [.short .jmp 0] = 3 := rfl
  omega

theorem sound_main {c : Context} (sound : ∀ command ∈ c.commands, Steps.Sound c.Knows command.code) :
    Steps.Sound c.Knows c.main := by
  refine Steps.sound_flatMap fun command member => ?_
  rcases List.mem_cons.mp (List.mem_reverse.mp member) with rfl | member
  · exact Steps.sound_ofCode rfl
  · exact sound command member

/-- A program whose commands are sound is closed. -/
theorem closed_of_link {c : Context} {items : List Value} {p : Program} (h : link c items = .ok p)
    (sound : ∀ command ∈ c.commands, Steps.Sound c.Knows command.code) :
    p.Closed ((c.code items).starts 0) := by
  have lies := hasCode_of_link h
  obtain ⟨checked, small, linked⟩ := link_eq_ok h
  obtain ⟨setup, split, simple⟩ := entryCode_eq c.scopes.highWater c.texts.reverse items
  have code : c.code items = c.main.place c.address 0 ++ (setup ++ [.short .jmp 0]) := by
    rw [Context.code, Context.entry, split]
  have boundary {offset : Nat} (h : c.main.Boundary offset) : offset ∈ (c.code items).starts 0 := by
    rw [code]
    exact boundary_mem_starts h (by simp)
  have size : (c.code items).size = c.main.size + (c.entry items).size := by
    rw [Context.code, Code.size_append, Steps.size_place]
  have length : p.size = (c.code items).size := by rw [linked, Program.size, List.size_toArray, Code.length_bytes]
  refine ⟨Code.tiles lies (by rw [length, Nat.zero_add]), length.trans size ▸ small, ?_, fun name address member => ?_,
    fun address member => ?_⟩
  · rw [linked]
    exact boundary ⟨c.main, [], by simp, rfl⟩
  · rw [linked] at member
    simp only [shownLabels, List.mem_filterMap] at member
    obtain ⟨⟨l, a⟩, there, shown⟩ := member
    simp only [Option.map_eq_some_iff, Prod.mk.injEq] at shown
    obtain ⟨_, -, -, rfl⟩ := shown
    exact boundary (boundary_of_mem_labels there)
  · obtain ⟨before, i, after, parts, rfl⟩ := Code.mem_starts.mp member
    rw [parts] at lies
    refine ⟨_, _, lies.append.2.cons.1, ?_⟩
    rw [code] at parts ⊢
    rw [Nat.zero_add]
    exact leads_of_sound (sound_main sound)
      (fun l known => boundary_of_mem_labels (address_mem_labels checked known)) simple (main_size_lt small) parts

end Language

end BasicMachine
