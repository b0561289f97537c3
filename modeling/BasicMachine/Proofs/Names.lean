import BasicMachine.Proofs.Grammar
import BasicMachine.Proofs.Parsing

/-!
# Cells of names and texts

While a program is read, each new variable and each new text constant gets cells that nothing else has, and keeps them.
-/
namespace BasicMachine.Language

/-- What has cells in memory under a name of its own. -/
inductive Owner
  | name (s : String)
  | text (s : String)
  deriving DecidableEq

/-- The first of some cells in a row, and their number. -/
structure Block where
  first : Nat
  length : Nat
  deriving DecidableEq

/-- No cell is in both blocks. -/
def Block.Apart (b b' : Block) : Prop := b.first + b.length ≤ b'.first ∨ b'.first + b'.length ≤ b.first

theorem Block.Apart.symm {b b' : Block} (h : b.Apart b') : b'.Apart b := Or.symm h

namespace Context

/-- The cells of a variable or a text. -/
def block (c : Context) : Owner → Option Block
  | .name s => (c.scopes.root.find? s).map (⟨·, 1⟩)
  | .text s => (c.texts.lookup s).map (⟨·, Parser.textCells s⟩)

/-- The cell of a variable that has one. -/
def cell (c : Context) (name : String) : Nat := (c.scopes.root.find? name).getD 0

/-- The first cell of a text that has one. -/
def textAt (c : Context) (s : String) : Nat := (c.texts.lookup s).getD 0

/-- Blocks lie between the DATA items and the next free cell, and no two of them overlap. -/
structure Laid (c : Context) : Prop where
  base : dataBase ≤ c.scopes.highWater
  inside : ∀ o b, c.block o = some b → dataBase ≤ b.first ∧ b.first + b.length ≤ c.scopes.highWater
  apart : ∀ o o' b b', c.block o = some b → c.block o' = some b' → o ≠ o' → b.Apart b'

/-- From one context to another, only more names and texts have got cells. -/
structure Extends (c c' : Context) : Prop where
  root : c.scopes.inner = [] → c'.scopes.inner = []
  next : c.scopes.highWater ≤ c'.scopes.highWater
  kept : ∀ o b, c.block o = some b → c'.block o = some b
  fresh : ∀ o b, c'.block o = some b → c.block o = some b ∨ c.scopes.highWater ≤ b.first
  laid : c.Laid → c'.Laid

namespace Extends

theorem trans {c c' c'' : Context} (first : c.Extends c') (second : c'.Extends c'') : c.Extends c'' where
  root h := second.root (first.root h)
  next := Nat.le_trans first.next second.next
  kept o b h := second.kept o b (first.kept o b h)
  fresh o b h := by
    rcases second.fresh o b h with older | newer
    · exact first.fresh o b older
    · exact .inr (Nat.le_trans first.next newer)
  laid h := second.laid (first.laid h)

theorem of_same {c c' : Context} (scopes : c'.scopes = c.scopes) (texts : c'.texts = c.texts) : c.Extends c' := by
  have block : c'.block = c.block := by
    funext o
    cases o <;> simp only [Context.block, scopes, texts]
  constructor
  · intro inner
    rw [scopes, inner]
  · exact Nat.le_of_eq (by rw [scopes])
  · intro o b h
    rw [block, h]
  · intro o b h
    rw [block] at h
    exact .inl h
  · intro laid
    exact ⟨by rw [scopes]; exact laid.base, by rw [block, scopes]; exact laid.inside, by rw [block]; exact laid.apart⟩

theorem refl (c : Context) : c.Extends c := of_same rfl rfl

/-- A new owner takes the next cells. -/
theorem of_new {c c' : Context} {o : Owner} {n : Nat} (inner : c'.scopes.inner = c.scopes.inner)
    (unknown : c.block o = none) (next : c'.scopes.highWater = c.scopes.highWater + n)
    (block : ∀ o', c'.block o' = if o' = o then some ⟨c.scopes.highWater, n⟩ else c.block o') : c.Extends c' where
  root h := by rw [inner, h]
  next := by omega
  kept o' b h := by
    have other : o' ≠ o := fun eq => by rw [eq, unknown] at h; cases h
    rw [block, if_neg other, h]
  fresh o' b h := by
    rw [block] at h
    split at h
    · cases h
      exact .inr (Nat.le_refl _)
    · exact .inl h
  laid laid := by
    have base := laid.base
    refine ⟨by omega, fun o' b h => ?_, fun o₁ o₂ b₁ b₂ h₁ h₂ different => ?_⟩
    · rw [block] at h
      split at h
      · cases h
        exact ⟨base, by dsimp only; omega⟩
      · have inside := laid.inside o' b h
        omega
    · rw [block] at h₁ h₂
      split at h₁ <;> split at h₂
      · next eq₁ eq₂ => exact absurd (eq₁.trans eq₂.symm) different
      · cases h₁
        exact .inr (laid.inside o₂ b₂ h₂).2
      · cases h₂
        exact .inl (laid.inside o₁ b₁ h₁).2
      · exact laid.apart o₁ o₂ b₁ b₂ h₁ h₂ different

end Extends

/-- Nothing but names, texts, the tokens that are left and the count of code has changed. -/
structure Grows (c c' : Context) : Prop extends Extends c c' where
  same : c' = { c with rest := c'.rest, reach := c'.reach, scopes := c'.scopes, texts := c'.texts }

namespace Grows

theorem refl (c : Context) : c.Grows c := ⟨.refl c, rfl⟩

theorem trans {c c' c'' : Context} (first : c.Grows c') (second : c'.Grows c'') : c.Grows c'' :=
  ⟨first.toExtends.trans second.toExtends, by rw [second.same, first.same]⟩

theorem past (c : Context) : c.Grows c.past := ⟨.of_same rfl rfl, rfl⟩

theorem counting (c : Context) (code : Steps) : c.Grows (c.counting code) := ⟨.of_same rfl rfl, rfl⟩

end Grows

theorem block_name_eq_some {c : Context} {name : String} {b : Block} (h : c.block (.name name) = some b) :
    b = ⟨c.cell name, 1⟩ := by
  obtain ⟨cell, found, rfl⟩ := Option.map_eq_some_iff.mp h
  rw [Context.cell, found, Option.getD_some]

theorem block_text_eq_some {c : Context} {s : String} {b : Block} (h : c.block (.text s) = some b) :
    b = ⟨c.textAt s, Parser.textCells s⟩ := by
  obtain ⟨address, found, rfl⟩ := Option.map_eq_some_iff.mp h
  rw [Context.textAt, found, Option.getD_some]

end Context

namespace Parser

open Context

variable {c : Context}

/-- A name outside functions has a cell, an old one or the next. -/
theorem resolve_eq (name : String) (root : c.scopes.inner = []) :
    ∃ c', resolve name c = .ok (.cell (c'.cell name), c') ∧ c.Grows c' ∧ c'.rest = c.rest ∧ c'.reach = c.reach ∧
      c'.block (.name name) = some ⟨c'.cell name, 1⟩ := by
  have same : resolve name c = .ok ((c.scopes.resolve name).1, { c with scopes := (c.scopes.resolve name).2 }) := rfl
  cases found : c.scopes.root.find? name with
  | some cell =>
    have known : c.scopes.resolve name = (.cell cell, c.scopes) := by
      rw [Scopes.resolve, Scopes.find?, root, found]
      rfl
    rw [known] at same
    refine ⟨c, ?_, .refl c, rfl, rfl, ?_⟩
    · rw [Context.cell, found]
      exact same
    · rw [Context.block, Context.cell, found]
      rfl
  | none =>
    have unknown : c.scopes.resolve name = c.scopes.defineRoot name := by
      rw [Scopes.resolve, Scopes.find?, root, found]
      rfl
    rw [unknown] at same
    have define : (c.scopes.root.define name).find? name = some c.scopes.highWater := by
      rw [Scope.find?, Scope.define, List.lookup_cons_self]
      rfl
    refine ⟨{ c with scopes := (c.scopes.defineRoot name).2 }, ?_, ?_, rfl, rfl, ?_⟩
    · rw [same, Context.cell]
      dsimp only [Scopes.defineRoot]
      rw [define]
      rfl
    · refine ⟨.of_new (o := .name name) (n := 1) rfl (by rw [Context.block, found]; rfl) rfl fun o' => ?_, rfl⟩
      cases o' with
      | name other =>
        by_cases eq : other = name
        · rw [if_pos (by rw [eq]), eq, Context.block]
          dsimp only [Scopes.defineRoot]
          rw [define]
          rfl
        · rw [if_neg (by simpa using eq), Context.block, Context.block]
          dsimp only [Scopes.defineRoot, Scope.find?, Scope.define]
          rw [List.lookup_cons, beq_eq_false_iff_ne.mpr eq]
      | text s => rfl
    · rw [Context.block, Context.cell]
      dsimp only [Scopes.defineRoot]
      rw [define]
      rfl

/-- A text constant has cells, old ones or the next. -/
theorem intern_eq (s : String) :
    ∃ c', intern s c = .ok (c'.textAt s, c') ∧ c.Grows c' ∧ c'.rest = c.rest ∧ c'.reach = c.reach ∧
      c'.block (.text s) = some ⟨c'.textAt s, textCells s⟩ := by
  cases found : c.texts.lookup s with
  | some address =>
    refine ⟨c, ?_, .refl c, rfl, rfl, ?_⟩
    · rw [intern, get_bind, found, Context.textAt, found]
      rfl
    · rw [Context.block, Context.textAt, found]
      rfl
  | none =>
    refine ⟨{ c.allocating (textCells s) with texts := (s, c.scopes.highWater) :: c.texts }, ?_, ?_, rfl, rfl, ?_⟩
    · rw [intern, get_bind, found, Context.textAt]
      dsimp only
      rw [List.lookup_cons_self]
      rfl
    · refine ⟨.of_new (o := .text s) (n := textCells s) rfl (by rw [Context.block, found]; rfl) rfl fun o' => ?_, rfl⟩
      cases o' with
      | name other => rfl
      | text other =>
        by_cases eq : other = s
        · rw [if_pos (by rw [eq]), eq, Context.block]
          dsimp only
          rw [List.lookup_cons_self]
          rfl
        · rw [if_neg (by simpa using eq), Context.block, Context.block]
          dsimp only [Context.allocating]
          rw [List.lookup_cons, beq_eq_false_iff_ne.mpr eq]
    · rw [Context.block, Context.textAt]
      dsimp only
      rw [List.lookup_cons_self]
      rfl

end Parser

end BasicMachine.Language
