import BasicMachine.Proofs.Access

/-!
# Text in memory

Text lies in memory as one byte in each cell. What stores it leaves all other cells alone, and text that is stored piece
by piece lies there as if it had been stored at once.
-/
namespace BasicMachine

/-- Bytes were stored in the cells from `address` on, and no other cell has changed. -/
structure StoredText (address : Nat) (bytes : List UInt8) (before after : Array Value) : Prop where
  size : after.size = before.size
  cells : ∀ k b, bytes[k]? = some b → after[address + k]? = some (.integer (Int16.ofNat b.toNat))
  others : ∀ x, x < address ∨ address + bytes.length ≤ x → after[x]? = before[x]?

namespace StoredText

variable {address : Nat} {first second : List UInt8} {memory memory' memory'' : Array Value}

theorem nil (address : Nat) (memory : Array Value) : StoredText address [] memory memory where
  size := rfl
  cells _ _ found := by simp at found
  others _ _ := rfl

theorem single (b : UInt8) (inside : address < memory.size) :
    StoredText address [b] memory (memory.setIfInBounds address (.integer (Int16.ofNat b.toNat))) where
  size := Array.size_setIfInBounds
  cells k c found := by
    cases k with
    | zero =>
      cases found
      exact Array.getElem?_setIfInBounds_self_of_lt inside
    | succ k => cases found
  others x outside := by
    refine Array.getElem?_setIfInBounds_ne ?_
    simp only [List.length_singleton] at outside
    omega

theorem append (h : StoredText address first memory memory')
    (h' : StoredText (address + first.length) second memory' memory'') :
    StoredText address (first ++ second) memory memory'' where
  size := h'.size.trans h.size
  cells k b found := by
    rcases Nat.lt_or_ge k first.length with inside | beyond
    · rw [List.getElem?_append_left inside] at found
      rw [h'.others _ (.inl (by omega))]
      exact h.cells k b found
    · rw [List.getElem?_append_right beyond] at found
      rw [show address + k = address + first.length + (k - first.length) by omega]
      exact h'.cells _ b found
  others x outside := by
    rw [List.length_append] at outside
    rw [h'.others x (by omega), h.others x (by omega)]

end StoredText

/-- A string and the zero after it are stored at IDX, which moves behind them. -/
theorem Action.setString_eq_ok {bytes : List UInt8} {m : Machine} (inside : m.idx + bytes.length < m.memory.size) :
    ∃ memory, StoredText m.idx (bytes ++ [0]) m.memory memory ∧
      setString bytes m = .ok () { m with memory, idx := m.idx + bytes.length + 1 } := by
  induction bytes generalizing m with
  | nil =>
    rw [List.length_nil, Nat.add_zero] at inside
    exact ⟨_, .single 0 inside, by rw [setString, setNext_eq, if_pos inside]; rfl⟩
  | cons b rest ih =>
    rw [List.length_cons] at inside
    have here : m.idx < m.memory.size := by omega
    obtain ⟨memory, stored, done⟩ := @ih
      { m with memory := m.memory.setIfInBounds m.idx (.integer (Int16.ofNat b.toNat)), idx := m.idx + 1 }
      (by simp only [Array.size_setIfInBounds]; omega)
    refine ⟨memory, (StoredText.single b here).append stored, ?_⟩
    rw [setString, run_bind_ok (by rw [setNext_eq, if_pos here]), done]
    simp only [List.length_cons, Nat.add_assoc, Nat.add_comm 1]

end BasicMachine
