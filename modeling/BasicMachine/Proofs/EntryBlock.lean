import BasicMachine.Proofs.Operands
import BasicMachine.Proofs.StoredText
import BasicMachine.Proofs.Workings

/-!
# What the entry block lays

The entry block of a program sets the frame pointer and the DATA cursor, clears the cells behind the DATA items, and then
lays the texts and the items into their cells. All of it is of one form: a value is pushed and stored, or cells from IDX
on are filled. So what it puts into each cell is told beside the code, and each run of the code does just that.
-/
namespace BasicMachine

open Language

/-- What values in a row put into a cell. -/
def laid (first : Nat) (values : List Value) (x : Nat) : Option Value :=
  if first ≤ x then values[x - first]? else none

section
variable {first x : Nat} {values : List Value}

theorem laid_add (first : Nat) (values : List Value) (i : Nat) : laid first values (first + i) = values[i]? := by
  rw [laid, if_pos (Nat.le_add_right _ _), Nat.add_sub_cancel_left]

theorem laid_of_not (other : x < first ∨ first + values.length ≤ x) : laid first values x = none := by
  unfold laid
  split
  · exact List.getElem?_eq_none (by omega)
  · rfl

theorem laid_append (first : Nat) (front back : List Value) (x : Nat) :
    laid first (front ++ back) x = (laid (first + front.length) back x).or (laid first front x) := by
  unfold laid
  rcases Nat.lt_or_ge x first with before | inside
  · rw [if_neg (by omega), if_neg (by omega), if_neg (by omega)]
    rfl
  rw [if_pos inside, if_pos inside]
  rcases Nat.lt_or_ge x (first + front.length) with near | far
  · rw [if_neg (by omega), List.getElem?_append_left (by omega)]
    rfl
  · rw [if_pos far, List.getElem?_append_right (by omega), List.getElem?_eq_none (l := front) (by omega), Option.or_none,
      Nat.sub_sub]

end

/-- Some cells have got the values given, and no other cell has changed. -/
structure Sets (f : Nat → Option Value) (before after : Array Value) : Prop where
  size : after.size = before.size
  cells : ∀ x < before.size, after[x]? = (f x).or before[x]?

namespace Sets

variable {f g : Nat → Option Value} {memory memory' memory'' : Array Value}

theorem none (memory : Array Value) : Sets (fun _ => .none) memory memory := ⟨rfl, fun _ _ => rfl⟩

theorem trans (first : Sets f memory memory') (second : Sets g memory' memory'') :
    Sets (fun x => (g x).or (f x)) memory memory'' where
  size := second.size.trans first.size
  cells x inside := by
    rw [second.cells x (first.size.symm ▸ inside), first.cells x inside, Option.or_assoc]

theorem congr (h : Sets f memory memory') (same : ∀ x, f x = g x) : Sets g memory memory' :=
  funext same ▸ h

theorem single {address : Nat} (v : Value) (inside : address < memory.size) :
    Sets (laid address [v]) memory (memory.setIfInBounds address v) where
  size := Array.size_setIfInBounds
  cells x _ := by
    by_cases same : x = address
    · subst same
      rw [Array.getElem?_setIfInBounds_self_of_lt inside]
      have here : laid x [v] x = some v := laid_add x [v] 0
      rw [here]
      rfl
    · rw [Array.getElem?_setIfInBounds_ne (Ne.symm same), laid_of_not (by rw [List.length_singleton]; omega)]
      rfl

/-- A cell that has changed is one that got a value. -/
theorem changed (h : Sets f memory memory') {x : Nat} (other : memory'[x]? ≠ memory[x]?) : f x ≠ .none := by
  intro unset
  rcases Nat.lt_or_ge x memory.size with inside | outside
  · rw [h.cells x inside, unset] at other
    exact other rfl
  · rw [Array.getElem?_eq_none outside, Array.getElem?_eq_none (h.size ▸ outside)] at other
    exact other rfl

end Sets

/-- Bytes as they lie in memory. -/
def Value.ofBytes (bytes : List UInt8) : List Value := bytes.map fun b => .integer (Int16.ofNat b.toNat)

theorem StoredText.sets {address : Nat} {bytes : List UInt8} {memory memory' : Array Value}
    (h : StoredText address bytes memory memory') : Sets (laid address (Value.ofBytes bytes)) memory memory' where
  size := h.size
  cells x _ := by
    rcases Nat.lt_or_ge x address with before | inside
    · rw [h.others x (.inl before), laid_of_not (.inl before)]
      rfl
    · obtain ⟨k, rfl⟩ := Nat.exists_eq_add_of_le inside
      rw [laid_add, Value.ofBytes, List.getElem?_map]
      cases found : bytes[k]? with
      | some b => exact h.cells k b found
      | none => exact h.others _ (.inr (Nat.add_le_add_left (List.getElem?_eq_none_iff.mp found) _))

theorem Action.clearCells_sets {count address : Nat} {m : Machine} (inside : address + count ≤ m.memory.size) :
    ∃ memory, Sets (laid address (List.replicate count (.integer 0))) m.memory memory ∧
      clearCells count address m = .ok () { m with memory } := by
  induction count generalizing address m with
  | zero => exact ⟨m.memory, (Sets.none _).congr fun x => (laid_of_not (by simp; omega)).symm, rfl⟩
  | succ count ih =>
    have here : address < m.memory.size := by omega
    obtain ⟨memory, sets, done⟩ := @ih (address + 1) { m with memory := m.memory.setIfInBounds address (.integer 0) }
      (by simp only [Array.size_setIfInBounds]; omega)
    refine ⟨memory, ((Sets.single _ here).trans sets).congr fun x => ?_, ?_⟩
    · exact (laid_append address [.integer 0] _ x).symm
    · rw [clearCells, run_bind_ok (setCell_eq_ok _ here)]
      exact done

/-- The instruction fills cells from IDX on. -/
inductive Instruction.Fills : List Value → Instruction → Prop
  | clr {count : Nat} (some : 0 < count) (few : count ≤ 32767) :
      Fills (List.replicate count (.integer 0)) (.short .clr (Int16.ofNat count))
  | setS (bytes : List UInt8) : Fills (Value.ofBytes (bytes.filter (· != 0) ++ [0])) (.setS bytes)

/-- The instruction pushes a value that code can hold. -/
structure Instruction.Pushes (v : Value) (i : Instruction) : Prop where
  stored : i.stored = i
  shift : i.shift = some (0, 1)
  silent : quiet i = true
  effect : ∀ interrupts m, Action.effect interrupts i m = Action.push v m

theorem Instruction.Fills.some {values : List Value} {i : Instruction} (h : i.Fills values) : 0 < values.length := by
  cases h with
  | clr some few => rwa [List.length_replicate]
  | setS bytes =>
    rw [Value.ofBytes, List.length_map, List.length_append]
    exact Nat.succ_pos _

/-- Code holds an instruction that fills cells as it is, but for zero bytes, which it does not lay either. -/
theorem Instruction.Fills.effect {values : List Value} {i : Instruction} (h : i.Fills values) {m : Machine}
    (small : m.idx ≤ maxPointer) (inside : m.idx + values.length ≤ m.memory.size) :
    quiet i.stored = true ∧ ∃ memory idx, Sets (laid m.idx values) m.memory memory ∧
      ∀ interrupts, Action.effect interrupts i.stored m = .ok () { m with memory, idx } := by
  cases h with
  | @clr count some few =>
    rw [List.length_replicate] at inside
    have number : (Int16.ofNat count).toInt = count := Int16.toInt_ofNat_of_lt (by omega)
    have positive : 0 < Int16.ofNat count := by
      rw [Int16.lt_iff_toInt_lt, number]
      exact Int.natCast_pos.mpr some
    obtain ⟨memory, sets, cleared⟩ := Action.clearCells_sets (m := m) inside
    refine ⟨rfl, memory, m.idx, sets, fun interrupts => ?_⟩
    show Action.shortEffect interrupts (Int16.ofNat count) .clr m = _
    rw [Action.shortEffect, if_pos positive, number, run_bind_ok (Action.indexed_eq_ok rfl small rfl)]
    exact cleared
  | setS bytes =>
    rw [Value.ofBytes, List.length_map, List.length_append] at inside
    obtain ⟨memory, stored, done⟩ := @Action.setString_eq_ok (bytes.filter (· != 0)) m inside
    exact ⟨rfl, memory, _, stored.sets, fun _ => done⟩

namespace Language

/-- A text in memory: its bytes but zero bytes, and a zero behind them. -/
def textValues (text : String) : List Value := Value.ofBytes ((Utf8.encode text).filter (· != 0) ++ [0])

theorem length_textValues (text : String) : (textValues text).length = Parser.textCells text := by
  rw [textValues, Value.ofBytes, List.length_map, List.length_append]
  rfl

/-- Code that sets cells below `limit`, and what it puts into each of them: a value is pushed and stored, or cells from IDX
on are filled. -/
inductive Setup (limit : Nat) : Code → (Nat → Option Value) → Prop
  | nil : Setup limit [] fun _ => none
  | store {i : Instruction} {v : Value} {address : Nat} {rest : Code} {f : Nat → Option Value} (push : i.Pushes v)
      (inside : address < limit) (later : Setup limit rest f) :
      Setup limit (i :: .pointer .store address :: rest) fun x => (f x).or (laid address [v] x)
  | fill {i : Instruction} {values : List Value} {address : Nat} {rest : Code} {f : Nat → Option Value}
      (fills : i.Fills values) (inside : address + values.length ≤ limit) (later : Setup limit rest f) :
      Setup limit (.pointer .setIdx address :: i :: rest) fun x => (f x).or (laid address values x)

namespace Setup

variable {limit : Nat} {code code' : Code} {f g : Nat → Option Value}

theorem congr (h : Setup limit code f) (same : ∀ x, f x = g x) : Setup limit code g := funext same ▸ h

theorem append (first : Setup limit code f) (second : Setup limit code' g) :
    Setup limit (code ++ code') fun x => (g x).or (f x) := by
  induction first with
  | nil => exact second.congr fun x => Option.or_none.symm
  | store push inside _ ih => exact (Setup.store push inside ih).congr fun x => Option.or_assoc
  | fill fills inside _ ih => exact (Setup.fill fills inside ih).congr fun x => Option.or_assoc

/-- A value is pushed and stored. -/
theorem single {i : Instruction} {v : Value} {address : Nat} (push : i.Pushes v) (inside : address < limit) :
    Setup limit [i, .pointer .store address] (laid address [v]) := .store push inside .nil

/-- Cells from an address on are filled. -/
theorem row {i : Instruction} {values : List Value} {address : Nat} (fills : i.Fills values)
    (inside : address + values.length ≤ limit) : Setup limit [.pointer .setIdx address, i] (laid address values) :=
  .fill fills inside .nil

/-- No cell from `limit` on is set. -/
theorem none_of_le (h : Setup limit code f) {x : Nat} (beyond : limit ≤ x) : f x = none := by
  induction h with
  | nil => rfl
  | store _ inside _ ih => exact Option.or_eq_none_iff.mpr ⟨ih, laid_of_not (by rw [List.length_singleton]; omega)⟩
  | fill _ inside _ ih => exact Option.or_eq_none_iff.mpr ⟨ih, laid_of_not (by omega)⟩

/-- Any number of cells are cleared. -/
theorem clearCode {start count : Nat} (inside : start + count ≤ limit) :
    Setup limit (clearCode start count) (laid start (List.replicate count (.integer 0))) := by
  fun_induction Language.clearCode start count with
  | case1 start => exact Setup.nil.congr fun x => (laid_of_not (by rw [List.replicate_zero, List.length_nil]; omega)).symm
  | case2 start count some n ih =>
    have few : n ≤ 32767 := Nat.min_le_right _ _
    have part : n ≤ count := Nat.min_le_left _ _
    have positive : 0 < n := Nat.lt_min.mpr ⟨Nat.pos_of_ne_zero some, by decide⟩
    have first : Setup limit [.pointer .setIdx start, .short .clr (Int16.ofNat n)]
        (laid start (List.replicate n (.integer 0))) :=
      .row (.clr positive few) (by rw [List.length_replicate]; omega)
    refine (first.append (ih (by omega))).congr fun x => ?_
    have whole : List.replicate count (Value.integer 0) =
        List.replicate n (.integer 0) ++ List.replicate (count - n) (.integer 0) := by
      rw [List.replicate_append_replicate, Nat.add_sub_cancel' part]
    rw [whole, laid_append, List.length_replicate]

/-- The DATA items, one after the other. -/
theorem items {values : List Value} {base : Nat} (stored : ∀ v ∈ values, (Instruction.push v).stored = .push v)
    (inside : base + values.length ≤ limit) : Setup limit ((values.zipIdx base).flatMap itemCode) (laid base values) := by
  induction values generalizing base with
  | nil => exact Setup.nil.congr fun x => (laid_of_not (by rw [List.length_nil]; omega)).symm
  | cons v rest ih =>
    have ⟨first, later⟩ := List.forall_mem_cons.mp stored
    rw [List.length_cons] at inside
    have push : (Instruction.push v).Pushes v := ⟨first, rfl, rfl, fun _ _ => rfl⟩
    refine ((Setup.single push (by omega)).append (ih later (by omega))).congr fun x => ?_
    exact (laid_append base [v] rest x).symm

end Setup

/-- What texts put into a cell, the last of them first. -/
def laidTexts : List (String × Nat) → Nat → Option Value
  | [], _ => none
  | text :: rest, x => (laidTexts rest x).or (laid text.2 (textValues text.1) x)

/-- What the entry block puts into a cell. -/
def laidEntry (limit : Nat) (texts : List (String × Nat)) (items : List Value) (x : Nat) : Option Value :=
  (laid dataBase items x).or ((laidTexts texts x).or
    ((laid (dataBase + items.length) (List.replicate (limit - (dataBase + items.length)) (.integer 0)) x).or
      ((laid cursorCell [.integer 0] x).or (laid frameCell [.pointer 0] x))))

theorem Setup.texts {limit : Nat} {texts : List (String × Nat)}
    (inside : ∀ text ∈ texts, text.2 + Parser.textCells text.1 ≤ limit) :
    Setup limit (texts.flatMap textCode) (laidTexts texts) := by
  induction texts with
  | nil => exact .nil
  | cons text rest ih =>
    have ⟨first, later⟩ := List.forall_mem_cons.mp inside
    exact (Setup.row (.setS _) (by rw [← textValues, length_textValues]; exact first)).append (ih later)

/-- The entry block up to its jump. -/
theorem setup_entryCode {limit : Nat} {texts : List (String × Nat)} {items : List Value}
    (room : dataBase + items.length ≤ limit) (inside : ∀ text ∈ texts, text.2 + Parser.textCells text.1 ≤ limit)
    (stored : ∀ v ∈ items, (Instruction.push v).stored = .push v) :
    ∃ setup, entryCode limit texts items = setup ++ [.short .jmp 0] ∧ Setup limit setup (laidEntry limit texts items) ∧
      0 < setup.size := by
  have cells : frameCell < limit ∧ cursorCell < limit := by
    have : dataBase = 2 := rfl
    have : frameCell = 0 := rfl
    have : cursorCell = 1 := rfl
    omega
  refine ⟨_, rfl, ?_, by simp only [Code.size_append, Code.size_cons, Instruction.size_pointer]; omega⟩
  have pointers : Setup limit
      [.pointer .pushP 0, .pointer .store frameCell, .short .pushI 0, .pointer .store cursorCell]
      fun x => (laid cursorCell [.integer 0] x).or (laid frameCell [.pointer 0] x) :=
    (Setup.single ⟨rfl, rfl, rfl, fun _ _ => rfl⟩ cells.1).append (.single ⟨rfl, rfl, rfl, fun _ _ => rfl⟩ cells.2)
  have stop : dataBase + items.length + (limit - (dataBase + items.length)) ≤ limit := by omega
  exact ((pointers.append (.clearCode stop)).append (.texts inside)).append (.items stored room)

theorem laidTexts_of_not {texts : List (String × Nat)} {x : Nat}
    (other : ∀ text ∈ texts, x < text.2 ∨ text.2 + Parser.textCells text.1 ≤ x) : laidTexts texts x = none := by
  induction texts with
  | nil => rfl
  | cons text rest ih =>
    have ⟨first, later⟩ := List.forall_mem_cons.mp other
    rw [laidTexts, ih later, laid_of_not (by rw [length_textValues]; exact first)]
    rfl

/-- Texts that lie apart are all there in the end. -/
theorem laidTexts_of_mem {texts : List (String × Nat)} {text : String} {address i : Nat}
    (apart : texts.Pairwise fun a b => Block.Apart ⟨a.2, Parser.textCells a.1⟩ ⟨b.2, Parser.textCells b.1⟩)
    (member : (text, address) ∈ texts) (less : i < Parser.textCells text) :
    laidTexts texts (address + i) = (textValues text)[i]? := by
  induction texts with
  | nil => cases member
  | cons first rest ih =>
    have ⟨others, later⟩ := List.pairwise_cons.mp apart
    rw [laidTexts]
    rcases List.mem_cons.mp member with rfl | member
    · have none : laidTexts rest (address + i) = none := by
        refine laidTexts_of_not fun other there => ?_
        have : address + Parser.textCells text ≤ other.2 ∨ other.2 + Parser.textCells other.1 ≤ address := others other there
        omega
      rw [none, laid_add]
      rfl
    · rw [ih later member, List.getElem?_eq_getElem (by rw [length_textValues]; exact less)]
      rfl

/-- Code holds the DATA values as they are. -/
theorem Finished.stored_values {c : Context} {values : List Value} {p : Program} (h : Finished c values p)
    (small : p.staticSize ≤ maxPointer + 1) : ∀ v ∈ values, (Instruction.push v).stored = .push v := by
  intro v member
  have whole : Value.ofWord v.toWord = v.packed := Value.ofWord_toWord fun x same => h.numbers x (same ▸ member)
  rw [Instruction.stored, whole]
  cases v with
  | pointer address =>
    have inside := h.named _ member address rfl
    rw [← h.size_eq] at inside
    have : maxPointer = 0x1fffff := rfl
    rw [Value.packed, Nat.mod_eq_of_lt (by omega)]
  | _ => rfl

end Language

end BasicMachine
