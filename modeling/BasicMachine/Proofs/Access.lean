import BasicMachine.Proofs.Execution

/-!
# Access to memory

The cells that an instruction reads or writes, and the cells that it asks the heap for. A row of cells that does not
lie in memory is answered by a memory fault, and a request that the heap cannot meet by an error of its own; a request
that it can meet is met, because the cells it hands out are cells of memory.
-/
namespace BasicMachine

/-- Cells one after the other. The first may lie below zero, where there are none. -/
structure Row where
  first : Int
  count : Nat
  deriving DecidableEq

def Row.Fits (memory : Array Value) (r : Row) : Prop := 0 ≤ r.first ∧ r.first + r.count ≤ memory.size

instance (memory : Array Value) (r : Row) : Decidable (r.Fits memory) := inferInstanceAs (Decidable (_ ∧ _))

/-- A cell after which a string goes on. -/
def Value.isLetter : Value → Bool
  | integer n => n != 0
  | _ => false

/-- The cells of the string at an address, with the one that ends it. -/
def stringRow (memory : Array Value) (address : Nat) : Row :=
  ⟨address, ((memory.toList.drop address).takeWhile Value.isLetter).length + 1⟩

/-- An error with a given code. -/
def Faults (code : ErrorCode) (r : EStateM.Result Error S α) : Prop := ∃ e s, r = .error e s ∧ e.code = code

section
variable {S : Type} {a : EStateM Error S α} {f : α → EStateM Error S β} {s s' : S}

theorem run_bind_ok {v : α} (h : a s = .ok v s') : (a >>= f) s = f v s' := by
  simp only [bind, EStateM.bind, h]

theorem run_bind_error {e : Error} (h : a s = .error e s') : (a >>= f) s = .error e s' := by
  simp only [bind, EStateM.bind, h]

theorem run_bind_eq_ok {v : β} (h : (a >>= f) s = .ok v s') : ∃ u s₁, a s = .ok u s₁ ∧ f u s₁ = .ok v s' := by
  simp only [bind, EStateM.bind] at h
  split at h
  · next u s₁ first => exact ⟨u, s₁, first, h⟩
  · cases h

theorem Faults.bind {code : ErrorCode} (h : Faults code (a s)) : Faults code ((a >>= f) s) := by
  obtain ⟨e, s', failed, same⟩ := h
  exact ⟨e, s', run_bind_error failed, same⟩

theorem Faults.bind_of_ok {code : ErrorCode} {v : α} (first : a s = .ok v s') (h : Faults code (f v s')) :
    Faults code ((a >>= f) s) := by
  rwa [run_bind_ok first]

end

namespace Value

theorem stringFrom_fault {memory : Array Value} {address : Nat} (before : List Int16)
    (letters : ∀ v ∈ memory.toList.drop address, v.isLetter = true) :
    ∃ e, stringFrom memory before (memory.size - address) address = .error e ∧ e.code = .memoryFault := by
  -- on the cells that are left; each is a letter, so that the string goes on to the end of memory
  induction h : memory.size - address generalizing before address with
  | zero => exact ⟨_, rfl, rfl⟩
  | succ room ih =>
    have inside : address < memory.size := by omega
    have cells : memory.toList.drop address = memory[address] :: memory.toList.drop (address + 1) := by
      rw [List.drop_eq_getElem_cons (by simpa using inside), Array.getElem_toList]
    rw [cells] at letters
    have letter := letters memory[address] (by simp)
    rw [stringFrom, Array.getElem?_eq_getElem inside]
    cases found : memory[address] with
    | integer n =>
      rw [found] at letter
      simp only [bne_iff_ne.mp letter, if_false]
      exact ih _ (fun v member => letters v (by simp [member])) (by omega)
    | _ => rw [found] at letter; cases letter

/-- A string that does not end in memory. -/
theorem string_fault {memory : Array Value} {address : Nat} (outside : ¬ (stringRow memory address).Fits memory) :
    ∃ e, string memory address = .error e ∧ e.code = .memoryFault := by
  refine stringFrom_fault [] ?_
  have prefixed := List.takeWhile_prefix isLetter (l := memory.toList.drop address)
  have long : (memory.toList.drop address).length ≤ ((memory.toList.drop address).takeWhile isLetter).length := by
    simp only [Row.Fits, stringRow] at outside
    rw [List.length_drop, Array.length_toList]
    omega
  intro v member
  rw [← prefixed.eq_of_length_le long] at member
  exact List.all_eq_true.mp List.all_takeWhile v member

end Value

namespace Action

variable {m m' : Machine}

theorem faults_ofExcept {code : ErrorCode} {r : Except Error α} (h : ∃ e, r = .error e ∧ e.code = code) :
    Faults code (ofExcept r m) := by
  obtain ⟨e, rfl, same⟩ := h
  exact ⟨e, m, rfl, same⟩

theorem pop_eq_ok {v : Value} (h : m.stack.top? = some v) : pop m = .ok v { m with stack := m.stack.dropTop } := by
  simp only [pop_apply, h]

theorem faults_cell {address : Nat} (outside : m.memory.size ≤ address) : Faults .memoryFault (cell address m) := by
  refine ⟨memoryFault address, m, ?_, rfl⟩
  simp only [cell, Array.getElem?_eq_none outside]

theorem faults_setCell {address : Nat} (v : Value) (outside : m.memory.size ≤ address) :
    Faults .memoryFault (setCell address v m) :=
  ⟨memoryFault address, m, if_neg (by omega), rfl⟩

theorem indexed_eq (offset : Int16) (m : Machine) :
    indexed offset m =
      if Value.shifted m.idx offset.toInt < 0 then .error (memoryFault (Value.shifted m.idx offset.toInt)) m
      else .ok (Value.shifted m.idx offset.toInt).toNat m := by
  rw [indexed, run_get_bind]
  split <;> rfl

/-- A cell at an offset from IDX that is not there. -/
theorem faults_indexed {offset : Int16} {f : Nat → Action α}
    (outside : ¬ Row.Fits m.memory ⟨Value.shifted m.idx offset.toInt, 1⟩)
    (access : ∀ address, m.memory.size ≤ address → Faults .memoryFault (f address m)) :
    Faults .memoryFault ((indexed offset >>= f) m) := by
  simp only [Row.Fits] at outside
  by_cases below : Value.shifted m.idx offset.toInt < 0
  · exact .bind ⟨_, m, by rw [indexed_eq, if_pos below], rfl⟩
  · rw [run_bind_ok (by rw [indexed_eq, if_neg below])]
    exact access _ (by omega)

theorem setCell_eq_ok {address : Nat} (v : Value) (inside : address < m.memory.size) :
    setCell address v m = .ok () { m with memory := m.memory.setIfInBounds address v } :=
  if_pos inside

theorem faults_clearCells {count address : Nat} (outside : m.memory.size < address + count) :
    Faults .memoryFault (clearCells count address m) ∨ count = 0 := by
  induction count generalizing m address with
  | zero => exact .inr rfl
  | succ count ih =>
    refine .inl ?_
    by_cases inside : address < m.memory.size
    · rw [clearCells, run_bind_ok (setCell_eq_ok _ inside)]
      refine (ih ?_).resolve_right ?_
      · simp only [Array.size_setIfInBounds]
        omega
      · omega
    · exact .bind (faults_setCell _ (by omega))

theorem clearCells_eq_ok {count address : Nat} (inside : address + count ≤ m.memory.size) :
    ∃ memory, memory.size = m.memory.size ∧ clearCells count address m = .ok () { m with memory } := by
  induction count generalizing m address with
  | zero => exact ⟨m.memory, rfl, rfl⟩
  | succ count ih =>
    rw [clearCells, run_bind_ok (setCell_eq_ok _ (by omega))]
    obtain ⟨memory, size, cleared⟩ := @ih { m with memory := m.memory.setIfInBounds address (.integer 0) }
      (address + 1) (by simp only [Array.size_setIfInBounds]; omega)
    exact ⟨memory, by rw [size, Array.size_setIfInBounds], cleared⟩

theorem storeString_eq_ok {bytes : List UInt8} {address : Nat} (inside : address + bytes.length < m.memory.size) :
    ∃ memory, memory.size = m.memory.size ∧ storeString bytes address m = .ok () { m with memory } := by
  induction bytes generalizing m address with
  | nil => exact ⟨_, Array.size_setIfInBounds, setCell_eq_ok _ (by simpa using inside)⟩
  | cons b rest ih =>
    rw [List.length_cons] at inside
    rw [storeString, run_bind_ok (setCell_eq_ok _ (by omega))]
    obtain ⟨memory, size, stored⟩ :=
      @ih { m with memory := m.memory.setIfInBounds address (.integer (Int16.ofNat b.toNat)) } (address + 1)
        (by simp only [Array.size_setIfInBounds]; omega)
    exact ⟨memory, by rw [size, Array.size_setIfInBounds], stored⟩

theorem setNext_eq (b : UInt8) (m : Machine) :
    setString.setNext b m =
      if m.idx < m.memory.size then
        .ok () { m with memory := m.memory.setIfInBounds m.idx (.integer (Int16.ofNat b.toNat)), idx := m.idx + 1 }
      else .error (memoryFault m.idx) m := by
  by_cases inside : m.idx < m.memory.size
  · rw [if_pos inside, setString.setNext, run_get_bind, run_bind_ok (setCell_eq_ok _ inside)]
    rfl
  · have outside : setCell m.idx (.integer (Int16.ofNat b.toNat)) m = .error (memoryFault m.idx) m := if_neg inside
    rw [if_neg inside, setString.setNext, run_get_bind, run_bind_error outside]

theorem faults_setString {bytes : List UInt8} (outside : m.memory.size < m.idx + (bytes.length + 1)) :
    Faults .memoryFault (setString bytes m) := by
  induction bytes generalizing m with
  | nil => exact ⟨memoryFault m.idx, m, by rw [setString, setNext_eq, if_neg (by simp at outside; omega)], rfl⟩
  | cons b rest ih =>
    by_cases inside : m.idx < m.memory.size
    · rw [setString, run_bind_ok (by rw [setNext_eq, if_pos inside])]
      refine ih ?_
      simp only [Array.size_setIfInBounds, List.length_cons] at outside ⊢
      omega
    · exact .bind ⟨memoryFault m.idx, m, by rw [setNext_eq, if_neg inside], rfl⟩

theorem allocate_eq (n : Nat) (m : Machine) :
    allocate n m =
      if m.heap < m.floor + n then .error (.of .outOfMemory "HEAP") m
      else .ok (m.heap - n) { m with heap := m.heap - n } := by
  rw [allocate, run_get_bind]
  split <;> rfl

end Action

namespace Machine

open Action

/-- The strings that a comparison reads, if it is one of two addresses: the second one only after the first. -/
def comparedRows (m : Machine) : List Row :=
  match pop2 m with
  | .ok (.pointer l, .pointer r) _ =>
    stringRow m.memory l ::
      match Value.string m.memory l with
      | .ok _ => [stringRow m.memory r]
      | .error _ => []
  | _ => []

/-- The string that a value names. -/
def namedRows (m : Machine) : Value → List Row
  | .pointer address => [stringRow m.memory address]
  | _ => []

/-- The number of cells that BLIT shows, once its operands are popped. -/
def blitCount (m : Machine) : Option UInt16 :=
  match (do let n ← popCount; let _ ← popCoordinate; let _ ← popCoordinate; return n : Action UInt16) m with
  | .ok n _ => some n
  | .error _ _ => none

/-- A cell that takes what is on top of the stack. -/
def storedRows (m : Machine) (first : Int) : List Row :=
  match m.stack.top? with
  | some _ => [⟨first, 1⟩]
  | none => []

/-- The rows of cells that an instruction reads or writes, up to what it cannot get. Those that it asks the heap for
are not among them, and neither are those of READS, of which the host decides how many there are. -/
def rows (m : Machine) : Instruction → List Row
  | .plain .loadI => [⟨m.idx, 1⟩]
  | .plain .storeI => m.storedRows m.idx
  | .plain (.relation _) | .plain .cmp => m.comparedRows
  | .plain .len => m.stack.top?.toList.flatMap m.namedRows
  | .short .loadX n | .short .deref n => [⟨Value.shifted m.idx n.toInt, 1⟩]
  | .short .storeX n => m.storedRows (Value.shifted m.idx n.toInt)
  | .short .clr n => if 0 < n then [⟨Value.shifted m.idx 0, n.toInt.toNat⟩] else []
  | .pointer .load address => [⟨address, 1⟩]
  | .pointer .store address => m.storedRows address
  | .setS bytes => [⟨m.idx, bytes.length + 1⟩]
  | .syscall .puts r | .syscall .print r => m.namedRows (m.register r)
  | .syscall .blit r =>
    match m.register r, m.blitCount with
    | .pointer address, some n => [⟨address, n.toNat⟩]
    | _, _ => []
  | _ => []

end Machine

namespace Action

open Machine

variable {m : Machine} {row : Row}

theorem mem_storedRows {first : Int} (h : row ∈ m.storedRows first) :
    row = ⟨first, 1⟩ ∧ ∃ v, m.stack.top? = some v := by
  unfold storedRows at h
  split at h
  · next v top => exact ⟨List.mem_singleton.mp h, v, top⟩
  · cases h

theorem mem_namedRows {v : Value} (h : row ∈ m.namedRows v) :
    ∃ address, v = .pointer address ∧ row = stringRow m.memory address := by
  unfold namedRows at h
  split at h
  · next address => exact ⟨address, rfl, List.mem_singleton.mp h⟩
  · cases h

theorem faults_text {address : Nat} (outside : ¬ (stringRow m.memory address).Fits m.memory) :
    Faults .memoryFault (text address m) := by
  rw [text, run_get_bind]
  exact .bind (faults_ofExcept (Value.string_fault outside))

theorem order_fault {memory : Array Value} {l r : Nat}
    (h : (∃ e, Value.string memory l = .error e ∧ e.code = .memoryFault) ∨
      (∃ cells, Value.string memory l = .ok cells) ∧ ∃ e, Value.string memory r = .error e ∧ e.code = .memoryFault) :
    ∃ e, (∀ mixed, Value.order memory mixed (.pointer l) (.pointer r) = .error e) ∧ e.code = .memoryFault := by
  rcases h with ⟨e, failed, same⟩ | ⟨⟨cells, first⟩, e, failed, same⟩
  · exact ⟨e, fun _ => by simp only [Value.order, failed, bind, Except.bind], same⟩
  · exact ⟨e, fun _ => by simp only [Value.order, first, failed, bind, Except.bind], same⟩

theorem memory_of_pop2 {values : Value × Value} {m' : Machine} (h : pop2 m = .ok values m') : m'.memory = m.memory := by
  simp only [pop2_eq_pops, pop_apply, bind, EStateM.bind] at h
  split at h
  · next first =>
    split at first <;> cases first
    split at h
    · next second =>
      split at second <;> cases second
      cases h
      rfl
    · cases h
  · cases h

/-- A comparison of two strings of which one does not end in memory. -/
theorem faults_compareWith {f : Array Value → Value → Value → Except Error Value} (touched : row ∈ m.comparedRows)
    (outside : ¬ row.Fits m.memory)
    (compares : ∀ l r e, (∀ mixed, Value.order m.memory mixed (.pointer l) (.pointer r) = .error e) →
      f m.memory (.pointer l) (.pointer r) = .error e) :
    Faults .memoryFault (compareWith f m) := by
  unfold comparedRows at touched
  split at touched
  · next l r m' popped =>
    have fault (h : ∃ e, (∀ mixed, Value.order m.memory mixed (.pointer l) (.pointer r) = .error e) ∧
        e.code = .memoryFault) : Faults .memoryFault (compareWith f m) := by
      obtain ⟨e, failed, same⟩ := h
      rw [compareWith, run_bind_ok popped]
      dsimp only
      rw [run_get_bind, memory_of_pop2 popped]
      exact .bind (faults_ofExcept ⟨e, compares l r e failed, same⟩)
    refine fault (order_fault ?_)
    rcases List.mem_cons.mp touched with rfl | second
    · exact .inl (Value.string_fault outside)
    · cases first : Value.string m.memory l with
      | error e => rw [first] at second; cases second
      | ok cells =>
        rw [first] at second
        rw [List.mem_singleton.mp second] at outside
        exact .inr ⟨⟨cells, rfl⟩, Value.string_fault outside⟩
  · cases touched

theorem faults_storeCell {f : Machine → Nat} {v : Value} (top : m.stack.top? = some v)
    (same : f { m with stack := m.stack.dropTop } = f m) (outside : m.memory.size ≤ f m) :
    Faults .memoryFault ((do let v ← pop; setCell (f (← get)) v : Action Unit) m) := by
  rw [run_bind_ok (pop_eq_ok top), run_get_bind, same]
  exact faults_setCell v outside

/-- An instruction that is no host call, and a row that is not in memory. -/
theorem faults_effect {interrupts : Interrupts} {i : Instruction} (call : ∀ c r, i ≠ .syscall c r)
    (touched : row ∈ m.rows i) (outside : ¬ row.Fits m.memory) : Faults .memoryFault (effect interrupts i m) := by
  have beyond {address : Nat} (h : ¬ Row.Fits m.memory ⟨address, 1⟩) : m.memory.size ≤ address := by
    simp only [Row.Fits] at h
    omega
  cases i with
  | plain op =>
    cases op with
    | loadI =>
      rw [List.mem_singleton.mp touched] at outside
      show Faults .memoryFault ((cell m.idx >>= push) m)
      exact .bind (faults_cell (beyond outside))
    | storeI =>
      obtain ⟨rfl, v, top⟩ := mem_storedRows touched
      exact faults_storeCell top rfl (beyond outside)
    | relation f =>
      show Faults .memoryFault (compareWith (fun memory l r => f.apply memory l r) m)
      refine faults_compareWith touched outside fun l r e failed => ?_
      simp only [Relation.apply, failed, bind, Except.bind]
    | cmp =>
      refine faults_compareWith touched outside fun l r e failed => ?_
      simp only [Value.rank, failed, bind, Except.bind]
    | len =>
      obtain ⟨v, top, named⟩ := List.mem_flatMap.mp touched
      obtain ⟨address, rfl, rfl⟩ := mem_namedRows named
      refine .bind_of_ok (pop_eq_ok (Option.mem_toList.mp top)) (.bind_of_ok rfl ?_)
      rw [run_get_bind]
      exact .bind (faults_ofExcept (Value.string_fault outside))
    | _ => cases touched
  | short op n =>
    cases op with
    | loadX =>
      rw [List.mem_singleton.mp touched] at outside
      exact faults_indexed outside fun address beyond => .bind (faults_cell beyond)
    | storeX =>
      obtain ⟨rfl, v, top⟩ := mem_storedRows touched
      refine faults_indexed outside fun address beyond => ?_
      exact .bind_of_ok (pop_eq_ok top) (faults_setCell v beyond)
    | deref =>
      rw [List.mem_singleton.mp touched] at outside
      exact faults_indexed outside fun address beyond => .bind (faults_cell beyond)
    | clr =>
      simp only [rows] at touched
      split at touched
      · next some =>
        rw [List.mem_singleton.mp touched] at outside
        have count : n.toInt.toNat ≠ 0 := by
          have positive : (0 : Int16).toInt < n.toInt := Int16.lt_iff_toInt_lt.mp some
          rw [show (0 : Int16).toInt = 0 from rfl] at positive
          omega
        show Faults .memoryFault ((if 0 < n then indexed 0 >>= clearCells n.toInt.toNat else pure ()) m)
        rw [if_pos some]
        simp only [Row.Fits] at outside
        by_cases below : Value.shifted m.idx 0 < 0
        · exact .bind ⟨_, m, (indexed_eq 0 m).trans (if_pos below), rfl⟩
        · refine .bind_of_ok ((indexed_eq 0 m).trans (if_neg below)) ((faults_clearCells ?_).resolve_right count)
          have same : (0 : Int16).toInt = 0 := rfl
          rw [same]
          omega
      · cases touched
    | _ => cases touched
  | pointer op address =>
    cases op with
    | load =>
      rw [List.mem_singleton.mp touched] at outside
      exact .bind (faults_cell (beyond outside))
    | store =>
      obtain ⟨rfl, v, top⟩ := mem_storedRows touched
      exact .bind_of_ok (pop_eq_ok top) (faults_setCell v (beyond outside))
    | _ => cases touched
  | setS bytes =>
    rw [List.mem_singleton.mp touched] at outside
    refine faults_setString ?_
    simp only [Row.Fits] at outside
    omega
  | syscall c r => exact absurd rfl (call c r)
  | _ => cases touched

/-- Only the stack has changed. -/
def PopsOnly (a : Action α) : Prop := ∀ {m v m'}, a m = .ok v m' → ∃ stack, m' = { m with stack }

theorem popsOnly_pop : PopsOnly pop := by
  intro m v m' h
  rw [pop_apply] at h
  split at h <;> cases h
  exact ⟨_, rfl⟩

theorem popsOnly_popCount : PopsOnly popCount := by
  intro m v m' h
  rw [popCount] at h
  obtain ⟨value, m₁, popped, rest⟩ := run_bind_eq_ok h
  obtain ⟨stack, rfl⟩ := popsOnly_pop popped
  split at rest
  · split at rest <;> cases rest
    exact ⟨stack, rfl⟩
  · split at rest <;> cases rest
    exact ⟨stack, rfl⟩
  · cases rest

theorem popsOnly_popCoordinate : PopsOnly popCoordinate := by
  intro m v m' h
  rw [popCoordinate] at h
  obtain ⟨value, m₁, popped, rest⟩ := run_bind_eq_ok h
  obtain ⟨stack, rfl⟩ := popsOnly_pop popped
  split at rest
  · cases rest
    exact ⟨stack, rfl⟩
  · split at rest <;> cases rest
    exact ⟨stack, rfl⟩
  · cases rest

theorem faults_cellBytes {start n : Nat} (outside : m.memory.size < start + n) :
    Faults .memoryFault (Session.cellBytes start n m) := by
  refine ⟨.of .memoryFault "BLIT", m, ?_, rfl⟩
  rw [Session.cellBytes, run_get_bind]
  simp only [if_pos outside]
  rfl

end Action

namespace Session

open Action

variable {σ : Type} {env : Environment σ} {m m' : Machine} {t : σ}

theorem act_ok {a : Action α} {v : α} (h : a m = .ok v m') : (act a : SessionM σ α) ⟨m, t⟩ = .ok v ⟨m', t⟩ := by
  simp only [act, h]

theorem faults_act {code : ErrorCode} {a : Action α} (h : Faults code (a m)) :
    Faults code ((act a : SessionM σ α) ⟨m, t⟩) := by
  obtain ⟨e, m', failed, same⟩ := h
  exact ⟨e, ⟨m', t⟩, by simp only [act, failed], same⟩

/-- The cells that READS fills from `address` on, one for each byte that the host gives in `room` cycles. -/
def readRows (host : Host σ) (room address : Nat) (t : σ) : List Row :=
  let (b, t') := host (.read false) t
  if b = 0 then []
  else
    ⟨address, 1⟩ ::
      if b = 10 ∨ b = 13 then []
      else
        match room with
        | 0 => []
        | left + 1 => if left = 0 then [] else readRows host left (address + 1) t'

/-- The rows of cells that an instruction reads or writes, with `room` cycles left. -/
def rows (env : Environment σ) (room : Nat) (s : Session σ) : Instruction → List Row
  | .syscall .readS _ => readRows env.host room (s.machine.idx + s.machine.readCursor) s.host
  | i => s.machine.rows i

theorem keepByte_eq (b : UInt8) (m : Machine) :
    keepByte b m =
      if m.idx + m.readCursor < m.memory.size then
        .ok () { m with
          memory := m.memory.setIfInBounds (m.idx + m.readCursor) (.integer (Int16.ofNat b.toNat))
          readCursor := m.readCursor + 1
          clock := m.clock + 1 }
      else .error (memoryFault (m.idx + m.readCursor : Nat)) m := by
  rw [keepByte, run_get_bind]
  by_cases inside : m.idx + m.readCursor < m.memory.size
  · rw [if_pos inside, run_bind_ok (setCell_eq_ok _ inside)]
    rfl
  · have outside (v : Value) : setCell (m.idx + m.readCursor) v m = .error (memoryFault (m.idx + m.readCursor : Nat)) m :=
      if_neg inside
    rw [if_neg inside, run_bind_error (outside _)]

theorem faults_closeLine (r : Register) (outside : m.memory.size ≤ m.idx + m.readCursor) :
    Faults .memoryFault (closeLine r m) := by
  rw [closeLine, run_get_bind]
  exact .bind (faults_setCell _ outside)

theorem faults_readString {host : Host σ} {r : Register} {room extra : Nat} {row : Row}
    (touched : row ∈ readRows host room (m.idx + m.readCursor) t) (outside : ¬ row.Fits m.memory) :
    Faults .memoryFault (readString host r room extra ⟨m, t⟩) := by
  induction room using Nat.strongRecOn generalizing m t extra with
  | _ room ih =>
    unfold readRows at touched
    unfold readString
    refine .bind_of_ok (show ask host (.read false) ⟨m, t⟩ = .ok _ ⟨m, _⟩ from rfl) ?_
    generalize host (.read false) t = answer at touched ⊢
    obtain ⟨b, t'⟩ := answer
    dsimp only at touched ⊢
    by_cases zero : b = 0
    · rw [if_pos zero] at touched
      cases touched
    rw [if_neg zero] at touched ⊢
    have here : row = ⟨(m.idx + m.readCursor : Nat), 1⟩ → m.memory.size ≤ m.idx + m.readCursor := by
      rintro rfl
      simp only [Row.Fits] at outside
      omega
    by_cases lineEnd : b = 10 ∨ b = 13
    · rw [if_pos lineEnd] at touched ⊢
      exact .bind (faults_act (faults_closeLine r (here (List.mem_singleton.mp touched))))
    rw [if_neg lineEnd] at touched ⊢
    -- the cell of this byte is not there, or it is and the row belongs to a later byte
    by_cases inside : m.idx + m.readCursor < m.memory.size
    · have later := (List.mem_cons.mp touched).resolve_left fun first => absurd (here first) (by omega)
      refine .bind_of_ok (act_ok ((keepByte_eq b m).trans (if_pos inside))) ?_
      cases room with
      | zero => cases later
      | succ left =>
        dsimp only at later ⊢
        by_cases last : left = 0
        · rw [if_pos last] at later
          cases later
        · rw [if_neg last] at later ⊢
          refine ih left (Nat.lt_succ_self left) ?_ ?_
          · exact later
          · simpa only [Row.Fits, Array.size_setIfInBounds] using outside
    · exact .bind (faults_act ⟨_, m, (keepByte_eq b m).trans (if_neg inside), rfl⟩)

theorem faults_blit {host : Host σ} {r : Register} (room : Nat) {address : Nat} {n : UInt16}
    (register : m.register r = .pointer address) (count : m.blitCount = some n)
    (outside : m.memory.size < address + n.toNat) : Faults .memoryFault (serve host r room .blit ⟨m, t⟩) := by
  unfold Machine.blitCount at count
  split at count
  · next n' m₄ popped =>
    cases count
    obtain ⟨k, m₁, first, popped⟩ := run_bind_eq_ok popped
    obtain ⟨y, m₂, second, popped⟩ := run_bind_eq_ok popped
    obtain ⟨x, m₃, third, popped⟩ := run_bind_eq_ok popped
    cases popped
    refine .bind_of_ok (act_ok first) (.bind_of_ok (act_ok second) (.bind_of_ok (act_ok third) (.bind (faults_act ?_))))
    obtain ⟨stack₁, rfl⟩ := popsOnly_popCount first
    obtain ⟨stack₂, rfl⟩ := popsOnly_popCoordinate second
    obtain ⟨stack₃, rfl⟩ := popsOnly_popCoordinate third
    have same : ({ m with stack := stack₃ } : Machine).register r = .pointer address := by cases r <;> exact register
    refine .bind_of_ok (show Action.register r { m with stack := stack₃ } = .ok _ _ from rfl) ?_
    rw [same]
    exact .bind_of_ok rfl (faults_cellBytes outside)
  · cases count

/-- An instruction that reads or writes a row of cells that is not in memory. -/
theorem faults_perform {i : Instruction} {room : Nat} {row : Row} (touched : row ∈ rows env room ⟨m, t⟩ i)
    (outside : ¬ row.Fits m.memory) : Faults .memoryFault (perform env room i ⟨m, t⟩) := by
  have effect (call : ∀ c r, i ≠ .syscall c r) (touched : row ∈ m.rows i) :
      Faults .memoryFault ((do act (Action.effect env.interrupts i); return i.progress : SessionM σ Progress) ⟨m, t⟩) :=
    .bind (faults_act (faults_effect call touched outside))
  cases i with
  | syscall call r =>
    cases call with
    | readS => exact faults_readString touched outside
    | puts =>
      obtain ⟨address, named, rfl⟩ := mem_namedRows touched
      refine .bind (faults_act (.bind_of_ok (show Action.register r m = .ok _ m from rfl) ?_))
      rw [named]
      exact .bind_of_ok rfl (faults_text outside)
    | print =>
      obtain ⟨address, named, rfl⟩ := mem_namedRows touched
      refine .bind (faults_act (.bind_of_ok (show Action.register r m = .ok _ m from rfl) ?_))
      rw [named]
      exact faults_text outside
    | blit =>
      simp only [rows, Machine.rows] at touched
      split at touched
      · next address n named count =>
        rw [List.mem_singleton.mp touched] at outside
        refine faults_blit room named count ?_
        simp only [Row.Fits] at outside
        omega
      · cases touched
    | _ => cases touched
  | _ => exact effect (by simp) touched

/-- The number of cells that an instruction asks the heap for, if it gets so far. -/
def wants (env : Environment σ) (s : Session σ) : Instruction → Option Nat
  | .short .alloc n => if n < 0 then none else some n.toInt.toNat
  | .plain .calloc => s.machine.stack.top?.bind fun v => (cellCount v).toOption
  | .syscall .gets _ => some (((Utf8.encode (env.host .gets s.host).1).filter (· != 0)).length + 1)
  | _ => none

/-- Where the machine finds the cells that the heap has handed out to an instruction. -/
def finds (m : Machine) : Instruction → Option Nat
  | .short .alloc _ | .plain .calloc => some m.idx
  | .syscall .gets r => (m.register r).asPointer.toOption
  | _ => none

theorem faults_allocate {n : Nat} (full : m.heap < m.floor + n) : Faults .outOfMemory (allocate n m) :=
  ⟨.of .outOfMemory "HEAP", m, (allocate_eq n m).trans (if_pos full), rfl⟩

theorem allocate_eq_ok {n : Nat} (fits : m.floor + n ≤ m.heap) :
    allocate n m = .ok (m.heap - n) { m with heap := m.heap - n } :=
  (allocate_eq n m).trans (if_neg (by omega))

theorem calloc_eq_ok {v : Value} {n : Nat} (top : m.stack.top? = some v) (count : cellCount v = .ok n)
    (fits : m.floor + n ≤ m.heap) (inside : m.heap ≤ m.memory.size) :
    ∃ stack memory, plainEffect .calloc m = .ok () { m with stack, memory, heap := m.heap - n, idx := m.heap - n } := by
  rw [plainEffect, run_bind_ok (pop_eq_ok top), count]
  obtain ⟨memory, -, cleared⟩ := clearCells_eq_ok (m := { m with
    stack := m.stack.dropTop, heap := m.heap - n, idx := m.heap - n }) (show m.heap - n + n ≤ m.memory.size by omega)
  refine ⟨m.stack.dropTop, memory, ?_⟩
  have counted (m : Machine) : Action.ofExcept (.ok n) m = .ok n m := rfl
  rw [run_bind_ok (counted _), run_bind_ok (allocate_eq_ok (m := { m with stack := m.stack.dropTop }) fits)]
  exact cleared

theorem storeLine_eq_ok {line : String} {n : Nat} (length : n = ((Utf8.encode line).filter (· != 0)).length + 1)
    (fits : m.floor + n ≤ m.heap) (inside : m.heap ≤ m.memory.size) :
    ∃ memory, storeLine line m = .ok (m.heap - n) { m with memory, heap := m.heap - n } := by
  obtain ⟨memory, -, stored⟩ := storeString_eq_ok (m := { m with heap := m.heap - n })
    (show m.heap - n + ((Utf8.encode line).filter (· != 0)).length < m.memory.size by omega)
  refine ⟨memory, ?_⟩
  rw [storeLine, ← length, run_bind_ok (allocate_eq_ok fits), run_bind_ok stored]
  rfl

/-- The instructions that ask for cells. -/
theorem wants_eq_some {s : Session σ} {i : Instruction} {n : Nat} (wanted : wants env s i = some n) :
    (∃ k, i = .short .alloc k ∧ ¬ k < 0 ∧ n = k.toInt.toNat) ∨
      (i = .plain .calloc ∧ ∃ v, s.machine.stack.top? = some v ∧ cellCount v = .ok n) ∨
      ∃ r, i = .syscall .gets r ∧ n = ((Utf8.encode (env.host .gets s.host).1).filter (· != 0)).length + 1 := by
  have other (none : wants env s i = none) : False := by
    rw [none] at wanted
    cases wanted
  cases i with
  | short op k =>
    cases op with
    | alloc =>
      change (if k < 0 then none else some k.toInt.toNat) = some n at wanted
      split at wanted
      · cases wanted
      next positive => exact .inl ⟨k, rfl, positive, (Option.some.inj wanted).symm⟩
    | _ => exact (other rfl).elim
  | plain op =>
    cases op with
    | calloc =>
      obtain ⟨v, top, count⟩ := Option.bind_eq_some_iff.mp wanted
      refine .inr (.inl ⟨rfl, v, top, ?_⟩)
      cases counted : cellCount v with
      | error e => rw [counted] at count; cases count
      | ok k => rw [counted] at count; cases count; rfl
    | _ => exact (other rfl).elim
  | syscall call r =>
    cases call with
    | gets => exact .inr (.inr ⟨r, rfl, (Option.some.inj wanted).symm⟩)
    | _ => exact (other rfl).elim
  | _ => exact (other rfl).elim

/-- What an instruction does that asks for `n` cells. -/
theorem perform_wants {i : Instruction} {n : Nat} (wanted : wants env ⟨m, t⟩ i = some n) (room : Nat) :
    (m.heap < m.floor + n → Faults .outOfMemory (perform env room i ⟨m, t⟩)) ∧
      (m.floor + n ≤ m.heap → m.heap ≤ m.memory.size →
        ∃ s, perform env room i ⟨m, t⟩ = .ok (.next 0) s ∧ s.machine.heap + n = m.heap ∧
          finds s.machine i = some s.machine.heap) := by
  rcases wants_eq_some wanted with ⟨k, rfl, positive, rfl⟩ | ⟨rfl, v, top, count⟩ | ⟨r, rfl, length⟩
  · have effect : perform env room (.short .alloc k) ⟨m, t⟩ =
        (do act (Action.allocate k.toInt.toNat >>= setIdx); return .next 0 : SessionM σ Progress) ⟨m, t⟩ := by
      show (do act (if k < 0 then _ else _); return .next 0 : SessionM σ Progress) ⟨m, t⟩ = _
      rw [if_neg positive]
    rw [effect]
    refine ⟨fun full => .bind (faults_act (.bind (faults_allocate full))), fun fits inside => ?_⟩
    have done : (allocate k.toInt.toNat >>= setIdx) m =
        .ok () { m with heap := m.heap - k.toInt.toNat, idx := m.heap - k.toInt.toNat } := by
      rw [run_bind_ok (allocate_eq_ok fits)]
      rfl
    refine ⟨⟨_, t⟩, (run_bind_ok (act_ok done)).trans rfl, ?_, rfl⟩
    · show m.heap - k.toInt.toNat + k.toInt.toNat = m.heap
      omega
  · refine ⟨fun full => .bind (faults_act (.bind_of_ok (pop_eq_ok top) ?_)), fun fits inside => ?_⟩
    · rw [count]
      exact .bind_of_ok rfl (.bind (faults_allocate full))
    · obtain ⟨stack, memory, done⟩ := calloc_eq_ok top count fits inside
      refine ⟨⟨_, t⟩, (run_bind_ok (act_ok done)).trans rfl, ?_, rfl⟩
      show m.heap - n + n = m.heap
      omega
  · have asked : (perform env room (.syscall .gets r) : SessionM σ Progress) ⟨m, t⟩ =
        (do act (do Action.setRegister r (.pointer (← storeLine (env.host .gets t).1))); return .next 0 :
          SessionM σ Progress) ⟨m, (env.host .gets t).2⟩ := rfl
    rw [asked]
    refine ⟨fun full => .bind (faults_act (.bind (.bind ?_))), fun fits inside => ?_⟩
    · rw [← length]
      exact faults_allocate full
    · obtain ⟨memory, stored⟩ := storeLine_eq_ok length fits inside
      have done : (do Action.setRegister r (.pointer (← storeLine (env.host .gets t).1)) : Action Unit) m =
          .ok () (({ m with memory, heap := m.heap - n } : Machine).setRegister r (.pointer (m.heap - n))) := by
        rw [run_bind_ok stored]
        rfl
      refine ⟨⟨_, _⟩, (run_bind_ok (act_ok done)).trans rfl, ?_, ?_⟩
      · cases r <;> show m.heap - n + n = m.heap <;> omega
      · cases r <;> rfl

end Session

end BasicMachine
