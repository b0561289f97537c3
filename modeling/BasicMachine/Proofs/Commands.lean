import BasicMachine.Proofs.Functions

/-!
# Commands at work

Every command leaves the stack as it found it, and changes no cells but those that it names, the frames of functions
that it calls and, while it reads a text, cells that it takes from the heap.
-/
namespace BasicMachine

open Language Action

theorem Action.storeString_ok {bytes : List UInt8} {address : Nat} {m m' : Machine} {u : Unit}
    (h : storeString bytes address m = .ok u m') :
    ∃ memory, m' = { m with memory } ∧ memory.size = m.memory.size ∧
      ∀ x, memory[x]? ≠ m.memory[x]? → address ≤ x ∧ x ≤ address + bytes.length := by
  have set {address x : Nat} {v : Value} {memory : Array Value}
      (changed : (memory.setIfInBounds address v)[x]? ≠ memory[x]?) : x = address := by
    refine Decidable.byContradiction fun other => changed ?_
    exact Array.getElem?_setIfInBounds_ne (fun same => other same.symm)
  induction bytes generalizing m address with
  | nil =>
    obtain ⟨-, rfl⟩ := setCell_ok h
    refine ⟨_, rfl, Array.size_setIfInBounds, fun x changed => ?_⟩
    have := set changed
    simp only [List.length_nil]
    omega
  | cons b rest ih =>
    obtain ⟨_, m₁, first, later⟩ := run_bind_eq_ok h
    obtain ⟨-, rfl⟩ := setCell_ok first
    obtain ⟨memory, same, size, changes⟩ := ih later
    refine ⟨memory, same, by rw [size, Array.size_setIfInBounds], fun x changed => ?_⟩
    rw [List.length_cons]
    by_cases first : (m.memory.setIfInBounds address (.integer (Int16.ofNat b.toNat)))[x]? = m.memory[x]?
    · rw [← first] at changed
      have := changes x changed
      omega
    · have := set first
      omega

theorem Session.storeLine_ok {line : String} {address : Nat} {m m' : Machine} (h : storeLine line m = .ok address m') :
    m'.pc = m.pc ∧ m'.values = m.values ∧ m'.calls = m.calls ∧ m.Alters (fun _ => False) True m' := by
  obtain ⟨start, m₁, taken, stored⟩ := run_bind_eq_ok h
  obtain ⟨_, m₂, stored, returned⟩ := run_bind_eq_ok stored
  cases returned
  rw [allocate_eq] at taken
  split at taken
  · cases taken
  · next fits =>
    cases taken
    obtain ⟨memory, rfl, size, changes⟩ := storeString_ok stored
    refine ⟨rfl, rfl, rfl, rfl, size, .inr ⟨trivial, ?_, Nat.sub_le _ _⟩, fun x changed => .inr ?_⟩
    · change m.floor ≤ m.heap - _
      omega
    · have inside := changes x changed
      change m.heap - _ ≤ x ∧ x < m.heap
      omega

/-- A line goes to cells from the heap. -/
theorem Program.Carries.gets {p : Program} {m m' : Machine} {r : Register} {next : Nat}
    (found : p.instructionAt m.pc = .ok (.syscall .gets r, next)) (h : p.Carries m m') :
    m'.pc = next ∧ m'.values = m.values ∧ m'.calls = m.calls ∧ m.Alters (fun _ => False) True m' := by
  obtain ⟨-, σ, env, room, t, t', performed⟩ := h.performed found (by simp) (by simp)
  obtain ⟨line, s₁, asked, performed⟩ := run_bind_eq_ok performed
  cases asked
  obtain ⟨_, s₂, acted, performed⟩ := run_bind_eq_ok performed
  cases performed
  simp only [Session.act] at acted
  split at acted
  · next done =>
    cases acted
    obtain ⟨address, m₂, stored, registered⟩ := run_bind_eq_ok done
    obtain ⟨pc, values, calls, alters⟩ := Session.storeLine_ok stored
    cases registered
    cases r <;> exact ⟨pc, values, calls, alters.floor, alters.size, alters.heap, alters.memory⟩
  · cases acted

/-- What a comparison with a number has found out about another number. -/
theorem Value.below_of_test {memory : Array Value} {n k : Int16} {test : Relation} {u b : Value} {yes : Bool}
    (ranked : Value.rank memory (.integer n) (.integer k) = .ok u) (tested : test.apply memory u (.integer (-1)) = .ok b)
    (truth : b.isTrue = .ok yes) : (test = .equal → yes = true → n.toInt < k.toInt) ∧
      (test = .notEqual → yes = true → k.toInt ≤ n.toInt) := by
  simp only [Value.rank, Value.order, bind, Except.bind, pure, Except.pure] at ranked
  constructor
  · rintro rfl rfl
    cases standing : compare n.toInt k.toInt with
    | lt => exact Int.compare_eq_lt.mp standing
    | eq => rw [standing] at ranked; cases ranked; cases tested; cases truth
    | gt => rw [standing] at ranked; cases ranked; cases tested; cases truth
  · rintro rfl rfl
    cases standing : compare n.toInt k.toInt with
    | lt => rw [standing] at ranked; cases ranked; cases tested; cases truth
    | eq => exact Int.le_of_eq (Int.compare_eq_eq.mp standing).symm
    | gt => exact Int.le_of_lt (Int.compare_eq_gt.mp standing)

/-- An index that is not negative added to the address of an array. -/
theorem Value.pointer_of_add {k : Int16} {base : Nat} {u : Value} (small : base < 0x200000) (positive : 0 ≤ k.toInt)
    (sum : Binary.add.apply (.integer k) (.pointer (base % 0x200000)) = .ok u) : u = .pointer (base + k.toInt.toNat) := by
  rw [Nat.mod_eq_of_lt small] at sum
  change Value.offset base k.toInt = .ok u at sum
  simp only [Value.offset, Value.shifted, if_pos (show base ≤ 0x7fffffffffffffff by omega)] at sum
  split at sum
  · cases sum
  · cases sum
    congr 1
    omega

namespace Language

/-- The cell can be the one that is assigned to. -/
def Target.Covers : Target → Nat → Prop
  | .scalar (.cell address), x => x = address
  | .scalar (.place _), _ => False
  | .element array _, x => array.base ≤ x ∧ x < array.base + array.length

/-- A variable in a cell below `limit`, or an element of an array below it. -/
inductive Target.Proper (functions : List (String × Nat)) (limit : Nat) : Target → Prop
  | scalar {address : Nat} (inside : address < limit) : Proper functions limit (.scalar (.cell address))
  | element {array : ArrayBlock} {subscripts : List Expr} (some : subscripts ≠ [])
      (all : ∀ e ∈ subscripts, e.Proper functions) (inside : array.base + array.length ≤ limit)
      (short : array.length < 0x8000) : Proper functions limit (.element array subscripts)

/-- A command whose expressions are proper and whose cells lie below `limit`. -/
inductive Command.Proper (functions : List (String × Nat)) (limit : Nat) : Command → Prop
  | mark (l : Label) : Proper functions limit (.mark l)
  | jump (l : Label) : Proper functions limit (.jump l)
  | call (n : UInt16) : Proper functions limit (.call (.line n))
  | ret : Proper functions limit .ret
  | halt : Proper functions limit .halt
  | yield : Proper functions limit .yield
  | branchUnless {e : Expr} (h : e.Proper functions) (l : Label) : Proper functions limit (.branchUnless e l)
  | branchOn (cell : Nat) (n : Int16) (equal : Bool) (l : Label) : Proper functions limit (.branchOn cell n equal l)
  | testLoop (slot : Slot) (bound step : Nat) (exit : Label) : Proper functions limit (.testLoop slot bound step exit)
  | assign {t : Target} {e : Expr} (target : t.Proper functions limit) (h : e.Proper functions) :
      Proper functions limit (.assign t e)
  | print {e : Expr} (h : e.Proper functions) : Proper functions limit (.print e)
  | write (byte : UInt8) : Proper functions limit (.write byte)
  | prompt (address : Nat) : Proper functions limit (.prompt address)
  | input {t : Target} (target : t.Proper functions limit) (isText : Bool) : Proper functions limit (.input t isText)
  | read {t : Target} (target : t.Proper functions limit) (count : Nat) : Proper functions limit (.read t count)
  | function {body : Expr} (frame arity : Nat) (h : body.Proper functions) :
      Proper functions limit (.function frame arity body)
  | poke {address value : Expr} (first : address.Proper functions) (second : value.Proper functions) :
      Proper functions limit (.poke address value)
  | swap {left right : Nat} (first : left < limit) (second : right < limit) :
      Proper functions limit (.swap (.cell left) (.cell right))
  | seed {e : Option Expr} (h : ∀ x ∈ e, x.Proper functions) : Proper functions limit (.seed e)
  | host {request : Syscall} {args : List Expr} (takes : request.shift = some (args.length, 0))
      (all : ∀ e ∈ args, e.Proper functions) : Proper functions limit (.host request args)
  | blit {x y : Expr} (first : x.Proper functions) (second : y.Proper functions) (array : ArrayBlock) :
      Proper functions limit (.blit x y array)

namespace Command

/-- The part of READ between the check and the store of the cursor. -/
def itemCode : Code :=
  [.pointer .pushP dataBase, .pointer .load cursorCell, .plain (.binary .add)] ++ fetchCode ++
    [.pointer .load cursorCell, .short .pushI 1, .plain (.binary .add)]

/-- The functions that the command calls. -/
def called (command : Command) : List String := Steps.called command.code

/-- The command assigns to cells. -/
def assigns : Command → Bool
  | assign _ _ | input _ _ | read _ _ | swap _ _ | poke _ _ => true
  | _ => false

/-- The cells that an execution of the command assigns to. -/
inductive Writes : Command → List Nat → Prop
  | assign {t : Target} {e : Expr} {x : Nat} (covers : t.Covers x) : Writes (.assign t e) [x]
  | input {t : Target} {isText : Bool} {x : Nat} (covers : t.Covers x) : Writes (.input t isText) [x]
  | read {t : Target} {count x : Nat} (covers : t.Covers x) : Writes (.read t count) [x, cursorCell]
  | swap (left right : Nat) : Writes (.swap (.cell left) (.cell right)) [left, right]
  | poke (address value : Expr) (x : Nat) : Writes (.poke address value) [x]
  | nothing {command : Command} (silent : command.assigns = false) : Writes command []

/-- The command takes cells from the heap. -/
def Allocates (command : Command) : Prop := ∃ t, command = .input t true

/-- Where the machine goes on after the command. -/
def Leads (c : Context) (stop : Nat) (m m' : Machine) : Command → Prop
  | jump l => m'.pc = c.address l ∧ m'.calls = m.calls
  | call l => m'.pc = c.address l ∧ m'.calls = m.calls.insert stop
  | ret => ∃ back, m.calls.top? = some back ∧ m'.pc = back ∧ m'.calls = m.calls.dropTop
  | halt => False
  | branchUnless _ l | branchOn _ _ _ l | testLoop _ _ _ l =>
    (m'.pc = stop ∨ m'.pc = c.address l) ∧ m'.calls = m.calls
  | _ => m'.pc = stop ∧ m'.calls = m.calls

/-- The machine is past the command. -/
structure Leaves (c : Context) (command : Command) (stop : Nat) (m m' : Machine) : Prop where
  leads : command.Leads c stop m m'
  values : m'.values = m.values
  alters : ∃ own, command.Writes own ∧
    m.Alters (fun x => x ∈ own ∨ c.Uses command.called x) command.Allocates m'

/-- What the command may change on its way. -/
def Reaches (c : Context) (command : Command) (x : Nat) : Prop :=
  c.Touches command.called x ∨ ∃ own, command.Writes own ∧ x ∈ own

/-- The code of the command lies in the program. -/
structure Lies (c : Context) (p : Program) (command : Command) (start : Nat) : Prop where
  code : p.HasCode start (command.code.place c.address start)
  reach : start + command.size < maxCode
  known : ∀ name ∈ command.called, c.Knows (.function name)

/-- A machine that comes to the command is on its way through it until it is past it. -/
def Performs (c : Context) (p : Program) (command : Command) (start : Nat) : Prop :=
  ∀ m, m.pc = start → p.Until (c.Going p (command.Reaches c) command.Allocates start (start + command.size) m)
    (command.Leaves c (start + command.size) m) m

end Command

namespace Context

variable {c : Context} {p : Program} {m m₁ m' : Machine} {cells cells' : Nat → Prop} {fresh : Prop}
  {start stop n : Nat} {ends : Machine → Prop}

theorem unless_fail {code : Int16} {next : Nat} (other : ErrorCode.ofNumber? code ≠ some .stackUnderflow) (pc : m.pc = start)
    (some : start < stop) (found : p.instructionAt start = .ok (.short .fail code, next)) :
    p.Unless (c.Going p cells fresh start stop m) ends n m := by
  subst pc
  exact .step (.here (Program.healthy_fail other found) rfl some) fun m₁ carries =>
    absurd carries (Program.not_carries_fail found)

/-- Steps with levels, which are some. -/
theorem until_levels (works : c.Working p) {d : Nat} {steps : Steps} (levels : Steps.Levels c.functions 0 steps d)
    (known : ∀ name ∈ Steps.called steps, c.Knows (.function name))
    (lies : p.HasCode start (Steps.place c.address start steps)) (some : 0 < steps.size)
    (small : start + steps.size < maxCode) (pc : m.pc = start) :
    p.Until (c.Going p (c.Touches (Steps.called steps)) False start (start + steps.size) m)
      (c.Past (Steps.called steps) (start + steps.size) d m.values m) m := by
  refine Program.Unless.strict (fun n => ?_) fun past => ?_
  · exact unless_levels works (fun k _ => callable works k) levels known lies rfl small pc
      (show m.values = [] ++ m.values from rfl) rfl
  · have := past.pc
    omega

/-- Steps with levels, and what comes after them. -/
theorem until_levels_then (works : c.Working p) {d : Nat} {first rest : Steps}
    (levels : Steps.Levels c.functions 0 first d) (known : ∀ name ∈ Steps.called first, c.Knows (.function name))
    (lies : p.HasCode start (Steps.place c.address start (first ++ rest))) (some : 0 < first.size)
    (within : start + first.size ≤ stop) (small : stop < maxCode) (pc : m.pc = start)
    (more : ∀ x, c.Touches (Steps.called first) x → cells x)
    (later : ∀ k m₁, c.Past (Steps.called first) (start + first.size) d m.values m m₁ →
      p.HasCode (start + first.size) (rest.place c.address (start + first.size)) →
        p.Unless (c.Going p cells fresh (start + first.size) stop m₁) ends k m₁) :
    p.Until (c.Going p cells fresh start stop m) ends m := by
  obtain ⟨here, behind⟩ := hasCode_append lies
  refine ((until_levels works levels known here some (by omega) pc).mono
    (fun _ going => going.mono within more False.elim) fun _ => id).trans fun k m₁ past => ?_
  have alters : m.Alters cells fresh m₁ := past.alters.mono (fun x uses => more x (.inr uses)) False.elim
  exact (later k m₁ past behind).mono
    (fun _ going => going.after alters past.calls (by omega) (Nat.le_refl _) (fun _ => id) id) fun _ => id

end Context

namespace Target

/-- What the address code leaves on the stack. -/
def Addressed (x : Nat) (base values : List Value) : Target → Prop
  | scalar slot => slot = .cell x ∧ values = base
  | element _ _ => values = .pointer x :: base

end Target

namespace Context

variable {c : Context} {p : Program} {m m₁ m' : Machine} {cells cells' : Nat → Prop} {fresh : Prop}
  {start stop n : Nat} {ends : Machine → Prop}

/-- A value goes to the cell whose address is below it. -/
theorem unless_deposit (lies : p.HasCode start depositCode) (size : start + 3 = stop) (pc : m.pc = start) {v w : Value}
    {base : List Value} (values : m.values = v :: w :: base)
    (done : ∀ m' x, w = .pointer x → m'.pc = stop → m'.calls = m.calls → m'.values = base →
      m.Alters (· = x) False m' → ends m') : p.Unless (c.Going p cells fresh start stop m) ends n m := by
  change p.HasCode start ([.plain .swap, .plain .popIdx] ++ [.plain .storeI]) at lies
  obtain ⟨first, lies⟩ := lies.append
  obtain ⟨found, -⟩ := lies.cons
  change p.instructionAt (start + 2) = .ok (.plain .storeI, start + 3) at found
  refine unless_code (d := 2) (start + 2) first pc rfl rfl (by simp [values]) (by omega) fun _ m₁ turned => ?_
  rw [values] at turned
  obtain ⟨x, same, b₁⟩ := turned
  rw [← b₁.pc] at found
  refine .step (.here (Program.healthy_storeI found b₁.values) b₁.pc (by omega)) fun m₂ carries _ _ => .now ?_
  obtain ⟨-, b₂⟩ := carries.storeI found b₁.values
  rw [b₁.idx, b₁.memory] at b₂
  exact done m₂ x same (b₂.pc.trans size) (b₂.calls.trans b₁.calls) b₂.values
    (.set b₂.memory (b₂.heap.trans b₁.heap) (b₂.floor.trans b₁.floor) rfl)

/-- A value goes from the stack to the cell that stands for the target. -/
theorem unless_store {t : Target} {limit x : Nat} (proper : t.Proper c.functions limit) (fits : limit ≤ maxPointer + 1)
    (lies : p.HasCode start t.store) (size : start + t.store.size = stop) (pc : m.pc = start) {v : Value}
    {base rest : List Value} (addressed : t.Addressed x base rest) (values : m.values = v :: rest)
    (done : ∀ m', m'.pc = stop → m'.calls = m.calls → m'.values = base → m.Alters (· = x) False m' → ends m') :
    p.Unless (c.Going p cells fresh start stop m) ends n m := by
  cases proper with
  | @scalar address inside =>
    subst pc
    obtain ⟨same, rfl⟩ := addressed
    cases same
    obtain ⟨found, -⟩ := lies.cons
    have whole : x % 0x200000 = x := Nat.mod_eq_of_lt (by unfold maxPointer at fits; omega)
    simp only [Instruction.stored, whole, Instruction.size_pointer] at found
    have four : Code.size (Target.store (.scalar (.cell x))) = 4 := rfl
    refine .step (.here (Program.healthy_store found values) rfl (by omega)) fun m₁ carries _ _ => .now ?_
    obtain ⟨-, b⟩ := carries.store found values
    exact done m₁ (by rw [b.pc]; omega) b.calls b.values (.set b.memory b.heap b.floor rfl)
  | element =>
    cases addressed
    refine unless_deposit lies size pc values fun m' y same pc' calls' values' alters' => ?_
    cases same
    exact done m' pc' calls' values' alters'

/-- The check of an index and the sum with the address of the array leave the address of one of its cells. -/
theorem unless_check {array : ArrayBlock} {rest : Steps} (inside : array.base + array.length ≤ maxPointer + 1)
    (short : array.length < 0x8000) (lies : p.HasCode start
      (Steps.place c.address start (array.checkSteps ++ (Steps.ofCode array.baseCode ++ rest))))
    (size : start + 32 ≤ stop) (small : stop < maxCode) (pc : m.pc = start) {v : Value} {base : List Value}
    (values : m.values = v :: base)
    (later : ∀ n m₁ x, array.base ≤ x → x < array.base + array.length → m₁.pc = start + 32 → m₁.calls = m.calls →
      m₁.values = .pointer x :: base → m.Alters (fun _ => False) False m₁ →
        p.Unless (c.Going p cells fresh (start + 32) stop m₁) ends n m₁) :
    p.Unless (c.Going p cells fresh start stop m) ends n m := by
  simp only [ArrayBlock.checkSteps, List.append_assoc, List.cons_append, List.nil_append] at lies
  obtain ⟨test, lies⟩ := hasCode_append lies
  obtain ⟨jz, lies⟩ := hasCode_cons lies
  obtain ⟨test', lies⟩ := hasCode_append lies
  obtain ⟨jnz, lies⟩ := hasCode_cons lies
  obtain ⟨fail, lies⟩ := hasCode_cons lies
  obtain ⟨sum, -⟩ := hasCode_append lies
  rw [Steps.place_ofCode] at test test' sum
  have bound : (Int16.ofNat array.length).toInt = array.length := Int16.toInt_ofNat_of_lt (by omega)
  change p.instructionAt (start + 9) = .ok (.short .jz (jumpOperand (start + 9 + 15)), start + 9 + 3) at jz
  change p.HasCode (start + 9 + 3) _ at test'
  change p.instructionAt (start + 9 + 3 + 9) = .ok (.short .jnz (jumpOperand (start + 9 + 3 + 9 + 6)),
    start + 9 + 3 + 9 + 3) at jnz
  change p.instructionAt (start + 9 + 3 + 9 + 3) = .ok (.short .fail ErrorCode.subscriptOutOfRange.number, _) at fail
  change p.HasCode (start + 9 + 3 + 9 + 6) _ at sum
  refine unless_code (d := 1) (start + 9) test pc rfl rfl (by simp [values]) (by omega) fun n₁ m₁ turned => ?_
  rw [values] at turned
  obtain ⟨u₁, ranked₁, b₁, tested₁, becomes₁⟩ := turned
  rw [← becomes₁.pc] at jz
  refine unless_branch (Program.healthy_jz jz becomes₁.values) becomes₁.pc (by omega) fun n₂ m₂ carries₂ => ?_
  obtain ⟨yes, truth₁, becomes₂⟩ := carries₂.jz jz becomes₁.values
  rw [becomes₁.pc, jumpAddress_jumpOperand (by omega)] at becomes₂
  have calls₂ := becomes₂.calls
  have alters₂ {cells : Nat → Prop} {fresh : Prop} : m₁.Alters cells fresh m₂ := becomes₂.alters
  cases yes with
  | false =>
    refine ⟨start + 9 + 15, by omega, alters₂, calls₂, ?_⟩
    exact unless_fail (by decide) becomes₂.pc (by omega) fail
  | true =>
    refine ⟨start + 9 + 3, by omega, alters₂, calls₂, ?_⟩
    have pc₂ : m₂.pc = start + 9 + 3 := becomes₂.pc
    refine unless_code (d := 1) (start + 9 + 3 + 9) test' pc₂ rfl rfl (by simp [becomes₂.values]) (by omega)
      fun n₃ m₃ turned => ?_
    rw [becomes₂.values] at turned
    obtain ⟨u₃, ranked₃, b₃, tested₃, becomes₃⟩ := turned
    rw [← becomes₃.pc] at jnz
    refine unless_branch (Program.healthy_jnz jnz becomes₃.values) becomes₃.pc (by omega) fun n₄ m₄ carries₄ => ?_
    obtain ⟨yes, truth₃, becomes₄⟩ := carries₄.jnz jnz becomes₃.values
    rw [becomes₃.pc, jumpAddress_jumpOperand (by omega)] at becomes₄
    have calls₄ := becomes₄.calls
    have alters₄ {cells : Nat → Prop} {fresh : Prop} : m₃.Alters cells fresh m₄ := becomes₄.alters
    cases yes with
    | false =>
      refine ⟨start + 9 + 3 + 9 + 3, by omega, alters₄, calls₄, ?_⟩
      exact unless_fail (by decide) becomes₄.pc (by omega) fail
    | true =>
      refine ⟨start + 9 + 3 + 9 + 6, by omega, alters₄, calls₄, ?_⟩
      have pc₄ : m₄.pc = start + 9 + 3 + 9 + 6 := becomes₄.pc
      refine unless_code (d := 1) (start + 32) sum pc₄ rfl rfl (by simp [becomes₄.values]) (by omega) fun n₆ m₆ turned => ?_
      rw [becomes₄.values] at turned
      obtain ⟨u, sum, b₆⟩ := turned
      cases v with
      | integer k =>
        have below := (Value.below_of_test ranked₁ tested₁ truth₁).1 rfl rfl
        have above := (Value.below_of_test ranked₃ tested₃ truth₃).2 rfl rfl
        rw [bound] at below
        change 0 ≤ k.toInt at above
        obtain rfl := Value.pointer_of_add (by unfold maxPointer at inside; omega) above sum
        have within : array.base + k.toInt.toNat < array.base + array.length := by omega
        refine later n₆ m₆ (array.base + k.toInt.toNat) (Nat.le_add_right _ _) within b₆.pc ?_ b₆.values ?_
        · exact b₆.calls.trans (calls₄.trans (becomes₃.calls.trans (calls₂.trans becomes₁.calls)))
        · exact .trans (Machine.Becomes.alters becomes₁) (alters₂.trans
            (.trans (Machine.Becomes.alters becomes₃) (alters₄.trans (Machine.Becomes.alters b₆))))
      | _ => cases sum

/-- What READ finds in memory: the item at the cursor, if there is one, and the next place of the cursor. -/
structure Taken (count : Nat) (memory : Array Value) (item next : Value) : Prop where
  intro ::
  found : ∃ cursor, memory[cursorCell]? = some cursor ∧
    (∃ b, Relation.less.apply memory cursor (.integer (Int16.ofNat count)) = .ok b ∧ b.isTrue = .ok true) ∧
    (∃ x, Binary.add.apply (.pointer dataBase) cursor = .ok (.pointer x) ∧ memory[x]? = some item) ∧
    Binary.add.apply cursor (.integer 1) = .ok next

/-- The item at the cursor goes to the stack, and the next place of the cursor on top of it. -/
theorem unless_taken {count : Nat} {rest : Steps} (lies : p.HasCode start (Steps.place c.address start
      (Command.remainingSteps count ++ (Steps.ofCode Command.itemCode ++ rest)))) (pc : m.pc = start)
    (size : start + 33 ≤ stop) (small : stop < maxCode)
    (later : ∀ n m₁ item next, Taken count m.memory item next →
      m.Becomes m₁ (start + 33) (next :: item :: m.values) m.memory m₁.idx →
        p.Unless (c.Going p cells fresh (start + 33) stop m₁) ends n m₁) :
    p.Unless (c.Going p cells fresh start stop m) ends n m := by
  simp only [Command.remainingSteps, List.append_assoc, List.cons_append, List.nil_append] at lies
  obtain ⟨test, lies⟩ := hasCode_append lies
  obtain ⟨jnz, lies⟩ := hasCode_cons lies
  obtain ⟨fail, lies⟩ := hasCode_cons lies
  obtain ⟨take, -⟩ := hasCode_append lies
  rw [Steps.place_ofCode] at test take
  change p.instructionAt (start + 8) = .ok (.short .jnz (jumpOperand (start + 8 + 6)), start + 8 + 3) at jnz
  change p.instructionAt (start + 8 + 3) = .ok (.short .fail ErrorCode.outOfData.number, _) at fail
  change p.HasCode (start + 8 + 6) _ at take
  refine unless_code (d := 0) (start + 8) test pc rfl rfl (Nat.zero_le _) (by omega) fun n₁ m₁ turned => ?_
  obtain ⟨cursor, found, b, tested, becomes₁⟩ := turned
  rw [← becomes₁.pc] at jnz
  refine unless_branch (Program.healthy_jnz jnz becomes₁.values) becomes₁.pc (by omega) fun n₂ m₂ carries₂ => ?_
  obtain ⟨yes, truth, becomes₂⟩ := carries₂.jnz jnz becomes₁.values
  rw [becomes₁.pc, jumpAddress_jumpOperand (by omega)] at becomes₂
  have calls₂ := becomes₂.calls
  have alters₂ {cells : Nat → Prop} {fresh : Prop} : m₁.Alters cells fresh m₂ := becomes₂.alters
  cases yes with
  | false =>
    refine ⟨start + 8 + 3, by omega, alters₂, calls₂, ?_⟩
    exact unless_fail (by decide) becomes₂.pc (by omega) fail
  | true =>
    refine ⟨start + 8 + 6, by omega, alters₂, calls₂, ?_⟩
    have pc₂ : m₂.pc = start + 8 + 6 := becomes₂.pc
    have memory₂ : m₂.memory = m.memory := becomes₂.memory.trans becomes₁.memory
    refine unless_code (d := 0) (start + 33) take pc₂ rfl rfl (Nat.zero_le _) (by omega) fun n₃ m₃ turned => ?_
    rw [memory₂] at turned
    obtain ⟨cursor', found', _, sum, x, rfl, item, there, cursor'', found'', next, moved, becomes₃⟩ := turned
    cases found.symm.trans found'
    cases found.symm.trans found''
    refine later n₃ m₃ item next ⟨cursor, found, ⟨b, tested, truth⟩, ⟨x, sum, there⟩, moved⟩ ?_
    exact ⟨becomes₃.pc, becomes₃.values.trans (by rw [becomes₂.values]), becomes₃.memory, rfl,
      becomes₃.calls.trans (calls₂.trans becomes₁.calls), becomes₃.heap.trans (becomes₂.heap.trans becomes₁.heap),
      becomes₃.floor.trans (becomes₂.floor.trans becomes₁.floor)⟩

/-- The address of an array element, or nothing for a scalar. -/
theorem unless_address (works : c.Working p) {t : Target} {limit : Nat} {rest : Steps}
    (proper : t.Proper c.functions limit) (fits : limit ≤ maxPointer + 1)
    (known : ∀ name ∈ Steps.called t.address, c.Knows (.function name))
    (lies : p.HasCode start (Steps.place c.address start (t.address ++ rest))) (within : start + t.address.size ≤ stop)
    (small : stop < maxCode) (pc : m.pc = start)
    (more : ∀ x, c.Touches (Steps.called t.address) x → cells x)
    (later : ∀ k m₁ x, t.Covers x → t.Addressed x m.values m₁.values → m₁.pc = start + t.address.size → m₁.calls = m.calls →
      m.Alters (c.Uses (Steps.called t.address)) False m₁ →
        p.HasCode (start + t.address.size) (rest.place c.address (start + t.address.size)) →
          p.Unless (c.Going p cells fresh (start + t.address.size) stop m₁) ends k m₁) :
    p.Unless (c.Going p cells fresh start stop m) ends n m := by
  cases proper with
  | @scalar address inside => exact later n m address rfl ⟨rfl, rfl⟩ pc rfl (.refl _ _ _) lies
  | @element array subscripts some all inside short =>
    have split : Target.address (.element array subscripts) =
        indexBefore array.extents [] subscripts ++ (array.checkSteps ++ Steps.ofCode array.baseCode) := by
      rw [Target.address, indexBefore_eq]
    have names : Steps.called (Target.address (.element array subscripts)) =
        Steps.called (indexBefore array.extents [] subscripts) := by
      rw [split, Steps.called_append, Steps.called_append, ArrayBlock.called_checkSteps, Steps.called_ofCode,
        List.append_nil, List.append_nil]
    have behind : Steps.size (array.checkSteps ++ Steps.ofCode array.baseCode) = 32 := by
      simp [ArrayBlock.checkSteps, ArrayBlock.baseCode, Steps.ofCode, Operator.relation, Step.size]
    rw [names] at known more later
    rw [split] at lies within later
    rw [Steps.size_append, behind] at within later
    rw [List.append_assoc, List.append_assoc] at lies
    have part {e : Expr} (member : e ∈ subscripts) : e.code.size ≤ (indexBefore array.extents [] subscripts).size :=
      size_le_index member array.extents
    have positive : 0 < (indexBefore array.extents [] subscripts).size := by
      obtain ⟨e, member⟩ := List.exists_mem_of_ne_nil _ some
      have := (all e member).three_le_size
      have := part member
      omega
    have levels := levels_index some
      (fun e member => (all e member).levels (by have := part member; omega)) array.extents
    refine Program.Until.relaxed (until_levels_then works levels known lies positive (by omega) small pc more
      fun k₁ m₁ past lies => ?_) n
    obtain ⟨v, values₁⟩ := past.one
    refine unless_check (by omega) short lies (by omega) small past.pc values₁
      fun k₂ m₂ x above below pc₂ calls₂ values₂ alters₂ => ?_
    rw [← List.append_assoc array.checkSteps] at lies
    have after := (hasCode_append lies).2
    rw [behind] at after
    rw [Nat.add_assoc] at pc₂ after ⊢
    exact later k₂ m₂ x ⟨above, below⟩ values₂ pc₂ (calls₂.trans past.calls)
      (past.alters.trans (alters₂.mono (fun _ => False.elim) id)) after

end Context

namespace Command

/-- The address and the value of POKE. -/
def pokedSteps (address value : Expr) : Steps := address.code ++ (.fixed (.plain (.unary .toPointer)) :: value.code)

theorem code_read (t : Target) (count : Nat) :
    code (.read t count) = t.address ++ (remainingSteps count ++ (Steps.ofCode itemCode ++
      (.fixed (.pointer .store cursorCell) :: Steps.ofCode t.store))) := by
  rw [code, List.append_assoc]
  rfl

theorem size_read (t : Target) (count : Nat) :
    Command.size (.read t count) = t.address.size + (33 + (4 + t.store.size)) := by
  have test : (remainingSteps count).size = 14 := rfl
  have item : (Steps.ofCode itemCode).size = 19 := rfl
  have store : Step.size (.fixed (.pointer .store cursorCell)) = 4 := rfl
  rw [Command.size, code_read, Steps.size_append, Steps.size_append, Steps.size_append, Steps.size_cons,
    Steps.size_ofCode t.store, test, item, store]
  omega

theorem called_read (t : Target) (count : Nat) : called (.read t count) = Steps.called t.address := by
  rw [called, code_read, Steps.called_append]
  change _ ++ Steps.called (Steps.ofCode t.store) = _
  rw [Steps.called_ofCode, List.append_nil]

end Command

namespace Context

variable {c : Context} {p : Program} {m m₁ m' : Machine} {cells : Nat → Prop} {fresh : Prop} {start stop n : Nat}
  {ends : Machine → Prop}

/-- READ comes to the store of the cursor. -/
theorem unless_taking (works : c.Working p) {t : Target} {count limit : Nat} (target : t.Proper c.functions limit)
    (fits : limit ≤ maxPointer + 1) (lies : (Command.read t count).Lies c p start)
    (within : start + t.address.size + 33 ≤ stop) (small : stop < maxCode) (pc : m.pc = start)
    (more : ∀ x, c.Touches (Command.read t count).called x → cells x)
    (later : ∀ k m₁ m₂ x item next, t.Covers x → t.Addressed x m.values m₁.values → m₁.calls = m.calls →
      m.Alters (c.Uses (Command.read t count).called) False m₁ → Taken count m₁.memory item next →
        m₁.Becomes m₂ (start + t.address.size + 33) (next :: item :: m₁.values) m₁.memory m₂.idx →
          p.instructionAt (start + t.address.size + 33) = .ok (.pointer .store cursorCell, start + t.address.size + 37) →
            p.HasCode (start + t.address.size + 37) t.store →
              p.Unless (c.Going p cells fresh (start + t.address.size + 33) stop m₂) ends k m₂) :
    p.Unless (c.Going p cells fresh start stop m) ends n m := by
  have names := Command.called_read t count
  have code := lies.code
  have known := lies.known
  rw [Command.code_read] at code
  rw [names] at known more later
  refine unless_address works target fits known code (by omega) small pc more
    fun k₁ m₁ x covers addressed pc₁ calls₁ alters₁ code₁ => ?_
  refine unless_taken code₁ pc₁ within small fun k₂ m₂ item next taken b₂ => ?_
  obtain ⟨-, code₂⟩ := hasCode_append code₁
  obtain ⟨-, code₂⟩ := hasCode_append code₂
  obtain ⟨found, code₃⟩ := hasCode_cons code₂
  rw [Steps.place_ofCode] at code₃
  exact later k₂ m₁ m₂ x item next covers addressed calls₁ alters₁ taken b₂ found code₃

end Context

theorem Steps.size_pos {steps : Steps} (some : steps ≠ []) : 0 < steps.size := by
  obtain ⟨s, rest, rfl⟩ := List.exists_cons_of_ne_nil some
  have one : 0 < s.size := by
    cases s with
    | fixed i => exact i.size_pos
    | skip | jump => exact Nat.zero_lt_succ 2
  rw [Steps.size_cons]
  exact Nat.add_pos_left one _

namespace Command

variable {c : Context} {p : Program} {command : Command} {start limit : Nat}

/-- A command whose code only shifts the stack, functions apart. -/
theorem performs_of_levels (works : c.Working p) (lies : command.Lies c p start)
    (levels : Steps.Levels c.functions 0 command.code 0) (some : command.code ≠ []) (silent : command.assigns = false)
    (leads : ∀ {stop m m'}, m'.pc = stop → m'.calls = m.calls → command.Leads c stop m m') :
    command.Performs c p start := by
  intro m pc
  refine (Context.until_levels works levels lies.known lies.code (Steps.size_pos some) lies.reach pc).mono
    (fun _ going => going.mono (Nat.le_refl _) (fun _ => .inl) False.elim) fun m' past => ?_
  exact ⟨leads past.pc past.calls, past.zero, [], .nothing silent, past.alters.mono (fun _ => .inr) False.elim⟩

/-- A command that leaves a condition on the stack and jumps by it. -/
theorem performs_of_branch (works : c.Working p) (lies : command.Lies c p start) {first : Steps} {op : ShortOp} {l : Label}
    (split : command.code = first ++ [.jump op l]) (branch : op = .jz ∨ op = .jnz) (some : 0 < first.size)
    (levels : Steps.Levels c.functions 0 first 1) (silent : command.assigns = false)
    (leads : ∀ {stop m m'}, m'.pc = stop ∨ m'.pc = c.address l → m'.calls = m.calls → command.Leads c stop m m') :
    command.Performs c p start := by
  intro m pc
  have names : Steps.called first = command.called := by
    rw [called, split, Steps.called_append]
    rcases branch with rfl | rfl <;> exact (List.append_nil _).symm
  have size : command.size = first.size + 3 := by rw [Command.size, split, Steps.size_append]; rfl
  have code := lies.code
  have reach := lies.reach
  rw [split] at code
  refine Context.until_levels_then works levels (names ▸ lies.known) code some (by omega) reach pc
    (fun x touches => .inl (names ▸ touches)) fun k₁ m₁ past lies₁ => ?_
  obtain ⟨v, values⟩ := past.one
  obtain ⟨found, -⟩ := Context.hasCode_cons lies₁
  rw [← past.pc] at found
  have target : jumpAddress (jumpOperand (c.address l)) = c.address l := jumpAddress_jumpOperand (works.label l)
  have leaves {m₂ : Machine} {pc : Nat} (there : pc = start + command.size ∨ pc = c.address l)
      (becomes : m₁.Becomes m₂ pc m.values m₁.memory m₁.idx) : command.Leaves c (start + command.size) m m₂ := by
    refine ⟨leads (becomes.pc ▸ there) (becomes.calls.trans past.calls), becomes.values, [], .nothing silent, ?_⟩
    rw [← names]
    exact (past.alters.mono (fun _ => .inr) False.elim).trans becomes.alters
  have next : m₁.pc + 3 = start + command.size := by rw [past.pc]; omega
  rcases branch with rfl | rfl
  · refine .step (.here (Program.healthy_jz found values) past.pc (by omega)) fun m₂ carries _ _ => .now ?_
    obtain ⟨b, -, becomes⟩ := carries.jz found values
    cases b with
    | true => exact leaves (.inl next) becomes
    | false => exact leaves (.inr target) becomes
  · refine .step (.here (Program.healthy_jnz found values) past.pc (by omega)) fun m₂ carries _ _ => .now ?_
    obtain ⟨b, -, becomes⟩ := carries.jnz found values
    cases b with
    | true => exact leaves (.inr target) becomes
    | false => exact leaves (.inl next) becomes

/-- A command that does not jump is some way from its end until it gets there. -/
theorem performs_of_unless (some : 0 < command.size) (leads : ∀ {stop m m'}, command.Leads c stop m m' → m'.pc = stop)
    (goes : ∀ n m, m.pc = start → p.Unless (c.Going p (command.Reaches c) command.Allocates start (start + command.size) m)
      (command.Leaves c (start + command.size) m) n m) : command.Performs c p start := by
  intro m pc
  refine Program.Unless.strict (fun n => goes n m pc) fun leaves => ?_
  have := leads leaves.leads
  omega

theorem performs_assign (works : c.Working p) (fits : limit ≤ maxPointer + 1) {t : Target} {e : Expr}
    (target : t.Proper c.functions limit) (proper : e.Proper c.functions) (lies : Lies c p (.assign t e) start) :
    Performs c p (.assign t e) start := by
  have split : code (.assign t e) = t.address ++ (e.code ++ Steps.ofCode t.store) := by rw [code, Expr.codeBefore_eq]
  have names : called (.assign t e) = Steps.called t.address ++ Steps.called e.code := by
    rw [called, split, Steps.called_append, Steps.called_append, Steps.called_ofCode, List.append_nil]
  have size : Command.size (.assign t e) = t.address.size + (e.code.size + t.store.size) := by
    rw [Command.size, split, Steps.size_append, Steps.size_append, Steps.size_ofCode]
  have code := lies.code
  have known := lies.known
  have reach := lies.reach
  have positive := proper.three_le_size
  rw [split] at code
  rw [names] at known
  refine performs_of_unless (by omega) And.left fun n m pc => ?_
  refine Context.unless_address works target fits (fun name member => known name (by simp [member])) code (by omega) reach
    pc (fun x touches => .inl (touches.mono (by simp +contextual [names])))
    fun k₁ m₁ x covers addressed pc₁ calls₁ alters₁ code₁ => ?_
  refine Program.Until.relaxed (Context.until_levels_then works (proper.levels (by omega))
    (fun name member => known name (by simp [member])) code₁ (by omega) (by omega) reach pc₁
    (fun x touches => .inl (touches.mono (by simp +contextual [names]))) fun k₂ m₂ past code₂ => ?_) k₁
  obtain ⟨v, values₂⟩ := past.one
  rw [Steps.place_ofCode] at code₂
  refine Context.unless_store target fits code₂ (by omega) past.pc addressed values₂ fun m₃ pc₃ calls₃ values₃ alters₃ => ?_
  refine ⟨⟨pc₃, calls₃.trans (past.calls.trans calls₁)⟩, values₃, [x], .assign covers, ?_⟩
  rw [names]
  refine (alters₁.mono ?_ False.elim).trans ((past.alters.mono ?_ False.elim).trans (alters₃.mono ?_ False.elim))
  · exact fun _ uses => .inr (uses.mono (by simp +contextual))
  · exact fun _ uses => .inr (uses.mono (by simp +contextual))
  · exact fun _ same => .inl (by simp [same])

theorem performs_input (works : c.Working p) (fits : limit ≤ maxPointer + 1) {t : Target} {isText : Bool}
    (target : t.Proper c.functions limit) (lies : Lies c p (.input t isText) start) :
    Performs c p (.input t isText) start := by
  have split : code (.input t isText) = t.address ++ (.fixed (.syscall (if isText then .gets else .input) .a) ::
      (Steps.ofCode [.plain (.pushReg .a)] ++ Steps.ofCode t.store)) := rfl
  have names : called (.input t isText) = Steps.called t.address := by
    rw [called, split, Steps.called_append]
    change _ ++ Steps.called (Steps.ofCode [.plain (.pushReg .a)] ++ Steps.ofCode t.store) = _
    rw [Steps.called_append, Steps.called_ofCode, Steps.called_ofCode, List.append_nil, List.append_nil]
  have size : Command.size (.input t isText) = t.address.size + (5 + (1 + t.store.size)) := by
    rw [Command.size, split, Steps.size_append, Steps.size_cons, Steps.size_append, Steps.size_ofCode, Steps.size_ofCode]
    rfl
  have code := lies.code
  have known := lies.known
  have reach := lies.reach
  rw [split] at code
  rw [names] at known
  refine performs_of_unless (by omega) And.left fun n m pc => ?_
  refine Context.unless_address works target fits known code (by omega) reach pc
    (fun x touches => .inl (touches.mono (by simp +contextual [names])))
    fun k₁ m₁ x covers addressed pc₁ calls₁ alters₁ code₁ => ?_
  -- The answer is in the register, whether it is a number or a text.
  have ends {m₂ : Machine} (pc₂ : m₂.pc = start + t.address.size + 5) (values₂ : m₂.values = m₁.values)
      (calls₂ : m₂.calls = m₁.calls) (alters₂ : m₁.Alters (fun _ => False) (Allocates (.input t isText)) m₂)
      (code₂ : p.HasCode (start + t.address.size + 5) (Steps.place c.address (start + t.address.size + 5)
        (Steps.ofCode [.plain (.pushReg .a)] ++ Steps.ofCode t.store))) (k₂ : Nat) :
      p.Unless (c.Going p (Reaches c (.input t isText)) (Allocates (.input t isText)) (start + t.address.size + 5)
        (start + Command.size (.input t isText)) m₂)
        (Leaves c (.input t isText) (start + Command.size (.input t isText)) m) k₂ m₂ := by
    have one : Steps.size (Steps.ofCode [.plain (.pushReg .a)]) = 1 := rfl
    have push : Steps.Levels c.functions 0 (Steps.ofCode [.plain (.pushReg .a)]) 1 := .of_code rfl
    refine Program.Until.relaxed (Context.until_levels_then works push (by simp) code₂ (by omega) (by omega) reach pc₂
      (fun x touches => .inl (touches.mono (by simp))) fun k₃ m₃ past code₃ => ?_) k₂
    obtain ⟨v, values₃⟩ := past.one
    rw [Steps.place_ofCode] at code₃
    refine Context.unless_store target fits code₃ (by omega) past.pc addressed (values₂ ▸ values₃)
      fun m₄ pc₄ calls₄ values₄ alters₄ => ?_
    refine ⟨⟨pc₄, calls₄.trans (past.calls.trans (calls₂.trans calls₁))⟩, values₄, [x], .input covers, ?_⟩
    rw [names]
    refine (alters₁.mono ?_ False.elim).trans ((alters₂.mono ?_ id).trans
      ((past.alters.mono ?_ False.elim).trans (alters₄.mono ?_ False.elim)))
    · exact fun _ => .inr
    · exact fun _ => False.elim
    · exact fun _ uses => absurd (Steps.called_ofCode _ ▸ uses) (Context.not_uses_nil _)
    · exact fun _ same => .inl (by simp [same])
  obtain ⟨found, code₂⟩ := Context.hasCode_cons code₁
  rw [← pc₁] at found
  cases isText with
  | false =>
    have shift : Instruction.shift (.syscall .input .a) = some (0, 0) := rfl
    refine Context.unless_next (start + t.address.size + 5) (Program.healthy_of_shift found shift (Nat.zero_le _)) pc₁
      (by omega) (by omega) fun k₂ m₂ carries => ?_
    have shifted := carries.shifted found shift
    obtain ⟨new, none, values₂⟩ := shifted.values
    rw [List.length_eq_zero_iff.mp none] at values₂
    have alters₂ {cells : Nat → Prop} {fresh : Prop} : m₁.Alters cells fresh m₂ :=
      .of_memory shifted.memory shifted.heap shifted.floor
    refine ⟨alters₂, shifted.calls, ends ?_ values₂ shifted.calls alters₂ code₂ k₂⟩
    rw [shifted.pc, ← pc₁]
    rfl
  | true =>
    refine Context.unless_next (start + t.address.size + 5) (Program.healthy_gets found) pc₁ (by omega) (by omega)
      fun k₂ m₂ carries => ?_
    obtain ⟨pc₂, values₂, calls₂, alters₂⟩ := carries.gets found
    have fresh := alters₂.mono (fun _ => id) fun _ => (⟨t, rfl⟩ : Allocates (.input t true))
    refine ⟨fresh.mono (fun _ => False.elim) id, calls₂, ends ?_ values₂ calls₂ fresh code₂ k₂⟩
    rw [pc₂, ← pc₁]
    rfl

/-- The next item is read before the cursor moves on. -/
theorem performs_read (works : c.Working p) (fits : limit ≤ maxPointer + 1) {t : Target} {count : Nat}
    (target : t.Proper c.functions limit) (lies : Lies c p (.read t count) start) : Performs c p (.read t count) start := by
  have names := called_read t count
  have size := size_read t count
  have reach := lies.reach
  refine performs_of_unless (by omega) And.left fun n m pc => ?_
  refine Context.unless_taking works target fits lies (by omega) reach pc (fun x touches => .inl touches)
    fun k₂ m₁ m₂ x item next covers addressed calls₁ alters₁ _ b₂ found code₃ => ?_
  have moves : Reaches c (.read t count) cursorCell := .inr ⟨[x, cursorCell], .read covers, by simp⟩
  refine Context.unless_set (start + t.address.size + 37) found b₂.pc b₂.values (by omega) (by omega) moves
    fun k₃ m₃ _ b₃ => ?_
  refine Context.unless_store target fits code₃ (by omega) b₃.pc addressed b₃.values fun m₄ pc₄ calls₄ values₄ alters₄ => ?_
  refine ⟨⟨pc₄, calls₄.trans (b₃.calls.trans (b₂.calls.trans calls₁))⟩, values₄, [x, cursorCell], .read covers, ?_⟩
  refine (alters₁.mono (fun _ => .inr) False.elim).trans (b₂.alters.trans
    (.trans (.set b₃.memory b₃.heap b₃.floor ?_) (alters₄.mono ?_ False.elim)))
  · exact .inl (by simp)
  · exact fun _ same => .inl (by simp [same])

theorem code_poke (address value : Expr) :
    code (.poke address value) = pokedSteps address value ++ Steps.ofCode depositCode := by
  rw [code, Expr.codeBefore_eq, Expr.codeBefore_eq]
  simp only [pokedSteps, List.append_assoc, List.cons_append]

theorem called_poke (address value : Expr) : called (.poke address value) = Steps.called (pokedSteps address value) := by
  rw [called, code_poke, Steps.called_append, Steps.called_ofCode, List.append_nil]

theorem size_poke (address value : Expr) : Command.size (.poke address value) = (pokedSteps address value).size + 3 := by
  rw [Command.size, code_poke, Steps.size_append]
  rfl

theorem size_pokedSteps_pos (address value : Expr) : 0 < (pokedSteps address value).size :=
  Steps.size_pos (by simp [pokedSteps])

theorem levels_pokedSteps {functions : List (String × Nat)} {address value : Expr} (first : address.Proper functions)
    (second : value.Proper functions) (small : (pokedSteps address value).size < maxCode) :
    Steps.Levels functions 0 (pokedSteps address value) 2 := by
  rw [pokedSteps, Steps.size_append, Steps.size_cons] at small
  exact (first.levels (by omega)).append (.fixed rfl (Nat.le_refl 1) ((second.levels (by omega)).lift 1))

theorem performs_poke (works : c.Working p) {address value : Expr} (first : address.Proper c.functions)
    (second : value.Proper c.functions) (lies : Lies c p (.poke address value) start) :
    Performs c p (.poke address value) start := by
  intro m pc
  have names := called_poke address value
  have size := size_poke address value
  have code := lies.code
  have reach := lies.reach
  rw [code_poke] at code
  refine Context.until_levels_then works (levels_pokedSteps first second (by omega)) (names ▸ lies.known) code
    (size_pokedSteps_pos address value) (by omega) reach pc (fun x touches => .inl (names ▸ touches))
    fun k₁ m₁ past code₁ => ?_
  obtain ⟨v, w, values₁⟩ := past.two
  rw [Steps.place_ofCode] at code₁
  refine Context.unless_deposit code₁ (by omega) past.pc values₁ fun m₂ x _ pc₂ calls₂ values₂ alters₂ => ?_
  refine ⟨⟨pc₂, calls₂.trans past.calls⟩, values₂, [x], .poke _ _ x, ?_⟩
  rw [names]
  exact (past.alters.mono (fun _ => .inr) False.elim).trans
    (alters₂.mono (fun _ same => .inl (by simp [same])) False.elim)

theorem performs_swap (fits : limit ≤ maxPointer + 1) {left right : Nat} (first : left < limit) (second : right < limit)
    (lies : Lies c p (.swap (.cell left) (.cell right)) start) : Performs c p (.swap (.cell left) (.cell right)) start := by
  have size : Command.size (.swap (.cell left) (.cell right)) = 16 := rfl
  have whole {x : Nat} (inside : x < limit) : x % 0x200000 = x :=
    Nat.mod_eq_of_lt (by unfold maxPointer at fits; omega)
  have code := lies.code
  rw [Command.code, Steps.place_ofCode] at code
  change p.HasCode start ([.pointer .load left, .pointer .load right] ++
    [.pointer .store left, .pointer .store right]) at code
  obtain ⟨load, code⟩ := code.append
  obtain ⟨found₁, code⟩ := code.cons
  obtain ⟨found₂, -⟩ := code.cons
  simp only [Instruction.stored, Instruction.size_pointer, whole first, whole second] at found₁ found₂
  refine performs_of_unless (by omega) And.left fun n m pc => ?_
  have reaches {x : Nat} (member : x ∈ [left, right]) : Reaches c (.swap (.cell left) (.cell right)) x :=
    .inr ⟨[left, right], .swap _ _, member⟩
  refine Context.unless_code (d := 0) (start + 8) load pc rfl rfl (Nat.zero_le _) (by omega) fun k₁ m₁ turned => ?_
  obtain ⟨v, -, w, -, b₁⟩ := turned
  refine Context.unless_set (start + 12) found₁ b₁.pc b₁.values (by omega) (by omega) (reaches (by simp)) fun k₂ m₂ _ b₂ => ?_
  refine Context.unless_set (start + 16) found₂ b₂.pc b₂.values (by omega) (by omega) (reaches (by simp))
    fun k₃ m₃ _ b₃ => .now ?_
  refine ⟨⟨b₃.pc, b₃.calls.trans (b₂.calls.trans b₁.calls)⟩, b₃.values, [left, right], .swap _ _, ?_⟩
  exact .trans (.of_memory b₁.memory b₁.heap b₁.floor) (.trans (.set b₂.memory b₂.heap b₂.floor (.inl (by simp)))
    (.set b₃.memory b₃.heap b₃.floor (.inl (by simp))))

theorem performs_jump (works : c.Working p) {l : Label} (lies : Lies c p (.jump l) start) : Performs c p (.jump l) start := by
  rintro m rfl
  obtain ⟨found, -⟩ := Context.hasCode_cons lies.code
  have three : Command.size (.jump l) = 3 := rfl
  refine ⟨.here (Program.healthy_jmp found) rfl (by omega), fun m₁ carries _ => .now ?_⟩
  have b := carries.jmp found
  rw [jumpAddress_jumpOperand (works.label l)] at b
  exact ⟨⟨b.pc, b.calls⟩, b.values, [], .nothing rfl, b.alters⟩

theorem performs_call (works : c.Working p) {n : UInt16} (lies : Lies c p (.call (.line n)) start) :
    Performs c p (.call (.line n)) start := by
  rintro m rfl
  obtain ⟨found, -⟩ := Context.hasCode_cons lies.code
  have three : Command.size (.call (.line n)) = 3 := rfl
  refine ⟨.here (Program.healthy_call found) rfl (by omega), fun m₁ carries _ => .now ?_⟩
  have called := carries.call found
  rw [jumpAddress_jumpOperand (works.label _)] at called
  subst called
  exact ⟨⟨rfl, rfl⟩, rfl, [], .nothing rfl, .of_memory rfl rfl rfl⟩

theorem performs_ret (lies : Lies c p .ret start) : Performs c p .ret start := by
  rintro m rfl
  obtain ⟨found, -⟩ := Context.hasCode_cons lies.code
  have one : Command.size .ret = 1 := rfl
  refine ⟨.here (Program.healthy_ret found) rfl (by omega), fun m₁ carries _ => .now ?_⟩
  obtain ⟨back, top, returned⟩ := carries.ret found
  subst returned
  exact ⟨⟨back, top, rfl, rfl⟩, rfl, [], .nothing rfl, .of_memory rfl rfl rfl⟩

theorem performs_halt (lies : Lies c p .halt start) : Performs c p .halt start := by
  rintro m rfl
  obtain ⟨found, -⟩ := Context.hasCode_cons lies.code
  have one : Command.size .halt = 1 := rfl
  exact ⟨.here (Program.healthy_halt found) rfl (by omega), fun m₁ carries =>
    absurd carries (Program.not_carries_halt found)⟩

/-- Every command that has code does its work where it lies, functions apart. -/
theorem performs (works : c.Working p) (fits : limit ≤ maxPointer + 1) (proper : command.Proper c.functions limit)
    (plain : ∀ frame arity body, command ≠ .function frame arity body) (coded : ∀ l, command ≠ .mark l)
    (lies : command.Lies c p start) : command.Performs c p start := by
  have reach := lies.reach
  cases proper with
  | mark l => exact absurd rfl (coded l)
  | jump l => exact performs_jump works lies
  | call n => exact performs_call works lies
  | ret => exact performs_ret lies
  | halt => exact performs_halt lies
  | yield => exact performs_of_levels works lies (.of_code rfl) (List.cons_ne_nil _ _) rfl fun pc calls => ⟨pc, calls⟩
  | @branchUnless e h l =>
    have split : Command.code (.branchUnless e l) = e.code ++ [.jump .jz l] := by rw [code, Expr.codeBefore_eq]
    rw [Command.size, split, Steps.size_append] at reach
    have := h.three_le_size
    exact performs_of_branch works lies split (.inl rfl) (by omega) (h.levels (by omega)) rfl
      fun there calls => ⟨there, calls⟩
  | branchOn cell k equal l =>
    refine performs_of_branch works lies rfl ?_ (by decide : 0 < 8) (.of_code rfl) rfl fun there calls => ⟨there, calls⟩
    cases equal
    · exact .inr rfl
    · exact .inl rfl
  | testLoop slot bound step exit =>
    have levels : Steps.Levels c.functions 0 (Steps.ofCode (testLoopCode slot bound step)) 1 := by
      rw [testLoopCode, Steps.ofCode_append]
      exact (Steps.Levels.of_code (level_load slot 0)).append (.of_code rfl)
    refine performs_of_branch works lies rfl (.inl rfl) ?_ levels rfl fun there calls => ⟨there, calls⟩
    rw [testLoopCode, Steps.ofCode_append, Steps.size_append]
    exact Nat.lt_add_left _ (by decide : 0 < 18)
  | assign target h => exact performs_assign works fits target h lies
  | @print e h =>
    have split : Command.code (.print e) = e.code ++ Steps.ofCode (sendCode .print) := by rw [code, Expr.codeBefore_eq]
    rw [Command.size, split, Steps.size_append] at reach
    exact performs_of_levels works lies (split ▸ (h.levels (by omega)).append (.of_code rfl))
      (split ▸ List.append_ne_nil_of_right_ne_nil _ (List.cons_ne_nil _ _)) rfl
      fun pc calls => ⟨pc, calls⟩
  | write byte => exact performs_of_levels works lies (.of_code rfl) (List.cons_ne_nil _ _) rfl fun pc calls => ⟨pc, calls⟩
  | prompt address => exact performs_of_levels works lies (.of_code rfl) (List.cons_ne_nil _ _) rfl fun pc calls => ⟨pc, calls⟩
  | input target isText => exact performs_input works fits target lies
  | read target count => exact performs_read works fits target lies
  | function frame arity h => exact absurd rfl (plain _ _ _)
  | poke first second => exact performs_poke works first second lies
  | swap first second => exact performs_swap fits first second lies
  | @seed e h =>
    cases e with
    | none => exact performs_of_levels works lies (.of_code rfl) (List.cons_ne_nil _ _) rfl fun pc calls => ⟨pc, calls⟩
    | some e =>
      have split : Command.code (.seed (some e)) = e.code ++ Steps.ofCode [.plain .seed] := by
        rw [code, Expr.codeBefore_eq]
      rw [Command.size, split, Steps.size_append] at reach
      exact performs_of_levels works lies (split ▸ ((h e rfl).levels (by omega)).append (.of_code rfl))
        (split ▸ List.append_ne_nil_of_right_ne_nil _ (List.cons_ne_nil _ _)) rfl
        fun pc calls => ⟨pc, calls⟩
  | @host request args takes all =>
    have split : Command.code (.host request args) = argumentsBefore [] args ++ Steps.ofCode (hostCode request) := by
      rw [code, argumentsBefore_eq]
    rw [Command.size, split, Steps.size_append] at reach
    have arguments := levels_arguments (d := 0)
      fun e member => (all e member).levels (by have := size_le_arguments member; omega)
    have asks : Steps.Levels c.functions args.length (Steps.ofCode (hostCode request)) 0 :=
      .fixed takes (Nat.le_refl _) (by rw [Nat.sub_self]; exact .nil 0)
    rw [Nat.zero_add] at arguments
    exact performs_of_levels works lies (split ▸ arguments.append asks)
      (split ▸ List.append_ne_nil_of_right_ne_nil _ (List.cons_ne_nil _ _)) rfl fun pc calls => ⟨pc, calls⟩
  | @blit x y first second array =>
    have split : Command.code (.blit x y array) = x.code ++ (y.code ++ Steps.ofCode
        ([.short .pushI (Int16.ofNat array.length), .pointer .pushP array.base] ++ sendCode .blit)) := by
      rw [code, Expr.codeBefore_eq, Expr.codeBefore_eq]
    rw [Command.size, split, Steps.size_append, Steps.size_append] at reach
    exact performs_of_levels works lies (split ▸ (first.levels (by omega)).append
      (((second.levels (by omega)).lift 1).append (.of_code rfl)))
      (split ▸ List.append_ne_nil_of_right_ne_nil _ (List.append_ne_nil_of_right_ne_nil _ (List.cons_ne_nil _ _))) rfl
      fun pc calls => ⟨pc, calls⟩

end Command

end Language

end BasicMachine
