import BasicMachine.Proofs.Expressions
import BasicMachine.Proofs.Singles

/-!
# How values compare

There are two ways to compare two values of one kind: an opcode that answers yes or no, and the three-way order tested
against a number, which is the code of the operators of the language. Both give the same answer or the same error. The
three-way order is a total order of integers, and of the strings that lie in memory the lexicographic one.
-/
namespace BasicMachine

namespace Single

open Float.Model (UnpackedFloat)

theorem exists_compare {u v : UnpackedFloat} (first : u.isNaN = false) (second : v.isNaN = false) :
    ∃ o, u.compare v = some o := by
  fun_cases UnpackedFloat.compare u v <;> first | exact ⟨_, rfl⟩ | cases first | cases second

end Single

namespace Value

variable {memory : Array Value} {l r t : Value}

/-- The cells from an address on spell a string, and a zero ends it. -/
inductive Spells (memory : Array Value) : Nat → List Int16 → Prop
  | ends {address : Nat} (zero : memory[address]? = some (.integer 0)) : Spells memory address []
  | cell {address : Nat} {n : Int16} {rest : List Int16} (here : memory[address]? = some (.integer n)) (other : n ≠ 0)
      (more : Spells memory (address + 1) rest) : Spells memory address (n :: rest)

theorem stringFrom_of_spells {address room : Nat} {cells : List Int16} (h : Spells memory address cells)
    (before : List Int16) (enough : room = memory.size - address) :
    stringFrom memory before room address = .ok (before.reverse ++ cells) := by
  induction h generalizing before room with
  | @ends address zero =>
    obtain ⟨inside, -⟩ := Array.getElem?_eq_some_iff.mp zero
    obtain ⟨room, rfl⟩ : ∃ n, room = n + 1 := ⟨room - 1, by omega⟩
    simp only [stringFrom, zero, if_true, List.append_nil]
  | @cell address n rest here other more ih =>
    obtain ⟨inside, -⟩ := Array.getElem?_eq_some_iff.mp here
    obtain ⟨room, rfl⟩ : ∃ n, room = n + 1 := ⟨room - 1, by omega⟩
    simp only [stringFrom, here, other, if_false]
    rw [ih (n :: before) (by omega), List.reverse_cons, List.append_assoc]
    rfl

theorem string_of_spells {address : Nat} {cells : List Int16} (h : Spells memory address cells) :
    string memory address = .ok cells :=
  stringFrom_of_spells h [] rfl

/-- Strings compare cell by cell. -/
theorem compareStrings_eq (x y : List Int16) :
    compareStrings x y = if x < y then .lt else if x = y then .eq else .gt := by
  fun_induction compareStrings x y with
  | case1 => simp
  | case2 b bs => simp
  | case3 a as => simp
  | case4 a as b bs ih =>
    rcases Int.lt_trichotomy a.toInt b.toInt with less | same | more
    · rw [Int.compare_eq_lt.mpr less, if_pos (List.cons_lt_cons_iff.mpr (.inl (Int16.lt_iff_toInt_lt.mpr less)))]
      rfl
    · obtain rfl := Int16.toInt_inj.mp same
      simp only [Int.compare_eq_eq.mpr rfl, Ordering.eq_then, ih, List.cons_lt_cons_iff, List.cons.injEq, true_and,
        Int16.lt_irrefl, false_or]
    · have above : b < a := Int16.lt_iff_toInt_lt.mpr more
      have less : ¬ a :: as < b :: bs := List.lt_asymm (List.cons_lt_cons_iff.mpr (.inl above))
      have other : ¬ a :: as = b :: bs := fun same => Int16.ne_of_lt above (List.cons.inj same).1.symm
      rw [Int.compare_eq_gt.mpr more, if_neg less, if_neg other]
      rfl

/-- Two values of one kind, of which singles are numbers. -/
inductive Alike : Value → Value → Prop
  | integers (l r : Int16) : Alike (integer l) (integer r)
  | floats {l r : Float32} (first : l.isNaN = false) (second : r.isNaN = false) : Alike (float l) (float r)
  | pointers (l r : Nat) : Alike (pointer l) (pointer r)

/-- They stand to each other in one of three ways, or two strings are not there; that an integer may stand beside a single
does not matter. -/
theorem Alike.order (h : Alike l r) (memory : Array Value) :
    (∃ o, ∀ mixed, order memory mixed l r = .ok (some o)) ∨ ∃ e, ∀ mixed, order memory mixed l r = .error e := by
  cases h with
  | integers l r => exact .inl ⟨_, fun _ => rfl⟩
  | floats first second =>
    obtain ⟨o, same⟩ := Single.exists_compare first second
    exact .inl ⟨o, fun _ => congrArg Except.ok ((Single.orderFloats_eq _ _).trans same)⟩
  | pointers l r =>
    simp only [Value.order, bind, Except.bind]
    cases string memory l with
    | error e => exact .inr ⟨e, fun _ => rfl⟩
    | ok left =>
      cases string memory r with
      | error e => exact .inr ⟨e, fun _ => rfl⟩
      | ok right => exact .inl ⟨_, fun _ => rfl⟩

/-- A set of values on which the three-way order answers, turns around with its operands, and is transitive. -/
structure RanksTotally (memory : Array Value) (among : Value → Prop) : Prop where
  swap {x y : Value} : among x → among y →
    ∃ o, rank memory x y = .ok (integer (sign o)) ∧ rank memory y x = .ok (integer (sign o.swap))
  trans {x y z : Value} {o o' : Ordering} : among x → among y → among z → rank memory x y = .ok (integer (sign o)) →
    rank memory y z = .ok (integer (sign o')) → o ≠ .gt → o' ≠ .gt → rank memory x z = .ok (integer (sign (o.then o')))

theorem sign_inj {o o' : Ordering} (h : integer (sign o) = integer (sign o')) : o = o' := by
  cases o <;> cases o' <;> first | rfl | exact absurd h (by decide)

/-- Whatever has a key by which it compares is ordered as the keys are. -/
theorem ranksTotally_of_key {κ : Type} {among : Value → Prop} (key : Value → κ → Prop) (cmp : κ → κ → Ordering)
    [Std.TransCmp cmp] (has : ∀ x, among x → ∃ k, key x k)
    (ranks : ∀ x y k k', key x k → key y k' → rank memory x y = .ok (integer (sign (cmp k k')))) :
    RanksTotally memory among where
  swap {x y} hx hy := by
    obtain ⟨k, hk⟩ := has x hx
    obtain ⟨k', hk'⟩ := has y hy
    exact ⟨cmp k k', ranks x y k k' hk hk', by rw [← Std.OrientedCmp.eq_swap]; exact ranks y x k' k hk' hk⟩
  trans {x y z o o'} hx hy hz first second below below' := by
    obtain ⟨k, hk⟩ := has x hx
    obtain ⟨k', hk'⟩ := has y hy
    obtain ⟨k'', hk''⟩ := has z hz
    rw [ranks x y k k' hk hk'] at first
    rw [ranks y z k' k'' hk' hk''] at second
    rw [ranks x z k k'' hk hk'']
    obtain rfl := sign_inj (Except.ok.inj first)
    obtain rfl := sign_inj (Except.ok.inj second)
    congr 3
    cases one : cmp k k' with
    | gt => exact absurd one below
    | eq => rw [Ordering.eq_then, Std.TransCmp.congr_left one]
    | lt => exact Std.TransCmp.lt_of_lt_of_isLE one (by rw [Ordering.isLE_iff_ne_gt]; exact below')

/-- An address at which a string starts. -/
def IsString (memory : Array Value) (v : Value) : Prop := ∃ address cells, v = pointer address ∧ Spells memory address cells

theorem ranksTotally_integers (memory : Array Value) : RanksTotally memory fun v => ∃ n, v = integer n :=
  ranksTotally_of_key (fun v n => v = integer n) (compareOn Int16.toInt) (fun _ h => h)
    fun _ _ _ _ left right => left ▸ right ▸ rank_of_order rfl

theorem compareStrings_eq_compareLex (x y : List Int16) :
    compareStrings x y = List.compareLex (compareOn Int16.toInt) x y := by
  fun_induction compareStrings x y with
  | case1 => rfl
  | case2 b bs => rfl
  | case3 a as => rfl
  | case4 a as b bs ih => rw [ih, List.compareLex_cons_cons]; rfl

theorem order_of_spells {a b : Nat} {x y : List Int16} (first : Spells memory a x) (second : Spells memory b y)
    (mixed : Bool) : order memory mixed (pointer a) (pointer b) = .ok (some (compareStrings x y)) := by
  simp only [order, string_of_spells first, string_of_spells second, bind, Except.bind]
  rfl

theorem ranksTotally_strings (memory : Array Value) : RanksTotally memory (IsString memory) := by
  refine ranksTotally_of_key (fun v cells => ∃ address, v = pointer address ∧ Spells memory address cells)
    (List.compareLex (compareOn Int16.toInt)) (fun _ ⟨address, cells, h⟩ => ⟨cells, address, h⟩) ?_
  rintro _ _ x y ⟨a, rfl, first⟩ ⟨b, rfl, second⟩
  rw [← compareStrings_eq_compareLex]
  exact rank_of_order (order_of_spells first second true)

end Value

namespace Language

/-- The comparison that an operator makes. -/
def Operator.relation? : Operator → Option Relation
  | equal => some .equal
  | notEqual => some .notEqual
  | less => some .less
  | lessEqual => some .lessEqual
  | greater => some .greater
  | greaterEqual => some .greaterEqual
  | _ => none

open Session

variable {l r : Value}

/-- The operators compare as the opcodes do. -/
theorem Operator.apply_of_relation {op : Operator} {relation : Relation} (h : op.relation? = some relation)
    (alike : l.Alike r) (memory : Array Value) : op.apply memory l r = relation.apply memory l r := by
  have compared : op.apply memory l r = compared memory relation l r := by
    cases op <;> cases h <;> rfl
  rw [compared, Language.compared, Relation.apply]
  rcases alike.order memory with ⟨o, same⟩ | ⟨e, same⟩
  · simp only [same, bind, Except.bind]
  · simp only [same, bind, Except.bind]

/-- Whatever its budget, the machine goes on after `cycles` cycles with the values of `s` and one more on its stack and
its program counter `size` bytes further on, or it fails. Only who watches the machine may see more of it. -/
def Settles {σ : Type} (env : Environment σ) (p : Program) (m : Machine) (s : Stack Value) (cycles size : Nat) (h : σ) :
    Except Error Value → Prop
  | .ok v => ∃ h', (m.tracing = false → h' = h) ∧
      ∀ left, loop env p (cycles + left) ⟨m, h⟩ = loop env p left ⟨{ m with
        stack := s.insert v
        pc := m.pc + size
        clock := m.clock + cycles }, h'⟩
  | .error e => ∃ least address s, (m.tracing = false → s.host = h) ∧
      ∀ left, least < left → loop env p left ⟨m, h⟩ = .error (e.atAddress address) s

theorem settles_of_computes {σ : Type} {env : Environment σ} {p : Program} {m : Machine} {s : Stack Value} {code : Code}
    {room : Nat} {r : Except Error Value} (computes : Computes env p m code room (s.insert <$> r))
    (lies : p.HasCode m.pc code) (enough : m.stack.size + room ≤ m.stack.limit) (h : σ) :
    Settles env p m s code.length code.size h r := by
  rcases computes.outcome lies with arrives | ⟨full, -⟩
  · cases r with
    | ok v =>
      obtain ⟨h', same, goes⟩ := Reaches.course arrives h
      refine ⟨h', same, fun left => ?_⟩
      rw [loop_eq_course, loop_eq_course, goes]
      rfl
    | error err =>
      obtain ⟨address, fails⟩ := arrives
      obtain ⟨n, s, same, stops⟩ := fails.course h
      refine ⟨n, address, s, same, fun left more => ?_⟩
      rw [loop_eq_course, stops left more]
      rfl
  · omega

/-- The ways in which two values can stand to each other. -/
def standings : List Relation := [.equal, .less, .greater]

theorem standings_of_order {memory : Array Value} {o : Ordering} (h : Value.order memory false l r = .ok (some o)) :
    ∃ only ∈ standings, ∀ relation ∈ standings, relation.apply memory l r = .ok (.ofBool (relation = only)) := by
  have answer (relation : Relation) : relation.apply memory l r = .ok (.ofBool (relation.holds (some o))) := by
    simp only [Relation.apply, h, bind, Except.bind]
    rfl
  simp only [answer, Except.ok.injEq]
  cases o with
  | lt => exact ⟨.less, by decide, by decide⟩
  | eq => exact ⟨.equal, by decide, by decide⟩
  | gt => exact ⟨.greater, by decide, by decide⟩

/-- On two values of one kind the code of every comparison operator and the opcode of the comparison leave the same
answer or fail with the same error, and if they answer then exactly one of equal, less and greater holds. The three-way
order of integers and of strings turns around with its operands and is transitive; strings compare lexicographically,
wherever they lie. -/
theorem comparisons_agree {l r : Value} (alike : l.Alike r) (memory : Array Value) :
    (∀ (op : Operator) (relation : Relation), op.relation? = some relation →
      (∃ k, op.code = [.plain .cmp, .short .pushI k, .plain (.relation .equal)] ∨
        op.code = [.plain .cmp, .short .pushI k, .plain (.relation .notEqual)]) ∧
      ∀ {σ : Type} (env : Environment σ) (p : Program) (m : Machine) (s : Stack Value) (h : σ), m.memory = memory →
        m.stack = (s.insert l).insert r → m.stack.size ≤ m.stack.limit →
        (p.HasCode m.pc op.code → Settles env p m s 3 op.code.size h (relation.apply memory l r)) ∧
        (p.HasCode m.pc [.plain (.relation relation)] → Settles env p m s 1 1 h (relation.apply memory l r))) ∧
    ((∃ e, ∀ relation : Relation, relation.apply memory l r = .error e) ∨
      ∃ only ∈ standings, ∀ relation ∈ standings, relation.apply memory l r = .ok (.ofBool (relation = only))) ∧
    Value.RanksTotally memory (fun v => ∃ n, v = .integer n) ∧
    Value.RanksTotally memory (Value.IsString memory) ∧
    (∀ a b : Int16, Value.rank memory (.integer a) (.integer b) = .ok (.integer (Value.sign (compare a.toInt b.toInt)))) ∧
    ∀ (a b : Nat) (x y : List Int16), Value.Spells memory a x → Value.Spells memory b y →
      Value.rank memory (.pointer a) (.pointer b) =
        .ok (.integer (Value.sign (if x < y then .lt else if x = y then .eq else .gt))) := by
  refine ⟨fun op relation known => ⟨?_, ?_⟩, ?_, Value.ranksTotally_integers memory, Value.ranksTotally_strings memory,
    fun _ _ => Value.rank_of_order rfl, ?_⟩
  · cases op <;> cases known <;> first | exact ⟨_, .inl rfl⟩ | exact ⟨_, .inr rfl⟩
  · rintro σ env p m s h rfl shape room
    have length : op.code.length = 3 := by cases op <;> cases known <;> rfl
    refine ⟨fun lies => ?_, fun lies => settles_of_computes (computes_relation relation shape) lies room h⟩
    rw [← length, ← op.apply_of_relation known alike]
    exact settles_of_computes (computes_operator op shape) lies room h
  · rcases alike.order memory with ⟨o, same⟩ | ⟨e, same⟩
    · exact .inr (standings_of_order (same false))
    · refine .inl ⟨e, fun relation => ?_⟩
      simp only [Relation.apply, same, bind, Except.bind]
  · intro a b x y first second
    rw [Value.rank_of_order (Value.order_of_spells first second true), Value.compareStrings_eq]

theorem comparisons_agree_overlapping :
    let memory := #[.pointer 0, .integer 0, .integer 65, .integer 66, .integer 0]
    let start := Machine.new { memorySize := 5, stackSize := 4 }
    let m : Machine := { start with memory, stack := (start.stack.insert (.pointer 2)).insert (.pointer 3) }
    let p : Program := { code := (Operator.code .less).bytes.toArray }
    Settles { host := Script.host } p m start.stack 3 (Operator.code .less).size {} (.ok (.integer 1)) ∧
      Value.rank memory (.pointer 2) (.pointer 3) = .ok (.integer (-1)) := by
  intro memory start m p
  obtain ⟨code, -, -, -, -, strings⟩ := comparisons_agree (.pointers 2 3) memory
  refine ⟨((code .less .less rfl).2 { host := Script.host } p m start.stack {} rfl rfl (by decide)).1 ⟨[], [], ?_, rfl⟩, ?_⟩
  · simp [p]
  · have last : Value.Spells memory 3 [66] := .cell rfl (by decide) (.ends rfl)
    exact strings 2 3 [65, 66] [66] (.cell rfl (by decide) last) last

end Language

end BasicMachine
