import BasicMachine.Proofs.CallingConvention
import BasicMachine.Proofs.Floors
import Mathlib.Algebra.BigOperators.Group.List.Basic
import Mathlib.Data.List.Forall2
import Mathlib.Tactic.Linarith

/-!
# Addresses of array elements

The index of an element is computed with the promoting arithmetic of the machine, one subscript after the other. Whatever
the subscripts are, an address that comes out lies in the array. For subscripts in range it is that of the row-major
index, because no sum or product on the way leaves the integers of 16 bits.
-/
namespace BasicMachine.Language

open Session

/-! ## Row-major order -/

/-- The number of the cell that the indices name, counted from `index` rows on. -/
def rowMajorFrom (index : Int) : List Int16 → List Int → Int
  | d :: extents, i :: indices => rowMajorFrom (index * d.toInt + i) extents indices
  | _, _ => index

/-- The place of an element in its array, row by row. -/
def rowMajor (extents : List Int16) (indices : List Int) : Int := rowMajorFrom 0 extents indices

/-- Each index lies in its own dimension. -/
def InRange (indices : List Int) (extents : List Int16) : Prop :=
  List.Forall₂ (fun i d => 0 ≤ i ∧ i < d.toInt) indices extents

/-- How many elements there are. -/
def volume (extents : List Int16) : Int := (extents.map Int16.toInt).prod

section
variable {extents : List Int16} {indices indices' : List Int} {index index' : Int}

theorem volume_cons (d : Int16) (extents : List Int16) : volume (d :: extents) = d.toInt * volume extents := by
  rw [volume, List.map_cons, List.prod_cons, volume]

theorem volume_pos (positive : ∀ d ∈ extents, 0 < d.toInt) : 0 < volume extents := by
  induction extents with
  | nil => exact Int.one_pos
  | cons d rest ih =>
    rw [volume_cons]
    exact Int.mul_pos (positive d List.mem_cons_self) (ih fun d member => positive d (List.mem_cons_of_mem _ member))

theorem InRange.positive (h : InRange indices extents) : ∀ d ∈ extents, 0 < d.toInt := by
  induction h with
  | nil => exact fun _ member => nomatch member
  | cons inside _ ih =>
    intro d member
    rcases List.mem_cons.mp member with rfl | member
    · omega
    · exact ih d member

/-- The cells of a row lie between those of the rows around it. -/
theorem rowMajorFrom_bounds (h : InRange indices extents) :
    index * volume extents ≤ rowMajorFrom index extents indices ∧
      rowMajorFrom index extents indices < (index + 1) * volume extents := by
  induction h generalizing index with
  | nil => simp [rowMajorFrom, volume]
  | @cons i d indices extents inside rest ih =>
    obtain ⟨low, high⟩ := @ih (index * d.toInt + i)
    have positive := volume_pos (InRange.positive rest)
    rw [rowMajorFrom, volume_cons]
    constructor
    · calc index * (d.toInt * volume extents) ≤ (index * d.toInt + i) * volume extents := by nlinarith
        _ ≤ _ := low
    · calc _ < (index * d.toInt + i + 1) * volume extents := high
        _ ≤ (index + 1) * (d.toInt * volume extents) := by nlinarith

theorem rowMajor_bounds (h : InRange indices extents) :
    0 ≤ rowMajor extents indices ∧ rowMajor extents indices < volume extents := by
  have bounds : 0 * volume extents ≤ rowMajor extents indices ∧ rowMajor extents indices < (0 + 1) * volume extents :=
    rowMajorFrom_bounds h
  simpa using bounds

theorem rowMajorFrom_injective (h : InRange indices extents) (h' : InRange indices' extents)
    (same : rowMajorFrom index extents indices = rowMajorFrom index' extents indices') :
    index = index' ∧ indices = indices' := by
  induction h generalizing index index' indices' with
  | nil =>
    cases h'
    exact ⟨same, rfl⟩
  | @cons i d indices extents inside rest ih =>
    cases h' with
    | @cons j _ indices' _ inside' rest' =>
      obtain ⟨rows, rfl⟩ := ih rest' same
      have last : index = index' := by nlinarith
      subst last
      exact ⟨rfl, by rw [show i = j by omega]⟩

end

namespace ArrayBlock

/-- A block for all elements that the extents allow, of a size that fits 16 bits and at addresses that pointers have. -/
structure Sized (array : ArrayBlock) : Prop where
  some : array.extents ≠ []
  positive : ∀ d ∈ array.extents, 0 < d.toInt
  length : (array.length : Int) = volume array.extents
  short : array.length ≤ 32767
  inside : array.base + array.length ≤ maxPointer + 1

variable {array : ArrayBlock} {memory : Array Value} {index v : Value}

theorem Sized.toInt_length (sized : array.Sized) : (Int16.ofNat array.length).toInt = array.length := by
  have := sized.short
  exact Int16.toInt_ofNat_of_lt (by omega)

theorem holds_less (m n : Int) : Relation.less.holds (some (compare m n)) = decide (m < n) := by
  rw [Bool.eq_iff_iff, decide_eq_true_iff, ← Int.compare_eq_lt, Relation.holds, beq_iff_eq, Option.some_inj]

theorem holds_greaterEqual (m n : Int) : Relation.greaterEqual.holds (some (compare m n)) = decide (n ≤ m) := by
  rw [Bool.eq_iff_iff, decide_eq_true_iff, Relation.holds, Bool.or_eq_true, beq_iff_eq, beq_iff_eq, Option.some_inj,
    Option.some_inj, Int.compare_eq_gt, Int.compare_eq_eq]
  omega

theorem check_integer (sized : array.Sized) (n : Int16) :
    array.check memory (.integer n) =
      if n.toInt < array.length ∧ 0 ≤ n.toInt then .ok () else .error (.of .subscriptOutOfRange) := by
  have below : compared memory .less (.integer n) (.integer (Int16.ofNat array.length)) =
      .ok (.ofBool (decide (n.toInt < array.length))) := by
    rw [← sized.toInt_length, ← holds_less]
    rfl
  have above : compared memory .greaterEqual (.integer n) (.integer 0) = .ok (.ofBool (decide (0 ≤ n.toInt))) := by
    rw [← holds_greaterEqual]
    rfl
  simp only [check, below, above, bind, Except.bind, isTrue_ofBool]
  by_cases small : n.toInt < array.length
  · by_cases low : 0 ≤ n.toInt
    · simp only [small, low, decide_true, and_self, if_true]
      rfl
    · simp only [small, low, decide_true, decide_false, and_false, if_true, if_false, Bool.false_eq_true]
      rfl
  · simp only [small, decide_false, false_and, if_false, Bool.false_eq_true]
    rfl

/-- An integer is added to the address of the block. -/
theorem add_base (sized : array.Sized) {n : Int16} {i : Nat} (same : n.toInt = i) (inside : i < array.length) :
    (Value.integer n).add (.pointer array.base) = .ok (.pointer (array.base + i)) := by
  have fits := sized.inside
  have top : maxPointer = 0x1fffff := rfl
  have shifted : Value.shifted array.base n.toInt = (array.base + i : Nat) := by
    rw [Value.shifted, if_pos (by omega), same]
    omega
  rw [Value.add, Value.offset, shifted, if_neg (by omega), Int.toNat_natCast]

/-- Only an index inside the array comes through. -/
theorem pointer_of_check (sized : array.Sized) (checked : array.check memory index = .ok ())
    (added : index.add (.pointer array.base) = .ok v) :
    ∃ n : Nat, n < array.length ∧ v = .pointer (array.base + n) := by
  cases index with
  | integer n =>
    rw [check_integer sized] at checked
    split at checked
    · next inside =>
      have same : n.toInt = n.toInt.toNat := by omega
      rw [add_base sized same (by omega)] at added
      exact ⟨n.toInt.toNat, by omega, (Except.ok.inj added).symm⟩
    · cases checked
  | _ => cases added

end ArrayBlock

/-! ## Evaluation -/

section
variable {σ : Type} {host : Host σ} {call : String → List Value → Evaluation σ Value} {args : List Value}
  {e : Expr} {es : List Expr} {values : List Value} {v : Value} {w w' w₁ : World σ}

theorem evalAll_cons_eq_ok (h : evalAll host call args (e :: es) w = .ok values w') :
    ∃ v rest w₁, values = v :: rest ∧ e.eval host call args w = .ok v w₁ ∧ evalAll host call args es w₁ = .ok rest w' := by
  obtain ⟨v, w₁, first, later⟩ := run_bind_eq_ok h
  obtain ⟨rest, w₂, second, last⟩ := run_bind_eq_ok later
  cases last
  exact ⟨v, rest, w₁, rfl, first, second⟩

theorem answer_eq_ok {α : Type} {r : Except Error α} {a : α} (h : (Evaluation.answer r : Evaluation σ α) w = .ok a w') :
    r = .ok a ∧ w' = w := by
  cases r <;> cases h
  exact ⟨rfl, rfl⟩

/-- The arithmetic between the subscripts changes nothing. -/
theorem evalInner_world {extents : List Int16} {index : Value}
    (evaluated : evalAll host call args es w = .ok values w')
    (h : evalInner host call args extents index es w = .ok v w₁) : w₁ = w' := by
  induction es generalizing w values extents index with
  | nil =>
    cases evaluated
    cases h
    rfl
  | cons e es ih =>
    obtain ⟨u, rest, w₂, -, first, later⟩ := evalAll_cons_eq_ok evaluated
    obtain ⟨scaled, w₃, scales, onward⟩ := run_bind_eq_ok h
    rw [(answer_eq_ok scales).2, run_bind_ok first] at onward
    obtain ⟨index', w₄, adds, last⟩ := run_bind_eq_ok onward
    rw [(answer_eq_ok adds).2] at last
    exact ih later last

theorem toInt_ofInt16 {n : Int} (low : 0 ≤ n) (small : n < 0x8000) : (Int16.ofInt n).toInt = n :=
  Int16.toInt_ofInt_of_le (by simp; omega) (by simp; omega)

theorem ofInt_eq_integer {n : Int} (low : 0 ≤ n) (small : n < 0x8000) : Value.ofInt n = .integer (Int16.ofInt n) := by
  rw [Value.ofInt, if_pos]
  rw [Value.fits16, Bool.and_eq_true, decide_eq_true_iff, decide_eq_true_iff]
  omega

/-- As long as the rows so far and the volume of each fit 16 bits, the index stays an integer. -/
theorem evalInner_inRange {extents : List Int16} {indices : List Int} {n : Int}
    (evaluated : evalAll host call args es w = .ok values w') (floors : List.Forall₂ (fun i v => v.HasFloor i) indices values)
    (inside : InRange indices extents) (low : 0 ≤ n) (small : (n + 1) * volume extents < 0x8000) :
    evalInner host call args extents (.integer (Int16.ofInt n)) es w =
      .ok (.integer (Int16.ofInt (rowMajorFrom n extents indices))) w' := by
  induction es generalizing w values extents indices n with
  | nil =>
    cases evaluated
    cases floors
    cases inside
    rfl
  | cons e es ih =>
    obtain ⟨v, rest, w₁, rfl, first, later⟩ := evalAll_cons_eq_ok evaluated
    cases floors with
    | @cons i _ indices _ floor floors =>
      cases inside with
      | @cons _ d _ extents bounds inside =>
        have positive := volume_pos (InRange.positive inside)
        rw [volume_cons, ← Int.mul_assoc] at small
        have rows : (n + 1) * d.toInt < 0x8000 := by nlinarith
        have row : 0 ≤ n * d.toInt := Int.mul_nonneg low (by omega)
        have next : (n + 1) * d.toInt = n * d.toInt + d.toInt := by rw [Int.add_mul, Int.one_mul]
        have scaled : (Value.integer (Int16.ofInt n)).multiply (.integer d) = .ok (.integer (Int16.ofInt (n * d.toInt))) := by
          rw [Value.multiply, toInt_ofInt16 low (by nlinarith), ofInt_eq_integer row (by omega)]
        have added : (v.floor >>= (Value.integer (Int16.ofInt (n * d.toInt))).add) =
            .ok (.integer (Int16.ofInt (n * d.toInt + i))) := by
          rw [floor.floor bounds.1 (by omega)]
          show (Value.integer (Int16.ofInt (n * d.toInt))).add (.integer (Int16.ofInt i)) = _
          rw [Value.add, toInt_ofInt16 row (by omega), toInt_ofInt16 bounds.1 (by omega),
            ofInt_eq_integer (by omega) (by omega)]
        have last : (n * d.toInt + i + 1) * volume extents < 0x8000 := by nlinarith
        rw [evalInner, List.headD_cons, scaled]
        show ((e.eval host call args >>= _) w) = _
        rw [run_bind_ok first, added]
        exact ih later floors inside (by omega) last

/-- The address of an element. -/
def ArrayBlock.locate (host : Host σ) (call : String → List Value → Evaluation σ Value) (args : List Value)
    (array : ArrayBlock) (subscripts : List Expr) : Evaluation σ Value := do
  let index ← evalIndex host call args array.extents subscripts
  Evaluation.looking fun memory => array.check memory index
  Evaluation.answer (index.add (.pointer array.base))

variable {array : ArrayBlock}

/-- Whatever the subscripts are, only addresses of the array come out. -/
theorem locate_eq_ok (sized : array.Sized) (evaluated : evalAll host call args es w = .ok values w')
    (h : array.locate host call args es w = .ok v w₁) :
    w₁ = w' ∧ ∃ n < array.length, v = .pointer (array.base + n) := by
  obtain ⟨index, w₂, indexed, later⟩ := run_bind_eq_ok h
  obtain ⟨_, w₃, checks, last⟩ := run_bind_eq_ok later
  obtain ⟨added, rfl⟩ := answer_eq_ok last
  have same : w₂ = w' := by
    cases es with
    | nil => cases indexed
    | cons e es =>
      obtain ⟨u, rest, w₄, -, first, onward⟩ := evalAll_cons_eq_ok evaluated
      rw [evalIndex, run_bind_ok first] at indexed
      obtain ⟨index', w₅, floors, inner⟩ := run_bind_eq_ok indexed
      rw [(answer_eq_ok floors).2] at inner
      exact evalInner_world onward inner
  rw [Evaluation.looking] at checks
  split at checks
  · next checked =>
    cases checks
    exact ⟨same, ArrayBlock.pointer_of_check sized checked added⟩
  · cases checks

theorem evalIndex_inRange {extents : List Int16} {indices : List Int} (some : extents ≠ [])
    (evaluated : evalAll host call args es w = .ok values w') (floors : List.Forall₂ (fun i v => v.HasFloor i) indices values)
    (inside : InRange indices extents) (small : volume extents < 0x8000) :
    evalIndex host call args extents es w = .ok (.integer (Int16.ofInt (rowMajor extents indices))) w' := by
  cases inside with
  | nil => exact absurd rfl some
  | @cons i d indices extents bounds inside =>
    cases floors with
    | @cons _ v _ rest floor floors =>
      cases es with
      | nil => cases evaluated
      | cons e es =>
        obtain ⟨u, values, w₁, same, first, later⟩ := evalAll_cons_eq_ok evaluated
        obtain ⟨rfl, rfl⟩ := List.cons.inj same
        have positive := volume_pos (InRange.positive inside)
        rw [volume_cons] at small
        have row : (i + 1) * volume extents < 0x8000 := by nlinarith
        rw [evalIndex, run_bind_ok first, floor.floor bounds.1 (by nlinarith), List.tail_cons, rowMajor, rowMajorFrom,
          Int.zero_mul, Int.zero_add]
        exact evalInner_inRange later floors inside bounds.1 row

/-- Subscripts in range lead to the cell of their row-major index. -/
theorem locate_inRange {indices : List Int} (sized : array.Sized)
    (evaluated : evalAll host call args es w = .ok values w') (floors : List.Forall₂ (fun i v => v.HasFloor i) indices values)
    (inside : InRange indices array.extents) :
    array.locate host call args es w = .ok (.pointer (array.base + (rowMajor array.extents indices).toNat)) w' := by
  obtain ⟨low, high⟩ := rowMajor_bounds inside
  have length := sized.length
  have short := sized.short
  have indexed := evalIndex_inRange sized.some evaluated floors inside (by omega)
  have same := toInt_ofInt16 low (by omega)
  have whole : (Int16.ofInt (rowMajor array.extents indices)).toInt = (rowMajor array.extents indices).toNat := by omega
  have checked : Evaluation.looking (fun memory =>
      array.check memory (.integer (Int16.ofInt (rowMajor array.extents indices)))) w' = .ok () w' := by
    rw [Evaluation.looking, ArrayBlock.check_integer sized, if_pos (by omega)]
  rw [ArrayBlock.locate, run_bind_ok indexed, run_bind_ok checked, ArrayBlock.add_base sized whole (by omega)]
  rfl

end

section
variable {σ : Type} {c : Context} {p : Program} {env : Environment σ}
  {call : String → List Value → Evaluation σ Value} {names : List String} {args : List Value} {need calls : Nat}
  {array : ArrayBlock} {subscripts : List Expr} {s : Session σ}

/-- The code of an address does what `locate` says. -/
theorem does_locate (works : c.Working p) (some : subscripts ≠ []) (small : array.base ≤ maxPointer)
    (honest : ∀ e ∈ subscripts, e.Honest c p env call names args need calls)
    (poised : Session.Poised c p (Target.address (.element array subscripts))
      ((Target.address (.element array subscripts)).size + need) calls s) (ready : c.Ready names args s.world) :
    Does env p s (Target.address (.element array subscripts)).size
      ((s.machine.stack.insert <$> array.locate env.host call args subscripts) s.world) := by
  have code : Target.address (.element array subscripts) =
      indexBefore array.extents [] subscripts ++ (array.checkSteps ++ Steps.ofCode array.baseCode) := by
    rw [Target.address, indexBefore_eq]
  have check : 3 ≤ array.checkSteps.size := Nat.le_of_ble_eq_true rfl
  rw [code] at poised ⊢
  rw [Steps.size_append] at poised ⊢
  rw [ArrayBlock.locate, map_bind]
  refine .bind (does_index works honest some array.extents (poised.first.mono (by omega)) ready) fun index w _ a idx clock => ?_
  have second := poised.second 2 (s.machine.stack.insert index) w a idx clock rfl (by
    rw [Stack.size_insert, Steps.size_append]
    omega)
  rw [Steps.size_append]
  exact does_address small rfl second

/-- Where an element is addressed with any subscripts, the code fails or leaves the address of a cell of the array. With
numbers whose floors lie in the dimensions it leaves the address of the cell with the row-major index of these, which no
others have. An element in the source is one of the array that the tables have for its name, with its subscripts in their
order. -/
theorem elements_lie_in_row_major_order (works : c.Working p) (sized : array.Sized)
    (count : subscripts.length = array.extents.length)
    (honest : ∀ e ∈ subscripts, e.Honest c p env call names args need calls)
    (poised : Session.Poised c p (Target.address (.element array subscripts))
      ((Target.address (.element array subscripts)).size + need) calls s) (ready : c.Ready names args s.world)
    {values : List Value} {w : World σ} (evaluated : evalAll env.host call args subscripts s.world = .ok values w) :
    ((∃ e h, Breaks env p s e h) ∨ ∃ n < array.length,
      Does env p s (Target.address (.element array subscripts)).size
        (.ok (s.machine.stack.insert (.pointer (array.base + n))) w)) ∧
    (∀ indices, List.Forall₂ (fun i v => v.HasFloor i) indices values → InRange indices array.extents →
      Does env p s (Target.address (.element array subscripts)).size
        (.ok (s.machine.stack.insert (.pointer (array.base + (rowMajor array.extents indices).toNat))) w)) ∧
    (∀ indices indices', InRange indices array.extents → InRange indices' array.extents →
      array.base + (rowMajor array.extents indices).toNat = array.base + (rowMajor array.extents indices').toNat →
      indices = indices') ∧
    ∀ {parameters fuel name c₁ c₂}, Scoped parameters c₁.scopes.inner →
      Parser.target fuel name c₁ = .ok (.element array subscripts, c₂) → c₂.Within c →
      ∃ ts, c₁.rest = .lparen :: (ts ++ .rparen :: c₂.rest) ∧ (name, array) ∈ c.arrays ∧
        Wording c parameters subscripts ts := by
  have some : subscripts ≠ [] := by
    intro none
    exact sized.some (List.length_eq_zero_iff.mp (by rw [← count, none, List.length_nil]))
  have positive : (0 : Int) < array.length := sized.length ▸ volume_pos sized.positive
  have inside := sized.inside
  have does := does_locate works some (by omega) honest poised ready
  refine ⟨?_, fun indices floors range => ?_, fun indices indices' range range' same => ?_, fun scope ran within => ?_⟩
  · simp only [Functor.map, EStateM.map] at does
    cases result : array.locate env.host call args subscripts s.world with
    | ok v w' =>
      rw [result] at does
      obtain ⟨rfl, n, less, rfl⟩ := locate_eq_ok sized evaluated result
      exact .inr ⟨n, less, does⟩
    | error e w' =>
      rw [result] at does
      obtain ⟨address, breaks⟩ := does
      exact .inl ⟨_, _, breaks⟩
  · simp only [Functor.map, EStateM.map, locate_inRange sized evaluated floors range] at does
    exact does
  · have low := (rowMajor_bounds range).1
    have low' := (rowMajor_bounds range').1
    exact (rowMajorFrom_injective range range' (show rowMajor _ _ = rowMajor _ _ by omega)).2
  · obtain ⟨ts, takes, words⟩ := (Parser.readsWords _ _).target scope ran
    cases words c within with
    | element there _ h => exact ⟨_, by simpa using takes.rest, there, h⟩

end

/-- An element whose first subscript is the value of a function, and whose second one has a fraction. -/
def mixedSubscripts : String := "10 DIM A(3,4)\n20 DEF FNR(X)=X-1\n30 LET A(FNR(3),1.5)=7\n"

/-- Whether the function and the assignment are those of `mixedSubscripts`. -/
def Context.isMixed (c : Context) : Bool :=
  match c.routine? "R" with
  | some ⟨_, 1, .binary .minus (.variable (.place i)) (.integer n)⟩ =>
    i == 1 && n == 1 && c.program.any fun
      | .assign (.element array [.call f [.integer m], .float x]) (.integer v) =>
        array.extents == [3, 4] && array.length == 12 && array.base ≤ 20 && f == "R" && m == 3 && x.toBits == 0x3fc00000 &&
          v == 7
      | _ => false
  | _ => false

theorem Context.of_isMixed {c : Context} (h : c.isMixed = true) :
    ∃ frame base, base ≤ 20 ∧ c.routine? "R" = some ⟨frame, 1, .binary .minus (.variable (.place 1)) (.integer 1)⟩ ∧
      .assign (.element ⟨base, [3, 4], 12⟩ [.call "R" [.integer 3], .float (Float32.ofBits 0x3fc00000)]) (.integer 7) ∈
        c.program := by
  unfold isMixed at h
  split at h
  · next frame i n found =>
    simp only [Bool.and_eq_true, beq_iff_eq, List.any_eq_true] at h
    obtain ⟨⟨rfl, rfl⟩, command, member, shown⟩ := h
    split at shown
    · next array f m x v =>
      simp only [Bool.and_eq_true, beq_iff_eq, decide_eq_true_eq] at shown
      obtain ⟨⟨⟨⟨⟨⟨extents, length⟩, small⟩, rfl⟩, rfl⟩, bits⟩, rfl⟩ := shown
      obtain rfl : x = Float32.ofBits 0x3fc00000 := by rw [← bits, Single.ofBits_toBits]
      obtain ⟨base, _, _⟩ := array
      obtain rfl : _ = [3, 4] := extents
      obtain rfl : _ = 12 := length
      exact ⟨frame, base, small, found, member⟩
    · cases shown
  · cases h

theorem elements_lie_in_row_major_order_mixedSubscripts :
    ∃ p, compile mixedSubscripts = .ok p ∧ ∃ (array : ArrayBlock) (n : Nat) (s s' : Session Script), array.Sized ∧
      array.extents = [3, 4] ∧ Goes { host := Script.host } p n s s' ∧
        s'.machine.stack = s.machine.stack.insert (.pointer (array.base + 9)) := by
  have found : (compile mixedSubscripts).toOption.any (·.staticSize ≤ 32) = true := by decide +kernel
  have mixed : (finalContext mixedSubscripts).any Context.isMixed = true := by decide +kernel
  cases compiled : compile mixedSubscripts with
  | error e =>
    rw [compiled] at found
    cases found
  | ok p =>
    rw [compiled] at found
    obtain ⟨k⟩ := compilation_of_ok compiled
    rw [k.finalContext_eq] at mixed
    obtain ⟨frame, base, small, routine, shown⟩ := Context.of_isMixed mixed
    have size : k.last.scopes.highWater ≤ 32 := k.finished.size_eq ▸ of_decide_eq_true found
    have fits : k.last.scopes.highWater ≤ maxPointer + 1 := Nat.le_trans size (by decide)
    have works := k.finished.working fits
    obtain ⟨before, after, split⟩ := List.append_of_mem shown
    have lies := k.finished.lies split
    have ends : k.last.Ends ["R"] := by
      refine .intro fun _ member r found => ?_
      obtain rfl := List.mem_singleton.mp member
      cases routine.symm.trans found
      exact .intro fun _ member => nomatch member
    obtain ⟨need, answers⟩ := Context.exists_answers works (k.tidy fits) ends fun name member => lies.known name member
    let array : ArrayBlock := ⟨base, [3, 4], 12⟩
    let subscripts : List Expr := [.call "R" [.integer 3], .float (Float32.ofBits 0x3fc00000)]
    let room := (Target.address (.element array subscripts)).size + need
    let s : Session Script :=
      ⟨{ Machine.new { memorySize := 32, stackSize := room, callDepth := need } with pc := codeSize before }, {}⟩
    have sized : array.Sized := by
      have positive : ∀ d ∈ ([3, 4] : List Int16), 0 < d.toInt := by simp
      have length : (12 : Int) = volume [3, 4] := by decide
      have top : 32 ≤ maxPointer + 1 := by decide
      exact ⟨List.cons_ne_nil _ _, positive, length, (by decide : 12 ≤ 32767), Nat.le_trans (Nat.add_le_add_right small 12) top⟩
    have apt : ∀ e ∈ subscripts, e.Apt k.last ["R"] ([] : List Value).length := by
      intro e member
      have base := k.apt fits shown (List.mem_append_left _ member) (Nat.zero_lt_succ _)
      refine ⟨base.proper, base.below, base.places, fun name called => ?_⟩
      rcases List.mem_cons.mp member with rfl | member
      · exact called
      · obtain rfl := List.mem_singleton.mp member
        cases called
    have poised : Session.Poised k.last p (Target.address (.element array subscripts)) room need s := by
      refine ⟨(Context.hasCode_append lies.code).1, ?_, rfl, Nat.le_of_eq (Nat.zero_add _), Nat.le_of_eq (Nat.zero_add _)⟩
      have reach := lies.reach
      rw [Command.size, Command.code, Steps.size_append] at reach
      exact Nat.lt_of_le_of_lt (Nat.add_le_add_left (Nat.le_add_right _ _) _) reach
    have evaluated : ∃ w, evalAll Script.host (k.last.apply Script.host (need + 1)) [] subscripts s.world =
        .ok [.integer 2, .float (Float32.ofBits 0x3fc00000)] w := by
      simp only [subscripts, evalAll, Expr.eval, Context.apply, routine]
      exact ⟨_, rfl⟩
    obtain ⟨w, evaluated⟩ := evaluated
    have honest : ∀ e ∈ subscripts, e.Honest k.last p { host := Script.host } (k.last.apply Script.host (need + 1)) ["R"] []
        need need := fun e member =>
      (apt e member).honest works fun name called => answers name called { host := Script.host } (need + 1) (Nat.le_succ _)
    obtain ⟨-, exact, -⟩ := elements_lie_in_row_major_order works sized rfl honest poised ⟨size, .inl rfl⟩ evaluated
    have parts : Single.parts (Float32.ofBits 0x3fc00000) = ⟨false, 0xc00000, -23⟩ := by decide +kernel
    have floor : (Value.float (Float32.ofBits 0x3fc00000)).HasFloor 1 := by
      refine ⟨by decide +kernel, ?_⟩
      rw [parts, Single.Parts.floor_number rfl]
      decide
    obtain ⟨a, idx, n, clock, goes⟩ := exact [2, 1] (.cons rfl (.cons floor .nil))
      (.cons (by decide) (.cons (by decide) .nil))
    exact ⟨p, rfl, array, n, s, _, sized, rfl, goes, rfl⟩

end BasicMachine.Language
