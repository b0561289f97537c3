import BasicMachine.Proofs.Sites
import Mathlib.Data.List.Forall2

/-!
# The items of DATA statements

The items are gathered from the tokens of all lines before any statement is read. From each DATA statement this takes
the list behind its word, and it does not look whether the list reaches to the end of the statement.
-/
namespace BasicMachine.Language

/-- What a DATA statement holds, of the tokens behind its word. -/
def dataTokens (ts : List Token) : List Token := ts.takeWhile (!endsStatement ·)

/-- What follows a DATA statement, of the tokens behind its word. -/
def afterData (ts : List Token) : List Token := ts.dropWhile (!endsStatement ·)

theorem length_afterData_le (ts : List Token) : (afterData ts).length ≤ ts.length := (List.dropWhile_sublist _).length_le

/-- The tokens behind each DATA that begins a statement. `start` tells whether a statement may begin here. -/
def dataPlaces (start : Bool) (ts : List Token) : List (List Token) :=
  match ts with
  | [] => []
  | t :: rest =>
    if start && t == .word .DATA then rest :: dataPlaces false (afterData rest)
    else dataPlaces (opensStatement t) rest
termination_by ts.length
decreasing_by
  · exact Nat.lt_succ_of_le (length_afterData_le rest)
  · simp

section
variable {t : Token} {ts rest : List Token} {start : Bool}

@[simp] theorem dataPlaces_nil (start : Bool) : dataPlaces start [] = [] := by rw [dataPlaces]

@[simp] theorem dataPlaces_data (rest : List Token) :
    dataPlaces true (.word .DATA :: rest) = rest :: dataPlaces false (afterData rest) := by
  rw [dataPlaces]
  simp

theorem dataPlaces_cons (other : t ≠ .word .DATA) :
    dataPlaces start (t :: rest) = dataPlaces (opensStatement t) rest := by
  rw [dataPlaces]
  simp [other]

theorem ne_data_of_endsStatement (h : endsStatement t = true) : t ≠ .word .DATA := by
  rintro rfl
  cases h

/-- At the end of a statement it does not matter whether one may begin. -/
theorem dataPlaces_of_ends (h : Ends rest) : dataPlaces start rest = dataPlaces true rest := by
  cases rest with
  | nil => rw [dataPlaces_nil, dataPlaces_nil]
  | cons t rest =>
    have other := ne_data_of_endsStatement (h t rfl)
    rw [dataPlaces_cons other, dataPlaces_cons other]

theorem dataPlaces_append (none : .word .DATA ∉ ts) (h : Ends rest) :
    dataPlaces start (ts ++ rest) = dataPlaces true rest := by
  induction ts generalizing start with
  | nil => exact dataPlaces_of_ends h
  | cons t ts ih =>
    rw [List.mem_cons, not_or] at none
    rw [List.cons_append, dataPlaces_cons (Ne.symm none.1), ih none.2]

theorem dataPlaces_append_cons (none : .word .DATA ∉ ts) (other : t ≠ .word .DATA) :
    dataPlaces start (ts ++ t :: rest) = dataPlaces (opensStatement t) rest := by
  induction ts generalizing start with
  | nil => exact dataPlaces_cons other
  | cons u ts ih =>
    rw [List.mem_cons, not_or] at none
    rw [List.cons_append, dataPlaces_cons (Ne.symm none.1), ih none.2]

theorem ends_afterData (ts : List Token) : Ends (afterData ts) := by
  intro t first
  have := List.head?_dropWhile_not (!endsStatement ·) ts
  unfold afterData at first
  rw [first] at this
  simpa using this

theorem afterData_suffix (ts : List Token) : afterData ts <:+ ts := List.dropWhile_suffix _

/-- A DATA statement stands on the line, behind its word. -/
theorem suffix_of_mem_dataPlaces (h : ts ∈ dataPlaces start rest) : ts <:+ rest ∧ ts.length < rest.length := by
  fun_induction dataPlaces start rest with
  | case1 => cases h
  | case2 start t rest _ ih =>
    rcases List.mem_cons.mp h with rfl | later
    · exact ⟨List.suffix_cons t ts, Nat.lt_succ_self _⟩
    · obtain ⟨inside, shorter⟩ := ih later
      have := length_afterData_le rest
      refine ⟨(inside.trans (afterData_suffix rest)).trans (List.suffix_cons t rest), ?_⟩
      rw [List.length_cons]
      omega
  | case3 start t rest _ ih =>
    obtain ⟨inside, shorter⟩ := ih h
    exact ⟨inside.trans (List.suffix_cons t rest), Nat.lt_succ_of_lt shorter⟩

/-- The DATA statements of a line are listed in the order in which they stand there. -/
theorem pairwise_dataPlaces (start : Bool) (rest : List Token) :
    (dataPlaces start rest).Pairwise fun ts us => us <:+ ts ∧ us.length < ts.length := by
  fun_induction dataPlaces start rest with
  | case1 => exact .nil
  | case2 start t rest _ ih =>
    refine .cons (fun us later => ?_) ih
    obtain ⟨inside, shorter⟩ := suffix_of_mem_dataPlaces later
    exact ⟨inside.trans (afterData_suffix rest), Nat.lt_of_lt_of_le shorter (length_afterData_le rest)⟩
  | case3 start t rest _ ih => exact ih

end

namespace DataItem

/-- The tokens that an item is written with. -/
inductive Spelled : DataItem → List Token → Prop
  | negativeInteger (n : Int16) : Spelled (number (.integer (-n))) [.operator .minus, .integer n]
  | negativeFloat (x : Float32) : Spelled (number (.float (-x))) [.operator .minus, .float x]
  | integer (n : Int16) : Spelled (number (.integer n)) [.integer n]
  | float (x : Float32) : Spelled (number (.float x)) [.float x]
  | string (s : String) : Spelled (text s) [.string s]
  | ident (s : String) : Spelled (text s) [.ident s]

/-- The tokens that items are written with, and commas between them. -/
inductive Listed : List DataItem → List Token → Prop
  | last {item : DataItem} {ts : List Token} (h : Spelled item ts) : Listed [item] ts
  | more {item : DataItem} {ts : List Token} {items : List DataItem} {us : List Token} (h : Spelled item ts)
      (rest : Listed items us) : Listed (item :: items) (ts ++ .comma :: us)

variable {item item' : DataItem} {items items' : List DataItem} {ts us rest rest' : List Token}

theorem spelled_of_next? (h : next? ts = some (item, rest)) : ∃ own, Spelled item own ∧ ts = own ++ rest := by
  unfold next? at h
  split at h <;> cases h
  · exact ⟨_, .negativeInteger _, rfl⟩
  · exact ⟨_, .negativeFloat _, rfl⟩
  · exact ⟨_, .integer _, rfl⟩
  · exact ⟨_, .float _, rfl⟩
  · exact ⟨_, .string _, rfl⟩
  · exact ⟨_, .ident _, rfl⟩

theorem Spelled.next?_append (h : Spelled item ts) (rest : List Token) : next? (ts ++ rest) = some (item, rest) := by
  cases h <;> rfl

/-- What is read of a list is all of it. -/
theorem listed_of_list? (h : list? ts = some (items, rest)) :
    ∃ own, Listed items own ∧ ts = own ++ rest ∧ rest.head? ≠ some .comma := by
  fun_induction list? ts generalizing items with
  | case1 => cases h
  | case2 => cases h
  | case3 ts item after found _ more last scanned ih =>
    cases h
    obtain ⟨own, spelled, same⟩ := spelled_of_next? found
    obtain ⟨others, listed, same', ended⟩ := ih scanned
    refine ⟨_, .more spelled listed, ?_, ended⟩
    rw [same, same', List.append_assoc, List.cons_append]
  | case4 ts item after noComma found =>
    cases h
    obtain ⟨own, spelled, same⟩ := spelled_of_next? found
    refine ⟨own, .last spelled, same, fun first => ?_⟩
    obtain ⟨_, comma⟩ := List.head?_eq_some_iff.mp first
    exact noComma _ comma

/-- Tokens begin with one list at most, up to where it goes on with a comma. -/
theorem Listed.eq_of_append (h : Listed items ts) (h' : Listed items' us) (ended : rest.head? ≠ some .comma)
    (ended' : rest'.head? ≠ some .comma) (same : ts ++ rest = us ++ rest') : items = items' ∧ rest = rest' := by
  have alike {item item' : DataItem} {ts us rest rest' : List Token} (first : Spelled item ts) (first' : Spelled item' us)
      (same : ts ++ rest = us ++ rest') : item = item' ∧ rest = rest' := by
    have both := first.next?_append rest
    rw [same, first'.next?_append] at both
    cases both
    exact ⟨rfl, rfl⟩
  induction h generalizing items' us with
  | last first =>
    cases h' with
    | last first' =>
      obtain ⟨rfl, rfl⟩ := alike first first' same
      exact ⟨rfl, rfl⟩
    | more first' =>
      rw [List.append_assoc] at same
      obtain ⟨-, rfl⟩ := alike first first' same
      exact absurd rfl ended
  | more first _ ih =>
    rw [List.append_assoc] at same
    cases h' with
    | last first' =>
      obtain ⟨-, rfl⟩ := alike first first' same
      exact absurd rfl ended'
    | more first' listed' =>
      rw [List.append_assoc] at same
      obtain ⟨rfl, both⟩ := alike first first' same
      obtain ⟨rfl, rfl⟩ := ih listed' (List.cons.inj both).2
      exact ⟨rfl, rfl⟩

/-- No statement ends inside a list, and none begins there. -/
theorem Listed.plain (h : Listed items ts) : ∀ t ∈ ts, endsStatement t = false := by
  have each {item : DataItem} {ts : List Token} (first : Spelled item ts) : ∀ t ∈ ts, endsStatement t = false := by
    cases first <;> simp [endsStatement]
  induction h with
  | last first => exact each first
  | more first _ ih =>
    simp only [List.forall_mem_append, List.forall_mem_cons]
    exact ⟨each first, rfl, ih⟩

end DataItem

open DataItem

/-- What is gathered from the tokens of a statement: the list behind DATA where it begins, and once more where DATA follows
a THEN. -/
inductive Gathers : (start : Bool) → List Token → List DataItem → Prop
  | done {start : Bool} : Gathers start [] []
  | data {items more : List DataItem} {list rest : List Token} (listed : Listed items list) (ended : rest.head? ≠ some .comma)
      (later : Gathers false rest more) : Gathers true (.word .DATA :: (list ++ rest)) (items ++ more)
  | skip {start : Bool} {t : Token} {rest : List Token} {items : List DataItem} (other : start = false ∨ t ≠ .word .DATA)
      (later : Gathers (t == .word .THEN) rest items) : Gathers start (t :: rest) items

/-- Where a list is all of a DATA statement, it is what is gathered. -/
theorem Gathers.eq_of_listed {ts : List Token} {items items' : List DataItem} (h : Gathers true (.word .DATA :: ts) items)
    (listed : Listed items' ts) : items = items' := by
  generalize tokens : Token.word .DATA :: ts = all at h
  cases h with
  | done => cases tokens
  | data listed' ended later =>
    cases tokens
    obtain ⟨rfl, rfl⟩ := listed'.eq_of_append listed ended (by simp) (List.append_nil _).symm
    cases later
    exact List.append_nil _
  | skip other =>
    cases tokens
    simp at other

theorem eq_of_forall₂_listed {places : List (List Token)} {groups lists : List (List DataItem)}
    (each : List.Forall₂ (fun ts own => Gathers true (.word .DATA :: dataTokens ts) own) places groups)
    (listed : List.Forall₂ (fun ts items => Listed items (dataTokens ts)) places lists) : groups = lists := by
  induction each generalizing lists with
  | nil =>
    cases listed
    rfl
  | cons gathers _ ih =>
    cases listed with
    | cons first later => rw [gathers.eq_of_listed first, ih later]

section
variable {t : Token} {ts list rest : List Token} {start : Bool} {items : List DataItem}

@[simp] theorem dataTokens_cons : dataTokens (t :: rest) = if endsStatement t then [] else t :: dataTokens rest := by
  unfold dataTokens
  rw [List.takeWhile_cons]
  cases endsStatement t <;> rfl

@[simp] theorem afterData_cons : afterData (t :: rest) = if endsStatement t then t :: rest else afterData rest := by
  unfold afterData
  rw [List.dropWhile_cons]
  cases endsStatement t <;> rfl

theorem dataTokens_append (plain : ∀ t ∈ list, endsStatement t = false) :
    dataTokens (list ++ rest) = list ++ dataTokens rest :=
  List.takeWhile_append_of_pos fun t member => by rw [plain t member]; rfl

theorem afterData_append (plain : ∀ t ∈ list, endsStatement t = false) : afterData (list ++ rest) = afterData rest :=
  List.dropWhile_append_of_pos fun t member => by rw [plain t member]; rfl

theorem head?_dataTokens_ne (other : ts.head? ≠ some t) : (dataTokens ts).head? ≠ some t := by
  cases ts with
  | nil => exact other
  | cons u rest =>
    rw [dataTokens_cons]
    split
    · simp
    · exact other

theorem dataItems?_cons (other : t ≠ .word .DATA) : dataItems? start (t :: rest) = dataItems? (opensStatement t) rest := by
  rw [dataItems?]
  simp [other]

/-- At the end of a statement it does not matter whether one may begin. -/
theorem dataItems?_of_ends (h : Ends rest) : dataItems? start rest = dataItems? true rest := by
  cases rest with
  | nil => rw [dataItems?, dataItems?]
  | cons t rest =>
    have other := ne_data_of_endsStatement (h t rfl)
    rw [dataItems?_cons other, dataItems?_cons other]

theorem opensStatement_eq (plain : endsStatement t = false) : opensStatement t = (t == .word .THEN) := by
  cases t with
  | word k => cases k <;> first | rfl | cases plain
  | _ => first | rfl | cases plain

/-- The items come from the statement that begins here, and then from what follows it. -/
theorem gathers_of_dataItems? (h : dataItems? start ts = some items) :
    ∃ own later, items = own ++ later ∧ Gathers start (dataTokens ts) own ∧ dataItems? true (afterData ts) = some later := by
  fun_induction dataItems? start ts generalizing items with
  | case1 =>
    cases h
    exact ⟨[], [], rfl, .done, by rw [afterData, List.dropWhile_nil, dataItems?]⟩
  | case2 => cases h
  | case3 start t rest begins listed after found _ ih =>
    obtain ⟨rfl, rfl⟩ : start = true ∧ t = .word .DATA := by simpa using begins
    obtain ⟨more, read, rfl⟩ := Option.map_eq_some_iff.mp h
    obtain ⟨list, isList, rfl, ended⟩ := listed_of_list? found
    obtain ⟨own, later, rfl, gathers, read⟩ := ih read
    refine ⟨listed ++ own, later, (List.append_assoc _ _ _).symm, ?_, ?_⟩
    · rw [dataTokens_cons, dataTokens_append isList.plain]
      exact .data isList (head?_dataTokens_ne ended) gathers
    · rw [afterData_cons, afterData_append isList.plain]
      exact read
  | case4 start t rest other ih =>
    cases plain : endsStatement t with
    | true =>
      have different := ne_data_of_endsStatement plain
      refine ⟨[], items, rfl, ?_, ?_⟩
      · rw [dataTokens_cons, plain]
        exact .done
      · rw [afterData_cons, if_pos plain, dataItems?_cons different, h]
    | false =>
      obtain ⟨own, later, same, gathers, read⟩ := ih h
      refine ⟨own, later, same, ?_, ?_⟩
      · rw [dataTokens_cons, plain]
        rw [opensStatement_eq plain] at gathers
        refine .skip ?_ gathers
        simpa [Classical.or_iff_not_imp_left] using other
      · rw [afterData_cons, plain]
        exact read

/-- The items of a line come from its DATA statements, in their order. -/
theorem gathers_of_dataPlaces (h : dataItems? start ts = some items) :
    ∃ groups : List (List DataItem), items = groups.flatten ∧
      List.Forall₂ (fun ts own => Gathers true (.word .DATA :: dataTokens ts) own) (dataPlaces start ts) groups := by
  fun_induction dataPlaces start ts generalizing items with
  | case1 =>
    rw [dataItems?] at h
    cases h
    exact ⟨[], rfl, .nil⟩
  | case2 start t rest begins ih =>
    obtain ⟨rfl, rfl⟩ : start = true ∧ t = .word .DATA := by simpa using begins
    obtain ⟨own, later, rfl, gathers, read⟩ := gathers_of_dataItems? h
    rw [← dataItems?_of_ends (ends_afterData _)] at read
    obtain ⟨groups, rfl, each⟩ := ih read
    exact ⟨own :: groups, rfl, .cons gathers each⟩
  | case3 start t rest other ih =>
    refine ih ?_
    rw [dataItems?, if_neg other] at h
    exact h

end

/-- The items of a program come from the DATA statements of its lines, in their order. -/
theorem gathers_of_sourceData {lines : List SourceLine} {items : List DataItem} (h : sourceData lines = .ok items) :
    ∃ groups : List (List DataItem), items = groups.flatten ∧
      List.Forall₂ (fun ts own => Gathers true (.word .DATA :: dataTokens ts) own)
        (lines.flatMap fun s => dataPlaces true s.line.tokens) groups := by
  obtain ⟨lists, read, rfl⟩ : ∃ lists, lines.mapM dataOfLine = .ok lists ∧ items = lists.flatten := by
    cases read : lines.mapM dataOfLine with
    | error e =>
      rw [sourceData, read] at h
      cases h
    | ok lists =>
      rw [sourceData, read] at h
      refine ⟨lists, rfl, ?_⟩
      simp only [bind, Except.bind] at h
      split at h <;> cases h
      rfl
  clear h
  induction lines generalizing lists with
  | nil =>
    cases read
    exact ⟨[], rfl, .nil⟩
  | cons s lines ih =>
    rw [List.mapM_cons] at read
    cases first : dataOfLine s with
    | error e =>
      rw [first] at read
      cases read
    | ok own =>
      cases rest : lines.mapM dataOfLine with
      | error e =>
        rw [first, rest] at read
        cases read
      | ok more =>
        rw [first, rest] at read
        cases read
        have scanned : dataItems? true s.line.tokens = some own := by
          unfold dataOfLine at first
          split at first <;> cases first
          assumption
        obtain ⟨groups, rfl, each⟩ := gathers_of_dataPlaces scanned
        obtain ⟨groups', same, each'⟩ := ih more rest
        refine ⟨groups ++ groups', ?_, List.rel_append each each'⟩
        rw [List.flatten_cons, same, List.flatten_append]

end BasicMachine.Language
