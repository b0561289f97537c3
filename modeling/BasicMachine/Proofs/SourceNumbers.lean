import BasicMachine.Proofs.PackedValues
import BasicMachine.Proofs.References

/-!
# Numbers of a source text

A numeral of a source is digits and a point, so none of its numbers is a NaN, and neither is a value that DATA gives.
-/
namespace BasicMachine

theorem mem_mapM_ok {α β ε : Type} {f : α → Except ε β} {as : List α} {bs : List β} (h : as.mapM f = .ok bs) :
    ∀ b ∈ bs, ∃ a ∈ as, f a = .ok b := by
  induction as generalizing bs with
  | nil =>
    cases h
    nofun
  | cons a as ih =>
    rw [List.mapM_cons] at h
    cases first : f a with
    | error e => rw [first] at h; cases h
    | ok b =>
      cases rest : as.mapM f with
      | error e => rw [first, rest] at h; cases h
      | ok more =>
        rw [first, rest] at h
        cases h
        intro c member
        rcases List.mem_cons.mp member with rfl | member
        · exact ⟨a, List.mem_cons_self, first⟩
        · obtain ⟨d, inside, read⟩ := ih rest c member
          exact ⟨d, List.mem_cons_of_mem a inside, read⟩

/-- Digits and points spell no name of a number. -/
theorem Single.isNaN_of_read? {cs : List Char} {x : Float32} (numeral : ∀ c ∈ cs, c.isDigit = true ∨ c = '.')
    (h : read? cs = some x) : x.isNaN = false := by
  have lower : ∀ c ∈ cs, c.toLower = c ∧ c ≠ 'i' ∧ c ≠ 'n' ∧ c ≠ '-' ∧ c ≠ '+' := by
    intro c found
    rcases numeral c found with digit | rfl
    · refine ⟨toLower_digit digit, ?_, ?_, ?_, ?_⟩ <;>
        exact fun same => absurd (same ▸ digit) (by decide)
    · decide
  have unnamed {name : String} {c : Char} {rest : List Char} (spelled : name.toList = c :: rest)
      (letter : c = 'i' ∨ c = 'n') : (String.ofList (cs.map Char.toLower) == name) = false := by
    refine beq_eq_false_iff_ne.mpr fun same => ?_
    rw [← same, String.toList_ofList] at spelled
    obtain ⟨d, others, rfl, first, -⟩ := List.map_eq_cons_iff.mp spelled
    obtain ⟨kept, i, n, -⟩ := lower d List.mem_cons_self
    rw [kept] at first
    rcases letter with rfl | rfl
    · exact i first
    · exact n first
  have magnitude : word? cs = (digits? cs).map Float32.toBits := by
    have unsigned : word? cs = magnitude? cs := by
      unfold word?
      split
      next rest => exact absurd rfl (lower '-' List.mem_cons_self).2.2.2.1
      next rest => exact absurd rfl (lower '+' List.mem_cons_self).2.2.2.2
      next => rfl
    rw [unsigned, magnitude?, @unnamed "inf" _ _ rfl (.inl rfl), @unnamed "infinity" _ _ rfl (.inl rfl),
      @unnamed "nan" _ _ rfl (.inr rfl)]
    rfl
  rw [read?, magnitude, Option.map_map] at h
  obtain ⟨y, read, rfl⟩ := Option.map_eq_some_iff.mp h
  rw [Function.comp_apply, ofBits_toBits]
  exact isNaN_of_digits? read

namespace Language

/-- A number token holds a number. -/
def Token.isNumber : Token → Bool
  | .float x => !x.isNaN
  | _ => true

namespace Line

theorem mem_numeral {cs : List Char} : ∀ c ∈ (numeral cs).1, c.isDigit = true ∨ c = '.' := by
  have digits (cs : List Char) : ∀ c ∈ cs.takeWhile Char.isDigit, c.isDigit = true := fun c h =>
    List.all_eq_true.mp List.all_takeWhile c h
  unfold numeral
  dsimp only
  split
  · intro c found
    rcases List.mem_append.mp found with whole | found
    · exact .inl (digits _ c whole)
    · rcases List.mem_cons.mp found with rfl | fraction
      · exact .inr rfl
      · exact .inl (digits _ c fraction)
  · exact fun c found => .inl (digits _ c found)

theorem isNumber_numberToken {s : List Char} {t : Token} (numeral : ∀ c ∈ s, c.isDigit = true ∨ c = '.')
    (h : numberToken s = .ok t) : t.isNumber = true := by
  unfold numberToken at h
  dsimp only at h
  split at h
  · cases h; rfl
  next read =>
    cases h
    rw [Token.isNumber, Single.isNaN_of_read? numeral read]
    rfl
  · cases h

theorem isNumber_of_next {c : Char} {rest after : List Char} {ts : List Token} (h : next c rest = .ok (ts, after)) :
    ts.all Token.isNumber = true := by
  unfold next at h
  split at h
  · cases h; rfl
  split at h
  · cases read : numberToken (numeral (c :: rest)).1 with
    | error e => simp [read, bind, Except.bind] at h
    | ok t =>
      simp only [read, bind, Except.bind, pure, Except.pure, Except.ok.injEq, Prod.mk.injEq] at h
      rw [← h.1]
      simpa using isNumber_numberToken mem_numeral read
  split at h
  · cases read : quotedText [] rest with
    | error e => simp [read, bind, Except.bind] at h
    | ok found =>
      simp only [read, bind, Except.bind, pure, Except.pure, Except.ok.injEq, Prod.mk.injEq] at h
      rw [← h.1]
      rfl
  split at h
  · cases h; rfl
  split at h
  · have words : ∀ entry ∈ Token.reserved, entry.2.isNumber = true := by decide
    rcases name (c :: rest) with ⟨s, final⟩
    dsimp only at h
    split at h
    · cases h; rfl
    next t _ found =>
      cases h
      obtain ⟨before, last, split, -⟩ := List.lookup_eq_some_iff.mp found
      have member : (_, t) ∈ Token.reserved := split ▸ List.mem_append_right before List.mem_cons_self
      rw [List.all_cons, words _ member]
      rfl
    · cases h
      unfold identifier
      dsimp only
      split <;> rfl
  · cases read : mark c rest with
    | error e => simp [read, bind, Except.bind] at h
    | ok found =>
      simp only [read, bind, Except.bind, pure, Except.pure, Except.ok.injEq, Prod.mk.injEq] at h
      rw [← h.1]
      revert read
      unfold mark
      split <;> (intro read; cases read; try rfl)

theorem isNumber_of_tokensOf {cs : List Char} {ts : List Token} (h : tokensOf cs = .ok ts) :
    ts.all Token.isNumber = true := by
  fun_induction tokensOf cs generalizing ts with
  | case1 => cases h; rfl
  | case2 => cases h
  | case3 => cases h
  | case4 c rest first after read _ more later ih =>
    cases h
    rw [List.all_append, isNumber_of_next read, ih later, Bool.and_self]

theorem isNumber_of_ofText {cs : List Char} {line : Line} (h : ofText cs = .ok line) :
    line.tokens.all Token.isNumber = true := by
  have tokens {number : Option UInt16} {rest : List Char}
      (h : (do return { number, tokens := ← tokensOf rest } : Except Error Line) = .ok line) :
      line.tokens.all Token.isNumber = true := by
    cases read : tokensOf rest with
    | error e => rw [read] at h; cases h
    | ok ts => rw [read] at h; cases h; exact isNumber_of_tokensOf read
  unfold ofText at h
  dsimp only at h
  split at h
  · exact tokens h
  · split at h
    · exact tokens h
    · cases h

end Line

theorem isNumber_of_sourceLines {source : String} {lines : List SourceLine} (h : sourceLines source = .ok lines) :
    ∀ s ∈ lines, s.line.tokens.all Token.isNumber = true := by
  intro s member
  cases read : ((Text.lines source.toList).zipIdx 1).mapM SourceLine.ofText with
  | error e => rw [sourceLines, read] at h; cases h
  | ok all =>
    rw [sourceLines, read] at h
    cases h
    obtain ⟨text, -, made⟩ := mem_mapM_ok read s (List.mem_filter.mp member).1
    rw [SourceLine.ofText] at made
    cases line : Line.ofText text.1 with
    | error e => rw [line] at made; cases made
    | ok l => rw [line] at made; cases made; exact Line.isNumber_of_ofText line

/-- A DATA item holds a number or a text. -/
def DataItem.isNumber : DataItem → Bool
  | .number (.float x) => !x.isNaN
  | .number (.integer _) | .text _ => true
  | .number _ => false

namespace DataItem

theorem isNumber_of_next? {ts rest : List Token} {item : DataItem} (numbers : ts.all Token.isNumber = true)
    (h : next? ts = some (item, rest)) : item.isNumber = true ∧ rest.all Token.isNumber = true := by
  unfold next? at h
  split at h <;> cases h <;> simp only [List.all_cons, Bool.and_eq_true] at numbers
  · exact ⟨rfl, numbers.2.2⟩
  next x =>
    have number : x.isNaN = false := by simpa [Token.isNumber] using numbers.2.1
    exact ⟨by rw [isNumber, Single.isNaN_neg number]; rfl, numbers.2.2⟩
  · exact ⟨rfl, numbers.2⟩
  · exact numbers
  · exact ⟨rfl, numbers.2⟩
  · exact ⟨rfl, numbers.2⟩

theorem isNumber_of_list? {ts rest : List Token} {items : List DataItem} (numbers : ts.all Token.isNumber = true)
    (h : list? ts = some (items, rest)) : items.all isNumber = true ∧ rest.all Token.isNumber = true := by
  fun_induction list? ts generalizing items with
  | case1 => cases h
  | case2 => cases h
  | case3 ts item after found _ more last scanned ih =>
    cases h
    obtain ⟨first, others⟩ := isNumber_of_next? numbers found
    rw [List.all_cons, Bool.and_eq_true] at others
    obtain ⟨later, ends⟩ := ih others.2 scanned
    exact ⟨by rw [List.all_cons, first, later, Bool.and_self], ends⟩
  | case4 ts item after _ found =>
    cases h
    obtain ⟨first, others⟩ := isNumber_of_next? numbers found
    exact ⟨by rw [List.all_cons, first]; rfl, others⟩

end DataItem

theorem isNumber_of_dataItems? {start : Bool} {ts : List Token} {items : List DataItem}
    (numbers : ts.all Token.isNumber = true) (h : dataItems? start ts = some items) :
    items.all DataItem.isNumber = true := by
  fun_induction dataItems? start ts generalizing items with
  | case1 => cases h; rfl
  | case2 => cases h
  | case3 start t rest _ listed after found _ ih =>
    rw [List.all_cons, Bool.and_eq_true] at numbers
    obtain ⟨first, others⟩ := DataItem.isNumber_of_list? numbers.2 found
    obtain ⟨later, read, rfl⟩ := Option.map_eq_some_iff.mp h
    rw [List.all_append, first, ih others read, Bool.and_self]
  | case4 start t rest _ ih =>
    rw [List.all_cons, Bool.and_eq_true] at numbers
    exact ih numbers.2 h

theorem isNumber_of_sourceData {lines : List SourceLine} {items : List DataItem}
    (numbers : ∀ s ∈ lines, s.line.tokens.all Token.isNumber = true) (h : sourceData lines = .ok items) :
    ∀ item ∈ items, item.isNumber = true := by
  cases read : lines.mapM dataOfLine with
  | error e => rw [sourceData, read] at h; cases h
  | ok all =>
    simp only [sourceData, read, bind, Except.bind] at h
    split at h
    · cases h
    · cases h
      intro item member
      obtain ⟨listed, inside, member⟩ := List.mem_flatten.mp member
      obtain ⟨s, found, made⟩ := mem_mapM_ok read listed inside
      unfold dataOfLine at made
      split at made
      next items scanned =>
        cases made
        exact List.all_eq_true.mp (isNumber_of_dataItems? (numbers s found) scanned) item member
      next => cases made

theorem isNumber_of_dataValues {items : List DataItem} {c c' : Context} {values : List Value}
    (numbers : ∀ item ∈ items, item.isNumber = true) (h : items.mapM dataValue c = .ok (values, c')) :
    ∀ x, .float x ∈ values → x.isNaN = false := by
  induction items generalizing c values with
  | nil =>
    cases h
    nofun
  | cons item items ih =>
    rw [List.mapM_cons] at h
    obtain ⟨v, d, first, h⟩ := Parser.bind_eq_ok.mp h
    obtain ⟨more, e, rest, h⟩ := Parser.bind_eq_ok.mp h
    obtain ⟨rfl, rfl⟩ := Parser.pure_eq_ok.mp h
    intro x member
    rcases List.mem_cons.mp member with rfl | member
    · have number := numbers item List.mem_cons_self
      cases item with
      | number v =>
        obtain ⟨rfl, -⟩ := Parser.pure_eq_ok.mp first
        simpa [DataItem.isNumber] using number
      | text s =>
        obtain ⟨a, _, -, made⟩ := Parser.bind_eq_ok.mp first
        obtain ⟨made, -⟩ := Parser.pure_eq_ok.mp made
        cases made
    · exact ih (fun other h => numbers other (List.mem_cons_of_mem item h)) rest x member

end Language

end BasicMachine
