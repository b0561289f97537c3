import BasicMachine.Assembly.Layout
import BasicMachine.Proofs.Decoding
import Mathlib.Data.List.Induction
import Mathlib.Data.List.Nodup

/-!
# What the assembler lays out

Items can be assembled if each of them is in order by itself, no label stands twice, and every label that is named
stands somewhere, within the reach of the jumps to it. Their program is then the code of the items in a row. A label is
the size of the code before it, no matter on which side of it the jumps stand.
-/
namespace BasicMachine

theorem Opcode.eq_short {op : Opcode} (h : op.kind = .short) : ∃ short, op = .short short := by
  cases op with
  | short op => exact ⟨op, rfl⟩
  | _ => cases h

theorem Labels.find?_insert (labels : Labels) (name other : String) (address : Nat) :
    (labels.insert name address).find? other = if other = name then some address else labels.find? other := by
  rw [Labels.find?, Labels.insert, List.lookup_cons]
  by_cases same : other = name
  · rw [if_pos same, beq_iff_eq.mpr same]
  · rw [if_neg same, beq_eq_false_iff_ne.mpr same, Labels.find?]
    induction labels with
    | nil => rfl
    | cons first rest ih =>
      obtain ⟨key, value⟩ := first
      by_cases hidden : key = name
      · have skipped : (other == key) = false := beq_eq_false_iff_ne.mpr (hidden ▸ same)
        rw [List.filter_cons_of_neg (by simp [hidden]), List.lookup_cons, skipped]
        exact ih
      · rw [List.filter_cons_of_pos (by simp [hidden]), List.lookup_cons, List.lookup_cons]
        cases other == key
        · exact ih
        · rfl

namespace Assembly

namespace Item

/-- Bytes of code that an item takes. -/
def size : Item → Nat
  | instruction _ operand => 1 + operand.bytes.length
  | jump _ _ => 3
  | _ => 0

/-- The code of an item, where `address` tells the addresses of labels. -/
def bytes (address : String → Nat) : Item → List UInt8
  | instruction op operand => op.byte :: operand.bytes
  | jump op name => op.byte :: bytes16 (UInt16.ofNat (address name))
  | _ => []

def label? : Item → Option String
  | label name => some name
  | _ => none

def entry? : Item → Option String
  | entry name => some name
  | _ => none

def static? : Item → Option Nat
  | static cells => some cells
  | _ => none

/-- The opcode of an item takes what the item gives it. -/
def Suits : Item → Prop
  | instruction op operand => operand.kind = op.kind
  | jump op _ => op.kind = .short
  | _ => True

/-- What an item adds to a draft. -/
def placed? : Item → Option Placed
  | instruction op operand => (Instruction.ofParts? op operand).map .fixed
  | jump (.short op) name => some (.jump op name)
  | _ => none

theorem exists_ofParts? {op : Opcode} {operand : Operand} (h : operand.kind = op.kind) :
    ∃ i, Instruction.ofParts? op operand = some i := by
  cases op <;> cases operand <;> first | exact ⟨_, rfl⟩ | cases h

theorem length_bytes (address : String → Nat) (item : Item) : (item.bytes address).length = item.size := by
  cases item with
  | instruction op operand => exact Nat.add_comm ..
  | _ => rfl

end Item

/-- Bytes of code that items take. -/
def codeSize (items : List Item) : Nat := items.foldr (fun item n => item.size + n) 0

@[simp] theorem codeSize_nil : codeSize [] = 0 := rfl

@[simp] theorem codeSize_cons (item : Item) (items : List Item) :
    codeSize (item :: items) = item.size + codeSize items := rfl

@[simp] theorem codeSize_append (before after : List Item) :
    codeSize (before ++ after) = codeSize before + codeSize after := by
  induction before with
  | nil => simp
  | cons item rest ih => simp [ih, Nat.add_assoc]

theorem length_flatMap_bytes (address : String → Nat) (items : List Item) :
    (items.flatMap (Item.bytes address)).length = codeSize items := by
  induction items with
  | nil => rfl
  | cons item rest ih => rw [List.flatMap_cons, List.length_append, Item.length_bytes, ih, codeSize_cons]

theorem filterMap_append_singleton {α : Type} (f : Item → Option α) (items : List Item) (item : Item) :
    (items ++ [item]).filterMap f = items.filterMap f ++ (f item).toList := by
  rw [List.filterMap_append, List.filterMap_cons, List.filterMap_nil]
  cases f item <;> rfl

/-- A label stands among items, with so many bytes of code before it. -/
def StandsAt (items : List Item) (name : String) (address : Nat) : Prop :=
  ∃ before after, items = before ++ .label name :: after ∧ address = codeSize before

/-- The label at which execution starts. -/
def lastEntry (items : List Item) : Option String := (items.filterMap Item.entry?).getLast?

def lastStatic (items : List Item) : Nat := (items.filterMap Item.static?).getLast?.getD 0

/-- Items that the first pass takes. -/
structure Orderly (items : List Item) : Prop where
  distinct : (items.filterMap Item.label?).Nodup
  suits : ∀ item ∈ items, item.Suits

/-- Items that both passes take. -/
structure Assembles (items : List Item) : Prop extends Orderly items where
  targets : ∀ op name, .jump op name ∈ items → .label name ∈ items
  reach : ∀ op name address, .jump op name ∈ items → StandsAt items name address → address ≤ 65535
  start : ∀ name, lastEntry items = some name → .label name ∈ items

/-- A draft of items. -/
structure Drafts (items : List Item) (d : Draft) : Prop where
  size : d.size = codeSize items
  labels : ∀ name address, d.labels.find? name = some address ↔ StandsAt items name address
  code : d.code.reverse = items.filterMap Item.placed?
  entry : d.entry = lastEntry items
  staticSize : d.staticSize = lastStatic items

theorem standsAt_append {items : List Item} {item : Item} {name : String} {address : Nat} :
    StandsAt (items ++ [item]) name address ↔
      StandsAt items name address ∨ item = .label name ∧ address = codeSize items := by
  constructor
  · rintro ⟨before, after, split, rfl⟩
    rcases List.eq_nil_or_concat after with rfl | ⟨rest, last, rfl⟩
    · obtain ⟨rfl, same⟩ := List.append_inj' split rfl
      exact .inr ⟨(List.cons.inj same).1, rfl⟩
    · rw [List.concat_eq_append, ← List.cons_append, ← List.append_assoc] at split
      exact .inl ⟨before, rest, (List.append_inj' split rfl).1, rfl⟩
  · rintro (⟨before, after, rfl, rfl⟩ | ⟨rfl, rfl⟩)
    · exact ⟨before, after ++ [item], by simp, rfl⟩
    · exact ⟨items, [], rfl, rfl⟩

theorem mem_iff_standsAt {items : List Item} {name : String} :
    .label name ∈ items ↔ ∃ address, StandsAt items name address := by
  constructor
  · intro member
    obtain ⟨before, after, split⟩ := List.append_of_mem member
    exact ⟨_, before, after, split, rfl⟩
  · rintro ⟨address, before, after, rfl, -⟩
    simp

theorem mem_labels_iff {items : List Item} {name : String} :
    name ∈ items.filterMap Item.label? ↔ .label name ∈ items := by
  rw [List.mem_filterMap]
  constructor
  · rintro ⟨item, member, found⟩
    cases item with
    | label other => cases found; exact member
    | _ => cases found
  · intro member
    exact ⟨_, member, rfl⟩

theorem Orderly.of_append {items : List Item} {item : Item} (h : Orderly (items ++ [item])) : Orderly items := by
  refine ⟨?_, fun other member => h.suits other (List.mem_append_left _ member)⟩
  have distinct := h.distinct
  rw [List.filterMap_append] at distinct
  exact distinct.of_append_left

/-- An item that is no label keeps items in order if it suits. -/
theorem Orderly.append {items : List Item} {item : Item} (h : Orderly items) (suits : item.Suits)
    (fresh : ∀ name, item = .label name → .label name ∉ items) : Orderly (items ++ [item]) := by
  refine ⟨?_, fun other member => ?_⟩
  · rw [List.filterMap_append]
    refine List.nodup_append'.mpr ⟨h.distinct, ?_, ?_⟩
    · cases item with
      | label name => exact List.nodup_singleton name
      | _ => exact List.nodup_nil
    · intro name inside last
      have same := mem_labels_iff.mp last
      exact fresh name (List.mem_singleton.mp same).symm (mem_labels_iff.mp inside)
  · rcases List.mem_append.mp member with inside | last
    · exact h.suits other inside
    · exact List.mem_singleton.mp last ▸ suits

namespace Drafts

variable {items : List Item} {d : Draft}

theorem isSome_find? (h : Drafts items d) {name : String} :
    (d.labels.find? name).isSome = true ↔ .label name ∈ items := by
  rw [mem_iff_standsAt, Option.isSome_iff_exists]
  exact exists_congr fun address => h.labels name address

/-- A draft keeps its labels if an item is no label. -/
theorem labels_append (h : Drafts items d) {item : Item} (other : item.label? = none) (name : String) (address : Nat) :
    d.labels.find? name = some address ↔ StandsAt (items ++ [item]) name address := by
  rw [h.labels, standsAt_append]
  refine ⟨.inl, fun stands => stands.resolve_right ?_⟩
  rintro ⟨rfl, -⟩
  cases other

/-- A draft after one more item, from what the item changes. -/
theorem next (h : Drafts items d) {item : Item} {d' : Draft} (size : d'.size = d.size + item.size)
    (labels : ∀ name address, d'.labels.find? name = some address ↔ StandsAt (items ++ [item]) name address)
    (code : d'.code = item.placed?.toList ++ d.code) (entry : d'.entry = item.entry?.or d.entry)
    (staticSize : d'.staticSize = item.static?.getD d.staticSize) : Drafts (items ++ [item]) d' := by
  refine ⟨?_, labels, ?_, ?_, ?_⟩
  · rw [size, h.size, codeSize_append, codeSize_cons, codeSize_nil, Nat.add_zero]
  · rw [code, List.reverse_append, h.code, filterMap_append_singleton]
    cases item.placed? <;> rfl
  · rw [entry, h.entry, lastEntry, lastEntry, filterMap_append_singleton, List.getLast?_append]
    cases item.entry? <;> rfl
  · rw [staticSize, h.staticSize, lastStatic, lastStatic, filterMap_append_singleton, List.getLast?_append]
    cases item.static? <;> rfl

/-- One item more. -/
theorem add (h : Drafts items d) {item : Item} (orderly : Orderly (items ++ [item])) :
    ∃ d', d.add item = .ok d' ∧ Drafts (items ++ [item]) d' := by
  have suits := orderly.suits item (by simp)
  cases item with
  | label name =>
    have fresh : ¬(d.labels.find? name).isSome = true := by
      rw [h.isSome_find?, ← mem_labels_iff]
      have distinct := orderly.distinct
      rw [List.filterMap_append] at distinct
      exact fun inside => (List.nodup_append'.mp distinct).2.2 inside (by simp [Item.label?])
    refine ⟨_, if_neg fresh, h.next rfl (fun other address => ?_) rfl rfl rfl⟩
    rw [standsAt_append, Labels.find?_insert]
    by_cases same : other = name
    · subst same
      have absent : ¬StandsAt items other address := fun stands =>
        fresh (h.isSome_find?.mpr (mem_iff_standsAt.mpr ⟨address, stands⟩))
      simp only [if_true, Option.some.injEq, absent, false_or, true_and, h.size, eq_comm]
    · simp only [if_neg same, h.labels, Item.label.injEq, Ne.symm same, false_and, or_false]
  | instruction op operand =>
    obtain ⟨i, made⟩ := Item.exists_ofParts? suits
    have size : i.size = (Item.instruction op operand).size := by
      obtain ⟨rfl, rfl⟩ := Instruction.ofParts?_eq_some_iff.mp made
      exact Nat.add_comm ..
    have added : d.add (.instruction op operand) = .ok { d with code := .fixed i :: d.code, size := d.size + i.size } := by
      rw [Draft.add, made]
    refine ⟨_, added, h.next (congrArg (d.size + ·) size) (h.labels_append rfl) ?_ rfl rfl⟩
    rw [Item.placed?, made]
    rfl
  | jump op name =>
    obtain ⟨short, rfl⟩ := Opcode.eq_short suits
    exact ⟨_, rfl, h.next rfl (h.labels_append rfl) rfl rfl rfl⟩
  | entry name => exact ⟨_, rfl, h.next rfl (h.labels_append rfl) rfl rfl rfl⟩
  | static cells => exact ⟨_, rfl, h.next rfl (h.labels_append rfl) rfl rfl rfl⟩

theorem nil : Drafts [] {} := by
  refine ⟨rfl, fun name address => ?_, rfl, rfl, rfl⟩
  constructor
  · intro found
    cases found
  · rintro ⟨before, after, split, -⟩
    simp at split

end Drafts

/-- An item that does not fit after others is refused. -/
theorem Drafts.orderly_of_add {items : List Item} {item : Item} {d d' : Draft} (h : Drafts items d) (orderly : Orderly items)
    (added : d.add item = .ok d') : Orderly (items ++ [item]) := by
  cases item with
  | label name =>
    rw [Draft.add] at added
    split at added
    · cases added
    next fresh =>
      refine orderly.append trivial fun other same => ?_
      cases same
      rwa [h.isSome_find?] at fresh
  | instruction op operand =>
    refine orderly.append ?_ fun other same => nomatch same
    rw [Draft.add] at added
    split at added
    next i made =>
      obtain ⟨rfl, rfl⟩ := Instruction.ofParts?_eq_some_iff.mp made
      cases i <;> rfl
    · cases added
  | jump op name =>
    refine orderly.append ?_ fun other same => nomatch same
    cases op with
    | short op => rfl
    | _ => cases added
  | entry name => exact orderly.append trivial fun other same => nomatch same
  | static cells => exact orderly.append trivial fun other same => nomatch same

/-- The first pass drafts items that are in order, and refuses all others. -/
theorem foldlM_add_cases (items : List Item) :
    Orderly items ∧ (∃ d, items.foldlM Draft.add {} = .ok d ∧ Drafts items d) ∨
      ¬Orderly items ∧ ∃ e, items.foldlM Draft.add {} = .error e := by
  induction items using List.reverseRecOn with
  | nil => exact .inl ⟨⟨List.nodup_nil, by simp⟩, _, rfl, .nil⟩
  | append_singleton items item ih =>
    rw [List.foldlM_append]
    rcases ih with ⟨orderly, d, drafted, drafts⟩ | ⟨disorderly, e, failed⟩
    · rw [drafted]
      by_cases next : Orderly (items ++ [item])
      · obtain ⟨d', added, drafts'⟩ := drafts.add next
        exact .inl ⟨next, d', by simp [added, bind, Except.bind, pure, Except.pure], drafts'⟩
      · refine .inr ⟨next, ?_⟩
        cases added : d.add item with
        | error e => exact ⟨e, by simp [added, bind, Except.bind]⟩
        | ok d' => exact absurd (drafts.orderly_of_add orderly added) next
    · rw [failed]
      exact .inr ⟨fun next => disorderly next.of_append, e, rfl⟩

/-- The address of a label in a draft. -/
def Draft.address (d : Draft) (name : String) : Nat := (d.labels.find? name).getD 0

/-- Every label that a piece of code names has an address that a jump can hold. -/
def Draft.Reaches (d : Draft) : Placed → Prop
  | .fixed _ => True
  | .jump _ name => ∃ address, d.labels.find? name = some address ∧ address ≤ 0xffff

/-- A piece of code with the address of its label. -/
def Placed.linked (address : String → Nat) : Placed → Instruction
  | fixed i => i
  | jump op name => .short op (UInt16.ofNat (address name)).toInt16

section
variable {d : Draft} {placed : Placed}

theorem resolve_of_reaches (h : d.Reaches placed) : d.resolve placed = .ok (placed.linked d.address) := by
  cases placed with
  | fixed i => rfl
  | jump op name =>
    obtain ⟨address, found, near⟩ := h
    have known : d.address name = address := by rw [Draft.address, found, Option.getD_some]
    have target : d.target name = .ok (UInt16.ofNat address).toInt16 := by
      simp only [Draft.target, Draft.label, found, bind, Except.bind, if_neg (Nat.not_lt_of_le near), pure, Except.pure]
    simp only [Draft.resolve, target, Placed.linked, known, bind, Except.bind, pure, Except.pure]

theorem reaches_of_resolve {i : Instruction} (h : d.resolve placed = .ok i) : d.Reaches placed := by
  cases placed with
  | fixed i => trivial
  | jump op name =>
    simp only [Draft.resolve, Draft.target, Draft.label] at h
    cases found : d.labels.find? name with
    | none =>
      rw [found] at h
      cases h
    | some address =>
      rw [found] at h
      refine ⟨address, found, Nat.le_of_not_lt fun far => ?_⟩
      simp only [bind, Except.bind, if_pos far] at h
      cases h

theorem mapM_resolve {code : List Placed} (h : ∀ placed ∈ code, d.Reaches placed) :
    code.mapM d.resolve = .ok (code.map (Placed.linked d.address)) := by
  induction code with
  | nil => rfl
  | cons placed rest ih =>
    rw [List.mapM_cons, resolve_of_reaches (h placed (by simp)), ih fun other member => h other (by simp [member])]
    rfl

theorem reaches_of_mapM {code : List Placed} {linked : Code} (h : code.mapM d.resolve = .ok linked) :
    ∀ placed ∈ code, d.Reaches placed := by
  induction code generalizing linked with
  | nil => simp
  | cons first rest ih =>
    rw [List.mapM_cons] at h
    cases resolved : d.resolve first with
    | error e =>
      rw [resolved] at h
      cases h
    | ok i =>
      cases others : rest.mapM d.resolve with
      | error e =>
        rw [resolved, others] at h
        cases h
      | ok linked =>
        intro placed member
        rcases List.mem_cons.mp member with rfl | member
        · exact reaches_of_resolve resolved
        · exact ih others placed member

end

section
variable {items : List Item} {d : Draft}

theorem mem_placed_iff (orderly : Orderly items) {op : Opcode} {name : String} :
    .jump op name ∈ items ↔ ∃ short, op = .short short ∧ .jump short name ∈ items.filterMap Item.placed? := by
  constructor
  · intro member
    obtain ⟨short, rfl⟩ := Opcode.eq_short (orderly.suits _ member)
    exact ⟨short, rfl, List.mem_filterMap.mpr ⟨_, member, rfl⟩⟩
  · rintro ⟨short, rfl, member⟩
    obtain ⟨item, inside, made⟩ := List.mem_filterMap.mp member
    cases item with
    | jump op other =>
      cases op with
      | short op => cases made; exact inside
      | _ => cases made
    | instruction op operand =>
      obtain ⟨i, -, same⟩ := Option.map_eq_some_iff.mp made
      cases same
    | _ => cases made

/-- The pieces of a draft reach their labels if the jumps among the items do. -/
theorem Drafts.reaches_iff (h : Drafts items d) (orderly : Orderly items) :
    (∀ placed ∈ d.code.reverse, d.Reaches placed) ↔
      (∀ op name, .jump op name ∈ items → .label name ∈ items) ∧
        ∀ op name address, .jump op name ∈ items → StandsAt items name address → address ≤ 65535 := by
  rw [h.code]
  constructor
  · intro all
    have reaches {op : Opcode} {name : String} (member : .jump op name ∈ items) :
        ∃ address, StandsAt items name address ∧ address ≤ 0xffff ∧ d.labels.find? name = some address := by
      obtain ⟨short, rfl, inside⟩ := (mem_placed_iff orderly).mp member
      obtain ⟨address, found, near⟩ := all _ inside
      exact ⟨address, (h.labels name address).mp found, near, found⟩
    refine ⟨fun op name member => ?_, fun op name address member stands => ?_⟩
    · obtain ⟨address, stands, -⟩ := reaches member
      exact mem_iff_standsAt.mpr ⟨address, stands⟩
    · obtain ⟨other, -, near, found⟩ := reaches member
      rw [(h.labels name address).mpr stands] at found
      cases found
      exact near
  · rintro ⟨targets, reach⟩ placed member
    cases placed with
    | fixed i => trivial
    | jump short name =>
      have inside := (mem_placed_iff orderly).mpr ⟨short, rfl, member⟩
      obtain ⟨address, stands⟩ := mem_iff_standsAt.mp (targets _ _ inside)
      exact ⟨address, (h.labels name address).mpr stands, reach _ _ _ inside stands⟩

/-- The linked pieces of items are the code of the items. -/
theorem bytes_linked (address : String → Nat) (suits : ∀ item ∈ items, item.Suits) :
    Code.bytes ((items.filterMap Item.placed?).map (Placed.linked address)) = items.flatMap (Item.bytes address) := by
  induction items with
  | nil => rfl
  | cons item rest ih =>
    have later := ih fun other member => suits other (by simp [member])
    have first := suits item (by simp)
    rw [List.flatMap_cons, ← later]
    cases item with
    | instruction op operand =>
      obtain ⟨i, made⟩ := Item.exists_ofParts? first
      have placed : (Item.instruction op operand).placed? = some (.fixed i) := by rw [Item.placed?, made]; rfl
      obtain ⟨rfl, rfl⟩ := Instruction.ofParts?_eq_some_iff.mp made
      rw [List.filterMap_cons_some placed]
      rfl
    | jump op name =>
      obtain ⟨short, rfl⟩ := Opcode.eq_short first
      rfl
    | label _ | entry _ | static _ => rfl

end

/-- A program that is what items say. -/
structure LaysOut (items : List Item) (p : Program) : Prop where
  /-- The items' code in a row, with the addresses of the labels in the jumps. -/
  code : ∃ address : String → Nat, (∀ name a, StandsAt items name a → address name = a) ∧
    p.code.toList = items.flatMap (Item.bytes address)
  /-- Labels stand where the code before them ends, and there are no others. -/
  labels : ∀ name address, p.label name = .ok address ↔ StandsAt items name address
  /-- A jump holds the address of its label. -/
  jumps : ∀ before op name after address, items = before ++ .jump op name :: after → StandsAt items name address →
    p.fetch (codeSize before) = op.byte ∧ (p.halfAt (codeSize before + 1)).toNat = address
  entry : (lastEntry items = none ∧ p.entry = 0) ∨ ∃ name, lastEntry items = some name ∧ StandsAt items name p.entry
  staticSize : p.staticSize = lastStatic items

section
variable {items : List Item} {d : Draft} {p : Program}

theorem Drafts.address_eq (h : Drafts items d) {name : String} {address : Nat} (stands : StandsAt items name address) :
    d.address name = address := by
  rw [Draft.address, (h.labels name address).mpr stands, Option.getD_some]

/-- A program with the code and the labels of a draft is what the items say. -/
theorem Drafts.laysOut (h : Drafts items d) (assembles : Assembles items)
    (code : p.code = (items.flatMap (Item.bytes d.address)).toArray) (labels : p.labels = d.labels)
    (entry : (lastEntry items = none ∧ p.entry = 0) ∨ ∃ name, lastEntry items = some name ∧ StandsAt items name p.entry)
    (staticSize : p.staticSize = lastStatic items) : LaysOut items p := by
  have bytes : p.code.toList = items.flatMap (Item.bytes d.address) := by rw [code]
  refine ⟨⟨d.address, fun name a => h.address_eq, bytes⟩, fun name address => ?_, ?_, entry, staticSize⟩
  · rw [← h.labels, Program.label, labels]
    cases d.labels.find? name <;> simp
  · intro before op name after address split stands
    have near : address ≤ 65535 := assembles.reach op name address (by simp [split]) stands
    have lies : p.HasBytes (codeSize before) (op.byte :: bytes16 (UInt16.ofNat address)) := by
      refine ⟨before.flatMap (Item.bytes d.address), after.flatMap (Item.bytes d.address), ?_, length_flatMap_bytes ..⟩
      rw [bytes, split, List.flatMap_append, List.flatMap_cons, List.append_assoc, Item.bytes, h.address_eq stands]
    refine ⟨lies.fetch, ?_⟩
    rw [Program.halfAt_of_bytes lies.tail, UInt16.toNat_ofNat_of_lt' (Nat.lt_succ_of_le near)]

theorem assemble_of_assembles (h : Assembles items) : ∃ p, assemble items = .ok p ∧ LaysOut items p := by
  rcases foldlM_add_cases items with ⟨orderly, d, drafted, drafts⟩ | ⟨disorderly, -⟩
  · have resolved := mapM_resolve ((drafts.reaches_iff orderly).mpr ⟨h.targets, h.reach⟩)
    have code := bytes_linked d.address orderly.suits
    rw [← drafts.code] at code
    rw [assemble, drafted]
    simp only [bind, Except.bind, resolved, drafts.entry, drafts.staticSize]
    cases last : lastEntry items with
    | none => exact ⟨_, rfl, drafts.laysOut h (congrArg _ code) rfl (.inl ⟨last, rfl⟩) rfl⟩
    | some name =>
      obtain ⟨address, stands⟩ := mem_iff_standsAt.mp (h.start name last)
      have found : d.label name = .ok address := by rw [Draft.label, (drafts.labels name address).mpr stands]
      simp only [found]
      exact ⟨_, rfl, drafts.laysOut h (congrArg _ code) rfl (.inr ⟨name, last, stands⟩) rfl⟩
  · exact absurd h.toOrderly disorderly

theorem assembles_of_assemble (h : assemble items = .ok p) : Assembles items := by
  rw [assemble] at h
  rcases foldlM_add_cases items with ⟨orderly, d, drafted, drafts⟩ | ⟨-, e, failed⟩
  · rw [drafted] at h
    simp only [bind, Except.bind] at h
    cases resolved : d.code.reverse.mapM d.resolve with
    | error e => simp only [resolved] at h; cases h
    | ok code =>
      obtain ⟨targets, reach⟩ := (drafts.reaches_iff orderly).mp (reaches_of_mapM resolved)
      refine ⟨orderly, targets, reach, fun name last => ?_⟩
      simp only [resolved, drafts.entry, last, Draft.label] at h
      cases found : d.labels.find? name with
      | none => simp only [found] at h; cases h
      | some address => exact mem_iff_standsAt.mpr ⟨address, (drafts.labels name address).mp found⟩
  · rw [failed] at h
    cases h

end

/-- Items are assembled if they are in order and every label that they name stands among them, within reach. The program
is then what the items say. -/
theorem assemble_two_pass (items : List Item) :
    ((∃ p, assemble items = .ok p) ↔ Assembles items) ∧ ∀ p, assemble items = .ok p → LaysOut items p := by
  refine ⟨⟨fun ⟨p, made⟩ => assembles_of_assemble made, fun h => ?_⟩, fun p made => ?_⟩
  · obtain ⟨p, made, -⟩ := assemble_of_assembles h
    exact ⟨p, made⟩
  · obtain ⟨q, again, laysOut⟩ := assemble_of_assembles (assembles_of_assemble made)
    rw [made] at again
    cases again
    exact laysOut

/-- A loop that is entered in its middle. -/
def loopItems : List Item :=
  [.static 3, .label "top", .jump (.short .jmp) "end", .instruction (.plain .nop) .none, .label "end",
    .jump (.short .jz) "top", .entry "top", .entry "end", .static 9]

theorem assemble_two_pass_loop : ∃ p, assemble loopItems = .ok p ∧ LaysOut loopItems p ∧ p.entry = 4 := by
  obtain ⟨p, made⟩ : ∃ p, assemble loopItems = .ok p := ⟨_, rfl⟩
  refine ⟨p, made, (assemble_two_pass loopItems).2 p made, ?_⟩
  cases made
  rfl

end Assembly

end BasicMachine
