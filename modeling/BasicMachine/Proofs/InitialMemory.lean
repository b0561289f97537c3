import BasicMachine.Machine.Scripted
import BasicMachine.Proofs.EntryBlock
import BasicMachine.Proofs.Occurrences
import BasicMachine.Proofs.Wording

/-!
# Memory before the first command

The entry block of a program sets the frame pointer and the DATA cursor, clears the cells behind the DATA items, and then
lays the texts and the items into their cells. A program comes from there to its first command with its stacks empty, and
each text and each item is where the code looks for it.
-/
namespace BasicMachine

open Language

namespace Session

variable {σ : Type} {env : Environment σ} {p : Program} {limit : Nat} {code code' : Code} {f g : Nat → Option Value}

/-- The code sets cells, on a machine with `limit` cells and with room for one value, and leaves the stack as it is. -/
def Lays (env : Environment σ) (p : Program) (limit : Nat) (code : Code) (f : Nat → Option Value) : Prop :=
  ∀ s : Session σ, Before p code s → s.machine.stack.size < s.machine.stack.limit → limit ≤ s.machine.memory.size →
    ∃ memory idx, Sets f s.machine.memory memory ∧
      Leads env p s code.size s.machine.stack { s.world with memory } s.machine.a idx

theorem lays_append (first : Lays env p limit code f) (second : Lays env p limit code' g) :
    Lays env p limit (code ++ code') fun x => (g x).or (f x) := by
  intro s before room fits
  obtain ⟨memory, idx, sets, n, clock, goes⟩ := first s before.first room fits
  obtain ⟨memory', idx', sets', leads⟩ := second _ (before.second s.machine.stack { s.world with memory } s.machine.a idx clock) room
    (Nat.le_trans fits (Nat.le_of_eq sets.size.symm))
  rw [Code.size_append]
  exact ⟨memory', idx', sets.trans sets', .after goes leads⟩

/-- Code that sets cells lays what it says. -/
theorem lays_setup (small : limit ≤ maxPointer + 1) (setup : Setup limit code f) : Lays env p limit code f := by
  induction setup with
  | nil => exact fun s _ _ _ => ⟨_, _, .none s.machine.memory, .refl s⟩
  | @store i v address rest f push inside later ih =>
    refine @lays_append _ env p limit [i, .pointer .store address] rest _ _ ?_ ih
    intro s before room fits
    have found := before.lies.cons.1
    rw [push.stored] at found
    have first : Leads env p s i.size (s.machine.stack.insert v) s.world s.machine.a s.machine.idx :=
      .of_effect found push.silent before.off ((push.effect _ _).trans (Action.push_eq_ok (m := s.machine.past _) room))
    refine ⟨_, s.machine.idx, .single v (Nat.lt_of_lt_of_le inside fits), before.leads first fun clock before => ?_⟩
    exact before.leads (before.store (by omega) (Nat.lt_of_lt_of_le inside fits) rfl) fun _ _ => .refl _
  | @fill i values address rest f fills inside later ih =>
    refine @lays_append _ env p limit [.pointer .setIdx address, i] rest _ _ ?_ ih
    intro s before room fits
    have some := fills.some
    have first : Leads env p s 4 s.machine.stack s.world s.machine.a address := before.setIdx (by omega)
    obtain ⟨n, clock, goes⟩ := first
    let t := s.beyond 4 s.machine.stack s.world s.machine.a address clock
    have next : Before p [i] t := ⟨before.lies.cons.2, before.off⟩
    obtain ⟨silent, memory, idx, sets, effect⟩ := fills.effect (m := t.machine.past (t.machine.pc + i.size))
      (show address ≤ maxPointer by omega) (Nat.le_trans inside fits)
    exact ⟨memory, idx, sets, .after goes (.of_effect next.lies.cons.1 silent before.off (effect _))⟩

end Session

namespace Language

/-- The text lies in memory from the address on. -/
def HoldsText (memory : Array Value) (address : Nat) (text : String) : Prop :=
  ∀ i v, (textValues text)[i]? = some v → memory[address + i]? = some v

/-- The value stands for the item. -/
def DataItem.Valued (last : Context) : DataItem → Value → Prop
  | .number v, w => w = v
  | .text s, w => ∃ address, w = .pointer address ∧ (s, address) ∈ last.texts

theorem valued_of_dataValues {items : List DataItem} {c c' : Context} {values : List Value}
    (h : items.mapM dataValue c = .ok (values, c')) :
    c.Within c' ∧ ∀ last, c'.Within last → List.Forall₂ (DataItem.Valued last) items values := by
  induction items generalizing c values with
  | nil =>
    cases h
    exact ⟨.refl _, fun _ _ => .nil⟩
  | cons item rest ih =>
    rw [List.mapM_cons] at h
    obtain ⟨v, d, first, h⟩ := Parser.bind_eq_ok.mp h
    obtain ⟨more, e, later, h⟩ := Parser.bind_eq_ok.mp h
    obtain ⟨rfl, rfl⟩ := Parser.pure_eq_ok.mp h
    obtain ⟨within, others⟩ := ih later
    have own : c.Within d ∧ ∀ last, d.Within last → item.Valued last v := by
      cases item with
      | number w =>
        obtain ⟨rfl, rfl⟩ := Parser.pure_eq_ok.mp first
        exact ⟨.refl _, fun _ _ => rfl⟩
      | text s =>
        obtain ⟨address, d', interned, first⟩ := Parser.bind_eq_ok.mp first
        obtain ⟨rfl, rfl⟩ := Parser.pure_eq_ok.mp first
        obtain ⟨takes, there⟩ := Parser.intern_takes interned
        exact ⟨takes.within, fun last inside => ⟨address, rfl, there last inside⟩⟩
    exact ⟨own.1.trans within, fun last inside => .cons (own.2 last (within.trans inside)) (others last inside)⟩

/-- The machine comes through the entry block to the first command, with the cells set and its stacks as they were. -/
theorem Finished.lays {σ : Type} {env : Environment σ} {c : Context} {values : List Value} {p : Program}
    (h : Finished c values p) (small : p.staticSize ≤ maxPointer + 1)
    (stored : ∀ v ∈ values, (Instruction.push v).stored = .push v) {s : Session σ} (pc : s.machine.pc = p.entry)
    (off : s.machine.tracing = false) (room : s.machine.stack.size < s.machine.stack.limit)
    (fits : p.staticSize ≤ s.machine.memory.size) :
    ∃ n m, Session.Goes env p n s ⟨m, s.host⟩ ∧ m.pc = 0 ∧ m.stack = s.machine.stack ∧ m.calls = s.machine.calls ∧
      m.heap = s.machine.heap ∧ Sets (laidEntry p.staticSize c.texts.reverse values) s.machine.memory m.memory := by
  obtain ⟨orderly, -, -⟩ := h.settled.whole
  obtain ⟨row, fills, -⟩ := orderly.filled
  obtain ⟨-, -, linked⟩ := link_eq_ok h.linked
  have start : p.entry = c.main.size := by rw [linked]
  rw [h.size_eq] at small fits ⊢
  have inside (text : String × Nat) (member : text ∈ c.texts.reverse) :
      text.2 + Parser.textCells text.1 ≤ c.scopes.highWater := (orderly.textBlock (List.mem_reverse.mp member)).2
  obtain ⟨setup, split, sets, -⟩ := setup_entryCode fills.le inside stored
  have lays : Session.Lays env p _ setup _ := Session.lays_setup small sets
  have lies := (hasCode_of_link h.linked).append.2
  rw [Steps.size_place, Nat.zero_add, ← start, ← pc, Context.entry, split] at lies
  obtain ⟨memory, idx, laid, n, clock, goes⟩ := lays s ⟨lies.append.1, off⟩ room fits
  let t : Session σ := s.beyond setup.size s.machine.stack { s.world with memory } s.machine.a idx clock
  have jumps : Session.Goes env p 1 t ⟨{ t.machine.past (t.machine.pc + 3) with pc := 0 }, t.host⟩ :=
    Session.goes_of_effect (s := t) lies.append.2.cons.1 rfl off rfl
  exact ⟨n + 1, _, goes.trans jumps, rfl, rfl, rfl, rfl, laid⟩

/-- The item is in the cell: a number itself, and a text as the address where it lies. -/
def DataItem.Lies (memory : Array Value) (cell : Nat) : DataItem → Prop
  | .number v => memory[cell]? = some v
  | .text s => ∃ address, memory[cell]? = some (.pointer address) ∧ HoldsText memory address s

/-- What INPUT shows first: the text that stands behind its word, or else a question mark. -/
def promptText : List Token → String
  | .string s :: _ => s
  | _ => "? "

/-- Memory as the first command of the program finds it. -/
structure Compilation.Initial {source : String} {p : Program} (k : Compilation source p) (memory : Array Value) : Prop where
  frame : memory[frameCell]? = some (.pointer 0)
  cursor : memory[cursorCell]? = some (.integer 0)
  items : ∀ i (item : DataItem), k.items[i]? = some item → item.Lies memory (dataBase + i)
  texts : ∀ text address, (text, address) ∈ k.last.texts → HoldsText memory address text
  /-- A text in an expression becomes one PUSHP, of the address where it lies. -/
  literals : ∀ {fuel c c' e text}, c.rest.head? = some (.string text) → Parser.operand fuel c = .ok (e, c') →
    c'.Within k.last → ∃ address, e.code = [.fixed (.pointer .pushP address)] ∧ HoldsText memory address text
  /-- So does the prompt of INPUT. -/
  prompts : ∀ {fuel c c'}, Parser.input fuel c = .ok ((), c') → c'.Within k.last →
    ∃ address, .prompt address :: c.commands <:+ c'.commands ∧ HoldsText memory address (promptText c.rest)
  zeros : ∀ x, dataBase + k.items.length ≤ x → x < p.staticSize →
    (∀ text address, (text, address) ∈ k.last.texts → x < address ∨ address + Parser.textCells text ≤ x) →
    memory[x]? = some (.integer 0)
  unset : ∀ x, p.staticSize ≤ x → x < memory.size → memory[x]? = some .unset

namespace Parser

variable {c c' : Context}

/-- A text in an expression. -/
theorem operand_text {fuel : Nat} {e : Expr} {text : String} (next : c.rest.head? = some (.string text))
    (ran : operand fuel c = .ok (e, c')) : ∃ address, e = .text address ∧ ∀ last, c'.Within last → (text, address) ∈ last.texts := by
  cases fuel with
  | zero => exact absurd ran fail_ne_ok
  | succ fuel =>
    replace ran := (peek_bind _).symm.trans ran
    rw [next] at ran
    dsimp only at ran
    rw [skip_bind] at ran
    obtain ⟨address, d, interned, ran⟩ := bind_eq_ok.mp ran
    rw [accountCode_bind] at ran
    obtain ⟨rfl, rfl⟩ := pure_eq_ok.mp ran
    exact ⟨address, rfl, fun last inside => (intern_takes interned).2 last inside.of_counting⟩

/-- The prompt of INPUT. -/
theorem input_prompt {fuel : Nat} (ran : input fuel c = .ok ((), c')) :
    ∃ address, .prompt address :: c.commands <:+ c'.commands ∧
      ∀ last, c'.Within last → (promptText c.rest, address) ∈ last.texts := by
  have shown {d : Context} {text : String} (same : d.commands = c.commands)
      (ran : (do emit (.prompt (← intern text)); inputTargets fuel : Parser Unit) d = .ok ((), c')) :
      ∃ address, .prompt address :: c.commands <:+ c'.commands ∧ ∀ last, c'.Within last → (text, address) ∈ last.texts := by
    obtain ⟨address, e, interned, ran⟩ := bind_eq_ok.mp ran
    rw [emit_bind] at ran
    obtain ⟨takes, there⟩ := intern_takes interned
    have adds : Adds (.whole c' [] 0) True (inputTargets fuel) fun _ => True := adds_inputTargets fuel
    have within := adds.within ran
    refine ⟨address, ?_, fun last inside => ?_⟩
    · have commands : (e.emitting (.prompt address)).commands = .prompt address :: c.commands := by
        rw [← same, ← takes.commands]
        rfl
      exact commands ▸ within.commands
    · exact there last ((Context.Within.emitting e _).trans (within.trans inside))
  rw [input, peek_bind] at ran
  cases rest : c.rest with
  | nil =>
    rw [rest] at ran
    exact shown rfl ran
  | cons t more =>
    rw [rest] at ran
    cases t with
    | string s =>
      dsimp only [List.head?_cons] at ran
      rw [skip_bind, accept_bind] at ran
      split at ran
      · exact shown (d := c.past.past) rfl ran
      · obtain ⟨_, d, expected, ran⟩ := bind_eq_ok.mp ran
        obtain ⟨-, rfl⟩ := expect_eq_ok.mp expected
        exact shown (d := c.past.past) rfl ran
    | _ => exact shown rfl ran

end Parser

namespace Compilation

variable {source : String} {p : Program} (k : Compilation source p)

/-- Texts of a program lie apart. -/
theorem texts_apart : k.last.texts.reverse.Pairwise fun a b =>
    Block.Apart ⟨a.2, Parser.textCells a.1⟩ ⟨b.2, Parser.textCells b.1⟩ := by
  obtain ⟨orderly, -, -⟩ := k.finished.settled.whole
  obtain ⟨row, fills, perm⟩ := orderly.filled
  have blocks : k.last.blocks.Pairwise Block.Apart := (perm.pairwise_iff fun h => Block.Apart.symm h).mp fills.pairwise
  have tables : (k.last.texts.map fun entry => (⟨entry.2, Parser.textCells entry.1⟩ : Block)).Pairwise Block.Apart :=
    (List.pairwise_append.mp (List.pairwise_append.mp (List.pairwise_append.mp blocks).1).2.1).2.1
  rw [List.pairwise_reverse]
  exact (List.pairwise_map.mp tables).imp Block.Apart.symm

/-- Code holds the DATA values as they are. -/
theorem stored_values (small : p.staticSize ≤ maxPointer + 1) : ∀ v ∈ k.values, (Instruction.push v).stored = .push v :=
  k.finished.stored_values small

theorem start_within : k.start.Within k.last := by
  have adds : Parser.Adds k.setting True (k.lines.forM compileLine) fun _ => True :=
    adds_compileLines (agrees_of_sourceFunctions k.declared)
  exact adds.within k.compiled

theorem valued : List.Forall₂ (DataItem.Valued k.last) k.items k.values :=
  (valued_of_dataValues k.interned).2 k.last k.start_within

/-- Texts lie behind the DATA items and inside the static cells. -/
theorem text_inside {text : String} {address : Nat} (member : (text, address) ∈ k.last.texts) :
    dataBase + k.items.length ≤ address ∧ address + Parser.textCells text ≤ p.staticSize := by
  obtain ⟨orderly, -, -⟩ := k.finished.settled.whole
  rw [k.valued.length_eq, k.finished.size_eq]
  exact orderly.textBlock member

/-- What the entry block lays is what the first command finds. -/
theorem initial_of_sets {memory memory' : Array Value} (fits : p.staticSize ≤ memory.size)
    (unset : ∀ x < memory.size, memory[x]? = some .unset)
    (sets : Sets (laidEntry p.staticSize k.last.texts.reverse k.values) memory memory') : k.Initial memory' := by
  have count : k.items.length = k.values.length := k.valued.length_eq
  have base : dataBase = 2 := rfl
  have room : dataBase + k.values.length ≤ p.staticSize := by
    obtain ⟨orderly, -, -⟩ := k.finished.settled.whole
    obtain ⟨row, fills, -⟩ := orderly.filled
    rw [k.finished.size_eq]
    exact fills.le
  have noText {x : Nat} (other : ∀ text address, (text, address) ∈ k.last.texts → x < address ∨ address + Parser.textCells text ≤ x) :
      laidTexts k.last.texts.reverse x = none :=
    laidTexts_of_not fun text member => other text.1 text.2 (List.mem_reverse.mp member)
  have before {x : Nat} (low : x < dataBase + k.items.length) : laidTexts k.last.texts.reverse x = none :=
    noText fun text address member => .inl (Nat.lt_of_lt_of_le low (k.text_inside member).1)
  have texts (text : String) (address : Nat) (member : (text, address) ∈ k.last.texts) : HoldsText memory' address text := by
    intro i v found
    have less : i < Parser.textCells text := by
      rw [← length_textValues]
      exact (List.getElem?_eq_some_iff.mp found).1
    obtain ⟨above, below⟩ := k.text_inside member
    rw [sets.cells _ (by omega), laidEntry, laid_of_not (.inr (by omega)),
      laidTexts_of_mem k.texts_apart (List.mem_reverse.mpr member) less, found]
    rfl
  refine ⟨?_, ?_, fun i item found => ?_, texts, ?_, ?_, fun x above below other => ?_, fun x above below => ?_⟩
  · have cell : frameCell = 0 := rfl
    rw [sets.cells _ (by omega), laidEntry, laid_of_not (.inl (by omega)), before (by omega),
      laid_of_not (.inl (by omega))]
    rfl
  · have cell : cursorCell = 1 := rfl
    rw [sets.cells _ (by omega), laidEntry, laid_of_not (.inl (by omega)), before (by omega),
      laid_of_not (.inl (by omega))]
    rfl
  · have less : i < k.items.length := (List.getElem?_eq_some_iff.mp found).1
    have less' : i < k.values.length := count ▸ less
    have held : memory'[dataBase + i]? = some (k.values.get ⟨i, less'⟩) := by
      rw [sets.cells _ (by omega), laidEntry, laid_add, List.getElem?_eq_getElem less']
      rfl
    have value : item.Valued k.last (k.values.get ⟨i, less'⟩) := by
      obtain ⟨_, rfl⟩ := List.getElem?_eq_some_iff.mp found
      exact k.valued.get less less'
    cases item with
    | number v => exact held.trans (congrArg some value)
    | text s =>
      obtain ⟨address, same, there⟩ := value
      exact ⟨address, held.trans (congrArg some same), texts s address there⟩
  · intro fuel c c' e text next ran within
    obtain ⟨address, rfl, there⟩ := Parser.operand_text next ran
    exact ⟨address, rfl, texts _ _ (there k.last within)⟩
  · intro fuel c c' ran within
    obtain ⟨address, shows, there⟩ := Parser.input_prompt ran
    exact ⟨address, shows, texts _ _ (there k.last within)⟩
  · have cleared : laid (dataBase + k.values.length)
        (List.replicate (p.staticSize - (dataBase + k.values.length)) (.integer 0)) x = some (.integer 0) := by
      rw [laid, if_pos (count ▸ above)]
      exact List.getElem?_replicate_of_lt (by omega)
    rw [sets.cells _ (by omega), laidEntry, laid_of_not (.inr (by omega)), noText other, cleared]
    rfl
  · rw [sets.size] at below
    have cell : cursorCell = 1 := rfl
    have cell' : frameCell = 0 := rfl
    have others (text : String) (address : Nat) (member : (text, address) ∈ k.last.texts) :
        x < address ∨ address + Parser.textCells text ≤ x := .inr (Nat.le_trans (k.text_inside member).2 above)
    rw [sets.cells _ below, laidEntry, laid_of_not (.inr (by omega)), noText others,
      laid_of_not (.inr (by rw [List.length_replicate]; omega)), laid_of_not (.inr (by rw [List.length_singleton]; omega)),
      laid_of_not (.inr (by rw [List.length_singleton]; omega))]
    exact unset x below

end Compilation

end Language

/-- Nothing is in the memory of a machine that has not run. -/
theorem Machine.getElem?_new {config : Config} {x : Nat} (inside : x < (Machine.new config).memory.size) :
    (Machine.new config).memory[x]? = some .unset := by
  rw [Array.getElem?_eq_getElem inside]
  exact congrArg some (Array.getElem_replicate ..)

open Session

/-- The entry block of a program leads to its first command with empty stacks and the heap as it was, and memory holds
the frame pointer, the cursor, all DATA items and all texts. -/
theorem entry_block_initializes {source : String} {p : Program} (compiled : compile source = .ok p) :
    ∃ k : Compilation source p, ∀ {σ : Type} (env : Environment σ) (config : Config) (t : σ),
      p.staticSize ≤ (Machine.new config).memory.size → 1 ≤ config.stackSize →
      ∃ start n m, begin p (.new config) = .ok () start ∧ start.pc = p.entry ∧ Goes env p n ⟨start, t⟩ ⟨m, t⟩ ∧
        (∀ left, run env p (n + left) ⟨.new config, t⟩ = loop env p left ⟨m, t⟩) ∧ m.pc = 0 ∧ m.stack.items = #[] ∧
        m.calls.items = #[] ∧ m.heap = (Machine.new config).heap ∧ m.memory.size = (Machine.new config).memory.size ∧
        k.Initial m.memory := by
  obtain ⟨k⟩ := compilation_of_ok compiled
  refine ⟨k, fun {σ} env config t fits some => ?_⟩
  have small : p.staticSize ≤ maxPointer + 1 := by
    refine Nat.le_trans fits ?_
    show (Array.replicate (min config.memorySize (maxPointer + 1)) Value.unset).size ≤ maxPointer + 1
    rw [Array.size_replicate]
    exact Nat.min_le_right _ _
  let start : Machine := { Machine.new config with floor := p.staticSize, pc := p.entry, status := .running }
  have begun : begin p (.new config) = .ok () start := if_neg (Nat.not_lt.mpr fits)
  have room : start.stack.size < start.stack.limit := some
  obtain ⟨n, m, (goes : Goes env p n _ _), pc, stack, calls, heap, sets⟩ :=
    k.finished.lays small (k.stored_values small) (s := ⟨start, t⟩) rfl rfl room fits
  have initial : k.Initial m.memory := k.initial_of_sets fits (fun _ inside => Machine.getElem?_new inside) sets
  refine ⟨start, n, m, begun, rfl, goes, fun left => ?_, pc, congrArg Stack.items stack, congrArg Stack.items calls, heap,
    sets.size, initial⟩
  have started : (act (begin p) : SessionM σ Unit) ⟨.new config, t⟩ = .ok () ⟨start, t⟩ := by rw [act, begun]
  rw [run_eq_course started, goes.course, loop_eq_course]

/-- A number and a text as DATA items, and the same text in an expression. -/
def sharedText : String := "10 DATA 5, \"HI\"\n20 PRINT \"HI\"; A"

theorem entry_block_initializes_sharedText :
    ∃ p, compile sharedText = .ok p ∧ p.staticSize = 8 ∧ ∃ (n : Nat) (start m : Machine) (address : Nat),
      Goes { host := Script.host } p n ⟨start, {}⟩ ⟨m, {}⟩ ∧ start.pc = p.entry ∧ m.pc = 0 ∧ m.memory.size = 8 ∧
      m.memory[0]? = some (.pointer 0) ∧ m.memory[1]? = some (.integer 0) ∧ m.memory[2]? = some (.integer 5) ∧
      m.memory[3]? = some (.pointer address) ∧ m.memory[address]? = some (.integer 72) ∧
      m.memory[address + 1]? = some (.integer 73) ∧ m.memory[address + 2]? = some (.integer 0) := by
  have found : (compile sharedText).toOption.map Program.staticSize = some 8 := by decide +kernel
  have listed : (sourceLines sharedText >>= sourceData).toOption = some [.number (.integer 5), .text "HI"] := by
    decide +kernel
  cases compiled : compile sharedText with
  | error e =>
    rw [compiled] at found
    cases found
  | ok p =>
    rw [compiled] at found
    have size : p.staticSize = 8 := Option.some.inj found
    obtain ⟨k, initializes⟩ := entry_block_initializes compiled
    obtain ⟨start, n, m, -, entry, goes, -, pc, -, -, -, cells, initial⟩ := initializes { host := Script.host }
      { memorySize := 8, stackSize := 1 } {} (Nat.le_of_eq size) (Nat.le_refl 1)
    have items : k.items = [.number (.integer 5), .text "HI"] := by
      rw [k.split] at listed
      change (sourceData k.lines).toOption = _ at listed
      rw [k.gathered] at listed
      exact Option.some.inj listed
    have first := initial.items 0 _ (by rw [items]; rfl)
    obtain ⟨address, held, text⟩ := initial.items 1 (.text "HI") (by rw [items]; rfl)
    exact ⟨p, rfl, size, n, start, m, address, goes, entry, pc, cells, initial.frame, initial.cursor, first, held,
      text 0 _ rfl, text 1 _ rfl, text 2 _ rfl⟩

end BasicMachine
