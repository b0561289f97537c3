import BasicMachine.Proofs.Sites

/-!
# What statements keep

Between two statements nothing is owed: every cell behind the DATA items is held by a name, a text or a command. Commands
assign to variables and arrays of the program, to the DATA cursor and to cells that their own statement keeps. A function
stands behind a jump that goes around it and a mark with its name.
-/
namespace BasicMachine.Language

/-- The target is a variable or an element of an array of the program. -/
def Target.Named (last : Context) : Target → Prop
  | .scalar (.cell address) => ∃ name, (name, address) ∈ last.scopes.root.names
  | .scalar (.place _) => False
  | .element array _ => ∃ name, (name, array) ∈ last.arrays

namespace Command

/-- What the command assigns to is a variable or an array, the DATA cursor or a cell that a statement keeps. The cursor
goes back to the first item, and READ knows how many there are. -/
def Named (last : Context) : Command → Prop
  | .assign t e =>
    t.Named last ∨ ∃ address, t = .scalar (.cell address) ∧
      (address = cursorCell ∧ e = .integer 0 ∨ ⟨address, 1⟩ ∈ Language.temporaries last.commands)
  | .input t _ => t.Named last
  | .read t count => t.Named last ∧ count = last.dataCount
  | .swap left right => Target.Named last (.scalar left) ∧ Target.Named last (.scalar right)
  | _ => True

/-- Where the command may go. -/
def aims : Command → List Label
  | .jump l | .call l | .branchUnless _ l | .branchOn _ _ _ l | .testLoop _ _ _ l => [l]
  | _ => []

/-- A command that is not a part of a function. -/
def isPlain : Command → Bool
  | .function _ _ _ | .mark (.function _) => false
  | _ => true

/-- A command of a finished program. -/
structure Fine (functions : List (String × Nat)) (last : Context) (command : Command) : Prop where
  proper : command.Proper functions last.scopes.highWater
  below : Steps.Below last.scopes.highWater command.code
  named : command.Named last
  aims : ∀ l ∈ command.aims, l.isFunction = false
  sound : command.Sound last.Cites
  outer : command.isPlain = true → ∀ e ∈ command.expressions, e.Sees 0

end Command

/-- A function stands behind a jump around it and a mark, where the newest command is the first. -/
inductive Grouped (functions : List (String × Nat)) : List Command → Prop
  | nil : Grouped functions []
  | plain {command : Command} {older : List Command} (plain : command.isPlain = true) (rest : Grouped functions older) :
      Grouped functions (command :: older)
  | function {name : String} {frame arity : Nat} {body : Expr} {around : Label} {older : List Command}
      (known : functions.lookup name = some arity) (rest : Grouped functions older) :
      Grouped functions (.function frame arity body :: .mark (.function name) :: .jump around :: older)

section
variable {functions : List (String × Nat)} {last : Context}

namespace Target

variable {t : Target}

/-- Outside functions, a target has cells of its own. -/
theorem Placed.proper (h : t.Placed functions last []) : t.Proper functions last.scopes.highWater := by
  cases h with
  | scalar placed =>
    cases placed with
    | cell named above inside => exact .scalar inside
    | place offset some => exact absurd rfl some
  | element placed some all => exact .element some (fun e member => (all e member).proper) placed.inside placed.short

theorem Placed.named (h : t.Placed functions last []) : t.Named last := by
  cases h with
  | scalar placed =>
    cases placed with
    | cell named above inside => exact ⟨_, named⟩
    | place offset some => exact absurd rfl some
  | element placed => exact placed.named

theorem Placed.address (h : t.Placed functions last []) : Steps.Below last.scopes.highWater t.address := by
  cases h with
  | scalar => exact Steps.below_of_nil rfl
  | element placed some all =>
    rw [Target.address, indexBefore_eq]
    exact (below_index _ fun e member => (all e member).below).append (below_check placed.base)

theorem Placed.store (h : t.Placed functions last []) : Steps.Below last.scopes.highWater (Steps.ofCode t.store) := by
  cases h with
  | scalar placed => exact below_store placed.inside
  | element => exact Steps.below_of_nil rfl

/-- Who has a cell comes behind the DATA items. -/
theorem Placed.data (h : t.Placed functions last []) : dataBase < last.scopes.highWater := by
  cases h with
  | scalar placed =>
    cases placed with
    | cell named above inside => exact Nat.lt_of_le_of_lt above inside
    | place offset some => exact absurd rfl some
  | element placed => exact Nat.lt_of_le_of_lt placed.above placed.base

end Target

namespace Target

theorem Placed.sound {t : Target} (h : t.Placed functions last []) : t.Sound last.Cites := by
  cases h with
  | scalar => trivial
  | element _ _ all => exact fun e member => (all e member).sound

theorem Placed.outer {t : Target} (h : t.Placed functions last []) : ∀ e ∈ t.subscripts, e.Sees 0 := by
  cases h with
  | scalar => exact List.forall_mem_nil _
  | element _ _ all => exact fun e member => (all e member).outer rfl

end Target

namespace Command

theorem below_before {e : Expr} {after : Steps} {inner : List Scope} (h : e.Fine functions last inner)
    (rest : Steps.Below last.scopes.highWater after) : Steps.Below last.scopes.highWater (e.codeBefore after) := by
  rw [Expr.codeBefore_eq]
  exact h.below.append rest

theorem fine_mark (l : Label) : (mark l).Fine functions last :=
  ⟨.mark l, Steps.below_of_nil rfl, trivial, List.forall_mem_nil _, .nil, fun _ => List.forall_mem_nil _⟩

theorem fine_jump {l : Label} (aim : l.Placed last) : (jump l).Fine functions last :=
  ⟨.jump l, Steps.below_of_nil rfl, trivial, List.forall_mem_singleton.mpr aim.other, sound_jump aim.cited,
    fun _ => List.forall_mem_nil _⟩

theorem fine_call {n : UInt16} (aim : last.Cites (.line n)) : (call (.line n)).Fine functions last :=
  ⟨.call n, Steps.below_of_nil rfl, trivial, List.forall_mem_singleton.mpr rfl, sound_call aim, fun _ => List.forall_mem_nil _⟩

theorem fine_ret : ret.Fine functions last :=
  ⟨.ret, Steps.below_of_nil rfl, trivial, List.forall_mem_nil _, sound_ret, fun _ => List.forall_mem_nil _⟩

theorem fine_halt : halt.Fine functions last :=
  ⟨.halt, Steps.below_of_nil rfl, trivial, List.forall_mem_nil _, Steps.sound_ofCode rfl,
    fun _ => List.forall_mem_nil _⟩

theorem fine_yield : yield.Fine functions last :=
  ⟨.yield, Steps.below_of_nil rfl, trivial, List.forall_mem_nil _, Steps.sound_ofCode rfl,
    fun _ => List.forall_mem_nil _⟩

theorem fine_write (byte : UInt8) : (write byte).Fine functions last :=
  ⟨.write byte, Steps.below_of_nil rfl, trivial, List.forall_mem_nil _, Steps.sound_ofCode rfl,
    fun _ => List.forall_mem_nil _⟩

theorem fine_branchUnless {e : Expr} {l : Label} (h : e.Fine functions last []) (aim : l.Placed last) :
    (branchUnless e l).Fine functions last :=
  ⟨.branchUnless h.proper l, below_before h (Steps.below_of_nil rfl), trivial, List.forall_mem_singleton.mpr aim.other,
    sound_branchUnless h.sound aim.cited, fun _ => List.forall_mem_singleton.mpr (h.outer rfl)⟩

theorem fine_branchOn {cell : Nat} (n : Int16) (equal : Bool) {l : Label} (inside : cell < last.scopes.highWater)
    (aim : l.Placed last) : (branchOn cell n equal l).Fine functions last :=
  ⟨.branchOn cell n equal l, Steps.below_of_one rfl inside, trivial, List.forall_mem_singleton.mpr aim.other,
    sound_branchOn aim.cited, fun _ => List.forall_mem_nil _⟩

theorem fine_testLoop {slot : Slot} {limit step : Nat} {exit : Label} {name : String} (placed : slot.Placed last [] name)
    (first : limit < last.scopes.highWater) (second : step < last.scopes.highWater) (aim : exit.Placed last) :
    (testLoop slot limit step exit).Fine functions last := by
  refine ⟨.testLoop slot limit step exit, ?_, trivial, List.forall_mem_singleton.mpr aim.other, sound_testLoop aim.cited,
    fun _ => List.forall_mem_nil _⟩
  rw [code, testLoopCode, Steps.ofCode_append, List.append_assoc]
  refine (below_load placed.inside).append fun address member => ?_
  have two : address ∈ [limit, step] := member
  simp only [List.mem_cons, List.not_mem_nil, or_false] at two
  rcases two with rfl | rfl
  · exact first
  · exact second

theorem fine_assign {t : Target} {e : Expr} (placed : t.Placed functions last []) (h : e.Fine functions last []) :
    (assign t e).Fine functions last :=
  ⟨.assign placed.proper h.proper, placed.address.append (below_before h placed.store), .inl placed.named,
    List.forall_mem_nil _, sound_assign placed.sound h.sound,
    fun _ => List.forall_mem_append.mpr ⟨placed.outer, List.forall_mem_singleton.mpr (h.outer rfl)⟩⟩

/-- A cell that no name has. -/
theorem fine_set {address : Nat} {e : Expr} (inside : address < last.scopes.highWater)
    (kept : address = cursorCell ∧ e = .integer 0 ∨ ⟨address, 1⟩ ∈ Language.temporaries last.commands)
    (h : e.Fine functions last []) : (assign (.scalar (.cell address)) e).Fine functions last :=
  ⟨.assign (.scalar inside) h.proper, below_before h (Steps.below_of_one rfl inside), .inr ⟨address, rfl, kept⟩,
    List.forall_mem_nil _, sound_set h.sound, fun _ => List.forall_mem_singleton.mpr (h.outer rfl)⟩

theorem fine_print {e : Expr} (h : e.Fine functions last []) : (print e).Fine functions last :=
  ⟨.print h.proper, below_before h (Steps.below_of_nil rfl), trivial, List.forall_mem_nil _, sound_print h.sound,
    fun _ => List.forall_mem_singleton.mpr (h.outer rfl)⟩

theorem fine_prompt {address : Nat} (inside : address < last.scopes.highWater) : (prompt address).Fine functions last :=
  ⟨.prompt address, Steps.below_of_one rfl inside, trivial, List.forall_mem_nil _, Steps.sound_ofCode rfl,
    fun _ => List.forall_mem_nil _⟩

theorem fine_input {t : Target} (isText : Bool) (placed : t.Placed functions last []) :
    (input t isText).Fine functions last := by
  refine ⟨.input placed.proper isText, placed.address.append ?_, placed.named, List.forall_mem_nil _,
    sound_input placed.sound, fun _ => placed.outer⟩
  rw [Steps.ofCode_append]
  refine Steps.Below.append (Steps.below_of_nil ?_) (Steps.below_cons rfl placed.store)
  cases isText <;> rfl

theorem fine_read {t : Target} {count : Nat} (placed : t.Placed functions last []) (counted : last.dataCount = count) :
    (read t count).Fine functions last := by
  refine ⟨.read placed.proper count, ?_, ⟨placed.named, counted.symm⟩, List.forall_mem_nil _, sound_read placed.sound,
    fun _ => placed.outer⟩
  have data := placed.data
  have remaining : Steps.Below last.scopes.highWater (remainingSteps count) :=
    Steps.below_of_one rfl (Nat.lt_trans (by decide) data)
  have items : ∀ address ∈ (Steps.ofCode nextItemCode).pointers, address ≤ dataBase := by decide
  rw [code, Steps.ofCode_append]
  refine (placed.address.append remaining).append (Steps.Below.append (fun address member => ?_) placed.store)
  exact Nat.lt_of_le_of_lt (items address member) data

theorem fine_function {frame arity : Nat} {body : Expr} {inner : List Scope} (inside : frame < last.scopes.highWater)
    (cursor : cursorCell < last.scopes.highWater) (h : body.Fine functions last inner) :
    (function frame arity body).Fine functions last := by
  refine ⟨.function frame arity h.proper, ?_, trivial, List.forall_mem_nil _, sound_function h.sound, fun plain => ?_⟩
  have zero : frameCell < last.scopes.highWater := Nat.lt_trans (by decide) cursor
  have leave : Steps.Below last.scopes.highWater (Steps.ofCode leaveCode) := by
    intro address member
    have two : address ∈ [frameCell, frameCell] := member
    simp only [List.mem_cons, List.not_mem_nil, or_false, or_self] at two
    exact two ▸ zero
  have enter : Steps.Below last.scopes.highWater (Steps.ofCode (enterCode frame arity)) := by
    rw [enterCode, Steps.ofCode_append, Steps.ofCode_append]
    refine Steps.Below.append (Steps.Below.append ?_ ?_) (Steps.below_of_one rfl zero)
    · intro address member
      have two : address ∈ [frame, frameCell] := member
      simp only [List.mem_cons, List.not_mem_nil, or_false] at two
      rcases two with rfl | rfl
      · exact inside
      · exact zero
    · refine Steps.below_of_nil ?_
      rw [Steps.pointers, Steps.ofCode, List.map_map, List.filterMap_eq_nil_iff]
      intro s member
      obtain ⟨i, -, rfl⟩ := List.mem_map.mp member
      rfl
  · exact enter.append (below_before h leave)
  · cases plain

theorem fine_poke {address value : Expr} (first : address.Fine functions last [])
    (second : value.Fine functions last []) : (poke address value).Fine functions last :=
  ⟨.poke first.proper second.proper, below_before first (Steps.below_cons rfl
    (below_before second (Steps.below_of_nil rfl))), trivial, List.forall_mem_nil _, sound_poke first.sound second.sound,
    fun _ => List.forall_mem_cons.mpr ⟨first.outer rfl, List.forall_mem_singleton.mpr (second.outer rfl)⟩⟩

theorem fine_swap {left right : Slot} {name name' : String} (first : left.Placed last [] name)
    (second : right.Placed last [] name') :
    (swap left right).Fine functions last := by
  have loads := (below_load first.inside).append (below_load second.inside)
  have stores := (below_store first.inside).append (below_store second.inside)
  cases first with
  | cell named above inside =>
    cases second with
    | cell named' above' inside' =>
      exact ⟨.swap inside inside', loads.append stores, ⟨⟨_, named⟩, ⟨_, named'⟩⟩, List.forall_mem_nil _, sound_swap,
        fun _ => List.forall_mem_nil _⟩
    | place offset some => exact absurd rfl some
  | place offset some => exact absurd rfl some

theorem fine_seed {e : Option Expr} (h : ∀ x ∈ e, x.Fine functions last []) : (seed e).Fine functions last := by
  cases e with
  | none => exact ⟨.seed (by simp), Steps.below_of_nil rfl, trivial, List.forall_mem_nil _, Steps.sound_ofCode rfl,
      fun _ => List.forall_mem_nil _⟩
  | some e =>
    have fine := h e rfl
    exact ⟨.seed (by simpa using fine.proper), below_before fine (Steps.below_of_nil rfl), trivial, List.forall_mem_nil _,
      sound_before fine.sound (Steps.sound_ofCode rfl), fun _ => List.forall_mem_singleton.mpr (fine.outer rfl)⟩

theorem fine_host {request : Syscall} {args : List Expr} (takes : request.shift = some (args.length, 0))
    (all : ∀ e ∈ args, e.Fine functions last []) : (host request args).Fine functions last := by
  refine ⟨.host takes fun e member => (all e member).proper, ?_, trivial, List.forall_mem_nil _,
    sound_host (fun e member => (all e member).sound) ?_, fun _ e member => (all e member).outer rfl⟩
  · rw [code, argumentsBefore_eq]
    exact (below_arguments fun e member => (all e member).below).append (Steps.below_of_nil rfl)
  · rintro rfl
    cases takes

theorem fine_blit {x y : Expr} {array : ArrayBlock} (first : x.Fine functions last [])
    (second : y.Fine functions last []) (inside : array.base < last.scopes.highWater) :
    (blit x y array).Fine functions last :=
  ⟨.blit first.proper second.proper array, below_before first (below_before second (Steps.below_of_one rfl inside)),
    trivial, List.forall_mem_nil _, sound_blit first.sound second.sound,
    fun _ => List.forall_mem_cons.mpr ⟨first.outer rfl, List.forall_mem_singleton.mpr (second.outer rfl)⟩⟩

end Command

end

namespace Setting

/-- The same outside functions, behind some commands that are looked at. -/
def owing (s : Setting) (owed : List Block) (commands : List Command) : Setting :=
  { s with inner := [], owed, commands := commands ++ s.older }

/-- The same between two statements. -/
def among (s : Setting) (commands : List Command) : Setting := s.owing [] commands

end Setting

/-- The setting of a program. -/
def Setting.whole (c : Context) (functions : List (String × Nat)) (count : Nat) : Setting where
  last := c
  functions := functions
  start := dataBase + count
  base := Nat.le_add_right _ _

/-- Between two statements: nothing is owed, and the commands that are looked at are fine. -/
def Context.Settled (s : Setting) (c : Context) : Prop :=
  ∃ commands, c.Orderly (s.among commands) ∧ Grouped s.functions commands ∧
    ∀ command ∈ commands, command.Fine s.functions s.last

/-- One more command, which holds no cells. -/
theorem Context.Settled.emitting {s : Setting} {c : Context} {command : Command} (h : c.Settled s)
    (plain : command.isPlain = true) (free : command.frame ++ command.temporaries c.commands.head? = [])
    (fine : command.Fine s.functions s.last) : (c.emitting command).Settled s := by
  obtain ⟨commands, orderly, grouped, all⟩ := h
  rw [orderly.commands] at free
  refine ⟨command :: commands, orderly.emitting ?_, .plain plain grouped, List.forall_mem_cons.mpr ⟨fine, all⟩⟩
  exact (congrArg (· ++ []) free).symm

namespace Parser

variable {α β : Type}

/-- The parser leads from statement to statement. -/
abbrev Adds (s : Setting) (pre : Prop) (p : Parser α) (post : α → Prop) : Prop :=
  Keeps (·.Settled s) s.last pre p (fun _ => (·.Settled s)) post

variable {s : Setting} {pre : Prop} {p : Parser α} {f : α → Parser β} {post : α → Prop} {post' : β → Prop}

/-- A statement starts behind some commands. -/
theorem keeps_settled {after : α → Context → Prop} (h : ∀ commands, Keeps (·.Orderly (s.among commands)) s.last (pre ∧
      Grouped s.functions commands ∧ ∀ command ∈ commands, command.Fine s.functions s.last) p after post) :
    Keeps (·.Settled s) s.last pre p after post := by
  refine ⟨(h []).within, fun ran inside holds settled => ?_⟩
  obtain ⟨commands, orderly, grouped, fine⟩ := settled
  exact (h commands).keeps ran inside ⟨holds, grouped, fine⟩ orderly

/-- An expression makes no commands. -/
theorem adds_of_reads (h : ∀ commands, Reads (s.among commands) pre p post) : Adds s pre p post := by
  refine keeps_settled fun commands => ?_
  refine keeps_weaken (h commands) And.left (fun _ => id) (fun _ c _ holds _ orderly => ?_) fun _ _ => id
  exact ⟨commands, orderly, holds.2⟩

theorem adds_pure {a : α} (answered : pre → post a) : Adds s pre (pure a : Parser α) post :=
  keeps_pure (fun _ _ => id) answered

theorem adds_skip : Adds s pre skip fun _ => True := adds_of_reads fun _ => reads_skip

theorem adds_accept (t : Token) : Adds s pre (accept t) fun _ => True := adds_of_reads fun _ => reads_accept t

theorem adds_expect (t : Token) : Adds s pre (expect t) fun _ => True := adds_of_reads fun _ => reads_expect t

theorem adds_peek : Adds s pre peek fun _ => True := adds_of_reads fun _ => reads_peek

theorem adds_get : Adds s pre (get : Parser Context) fun _ => True :=
  keeps_weaken keeps_get id (fun _ => id) (fun _ _ _ _ _ => id) fun _ _ _ => trivial

theorem adds_expression (fuel power : Nat) :
    Adds s pre (expression fuel power) (·.Fine s.functions s.last []) :=
  adds_of_reads fun _ => (readsFinely fuel).expression power

theorem adds_target (fuel : Nat) (name : String) : Adds s pre (target fuel name) (·.Placed s.functions s.last []) :=
  adds_of_reads fun _ => (readsFinely fuel).target name

theorem adds_expressionsN (fuel n : Nat) : Adds s pre (expressionsN fuel n)
    fun es => es.length = n ∧ ∀ e ∈ es, e.Fine s.functions s.last [] :=
  adds_of_reads fun _ => reads_expressionsN fuel n

theorem adds_identifier : Adds s pre identifier fun _ => True := adds_of_reads fun _ => reads_identifier

theorem adds_freshLabel : Adds s pre freshLabel (·.Placed s.last) := adds_of_reads fun _ => reads_freshLabel

theorem adds_checkReach : Adds s pre checkReach fun _ => True := adds_of_reads fun _ => reads_checkReach

theorem adds_resolve (name : String) : Adds s pre (resolve name) (·.Placed s.last [] name) :=
  adds_of_reads fun _ => reads_resolve name

theorem adds_intern (text : String) : Adds s pre (intern text) (· < s.last.scopes.highWater) :=
  adds_of_reads fun _ => reads_intern text

theorem adds_dimension (name : String) (extents : List Int16) : Adds s pre (dimension name extents) (·.Placed s.last) :=
  adds_of_reads fun _ => reads_dimension name extents

theorem adds_account (code : Steps) : Adds s pre (account code) fun _ => True := adds_of_reads fun _ => reads_account code

theorem adds_accountCode (code : Code) : Adds s pre (accountCode code) fun _ => True :=
  adds_of_reads fun _ => reads_accountCode code

/-- A command that holds no cells. -/
theorem adds_emit {command : Command} (plain : pre → command.isPlain = true)
    (free : ∀ before, command.frame ++ command.temporaries before = []) (fine : pre → command.Fine s.functions s.last) :
    Adds s pre (emit command) fun _ => True := by
  refine ⟨fun ran => ?_, fun ran _ holds settled => ?_⟩
  · cases ran
    exact .emitting _ _
  · cases ran
    exact ⟨settled.emitting (plain holds) (free _) (fine holds), trivial⟩

theorem isPlain_mark {l : Label} (other : l.isFunction = false) : (Command.mark l).isPlain = true := by
  cases l <;> first | rfl | cases other

theorem adds_mark {l : Label} (other : pre → l.isFunction = false) : Adds s pre (emit (.mark l)) fun _ => True :=
  adds_emit (fun holds => isPlain_mark (other holds)) (fun _ => rfl) fun _ => Command.fine_mark l

theorem adds_place {l : Label} (other : pre → l.isFunction = false) : Adds s pre (place l) fun _ => True :=
  keeps_then adds_checkReach fun _ => adds_mark other

theorem adds_lineNumber : Adds s pre lineNumber fun _ => True := by
  refine keeps_then adds_peek fun t => ?_
  rcases t with _ | t
  · exact keeps_unexpected _
  cases t with
  | integer n => exact keeps_either (keeps_then adds_skip fun _ => adds_pure fun _ => trivial) (keeps_unexpected _)
  | float x => exact keeps_either (keeps_then adds_skip fun _ => adds_pure fun _ => trivial) (keeps_unexpected _)
  | _ => exact keeps_unexpected _

/-- The line that a command goes to is referred to right behind it. -/
theorem keeps_referred {before middle : Context → Prop} {later : β → Context → Prop} {command : Command} {n : UInt16}
    {rest : Parser β} (closed : ∀ {c c' : Context}, c.Aside c' → middle c → middle c')
    (emits : Keeps before s.last (pre ∧ s.last.Cites (.line n)) (emit command) (fun _ => middle) fun _ => True)
    (ends : Keeps middle s.last pre rest later post') :
    Keeps before s.last pre (do emit command; refer (.line n); rest) later post' := by
  have known {c c' : Context} {b : β} (ran : rest ((c.emitting command).referring (.line n)) = .ok (b, c')) :
      (c.emitting command).Within c' := (Context.Aside.referring _ (.line n)).within.trans (ends.within ran)
  refine ⟨fun {c _ _} ran => (Context.Within.emitting c command).trans (known ran), fun {c _ c'} ran inside holds start => ?_⟩
  have cited : s.last.Cites (.line n) := ((ends.within ran).trans inside).cites _ (.of_referring (by simp))
  have emitted := (emits.keeps rfl ((known ran).trans inside) ⟨holds, cited⟩ start).1
  exact ends.keeps ran inside holds (closed (.referring _ _) emitted)

theorem settled_aside {c c' : Context} (same : c.Aside c') (h : c.Settled s) : c'.Settled s := by
  obtain ⟨commands, orderly, rest⟩ := h
  exact ⟨commands, orderly.aside same, rest⟩

theorem adds_lineJump {command : Label → Command} (plain : ∀ l, (command l).isPlain = true)
    (free : ∀ l before, (command l).frame ++ (command l).temporaries before = [])
    (fine : ∀ n, s.last.Cites (.line n) → (command (.line n)).Fine s.functions s.last) :
    Adds s pre (lineJump command) fun _ => True := by
  refine keeps_then adds_lineNumber fun n => ?_
  have both : Adds s pre (do emit (command (.line n)); refer (.line n); pure ()) fun _ => True :=
    keeps_referred settled_aside (adds_emit (fun _ => plain _) (free _) fun holds => fine n holds.2) (adds_pure fun _ => trivial)
  simpa only [bind_pure_unit] using both

theorem adds_goto : Adds s pre (lineJump .jump) fun _ => True :=
  adds_lineJump (fun _ => rfl) (fun _ _ => rfl) fun _ cited => Command.fine_jump ⟨rfl, cited⟩

theorem adds_gosub : Adds s pre (lineJump .call) fun _ => True :=
  adds_lineJump (fun _ => rfl) (fun _ _ => rfl) fun _ cited => Command.fine_call cited

theorem adds_assignment (fuel : Nat) : Adds s pre (assignment fuel) fun _ => True :=
  keeps_then adds_identifier fun name => keeps_bind (adds_target fuel name) fun _ =>
    keeps_then (adds_expect _) fun _ => keeps_bind (adds_expression fuel 0) fun _ =>
      adds_emit (fun _ => rfl) (fun _ => rfl) fun holds => Command.fine_assign holds.1.2 holds.2

theorem adds_printItems (fuel : Nat) (ending : Bool) : Adds s pre (printItems fuel ending) fun _ => True := by
  induction fuel generalizing pre ending with
  | zero => exact keeps_fail _ _
  | succ fuel ih =>
    have item : Adds s pre (do emit (.print (← expression fuel 0)); printItems fuel true) fun _ => True :=
      keeps_bind (adds_expression fuel 0) fun _ =>
        keeps_then (adds_emit (fun _ => rfl) (fun _ => rfl) fun holds => Command.fine_print holds.2) fun _ => ih _
    have write : Adds s pre (emit (.write '\t'.toUInt8)) fun _ => True :=
      adds_emit (fun _ => rfl) (fun _ => rfl) fun _ => Command.fine_write _
    refine keeps_then adds_get fun c => ?_
    split
    · exact adds_pure fun _ => trivial
    · exact adds_pure fun _ => trivial
    · exact adds_pure fun _ => trivial
    · exact keeps_either (adds_pure fun _ => trivial) (keeps_then adds_skip fun _ => ih _)
    · exact keeps_then adds_skip fun _ => keeps_then write fun _ => ih _
    · exact item

theorem adds_print (fuel : Nat) : Adds s pre (print fuel) fun _ => True :=
  keeps_then (adds_printItems fuel true) fun _ =>
    keeps_either (adds_emit (fun _ => rfl) (fun _ => rfl) fun _ => Command.fine_write _) (adds_pure fun _ => trivial)

theorem adds_inputTargets (fuel : Nat) : Adds s pre (inputTargets fuel) fun _ => True := by
  induction fuel generalizing pre with
  | zero => exact keeps_fail _ _
  | succ fuel ih =>
    refine keeps_then adds_identifier fun name => keeps_bind (adds_target fuel name) fun t => ?_
    refine keeps_then (adds_emit (fun _ => rfl) (fun _ => rfl) fun holds => Command.fine_input _ holds.2) fun _ => ?_
    exact keeps_then (adds_accept _) fun _ => keeps_either ih (adds_pure fun _ => trivial)

theorem adds_input (fuel : Nat) : Adds s pre (input fuel) fun _ => True := by
  have rest (text : String) : Adds s pre (do emit (.prompt (← intern text)); inputTargets fuel) fun _ => True :=
    keeps_bind (adds_intern text) fun _ =>
      keeps_then (adds_emit (fun _ => rfl) (fun _ => rfl) fun holds => Command.fine_prompt holds.2) fun _ =>
        adds_inputTargets fuel
  refine keeps_then adds_peek fun t => ?_
  split
  · refine keeps_then adds_skip fun _ => keeps_then (adds_accept _) fun _ => keeps_either (rest _) ?_
    exact keeps_then (adds_expect _) fun _ => rest _
  · exact rest _

theorem adds_read (fuel : Nat) : Adds s pre (read fuel) fun _ => True := by
  induction fuel generalizing pre with
  | zero => exact keeps_fail _ _
  | succ fuel ih =>
    refine keeps_then adds_identifier fun name => keeps_bind (adds_target fuel name) fun t => ?_
    refine keeps_bind keeps_get fun c => keeps_then (adds_account _) fun _ => ?_
    refine keeps_then adds_checkReach fun _ => ?_
    refine keeps_then (adds_emit (fun _ => rfl) (fun _ => rfl) fun holds =>
      Command.fine_read holds.1.2 holds.2.2.dataCount) fun _ => ?_
    exact keeps_then (adds_accept _) fun _ => keeps_either ih (adds_pure fun _ => trivial)

theorem adds_extents (fuel : Nat) : Adds s pre (extents fuel) fun _ => True := by
  induction fuel generalizing pre with
  | zero => exact keeps_fail _ _
  | succ fuel ih =>
    refine keeps_then adds_peek fun t => ?_
    split
    · refine keeps_then adds_skip fun _ => keeps_then (adds_accept _) fun _ => keeps_either ?_ (adds_pure fun _ => trivial)
      exact keeps_then ih fun _ => adds_pure fun _ => trivial
    · exact keeps_unexpected _

theorem adds_dim (fuel : Nat) : Adds s pre (dim fuel) fun _ => True := by
  induction fuel generalizing pre with
  | zero => exact keeps_fail _ _
  | succ fuel ih =>
    refine keeps_then adds_identifier fun name => keeps_then (adds_expect _) fun _ => keeps_then (adds_extents fuel) fun _ => ?_
    refine keeps_then (adds_expect _) fun _ => keeps_bind (adds_dimension _ _) fun _ => ?_
    exact keeps_then (adds_accept _) fun _ => keeps_either ih (adds_pure fun _ => trivial)

/-- A change of the open loops. -/
theorem keeps_modify {before after : Context → Prop} {g : Context → Context} (within : ∀ c : Context, c.Within (g c))
    (ends : ∀ c, pre → before c → after (g c)) :
    Keeps before s.last pre (modify g : Parser Unit) (fun _ => after) fun _ => True := by
  refine ⟨fun ran => ?_, fun ran _ holds start => ?_⟩
  · cases ran
    exact within _
  · cases ran
    exact ⟨ends _ holds start, trivial⟩

theorem adds_whileLoop (fuel : Nat) : Adds s pre (whileLoop fuel) fun _ => True := by
  refine keeps_bind adds_freshLabel fun top => keeps_then (adds_mark fun holds => holds.2.other) fun _ => ?_
  refine keeps_bind (adds_expression fuel 0) fun e => keeps_bind adds_freshLabel fun exit => ?_
  refine keeps_then (adds_emit (fun _ => rfl) (fun _ => rfl) fun holds => Command.fine_branchUnless holds.1.2 holds.2)
    fun _ => ?_
  refine keeps_modify (fun c => .of_same rfl rfl rfl rfl rfl fun _ => id) fun c holds settled => ?_
  obtain ⟨commands, h, rest⟩ := settled
  refine ⟨commands, ⟨h.functions, h.inner, h.commands, h.agrees, h.loops, List.forall_mem_cons.mpr ⟨?_, h.whiles⟩,
    h.short, ⟨h.distinct.names, h.distinct.arrays, h.distinct.texts⟩, h.filled⟩, rest⟩
  exact ⟨holds.1.1.2, holds.2⟩

/-- The same while cells are owed. -/
theorem keeps_emit {command : Command} (free : ∀ before, command.frame ++ command.temporaries before = []) :
    Keeps (·.Orderly s) s.last pre (emit command) (fun _ => (·.Orderly { s with commands := command :: s.commands }))
      fun _ => True := by
  refine ⟨fun ran => ?_, fun ran _ _ orderly => ?_⟩
  · cases ran
    exact .emitting _ _
  · cases ran
    exact ⟨orderly.emitting (by rw [free]; rfl), trivial⟩

/-- A command that holds what is owed. -/
theorem keeps_hold {command : Command} (held : pre → s.owed = command.frame ++ command.temporaries s.commands.head?) :
    Keeps (·.Orderly s) s.last pre (emit command)
      (fun _ => (·.Orderly { s with owed := [], commands := command :: s.commands }))
      fun _ => ∀ b ∈ command.temporaries s.commands.head?, b ∈ temporaries s.last.commands := by
  refine ⟨fun ran => ?_, fun ran inside holds orderly => ?_⟩
  · cases ran
    exact .emitting _ _
  · cases ran
    refine ⟨orderly.emitting (by rw [held holds, List.append_nil]), fun b member => ?_⟩
    refine (temporaries_suffix inside.commands).subset (List.mem_append_left _ ?_)
    rw [orderly.commands]
    exact member

/-- The end of a statement. -/
theorem keeps_settle {before : Context → Prop} (commands : List Command)
    (h : Keeps before s.last pre p (fun _ => (·.Orderly (s.among commands))) post)
    (grouped : pre → Grouped s.functions commands) (fine : pre → ∀ command ∈ commands, command.Fine s.functions s.last) :
    Keeps before s.last pre p (fun _ => (·.Settled s)) post :=
  keeps_weaken h id (fun _ => id) (fun _ _ _ holds _ orderly => ⟨commands, orderly, grouped holds, fine holds⟩)
    fun _ _ => id

/-- A FOR loop is open from its test on, which holds the limit and the step. -/
theorem keeps_openLoop (name : String) {slot : Slot} {limit step : Nat} {first last increment : Expr}
    {commands : List Command} (placed : pre → slot.Placed s.last [] name)
    (inside : pre → limit < s.last.scopes.highWater ∧ step < s.last.scopes.highWater)
    (fine : pre → first.Fine s.functions s.last [] ∧ last.Fine s.functions s.last [] ∧
      increment.Fine s.functions s.last [])
    (older : pre → Grouped s.functions commands ∧ ∀ command ∈ commands, command.Fine s.functions s.last) :
    Keeps (·.Orderly (s.owing [⟨step, 1⟩, ⟨limit, 1⟩] (.assign (.scalar (.cell limit)) last ::
        .assign (.scalar slot) first :: commands))) s.last pre (openLoop name slot limit step increment)
      (fun _ => (·.Settled s)) fun _ => True := by
  refine keeps_then (keeps_emit fun _ => rfl) fun _ => keeps_bind reads_freshLabel fun top => ?_
  refine keeps_then (keeps_emit fun _ => rfl) fun _ => keeps_bind reads_freshLabel fun exit => ?_
  refine keeps_bind (keeps_hold fun _ => rfl) fun _ => keeps_modify (fun _ => .of_same rfl rfl rfl rfl rfl fun _ => id) ?_
  rintro c ⟨⟨⟨holds, topInside⟩, exitInside⟩, kept⟩ h
  obtain ⟨grouped, all⟩ := older holds
  obtain ⟨firstFine, lastFine, incrementFine⟩ := fine holds
  obtain ⟨limitInside, stepInside⟩ := inside holds
  have keptStep : ⟨step, 1⟩ ∈ temporaries s.last.commands := kept _ (by simp [Command.temporaries])
  have keptLimit : ⟨limit, 1⟩ ∈ temporaries s.last.commands := kept _ (by simp [Command.temporaries])
  refine ⟨.testLoop slot limit step exit :: .mark top :: .assign (.scalar (.cell step)) increment ::
    .assign (.scalar (.cell limit)) last :: .assign (.scalar slot) first :: commands, ⟨h.functions, h.inner, h.commands,
    h.agrees, List.forall_mem_cons.mpr ⟨?_, h.loops⟩, h.whiles, h.short,
    ⟨h.distinct.names, h.distinct.arrays, h.distinct.texts⟩, h.filled⟩, ?_, ?_⟩
  · exact ⟨placed holds, stepInside, topInside, exitInside⟩
  · exact .plain rfl (.plain (isPlain_mark topInside.other) (.plain rfl (.plain rfl (.plain rfl grouped))))
  · simp only [List.forall_mem_cons]
    exact ⟨Command.fine_testLoop (placed holds) limitInside stepInside exitInside, Command.fine_mark top,
      Command.fine_set stepInside (.inr keptStep) incrementFine, Command.fine_set limitInside (.inr keptLimit) lastFine,
      Command.fine_assign (.scalar (placed holds)) firstFine, all⟩

theorem reads_simple (name : String) : Reads s pre (simple name) (·.Placed s.last s.inner name) := by
  refine keeps_then reads_peek fun t => keeps_either ?_ (reads_resolve name)
  exact ⟨fun ran => absurd ran unexpected_bind_ne_ok, fun ran => absurd ran unexpected_bind_ne_ok⟩

theorem adds_forLoop (fuel : Nat) : Adds s pre (forLoop fuel) fun _ => True := by
  refine keeps_settled fun commands => keeps_then reads_identifier fun name => keeps_bind (reads_simple name) fun slot => ?_
  refine keeps_then (reads_expect _) fun _ => keeps_bind ((readsFinely fuel).expression 0) fun first => ?_
  refine keeps_then (keeps_emit fun _ => rfl) fun _ => keeps_then (reads_expect _) fun _ => ?_
  refine keeps_bind (keeps_allocate 1) fun limit => keeps_bind (keeps_allocate 1) fun step => ?_
  refine keeps_bind ((readsFinely fuel).expression 0) fun last => ?_
  refine keeps_then (keeps_emit fun _ => rfl) fun _ => keeps_then (reads_accept _) fun _ => keeps_either ?_ ?_
  · refine keeps_bind ((readsFinely fuel).expression 0) fun increment => ?_
    exact keeps_openLoop name (fun ⟨⟨⟨⟨⟨⟨_, placed⟩, _⟩, _⟩, _⟩, _⟩, _⟩ => placed)
      (fun ⟨⟨⟨⟨_, limitInside⟩, stepInside⟩, _⟩, _⟩ => ⟨limitInside, stepInside⟩)
      (fun ⟨⟨⟨⟨⟨_, firstFine⟩, _⟩, _⟩, lastFine⟩, incrementFine⟩ => ⟨firstFine, lastFine, incrementFine⟩)
      fun ⟨⟨⟨⟨⟨⟨⟨_, older⟩, _⟩, _⟩, _⟩, _⟩, _⟩, _⟩ => older
  · exact keeps_openLoop name (fun ⟨⟨⟨⟨⟨_, placed⟩, _⟩, _⟩, _⟩, _⟩ => placed)
      (fun ⟨⟨⟨_, limitInside⟩, stepInside⟩, _⟩ => ⟨limitInside, stepInside⟩)
      (fun ⟨⟨⟨⟨_, firstFine⟩, _⟩, _⟩, lastFine⟩ => ⟨firstFine, lastFine, Expr.fine_integer 1⟩)
      fun ⟨⟨⟨⟨⟨⟨_, older⟩, _⟩, _⟩, _⟩, _⟩, _⟩ => older

theorem adds_wend : Adds s pre wend fun _ => True := by
  refine ⟨fun {c _ c'} ran => ?_, fun {c _ c'} ran _ _ settled => ?_⟩
  · obtain ⟨loop, outer, -, rfl⟩ := wend_eq_ok ran
    have closed : c.Within { c with whileLoops := outer } := .of_same rfl rfl rfl rfl rfl fun _ => id
    exact closed.trans ((Context.Within.emitting _ _).trans (.emitting _ _))
  · obtain ⟨loop, outer, opened, rfl⟩ := wend_eq_ok ran
    obtain ⟨commands, h, rest⟩ := settled
    have all := h.whiles
    rw [opened, List.forall_mem_cons] at all
    have closed : { c with whileLoops := outer }.Settled s :=
      ⟨commands, ⟨h.functions, h.inner, h.commands, h.agrees, h.loops, all.2, h.short,
        ⟨h.distinct.names, h.distinct.arrays, h.distinct.texts⟩, h.filled⟩, rest⟩
    exact ⟨(closed.emitting rfl rfl (Command.fine_jump all.1.top)).emitting (isPlain_mark all.1.exit.other) rfl
      (Command.fine_mark _), trivial⟩

theorem adds_closeLoop (name : Option String) : Adds s pre (closeLoop name) fun _ => True := by
  refine ⟨fun {c _ c'} ran => ?_, fun {c _ c'} ran _ _ settled => ?_⟩
  · obtain ⟨loop, outer, -, -, rfl⟩ := closeLoop_eq_ok ran
    have closed : c.Within { c with forLoops := outer } := .of_same rfl rfl rfl rfl rfl fun _ => id
    exact closed.trans ((Context.Within.emitting _ _).trans ((Context.Within.emitting _ _).trans (.emitting _ _)))
  · obtain ⟨loop, outer, opened, -, rfl⟩ := closeLoop_eq_ok ran
    obtain ⟨commands, h, rest⟩ := settled
    have all := h.loops
    rw [opened, List.forall_mem_cons] at all
    have closed : { c with forLoops := outer }.Settled s :=
      ⟨commands, ⟨h.functions, h.inner, h.commands, h.agrees, all.2, h.whiles, h.short,
        ⟨h.distinct.names, h.distinct.arrays, h.distinct.texts⟩, h.filled⟩, rest⟩
    have sum : (Expr.binary .plus (.variable loop.slot) (.variable (.cell loop.step))).Fine s.functions s.last [] :=
      Expr.fine_binary (Expr.fine_variable all.1.slot) (Expr.fine_cell all.1.step)
    have counts : Command.Fine s.functions s.last (.assign (.scalar loop.slot)
        (.binary .plus (.variable loop.slot) (.variable (.cell loop.step)))) := Command.fine_assign (.scalar all.1.slot) sum
    exact ⟨((closed.emitting rfl rfl counts).emitting rfl rfl (Command.fine_jump all.1.top)).emitting
      (isPlain_mark all.1.exit.other) rfl (Command.fine_mark _), trivial⟩

theorem adds_next (fuel : Nat) : Adds s pre (next fuel) fun _ => True := by
  induction fuel generalizing pre with
  | zero => exact keeps_fail _ _
  | succ fuel ih =>
    refine keeps_then adds_peek fun t => ?_
    split
    · refine keeps_then adds_skip fun _ => keeps_then (adds_closeLoop _) fun _ => ?_
      exact keeps_then (adds_accept _) fun _ => keeps_either ih (adds_pure fun _ => trivial)
    · exact adds_closeLoop none

/-- The counter of WAIT is tested before the first turn is given up. -/
theorem adds_wait (fuel : Nat) : Adds s pre (wait fuel) fun _ => True := by
  refine keeps_settled fun commands => keeps_bind (keeps_allocate 1) fun cell => ?_
  refine keeps_bind ((readsFinely fuel).expression 0) fun e => keeps_then (keeps_emit fun _ => rfl) fun _ => ?_
  refine keeps_bind reads_freshLabel fun top => keeps_bind reads_freshLabel fun done => ?_
  refine keeps_then (keeps_emit fun _ => rfl) fun _ => keeps_then (keeps_emit fun _ => rfl) fun _ => ?_
  refine keeps_bind (keeps_hold fun _ => rfl) fun _ => keeps_then (keeps_emit fun _ => rfl) fun _ => ?_
  refine keeps_then (keeps_emit fun _ => rfl) fun _ => keeps_then reads_checkReach fun _ => ?_
  refine keeps_settle (.mark done :: .jump top ::
    .assign (.scalar (.cell cell)) (.binary .minus (.variable (.cell cell)) (.integer 1)) :: .yield ::
    .branchUnless (.binary .greater (.variable (.cell cell)) (.integer 0)) done :: .mark top ::
    .assign (.scalar (.cell cell)) e :: commands) (keeps_emit fun _ => rfl) ?_ ?_
  · rintro ⟨⟨⟨⟨⟨⟨-, grouped, -⟩, -⟩, -⟩, topInside⟩, doneInside⟩, -⟩
    exact .plain (isPlain_mark doneInside.other) (.plain rfl (.plain rfl (.plain rfl (.plain rfl
      (.plain (isPlain_mark topInside.other) (.plain rfl grouped))))))
  · rintro ⟨⟨⟨⟨⟨⟨-, -, all⟩, inside⟩, fine⟩, topInside⟩, doneInside⟩, held⟩
    have kept : ⟨cell, 1⟩ ∈ temporaries s.last.commands := held _ (by simp [Command.temporaries])
    have counter (op : Operator) (n : Int16) :
        (Expr.binary op (.variable (.cell cell)) (.integer n)).Fine s.functions s.last [] :=
      Expr.fine_binary (Expr.fine_cell inside) (Expr.fine_integer n)
    simp only [List.forall_mem_cons]
    exact ⟨Command.fine_mark done, Command.fine_jump topInside, Command.fine_set inside (.inr kept) (counter _ _),
      Command.fine_yield, Command.fine_branchUnless (counter _ _) doneInside, Command.fine_mark top,
      Command.fine_set inside (.inr kept) fine, all⟩

/-- A parser that reads tokens only. -/
theorem keeps_aside {before : Context → Prop} (closed : ∀ {c c' : Context}, c.Aside c' → before c → before c')
    (same : ∀ {c a c'}, p c = .ok (a, c') → c.Aside c') : Keeps before s.last pre p (fun _ => before) fun _ => True :=
  ⟨fun ran => (same ran).within, fun ran _ _ start => ⟨closed (same ran) start, trivial⟩⟩

theorem accept_aside {t : Token} {found : Bool} {c c' : Context} (ran : accept t c = .ok (found, c')) : c.Aside c' := by
  have whole := accept_bind (c := c) t (pure : Bool → Parser Bool)
  rw [bind_pure, ran] at whole
  split at whole
  · cases whole
    exact .past c
  · cases whole
    exact .of_rest rfl rfl rfl rfl rfl rfl rfl rfl fun _ => id

theorem lineNumber_aside {n : UInt16} {c c' : Context} (ran : lineNumber c = .ok (n, c')) : c.Aside c' := by
  rw [lineNumber, peek_bind] at ran
  cases next : c.rest.head? with
  | none =>
    rw [next] at ran
    exact absurd ran unexpected_ne_ok
  | some t =>
    rw [next] at ran
    cases t with
    | integer _ | float _ =>
      dsimp only at ran
      split at ran
      · rw [skip_bind] at ran
        obtain ⟨-, rfl⟩ := pure_eq_ok.mp ran
        exact .past c
      · exact absurd ran unexpected_ne_ok
    | _ => exact absurd ran unexpected_ne_ok

/-- Between two statements, not directly behind an assignment. -/
def Tested (s : Setting) (c : Context) : Prop := c.Settled s ∧ ∀ t e, c.commands.head? ≠ some (.assign t e)

theorem tested_aside {c c' : Context} (same : c.Aside c') (h : Tested s c) : Tested s c' :=
  ⟨settled_aside same h.1, same.commands ▸ h.2⟩

/-- A mark is no assignment. -/
theorem keeps_placed {l : Label} (placed : pre → l.Placed s.last) :
    Keeps (·.Settled s) s.last pre (place l) (fun _ => Tested s) fun _ => True := by
  have places : Adds s pre (place l) fun _ => True := adds_place fun holds => (placed holds).other
  refine ⟨places.within, fun ran inside holds settled => ⟨⟨?_, ?_⟩, trivial⟩⟩
  · exact (places.keeps ran inside holds settled).1
  · obtain ⟨-, rfl⟩ := place_eq_ok.mp ran
    rintro t e ⟨⟩

/-- The first of some lines of ON, where the test of the selector leads to the others. -/
theorem keeps_choices {before : Context → Prop} {fuel cell : Nat} {gosubEnd : Option Label} {choice : Int16}
    (closed : ∀ {c c' : Context}, c.Aside c' → before c → before c')
    (tests : ∀ {pre' : Prop} (equal : Bool) {l : Label}, (pre' → pre ∧ l.Placed s.last) →
      Keeps before s.last pre' (emit (.branchOn cell choice equal l)) (fun _ => Tested s) fun _ => True)
    (more : ∀ {pre' : Prop}, (pre' → pre) →
      Keeps (Tested s) s.last pre' (choices fuel cell gosubEnd (choice + 1)) (fun _ => (·.Settled s)) fun _ => True)
    (ends : pre → ∀ l ∈ gosubEnd, l.Placed s.last) :
    Keeps before s.last pre (choices (fuel + 1) cell gosubEnd choice) (fun _ => (·.Settled s)) fun _ => True := by
  have later {pre' : Prop} (holds : pre' → pre) : Keeps (Tested s) s.last pre'
      (do if ← accept .comma then choices fuel cell gosubEnd (choice + 1)) (fun _ => (·.Settled s)) fun _ => True := by
    refine keeps_then (keeps_aside tested_aside accept_aside) fun _ => keeps_either (more holds) ?_
    exact keeps_pure (fun _ _ tested => tested.1) fun _ => trivial
  refine keeps_then (keeps_aside closed lineNumber_aside) fun n => ?_
  cases gosubEnd with
  | none => exact keeps_referred tested_aside (tests true fun holds => ⟨holds.1, rfl, holds.2⟩) (later id)
  | some done =>
    have fresh : Keeps before s.last pre freshLabel (fun _ => before) (·.Placed s.last) := by
      refine ⟨fun ran => ?_, fun ran inside _ start => ?_⟩
      · cases ran
        exact (Context.Aside.labelling _).within
      · cases ran
        exact ⟨closed (.labelling _) start, rfl, inside.cites _ (Nat.lt_succ_self _)⟩
    refine keeps_bind fresh fun other => keeps_then (tests false id) fun _ => ?_
    refine keeps_weaken ?_ id (fun c tested => tested.1) (fun _ _ _ _ _ => id) fun _ _ => id
    refine keeps_referred settled_aside (adds_emit (fun _ => rfl) (fun _ => rfl) fun holds => Command.fine_call holds.2) ?_
    refine keeps_then (adds_emit (fun _ => rfl) (fun _ => rfl) fun holds => Command.fine_jump (ends holds.1 done rfl))
      fun _ => ?_
    exact keeps_then (keeps_placed And.right) fun _ => later And.left

/-- The lines of ON behind a test. -/
theorem adds_choices (fuel : Nat) {cell : Nat} {gosubEnd : Option Label} (choice : Int16)
    (inside : pre → cell < s.last.scopes.highWater) (ends : pre → ∀ l ∈ gosubEnd, l.Placed s.last) :
    Keeps (Tested s) s.last pre (choices fuel cell gosubEnd choice) (fun _ => (·.Settled s)) fun _ => True := by
  induction fuel generalizing pre choice with
  | zero => exact keeps_fail _ _
  | succ fuel ih =>
    refine keeps_choices tested_aside (fun {pre'} equal {l} holds => ?_)
      (fun before => ih _ (fun h => inside (before h)) fun h => ends (before h)) ends
    refine ⟨fun ran => ?_, fun {c _ _} ran _ known tested => ?_⟩
    · cases ran
      exact .emitting _ _
    · cases ran
      have free : Command.temporaries c.commands.head? (.branchOn cell choice equal l) = [] := by
        cases found : c.commands.head? with
        | none => rfl
        | some command =>
          cases command with
          | assign t e => exact absurd found (tested.2 t e)
          | _ => rfl
      refine ⟨⟨tested.1.emitting rfl (by rw [free]; rfl) ?_, by rintro t e ⟨⟩⟩, trivial⟩
      exact Command.fine_branchOn _ _ (inside (holds known).1) (holds known).2

/-- The first test of the selector of ON, which has just been set, holds its cell. -/
theorem keeps_test {commands : List Command} {e : Expr} {cell : Nat} {choice : Int16} {equal : Bool} {l : Label}
    (older : pre → Grouped s.functions commands ∧ ∀ command ∈ commands, command.Fine s.functions s.last)
    (inside : pre → cell < s.last.scopes.highWater) (fine : pre → e.Fine s.functions s.last [])
    (aim : pre → l.Placed s.last) :
    Keeps (·.Orderly (s.owing [⟨cell, 1⟩] (.assign (.scalar (.cell cell)) e :: commands))) s.last pre
      (emit (.branchOn cell choice equal l)) (fun _ => Tested s) fun _ => True := by
  have holds : Keeps (·.Orderly (s.owing [⟨cell, 1⟩] (.assign (.scalar (.cell cell)) e :: commands))) s.last pre
      (emit (.branchOn cell choice equal l))
      (fun _ => (·.Orderly (s.among (.branchOn cell choice equal l :: .assign (.scalar (.cell cell)) e :: commands))))
      fun _ => ∀ b ∈ [⟨cell, 1⟩], b ∈ temporaries s.last.commands := keeps_hold fun _ => rfl
  refine keeps_weaken holds id (fun _ => id) (fun _ c _ known kept orderly => ?_) fun _ _ _ => trivial
  obtain ⟨grouped, all⟩ := older known
  have keptCell : ⟨cell, 1⟩ ∈ temporaries s.last.commands := kept _ (by simp)
  refine ⟨⟨_, orderly, .plain rfl (.plain rfl grouped), ?_⟩, ?_⟩
  · simp only [List.forall_mem_cons]
    exact ⟨Command.fine_branchOn _ _ (inside known) (aim known), Command.fine_set (inside known) (.inr keptCell) (fine known),
      all⟩
  · rw [orderly.commands]
    rintro t e ⟨⟩

/-- All lines of ON. -/
theorem keeps_allChoices (fuel : Nat) {commands : List Command} {e : Expr} {cell : Nat} {gosubEnd : Option Label}
    (older : pre → Grouped s.functions commands ∧ ∀ command ∈ commands, command.Fine s.functions s.last)
    (inside : pre → cell < s.last.scopes.highWater) (fine : pre → e.Fine s.functions s.last [])
    (ends : pre → ∀ l ∈ gosubEnd, l.Placed s.last) :
    Keeps (·.Orderly (s.owing [⟨cell, 1⟩] (.assign (.scalar (.cell cell)) e :: commands))) s.last pre
      (choices fuel cell gosubEnd 1) (fun _ => (·.Settled s)) fun _ => True := by
  cases fuel with
  | zero => exact keeps_fail _ _
  | succ fuel =>
    refine keeps_choices (fun same orderly => orderly.aside same) (fun {_} equal {l} holds => ?_)
      (fun before => adds_choices fuel _ (fun h => inside (before h)) fun h => ends (before h)) ends
    exact keeps_test (fun h => older (holds h).1) (fun h => inside (holds h).1) (fun h => fine (holds h).1)
      fun h => (holds h).2

theorem adds_on (fuel : Nat) : Adds s pre (on fuel) fun _ => True := by
  refine keeps_settled fun commands => keeps_bind (keeps_allocate 1) fun cell => ?_
  refine keeps_bind ((readsFinely fuel).expression 0) fun e => keeps_then (keeps_emit fun _ => rfl) fun _ => ?_
  refine keeps_then (reads_accept _) fun _ => keeps_either ?_ ?_
  · refine keeps_bind reads_freshLabel fun done => keeps_then (keeps_allChoices fuel ?_ ?_ ?_ ?_) fun _ => ?_
    · exact fun ⟨⟨⟨⟨_, older⟩, _⟩, _⟩, _⟩ => older
    · exact fun ⟨⟨⟨_, inside⟩, _⟩, _⟩ => inside
    · exact fun ⟨⟨_, fine⟩, _⟩ => fine
    · rintro ⟨-, other⟩ l ⟨⟩
      exact other
    · exact adds_place fun holds => holds.2.other
  · refine keeps_then (reads_expect _) fun _ => keeps_allChoices fuel ?_ ?_ ?_ ?_
    · exact fun ⟨⟨⟨_, older⟩, _⟩, _⟩ => older
    · exact fun ⟨⟨_, inside⟩, _⟩ => inside
    · exact And.right
    · rintro - l ⟨⟩

/-- Whether a token is a name. -/
def isIdent : Token → Bool
  | .ident _ => true
  | _ => false

/-- Each parameter is a name, and no parenthesis closes among them. -/
theorem parametersAfter_eq_ok {fuel : Nat} {before names : List String} {c c' : Context}
    (ran : parametersAfter fuel before c = .ok (names, c')) :
    c.Aside c' ∧ ∃ read, c.rest = read ++ c'.rest ∧ .rparen ∉ read ∧ names.length = before.length + read.countP isIdent := by
  induction fuel generalizing before c with
  | zero => exact absurd ran fail_ne_ok
  | succ fuel ih =>
    rw [parametersAfter] at ran
    obtain ⟨name, d, first, later⟩ := bind_eq_ok.mp ran
    obtain ⟨next, rfl⟩ := identifier_eq_ok.mp first
    obtain ⟨rest, starts⟩ := List.head?_eq_some_iff.mp next
    have past : c.past.rest = rest := by rw [Context.past, starts]; rfl
    dsimp only at later
    split at later
    · exact absurd later fail_bind_ne_ok
    · rw [accept_bind] at later
      split at later
      · next comma =>
        obtain ⟨same, read, split, open_, count⟩ := ih later
        obtain ⟨rest', starts'⟩ := List.head?_eq_some_iff.mp comma
        refine ⟨⟨(same.rest.trans (List.tail_suffix _)).trans (List.tail_suffix _), same.scopes, same.arrays,
          same.functions, same.texts, same.forLoops, same.whileLoops, same.commands, same.cites, same.dataCount⟩,
          .ident name :: .comma :: read, ?_, ?_, ?_⟩
        · rw [starts, ← past, starts', List.cons_append, List.cons_append, ← split]
          change _ = _ :: _ :: c.past.rest.tail
          rw [starts']
          rfl
        · simpa using open_
        · rw [count, List.length_append, List.countP_cons_of_pos rfl, List.countP_cons_of_neg (by decide)]
          simp only [List.length_cons, List.length_nil]
          omega
      · obtain ⟨rfl, rfl⟩ := pure_eq_ok.mp later
        exact ⟨.past c, [.ident name], by rw [starts, past]; rfl, by simp, by simp [isIdent]⟩

theorem parameterCount_lparen (rest : List Token) :
    parameterCount (.lparen :: rest) = (rest.takeWhile (· ≠ .rparen)).countP isIdent := rfl

theorem parameterCount_of_ne {tokens : List Token} (h : tokens.head? ≠ some .lparen) : parameterCount tokens = 0 := by
  unfold parameterCount
  split
  · exact absurd rfl h
  · rfl

/-- The parameters are as many as were counted before the lines were read. -/
theorem parameters_eq_ok {fuel : Nat} {names : List String} {c c' : Context} (ran : parameters fuel c = .ok (names, c')) :
    c.Aside c' ∧ names.length = parameterCount c.rest := by
  rw [parameters, accept_bind] at ran
  split at ran
  · next opens =>
    obtain ⟨rest, starts⟩ := List.head?_eq_some_iff.mp opens
    have past : c.past.rest = rest := by rw [Context.past, starts]; rfl
    rw [starts, parameterCount_lparen]
    rw [if_pos rfl, accept_bind, past] at ran
    split at ran
    · next closes =>
      obtain ⟨rfl, rfl⟩ := pure_eq_ok.mp ran
      obtain ⟨rest', rfl⟩ := List.head?_eq_some_iff.mp closes
      have twice : c.past.past.rest <:+ c.rest := (List.tail_suffix _).trans (List.tail_suffix _)
      exact ⟨⟨twice, rfl, rfl, rfl, rfl, rfl, rfl, rfl, fun _ => id, rfl⟩, rfl⟩
    · obtain ⟨read, d, names', ran⟩ := bind_eq_ok.mp ran
      obtain ⟨_, d', expected, ran⟩ := bind_eq_ok.mp ran
      obtain ⟨rfl, rfl⟩ := pure_eq_ok.mp ran
      obtain ⟨closes, rfl⟩ := expect_eq_ok.mp expected
      obtain ⟨same, read, split, open_, count⟩ := parametersAfter_eq_ok names'
      obtain ⟨rest', starts'⟩ := List.head?_eq_some_iff.mp closes
      refine ⟨⟨((List.tail_suffix _).trans same.rest).trans (List.tail_suffix _), same.scopes, same.arrays,
        same.functions, same.texts, same.forLoops, same.whileLoops, same.commands, same.cites, same.dataCount⟩, ?_⟩
      rw [past, starts'] at split
      rw [count, split, List.takeWhile_append_of_pos fun t member => ?_, List.takeWhile_cons_of_neg (by simp),
        List.append_nil]
      · exact Nat.zero_add _
      · simp only [ne_eq, decide_eq_true_eq]
        rintro rfl
        exact open_ member
  · next other =>
    obtain ⟨rfl, rfl⟩ := pure_eq_ok.mp ran
    exact ⟨.of_rest rfl rfl rfl rfl rfl rfl rfl rfl fun _ => id, (parameterCount_of_ne other).symm⟩

theorem next_foldl_define (names : List String) (scope : Scope) :
    (names.foldl Scope.define scope).next = scope.next + names.length := by
  induction names generalizing scope with
  | nil => rfl
  | cons name rest ih =>
    rw [List.foldl_cons, ih, List.length_cons]
    change scope.next + 1 + rest.length = _
    omega

/-- The scope of a function: the first place of a frame is taken. -/
def scopeOf (names : List String) : Scope := names.foldl Scope.define { next := 1 }

/-- Inside a function. -/
theorem keeps_enter (names : List String) (root : s.inner = []) : Keeps (·.Orderly s) s.last pre
    (modify fun c => { c with scopes := names.foldl (fun s n => (s.define n).2) c.scopes.enter } : Parser Unit)
    (fun _ => (·.Orderly { s with inner := [scopeOf names] })) fun _ => True := by
  have scopes (c : Context) : names.foldl (fun s n => (s.define n).2) c.scopes.enter =
      { c.scopes with inner := scopeOf names :: c.scopes.inner } := foldl_define names rfl
  refine keeps_modify (fun c => .of_same (by rw [scopes]) rfl rfl rfl rfl fun _ => id) fun c _ h => ?_
  rw [scopes]
  refine ⟨h.functions, ?_, h.commands, h.agrees, h.loops, h.whiles, h.short, ⟨h.distinct.names, h.distinct.arrays,
    h.distinct.texts⟩, h.filled⟩
  rw [h.inner, root]

theorem keeps_leave (names : List String) (inside : s.inner = [scopeOf names]) : Keeps (·.Orderly s) s.last pre
    (modify fun c => { c with scopes := c.scopes.leave } : Parser Unit) (fun _ => (·.Orderly { s with inner := [] }))
    fun _ => True := by
  refine keeps_modify (fun c => .of_same rfl rfl rfl rfl rfl fun _ => id) fun c _ h => ?_
  refine ⟨h.functions, ?_, h.commands, h.agrees, h.loops, h.whiles, h.short, ⟨h.distinct.names, h.distinct.arrays,
    h.distinct.texts⟩, h.filled⟩
  change c.scopes.inner.tail = []
  rw [h.inner, inside]
  rfl

/-- The name of a function and its parameters, as they were counted before the lines were read. -/
theorem keeps_header (fuel : Nat) {f : String → List String → Parser β} {post' : β → Prop} {later : β → Context → Prop}
    (rest : ∀ name names, Keeps (·.Settled s) s.last (pre ∧ s.functions.lookup name = some names.length) (f name names)
      later post') :
    Keeps (fun c => c.Settled s ∧ Agrees s.functions (.word .DEF :: c.rest)) s.last pre (do
      expect (.word .FN)
      let name ← identifier
      let names ← parameters fuel
      f name names) later post' := by
  have opens : Keeps (fun c => c.Settled s ∧ Agrees s.functions (.word .DEF :: c.rest)) s.last pre (expect (.word .FN))
      (fun _ c => c.Settled s ∧ Agrees s.functions (.word .DEF :: .word .FN :: c.rest)) fun _ => True := by
    refine ⟨fun ran => ?_, fun {c _ _} ran _ _ start => ?_⟩
    · obtain ⟨-, rfl⟩ := expect_eq_ok.mp ran
      exact (Context.Aside.past _).within
    · obtain ⟨next, rfl⟩ := expect_eq_ok.mp ran
      obtain ⟨after, starts⟩ := List.head?_eq_some_iff.mp next
      refine ⟨⟨settled_aside (.past c) start.1, ?_⟩, trivial⟩
      rw [Context.past, starts, List.tail_cons, ← starts]
      exact start.2
  have names (name : String) : Keeps (fun c => c.Settled s ∧ s.functions.lookup name = some (parameterCount c.rest))
      s.last pre (parameters fuel) (fun _ => (·.Settled s)) fun names => s.functions.lookup name = some names.length := by
    refine ⟨fun ran => (parameters_eq_ok ran).1.within, fun ran _ _ start => ?_⟩
    obtain ⟨same, count⟩ := parameters_eq_ok ran
    exact ⟨settled_aside same start.1, count ▸ start.2⟩
  have named : Keeps (fun c => c.Settled s ∧ Agrees s.functions (.word .DEF :: .word .FN :: c.rest)) s.last pre identifier
      (fun name c => c.Settled s ∧ s.functions.lookup name = some (parameterCount c.rest)) fun _ => True := by
    refine ⟨fun ran => ?_, fun {c _ _} ran _ _ start => ?_⟩
    · obtain ⟨-, rfl⟩ := identifier_eq_ok.mp ran
      exact (Context.Aside.past _).within
    · obtain ⟨next, rfl⟩ := identifier_eq_ok.mp ran
      obtain ⟨after, starts⟩ := List.head?_eq_some_iff.mp next
      refine ⟨⟨settled_aside (.past c) start.1, ?_⟩, trivial⟩
      rw [Context.past, starts, List.tail_cons]
      exact start.2 _ _ (starts ▸ List.suffix_refl _)
  exact keeps_then opens fun _ => keeps_then named fun name => keeps_bind (names name) fun names => rest name names

theorem adds_define (fuel : Nat) : Keeps (fun c => c.Settled s ∧ Agrees s.functions (.word .DEF :: c.rest)) s.last pre
    (define fuel) (fun _ => (·.Settled s)) fun _ => True := by
  refine keeps_header fuel fun name names => keeps_settled fun commands => keeps_then (reads_expect _) fun _ => ?_
  refine keeps_bind reads_freshLabel fun after => keeps_then (keeps_emit fun _ => rfl) fun _ => ?_
  refine keeps_then (keeps_emit fun _ => rfl) fun _ => keeps_then (keeps_enter names rfl) fun _ => ?_
  refine keeps_bind keeps_get fun c => keeps_bind (keeps_allocate _) fun frame => ?_
  refine keeps_then (reads_accountCode _) fun _ => keeps_bind ((readsFinely fuel).expression 0) fun body => ?_
  refine keeps_then (keeps_leave names rfl) fun _ => ?_
  have size (holds : c.Orderly { s.among (.mark (.function name) :: .jump after :: commands) with
      inner := [scopeOf names] }) : c.scopes.frameSize = 1 + names.length := by
    rw [Scopes.frameSize, holds.inner]
    exact next_foldl_define names _
  refine keeps_bind (keeps_hold ?_) fun _ => ?_
  · rintro ⟨⟨⟨-, orderly, -⟩, -⟩, -⟩
    exact congrArg (fun n => [Block.mk frame n]) (size orderly)
  refine keeps_then reads_checkReach fun _ => keeps_settle (.mark after :: .function frame names.length body ::
    .mark (.function name) :: .jump after :: commands) (keeps_emit fun _ => rfl) ?_ ?_
  · rintro ⟨⟨⟨⟨⟨⟨⟨-, known⟩, grouped, -⟩, other⟩, -⟩, -⟩, -⟩, -⟩
    exact .plain (isPlain_mark other.other) (.function known grouped)
  · rintro ⟨⟨⟨⟨⟨⟨-, -, all⟩, other⟩, orderly, inside⟩, bound⟩, fine⟩, -⟩
    have cursor : cursorCell < s.last.scopes.highWater := Nat.lt_of_lt_of_le orderly.cursor inside.highWater
    have bound : frame + (1 + names.length) ≤ s.last.scopes.highWater := size orderly ▸ bound
    simp only [List.forall_mem_cons]
    exact ⟨Command.fine_mark after, Command.fine_function (by omega) cursor fine, Command.fine_mark _,
      Command.fine_jump other, all⟩

theorem adds_poke (fuel : Nat) : Adds s pre (poke fuel) fun _ => True :=
  keeps_bind (adds_expression fuel 0) fun _ => keeps_then (adds_accountCode _) fun _ => keeps_then (adds_expect _) fun _ =>
    keeps_bind (adds_expression fuel 0) fun _ =>
      adds_emit (fun _ => rfl) (fun _ => rfl) fun holds => Command.fine_poke holds.1.2 holds.2

theorem adds_swap : Adds s pre swap fun _ => True := by
  refine keeps_then adds_identifier fun _ => keeps_then (adds_expect _) fun _ => keeps_then adds_identifier fun _ => ?_
  refine keeps_then adds_peek fun _ => keeps_either ?_ ?_
  · exact ⟨fun ran => absurd ran unexpected_bind_ne_ok, fun ran => absurd ran unexpected_bind_ne_ok⟩
  · exact keeps_bind (adds_resolve _) fun _ => keeps_bind (adds_resolve _) fun _ =>
      adds_emit (fun _ => rfl) (fun _ => rfl) fun holds => Command.fine_swap holds.1.2 holds.2

theorem adds_atEnd : Adds s pre atEnd fun _ => True := by
  refine keeps_then adds_peek fun t => ?_
  split <;> exact adds_pure fun _ => trivial

theorem adds_randomize (fuel : Nat) : Adds s pre (randomize fuel) fun _ => True := by
  refine keeps_then adds_atEnd fun _ => keeps_either ?_ ?_
  · exact adds_emit (fun _ => rfl) (fun _ => rfl) fun _ => Command.fine_seed (by rintro x ⟨⟩)
  · refine keeps_bind (adds_expression fuel 0) fun e => adds_emit (fun _ => rfl) (fun _ => rfl) fun holds => ?_
    refine Command.fine_seed ?_
    rintro x ⟨⟩
    exact holds.2

theorem adds_orElse (fuel : Nat) (n : Int16) :
    Adds s pre (orElse fuel n) (·.Fine s.functions s.last []) :=
  keeps_then (adds_accept _) fun _ => keeps_either (adds_expression fuel 0)
    (keeps_then (adds_accountCode _) fun _ => adds_pure fun _ => Expr.fine_integer n)

/-- A call of the host. -/
theorem adds_host {request : Syscall} {args : List Expr} (takes : pre → request.shift = some (args.length, 0))
    (all : pre → ∀ e ∈ args, e.Fine s.functions s.last []) :
    Adds s pre (emit (.host request args)) fun _ => True :=
  adds_emit (fun _ => rfl) (fun _ => rfl) fun holds => Command.fine_host (takes holds) (all holds)

theorem adds_hostCall (fuel : Nat) {request : Syscall} {n : Nat} (takes : request.shift = some (n, 0)) :
    Adds s pre (hostCall fuel request n) fun _ => True :=
  keeps_bind (adds_expressionsN fuel n) fun _ => adds_host (fun holds => holds.2.1 ▸ takes) fun holds => holds.2.2

/-- One argument more. -/
theorem adds_hostMore {request : Syscall} {n : Nat} {args : List Expr} {e : Expr} (takes : request.shift = some (n + 1, 0))
    (count : pre → args.length = n) (all : pre → ∀ e ∈ args, e.Fine s.functions s.last [])
    (more : pre → e.Fine s.functions s.last []) :
    Adds s pre (emit (.host request (args ++ [e]))) fun _ => True := by
  refine adds_host (fun holds => ?_) fun holds => ?_
  · rw [List.length_append, count holds, takes]
    rfl
  · exact List.forall_mem_append.mpr ⟨all holds, List.forall_mem_singleton.mpr (more holds)⟩

theorem adds_hostCallOr (fuel : Nat) {request : Syscall} {n : Nat} (default : Int16)
    (takes : request.shift = some (n + 1, 0)) : Adds s pre (hostCallOr fuel request n default) fun _ => True :=
  keeps_bind (adds_expressionsN fuel n) fun _ => keeps_bind (adds_orElse fuel default) fun _ =>
    adds_hostMore takes (fun holds => holds.1.2.1) (fun holds => holds.1.2.2) And.right

theorem adds_line (fuel : Nat) : Adds s pre (line fuel) fun _ => True := by
  refine keeps_bind (adds_expressionsN fuel 4) fun ends => keeps_then (adds_accept _) fun _ => keeps_either ?_ ?_
  · refine keeps_bind (adds_expression fuel 0) fun _ => keeps_then (adds_accept _) fun _ => keeps_either ?_ ?_
    · refine keeps_then adds_identifier fun _ => keeps_either ?_ (keeps_fail _ _)
      exact adds_hostMore rfl (fun holds => holds.1.2.1) (fun holds => holds.1.2.2) And.right
    · exact adds_hostMore rfl (fun holds => holds.1.2.1) (fun holds => holds.1.2.2) And.right
  · exact adds_hostMore rfl (fun holds => holds.2.1) (fun holds => holds.2.2) fun _ => Expr.fine_integer _

theorem adds_put (fuel : Nat) : Adds s pre (put fuel) fun _ => True := by
  refine keeps_bind (adds_expression fuel 0) fun _ => keeps_then (adds_expect _) fun _ => ?_
  refine keeps_bind (adds_expression fuel 0) fun _ => keeps_then (adds_expect _) fun _ => ?_
  refine keeps_then adds_identifier fun name => keeps_bind keeps_get fun c => ?_
  cases found : c.arrays.lookup name with
  | none => exact keeps_fail _ _
  | some array =>
    refine adds_emit (fun _ => rfl) (fun _ => rfl) ?_
    rintro ⟨⟨⟨-, first⟩, second⟩, ⟨commands, orderly, -⟩, inside⟩
    exact Command.fine_blit first second (orderly.placed inside (mem_of_lookup found)).base

theorem adds_data : Adds s pre data fun _ => True :=
  keeps_modify (fun _ => .of_same rfl rfl rfl rfl rfl fun _ => id) fun _ _ settled =>
    settled_aside ⟨List.dropWhile_suffix _, rfl, rfl, rfl, rfl, rfl, rfl, rfl, fun _ => id, rfl⟩ settled

theorem adds_restore : Adds s pre (emit (.assign (.scalar (.cell cursorCell)) (.integer 0))) fun _ => True := by
  refine ⟨fun ran => ?_, fun {c _ _} ran inside _ settled => ?_⟩
  · cases ran
    exact .emitting _ _
  · cases ran
    have ⟨_, orderly, _⟩ := settled
    have cursor : cursorCell < s.last.scopes.highWater := Nat.lt_of_lt_of_le orderly.cursor inside.highWater
    exact ⟨settled.emitting rfl rfl (Command.fine_set cursor (.inl ⟨rfl, rfl⟩) (Expr.fine_integer 0)), trivial⟩

/-- Reading leads from one context to another, and whatever is settled stays settled. -/
structure Proceeds (c c' : Context) : Prop where
  within : c.Within c'
  settled : ∀ {s : Setting}, c'.Within s.last → c.Settled s → c'.Settled s

namespace Proceeds

variable {c c' c'' : Context}

theorem of_adds {p : Parser α} {a : α} {post : Setting → α → Prop} (adds : ∀ s, Adds s True p (post s))
    (ran : p c = .ok (a, c')) : Proceeds c c' :=
  ⟨(adds (.whole c [] 0)).within ran, fun {s} inside settled => ((adds s).keeps ran inside trivial settled).1⟩

theorem of_aside (h : c.Aside c') : Proceeds c c' := ⟨h.within, fun _ => settled_aside h⟩

theorem trans (first : Proceeds c c') (second : Proceeds c' c'') : Proceeds c c'' :=
  ⟨first.within.trans second.within, fun inside settled =>
    second.settled inside (first.settled (second.within.trans inside) settled)⟩

end Proceeds

theorem adds_condition (fuel : Nat) : Adds s pre (condition fuel) (·.Placed s.last) := by
  refine keeps_bind (adds_expression fuel 0) fun e => keeps_bind adds_freshLabel fun otherwise => ?_
  exact keeps_then (adds_emit (fun _ => rfl) (fun _ => rfl) fun holds => Command.fine_branchUnless holds.1.2 holds.2)
    fun _ => adds_pure And.right

theorem adds_consequence {fuel : Nat} (branched : ∀ {pre : Prop}, Adds s pre (branch fuel) fun _ => True) :
    Adds s pre (consequence fuel) fun _ => True := by
  refine keeps_then (adds_accept _) fun _ => keeps_either adds_goto ?_
  exact keeps_then (adds_expect _) fun _ => branched

theorem adds_alternative {l : Label} (inner : pre → l.isFunction = false) : Adds s pre (alternative l) (·.Placed s.last) := by
  refine keeps_bind adds_freshLabel fun done => ?_
  refine keeps_then (adds_emit (fun _ => rfl) (fun _ => rfl) fun holds => Command.fine_jump holds.2) fun _ => ?_
  exact keeps_then (adds_place fun holds => inner holds.1) fun _ => adds_pure And.right

theorem adds_ifThen {fuel : Nat} (branched : ∀ {pre : Prop}, Adds s pre (branch fuel) fun _ => True) :
    Adds s pre (ifThen (fuel + 1)) fun _ => True := by
  rw [ifThen_eq]
  refine keeps_bind (adds_condition fuel) fun otherwise => keeps_then (adds_consequence branched) fun _ => ?_
  refine keeps_then (adds_accept _) fun _ => keeps_either ?_ (adds_place fun holds => holds.2.other)
  refine keeps_bind (adds_alternative fun holds => holds.2.other) fun done => keeps_then branched fun _ => ?_
  exact adds_place fun holds => holds.2.other

/-- A statement that a keyword begins, but for IF. That of DEF has to agree with what was counted before. -/
theorem proceeds_keyword {fuel : Nat} {k : Keyword} {c c' : Context} (other : k ≠ .IF)
    (next : c.rest.head? = some (.word k)) (ran : keyword (fuel + 1) k c.past = .ok ((), c')) : Proceeds c c' := by
  have plain {p : Parser Unit} (ran : p c.past = .ok ((), c')) (h : ∀ {s : Setting}, Adds s True p fun _ => True) :
      Proceeds c c' := (Proceeds.of_aside (.past c)).trans (.of_adds (fun _ => h) ran)
  cases k with
  | BEEP =>
    refine plain ran (adds_host (fun _ => rfl) fun _ => ?_)
    simp only [List.forall_mem_cons]
    exact ⟨Expr.fine_integer 0, Expr.fine_integer 800, Expr.fine_integer 250, List.forall_mem_nil _⟩
  | CLS => exact plain ran (adds_host (fun _ => rfl) fun _ => List.forall_mem_nil _)
  | COLOR => exact plain ran (adds_hostCallOr fuel 0 rfl)
  | DATA => exact plain ran adds_data
  | DEF =>
    have adds (s : Setting) : Keeps _ s.last True (define fuel) _ _ := adds_define (s := s) fuel
    refine ⟨(Context.Aside.past c).within.trans ((adds (.whole c [] 0)).within ran), fun {s} inside settled => ?_⟩
    refine ((adds s).keeps ran inside trivial ⟨settled_aside (.past c) settled, ?_⟩).1
    obtain ⟨rest, starts⟩ := List.head?_eq_some_iff.mp next
    obtain ⟨commands, orderly, -⟩ := settled
    rw [Context.past, starts, List.tail_cons, ← starts]
    exact orderly.agrees
  | DIM => exact plain ran (adds_dim fuel)
  | END => exact plain ran (adds_emit (fun _ => rfl) (fun _ => rfl) fun _ => Command.fine_halt)
  | FOR => exact plain ran (adds_forLoop fuel)
  | GOSUB => exact plain ran adds_gosub
  | GOTO => exact plain ran adds_goto
  | IF => exact absurd rfl other
  | INPUT => exact plain ran (adds_input fuel)
  | LET => exact plain ran (adds_assignment fuel)
  | LINE => exact plain ran (adds_line fuel)
  | LOCATE => exact plain ran (adds_hostCall fuel rfl)
  | NEXT => exact plain ran (adds_next fuel)
  | ON => exact plain ran (adds_on fuel)
  | POKE => exact plain ran (adds_poke fuel)
  | PRINT => exact plain ran (adds_print fuel)
  | PSET => exact plain ran (adds_hostCallOr fuel defaultColour rfl)
  | PUT => exact plain ran (adds_put fuel)
  | RANDOMIZE => exact plain ran (adds_randomize fuel)
  | READ => exact plain ran (adds_read fuel)
  | RESTORE => exact plain ran adds_restore
  | RETURN => exact plain ran (adds_emit (fun _ => rfl) (fun _ => rfl) fun _ => Command.fine_ret)
  | SOUND => exact plain ran (adds_hostCall fuel rfl)
  | SWAP => exact plain ran adds_swap
  | VOICE => exact plain ran (adds_hostCall fuel rfl)
  | WAIT => exact plain ran (adds_wait fuel)
  | WEND => exact plain ran adds_wend
  | WHILE => exact plain ran (adds_whileLoop fuel)
  | ELSE | FN | REM | STEP | THEN | TO => exact absurd ran unexpected_ne_ok

theorem adds_of_proceeds {p : Parser Unit} (h : ∀ {c c'}, p c = .ok ((), c') → Proceeds c c') :
    Adds s pre p fun _ => True :=
  ⟨fun ran => (h ran).within, fun ran inside _ settled => ⟨(h ran).settled inside settled, trivial⟩⟩

theorem strides_proceeds : Strides Proceeds where
  refl c := ⟨.refl c, fun _ => id⟩
  trans first second := first.trans second
  past c := .of_aside (.past c)
  jump ran := .of_adds (fun _ => adds_goto) ran
  assignment ran := .of_adds (fun _ => adds_assignment _) ran
  keyword other next ran _ := proceeds_keyword other next ran
  ifThen branched _ _ ran := .of_adds (fun _ => adds_ifThen (adds_of_proceeds branched)) ran

theorem adds_site (site : Site) (fuel : Nat) (inner : ∀ c, site.Leaves c) : Adds s pre (site.parser fuel) fun _ => True :=
  adds_of_proceeds fun ran => strides_proceeds.site site ran (inner _)

theorem adds_wholeLine : Adds s pre wholeLine fun _ => True := by
  refine keeps_then adds_get fun c => ?_
  refine keeps_then (adds_site .statements (fuelFor c.rest) fun _ => trivial) fun _ => keeps_then adds_peek fun _ => ?_
  exact keeps_either (adds_pure fun _ => trivial) (keeps_unexpected _)

theorem keeps_within {before : Context → Prop} {after : α → Context → Prop} (line : Nat)
    (h : Keeps before s.last pre p after post) : Keeps before s.last pre (within line p) after post :=
  ⟨fun ran => h.within (within_eq_ok.mp ran), fun ran => h.keeps (within_eq_ok.mp ran)⟩

end Parser

open Parser

section
variable {s : Setting} {pre : Prop}

theorem adds_markLine (n : UInt16) : Adds s pre (markLine n) fun _ => True := by
  refine keeps_then adds_get fun c => keeps_either (keeps_fail_bind _ _) ?_
  exact adds_mark fun _ => rfl

theorem adds_startLine {line : SourceLine} (agrees : Agrees s.functions line.line.tokens) :
    Adds s pre (startLine line) fun _ => True := by
  have turns : Adds s pre (modify fun c => { c with rest := line.line.tokens, line := line.id } : Parser Unit)
      fun _ => True := by
    refine keeps_modify (fun _ => .of_same rfl rfl rfl rfl rfl fun _ => id) fun c _ settled => ?_
    obtain ⟨commands, h, rest⟩ := settled
    exact ⟨commands, ⟨h.functions, h.inner, h.commands, agrees, h.loops, h.whiles, h.short,
      ⟨h.distinct.names, h.distinct.arrays, h.distinct.texts⟩, h.filled⟩, rest⟩
  refine keeps_then turns fun _ => ?_
  split
  · exact adds_markLine _
  · exact adds_pure fun _ => trivial

theorem adds_compileLine {line : SourceLine} (agrees : Agrees s.functions line.line.tokens) :
    Adds s pre (compileLine line) fun _ => True :=
  keeps_within _ (keeps_then (adds_startLine agrees) fun _ => adds_wholeLine)

theorem adds_compileLines {lines : List SourceLine} (agrees : ∀ line ∈ lines, Agrees s.functions line.line.tokens) :
    Adds s pre (lines.forM compileLine) fun _ => True := by
  induction lines with
  | nil => exact adds_pure fun _ => trivial
  | cons line rest ih =>
    have ⟨first, later⟩ := List.forall_mem_cons.mp agrees
    exact keeps_then (adds_compileLine first) fun _ => ih later

/-- A pointer among the DATA items is that of a text. -/
theorem adds_dataValue {item : DataItem} (plain : ∀ v, item = .number v → (Instruction.push v).pointer? = none) :
    Adds s pre (dataValue item) fun v => ∀ address ∈ (Instruction.push v).pointer?, address < s.last.scopes.highWater := by
  cases item with
  | number v =>
    refine adds_pure fun _ address member => ?_
    rw [plain v rfl] at member
    cases member
  | text t =>
    refine keeps_bind (adds_intern t) fun address => adds_pure fun holds other member => ?_
    cases member
    exact holds.2

theorem adds_dataValues {items : List DataItem}
    (plain : ∀ item ∈ items, ∀ v, item = .number v → (Instruction.push v).pointer? = none) :
    Adds s pre (items.mapM dataValue) fun values => values.length = items.length ∧
      ∀ v ∈ values, ∀ address ∈ (Instruction.push v).pointer?, address < s.last.scopes.highWater := by
  induction items generalizing pre with
  | nil => exact adds_pure fun _ => ⟨rfl, List.forall_mem_nil _⟩
  | cons item rest ih =>
    rw [List.mapM_cons]
    have ⟨first, later⟩ := List.forall_mem_cons.mp plain
    refine keeps_bind (adds_dataValue first) fun v => keeps_bind (ih later) fun values => adds_pure fun holds => ?_
    exact ⟨congrArg (· + 1) holds.2.1, List.forall_mem_cons.mpr ⟨holds.1.2, holds.2.2⟩⟩

end

/-- All commands of a program are looked at. -/
theorem Context.Settled.whole {c : Context} {functions : List (String × Nat)} {count : Nat}
    (h : c.Settled (.whole c functions count)) :
    c.Orderly ((Setting.whole c functions count).among c.commands) ∧ Grouped functions c.commands ∧
      ∀ command ∈ c.commands, command.Fine functions c := by
  obtain ⟨commands, orderly, grouped, fine⟩ := h
  obtain rfl : c.commands = commands := orderly.commands.trans (List.append_nil _)
  exact ⟨orderly, grouped, fine⟩

/-- The texts among the DATA items are the first to have cells. -/
theorem settled_of_dataValues {items : List DataItem} {functions : List (String × Nat)} {values : List Value}
    {start c : Context} (plain : ∀ item ∈ items, ∀ v, item = .number v → (Instruction.push v).pointer? = none)
    (interned : items.mapM dataValue (.initial items functions) = .ok (values, start)) (inside : start.Within c) :
    start.Settled (.whole c functions items.length) ∧ values.length = items.length ∧
      ∀ v ∈ values, ∀ address ∈ (Instruction.push v).pointer?, address < c.scopes.highWater := by
  let s : Setting := .whole c functions items.length
  have initial : (Context.initial items functions).Settled s := by
    refine ⟨[], ⟨rfl, rfl, rfl, ?_, List.forall_mem_nil _, List.forall_mem_nil _, List.forall_mem_nil _,
      ⟨.nil, .nil, .nil⟩, [], rfl, .refl _⟩, .nil, List.forall_mem_nil _⟩
    intro name after found
    cases List.suffix_nil.mp found
  have adds : Adds s True (items.mapM dataValue) _ := adds_dataValues plain
  exact adds.keeps interned inside trivial initial

/-- In a program all cells behind the DATA items are held, and its commands are fine. -/
theorem settled_of_readLines {lines : List SourceLine} {items : List DataItem} {functions : List (String × Nat)}
    {values : List Value} {c : Context} (declared : sourceFunctions lines = .ok functions)
    (plain : ∀ item ∈ items, ∀ v, item = .number v → (Instruction.push v).pointer? = none)
    (h : readLines lines items (.initial items functions) = .ok (values, c)) :
    c.Settled (.whole c functions items.length) ∧ values.length = items.length ∧
      ∀ v ∈ values, ∀ address ∈ (Instruction.push v).pointer?, address < c.scopes.highWater := by
  obtain ⟨start, interned, compiled, -⟩ := readLines_eq_ok h
  have adds : Adds (.whole c functions items.length) True (lines.forM compileLine) fun _ => True :=
    adds_compileLines (agrees_of_sourceFunctions declared)
  obtain ⟨begun, answered⟩ := settled_of_dataValues plain interned (adds.within compiled)
  exact ⟨(adds.keeps compiled (.refl c) trivial begun).1, answered⟩

end BasicMachine.Language
