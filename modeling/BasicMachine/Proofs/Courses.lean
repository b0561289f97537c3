import BasicMachine.Proofs.Upkeep

/-!
# What parsers change

Whatever a parser reads, it takes tokens from the front of the line, adds names, cells, commands and references to those
that are there, and fails with an error that names no line. What a parser may do besides is a matter of its licence: which
commands it makes, whether it opens and closes loops, and whether it goes past the word DATA. Its fuel does not run out:
between two calls of one parser a token is taken.
-/
namespace BasicMachine.Language

/-- Declarations in the innermost scope leave the root and the outer scopes. -/
theorem Parser.foldl_define (names : List String) {scopes : Scopes} {innermost : Scope} {outer : List Scope}
    (inner : scopes.inner = innermost :: outer) :
    names.foldl (fun s n => (s.define n).2) scopes = { scopes with inner := names.foldl Scope.define innermost :: outer } := by
  induction names generalizing scopes innermost with
  | nil =>
    rw [List.foldl_nil, List.foldl_nil, ← inner]
  | cons name rest ih =>
    have define : (scopes.define name).2 = { scopes with inner := innermost.define name :: outer } := by
      rw [Scopes.define, inner]
    rw [List.foldl_cons, List.foldl_cons, define, ih rfl]

@[grind] def Command.isFunction : Command → Bool
  | .function _ _ _ => true
  | _ => false

/-- What a parser may do. -/
structure Licence where
  /-- It may make these commands. -/
  commands : Command → Prop
  /-- It may take labels, and open and close loops. -/
  loops : Prop
  /-- It may go past the word DATA. -/
  data : Prop

/-- The licence for everything. -/
def everything : Licence := ⟨fun _ => True, True, True⟩

namespace Context

/-- What a parser with a licence makes of a context. -/
structure Course (may : Licence) (c c' : Context) : Prop where
  tokens : ∃ ts, c.rest = ts ++ c'.rest ∧ (.word .DATA ∈ ts → may.data)
  line : c'.line = c.line
  within : c.Within c'
  commands : ∃ new, c'.commands = new ++ c.commands ∧ ∀ command ∈ new, may.commands command
  references : ∀ r ∈ c'.references, r ∈ c.references ∨ r.2 = c.line ∧ ∀ n, r.1 ≠ .inside n
  forLines : ∀ loop ∈ c'.forLoops, loop ∈ c.forLoops ∨ loop.line = c.line
  whileLines : ∀ loop ∈ c'.whileLoops, loop ∈ c.whileLoops ∨ loop.line = c.line
  loops : may.loops ∨ c'.forLoops = c.forLoops ∧ c'.whileLoops = c.whileLoops ∧ c'.labelCount = c.labelCount

namespace Course

variable {may : Licence} {c c' c'' : Context}

theorem trans (first : c.Course may c') (second : c'.Course may c'') : c.Course may c'' where
  tokens := by
    obtain ⟨ts, before, spares⟩ := first.tokens
    obtain ⟨us, after, spares'⟩ := second.tokens
    exact ⟨ts ++ us, by rw [before, after, List.append_assoc], fun member =>
      (List.mem_append.mp member).elim spares spares'⟩
  line := second.line.trans first.line
  within := first.within.trans second.within
  commands := by
    obtain ⟨new, same, all⟩ := first.commands
    obtain ⟨new', same', all'⟩ := second.commands
    exact ⟨new' ++ new, by rw [same', same, List.append_assoc], List.forall_mem_append.mpr ⟨all', all⟩⟩
  references r member := (second.references r member).elim (first.references r) fun h => .inr (first.line ▸ h)
  forLines loop member := (second.forLines loop member).elim (first.forLines loop) fun h => .inr (first.line ▸ h)
  whileLines loop member := (second.whileLines loop member).elim (first.whileLines loop) fun h => .inr (first.line ▸ h)
  loops := by
    refine first.loops.elim .inl fun ⟨h, h', h''⟩ => second.loops.imp id fun ⟨k, k', k''⟩ => ?_
    exact ⟨k.trans h, k'.trans h', k''.trans h''⟩

theorem refl (c : Context) : c.Course may c where
  tokens := ⟨[], rfl, (absurd · List.not_mem_nil)⟩
  line := rfl
  within := .refl c
  commands := ⟨[], rfl, List.forall_mem_nil _⟩
  references _ := .inl
  forLines _ := .inl
  whileLines _ := .inl
  loops := .inr ⟨rfl, rfl, rfl⟩

theorem past (other : c.rest.head? = some (.word .DATA) → may.data) : c.Course may c.past := by
  refine { refl c with tokens := ?_, within := .of_same rfl rfl rfl rfl rfl fun _ => id }
  cases rest : c.rest with
  | nil => exact ⟨[], by rw [Context.past, rest]; rfl, (absurd · List.not_mem_nil)⟩
  | cons t more =>
    refine ⟨[t], by rw [Context.past, rest]; rfl, fun member => other ?_⟩
    rw [rest, List.mem_singleton.mp member]
    rfl

theorem counting (c : Context) (code : Steps) : c.Course may (c.counting code) :=
  { refl c with within := .of_same rfl rfl rfl rfl rfl fun _ => id }

/-- A label has been taken. -/
theorem labelling (c : Context) (free : may.loops) : c.Course may c.labelling :=
  { refl c with
    within := .of_same rfl rfl rfl rfl rfl fun _ h => h.labelling
    loops := .inl free }

theorem referring (c : Context) {l : Label} (outer : ∀ n, l ≠ .inside n) : c.Course may (c.referring l) :=
  { refl c with
    within := .of_same rfl rfl rfl rfl rfl fun _ h => h.referring l
    references := fun _ member => (List.mem_cons.mp member).elim (fun same => .inr (same ▸ ⟨rfl, outer⟩)) .inl }

theorem emitting (c : Context) {command : Command} (fine : may.commands command) : c.Course may (c.emitting command) :=
  { refl c with
    within := .emitting c command
    commands := ⟨[command], rfl, List.forall_mem_singleton.mpr fine⟩ }

theorem allocating (c : Context) (n : Nat) : c.Course may (c.allocating n) :=
  { refl c with within := .allocating c n }

theorem naming (c : Context) (name : String) : c.Course may (c.naming name) :=
  { refl c with within := .naming c name }

theorem interning (c : Context) (text : String) : c.Course may (c.interning text) :=
  { refl c with within := .interning c text }

/-- Loops have been opened or closed. -/
theorem looping {forLoops : List ForLoop} {whileLoops : List WhileLoop} (free : may.loops)
    (fors : ∀ loop ∈ forLoops, loop ∈ c.forLoops ∨ loop.line = c.line)
    (whiles : ∀ loop ∈ whileLoops, loop ∈ c.whileLoops ∨ loop.line = c.line) :
    c.Course may { c with forLoops, whileLoops } :=
  { refl c with
    within := .of_same rfl rfl rfl rfl rfl fun _ => id
    forLines := fors
    whileLines := whiles
    loops := .inl free }

/-- A scope has been entered or left. -/
theorem scoping {scopes : Scopes} (root : scopes.root = c.scopes.root) :
    c.Course may { c with scopes } :=
  { refl c with within := .of_same root rfl rfl rfl rfl fun _ => id }

end Course

end Context

namespace Context

/-- The same loops are open, and no label has been taken. -/
structure Steady (c c' : Context) : Prop where
  forLoops : c'.forLoops = c.forLoops
  whileLoops : c'.whileLoops = c.whileLoops
  labels : c'.labelCount = c.labelCount

/-- The commands `new` have been made, the newest first. No loop was opened or closed. -/
structure Makes (new : List Command) (c c' : Context) : Prop where
  commands : c'.commands = new ++ c.commands
  steady : c.Steady c'

variable {new new' : List Command} {c c' c'' : Context}

/-- A licence for no loops. -/
theorem Course.makes {ok : Command → Prop} {data : Prop} (h : c.Course ⟨ok, False, data⟩ c') :
    ∃ new, c.Makes new c' ∧ ∀ command ∈ new, ok command := by
  obtain ⟨new, same, all⟩ := h.commands
  obtain ⟨forLoops, whileLoops, labels⟩ := h.loops.resolve_left id
  exact ⟨new, ⟨same, forLoops, whileLoops, labels⟩, all⟩

end Context

/-- What is known where a parser starts. -/
inductive Outlook
  | unknown
  /-- The token that comes next. -/
  | next (t : Option Token)
  /-- The whole context. -/
  | whole (c : Context)

def Outlook.Shows : Outlook → Context → Prop
  | unknown, _ => True
  | next t, c => c.rest.head? = t
  | whole c, d => d = c

namespace Parser

variable {α β : Type} {may : Licence} {n : Int} {view : Outlook} {p : Parser α} {f : α → Parser β}

/-- The parser stays within its licence. Its errors name no line, and none is for want of fuel where at most `n` tokens
are left. -/
structure Keeping (may : Licence) (n : Int) (view : Outlook) (p : Parser α) : Prop where
  course : ∀ {c a c'}, view.Shows c → p c = .ok (a, c') → c.Course may c'
  errors : ∀ {c e}, view.Shows c → p c = .error e → e.line = none ∧ (c.rest.length ≤ n → e.code ≠ .internalError)

/-- The parser takes a token at least. -/
structure Takes (view : Outlook) (p : Parser α) : Prop where
  shorter : ∀ {c a c'}, view.Shows c → p c = .ok (a, c') → c'.rest.length < c.rest.length

theorem takes_peekThen {f : Option Token → Parser β} (h : ∀ t, Takes (.next t) (f t)) : Takes view (peek >>= f) :=
  ⟨fun {c _ _} _ ran => (h c.rest.head?).shorter rfl ran⟩

theorem takes_unexpected (expected : String) : Takes view (unexpected expected : Parser α) :=
  ⟨fun _ ran => (unexpected_ne_ok ran).elim⟩

theorem takes_outOfFuel : Takes view (outOfFuel : Parser α) := ⟨fun _ ran => absurd ran fail_ne_ok⟩

@[grind ←] theorem takes_skip {t : Token} : Takes (.next (some t)) skip := by
  refine ⟨fun {c a c'} shows ran => ?_⟩
  cases ran
  cases rest : c.rest with
  | nil => simp [Outlook.Shows, rest] at shows
  | cons => simp [rest]

/-- The parser reads, and makes nothing. -/
abbrev Quiet (p : Parser α) : Prop := Keeping ⟨fun _ => False, False, True⟩ (-1) .unknown p

theorem Keeping.quiet (h : Quiet p) {c c' : Context} {a : α} (ran : p c = .ok (a, c')) : c.Makes [] c' := by
  obtain ⟨new, makes, none⟩ := (h.course trivial ran).makes
  obtain rfl := List.eq_nil_iff_forall_not_mem.mpr none
  exact makes

theorem Keeping.length_le (h : Keeping may n view p) {c c' : Context} {a : α} (shows : view.Shows c)
    (ran : p c = .ok (a, c')) : c'.rest.length ≤ c.rest.length := by
  obtain ⟨ts, same, -⟩ := (h.course shows ran).tokens
  grind

/-- The parser after `p` has `m` tokens left to it. -/
theorem keeping_leaving {m : Int} (first : Keeping may n view p) (second : ∀ a, Keeping may m .unknown (f a))
    (left : ∀ {c a c'}, view.Shows c → p c = .ok (a, c') → c.rest.length ≤ n → c'.rest.length ≤ m) :
    Keeping may n view (p >>= f) := by
  refine ⟨fun shows ran => ?_, fun {c e} shows failed => ?_⟩
  · obtain ⟨a, d, ran, later⟩ := bind_eq_ok.mp ran
    exact (first.course shows ran).trans ((second a).course trivial later)
  · cases ran : p c with
    | error e' =>
      simp only [bind, StateT.bind, ran, Except.bind, Except.error.injEq] at failed
      exact failed ▸ first.errors shows ran
    | ok r =>
      exact ((second r.1).errors trivial ((bind_of_ok ran).symm.trans failed)).imp_right fun h few => h (left shows ran few)

@[grind ←] theorem keeping_bind (first : Keeping may n view p) (second : ∀ a, Keeping may n .unknown (f a)) :
    Keeping may n view (p >>= f) :=
  keeping_leaving first second fun shows ran => Int.le_trans (Int.ofNat_le.mpr (first.length_le shows ran))

theorem takes_bind (first : Takes view p) (second : ∀ a, Keeping may n .unknown (f a)) :
    Takes view (p >>= f) := by
  refine ⟨fun shows ran => ?_⟩
  obtain ⟨a, d, ran, later⟩ := bind_eq_ok.mp ran
  exact Nat.lt_of_le_of_lt ((second a).length_le trivial later) (first.shorter shows ran)

theorem takes_accepting {t : Token} {f : Bool → Parser β} (yes : Keeping may n .unknown (f true)) :
    Takes (.next (some t)) (accept t >>= f) := by
  refine ⟨fun {c a c'} shows ran => ?_⟩
  rw [accept_bind, if_pos (show c.rest.head? = some t from shows)] at ran
  exact Nat.lt_of_le_of_lt (yes.length_le trivial ran) (takes_skip.shorter shows rfl)

/-- Where a token has been taken, the next parser has one less. -/
theorem keeping_after (first : Keeping may n view p) (takes : Takes view p)
    (second : ∀ a, Keeping may (n - 1) .unknown (f a)) : Keeping may n view (p >>= f) :=
  keeping_leaving first second fun shows ran _ => by grind [takes.shorter shows ran]

@[grind ←] theorem keeping_andThen {p : Parser Unit} {f : Unit → Parser β} (first : Keeping may n view p)
    (second : Keeping may n .unknown (f ())) : Keeping may n view (p >>= f) :=
  keeping_bind first fun _ => second

/-- A parser that cannot fail. -/
theorem keeping_of_step (h : ∀ c : Context, ∃ r : α × Context, p c = .ok r ∧ c.Course may r.2) : Keeping may n view p := by
  refine ⟨fun {c a c'} _ ran => ?_, fun {c e} _ failed => ?_⟩
  · obtain ⟨r, same, course⟩ := h c
    cases same.symm.trans ran
    exact course
  · obtain ⟨r, same, -⟩ := h c
    cases same.symm.trans failed

theorem keeping_modify {g : Context → Context} (h : ∀ c : Context, c.Course may (g c)) :
    Keeping may n view (modify g : Parser Unit) :=
  keeping_of_step fun c => ⟨_, rfl, h c⟩

theorem keeping_modifyWhole {c : Context} {g : Context → Context} (h : c.Course may (g c)) :
    Keeping may n (.whole c) (modify g : Parser Unit) :=
  ⟨fun {d a c'} shows ran => by cases shows; cases ran; exact h, fun _ failed => by cases failed⟩

@[grind ←] theorem keeping_pure (a : α) : Keeping may n view (pure a : Parser α) :=
  keeping_of_step fun c => ⟨_, rfl, .refl c⟩

@[grind ←] theorem keeping_fail {code : ErrorCode} (ordinary : code ≠ .internalError) (detail : String) :
    Keeping may n view (fail code detail : Parser α) :=
  ⟨fun _ ran => absurd ran fail_ne_ok, fun _ failed => by cases failed; exact ⟨rfl, fun _ => ordinary⟩⟩

/-- There is fuel for every token. -/
theorem keeping_outOfFuel (none : n < 0) : Keeping may n view (outOfFuel : Parser α) :=
  ⟨fun _ ran => absurd ran fail_ne_ok, fun _ failed => by cases failed; exact ⟨rfl, fun few => by omega⟩⟩

theorem keeping_either {q : Prop} [Decidable q] {yes no : Parser α} (first : Keeping may n view yes)
    (second : Keeping may n view no) : Keeping may n view (if q then yes else no) := by
  split
  · exact first
  · exact second

/-- A parser behind a check. -/
theorem keeping_check {q : Prop} [Decidable q] {code : ErrorCode} {detail : String} (h : Keeping may n .unknown p)
    (ordinary : code ≠ .internalError) :
    Keeping may n .unknown (if q then (fail code detail : Parser Unit) >>= fun _ => p else p) :=
  keeping_either (keeping_bind (keeping_fail ordinary detail) fun _ => h) h

theorem keeping_getThen {f : Context → Parser β} (h : ∀ c, Keeping may n (.whole c) (f c)) :
    Keeping may n view (get >>= f) :=
  ⟨fun {c _ _} _ ran => (h c).course rfl ran, fun {c _} _ failed => (h c).errors rfl failed⟩

theorem keeping_whole {c : Context} (h : Keeping may c.rest.length .unknown p) : Keeping may n (.whole c) p :=
  ⟨fun _ => h.course trivial, fun same failed => (h.errors trivial failed).imp_right fun fine _ => fine (same ▸ Int.le_refl _)⟩

theorem keeping_peekThen {f : Option Token → Parser β} (h : ∀ t, Keeping may n (.next t) (f t)) :
    Keeping may n view (peek >>= f) :=
  ⟨fun {c _ _} _ ran => (h c.rest.head?).course rfl ran, fun {c _} _ failed => (h c.rest.head?).errors rfl failed⟩

/-- A token that is known not to be DATA can be skipped. -/
@[grind ←] theorem keeping_skip {t : Token} (other : t ≠ .word .DATA) : Keeping may n (.next (some t)) skip := by
  refine ⟨fun {c a c'} shows ran => ?_, fun _ failed => by cases failed⟩
  cases ran
  exact .past fun member => absurd (Option.some.inj (shows.symm.trans member)) other

theorem keeping_skipAny (data : may.data) : Keeping may n view skip := keeping_modify fun _ => .past fun _ => data

@[grind ←] theorem keeping_get : Keeping may n view (get : Parser Context) := keeping_of_step fun c => ⟨_, rfl, .refl c⟩

@[grind ←] theorem keeping_peek : Keeping may n view peek := keeping_of_step fun c => ⟨_, rfl, .refl c⟩

@[grind ←] theorem keeping_unexpected (expected : String) : Keeping may n view (unexpected expected : Parser α) := by
  grind [unexpected]

@[grind ←] theorem keeping_accept {t : Token} (other : t ≠ .word .DATA) : Keeping may n view (accept t) := by
  refine keeping_peekThen fun next => ?_
  grind

@[grind ←] theorem keeping_expect {t : Token} (other : t ≠ .word .DATA) : Keeping may n view (expect t) := by
  grind [expect]

@[grind ←] theorem keeping_acceptWord {k : Keyword} (other : k ≠ .DATA) : Keeping may n view (accept (.word k)) :=
  keeping_accept (by simpa using other)

@[grind ←] theorem keeping_expectWord {k : Keyword} (other : k ≠ .DATA) : Keeping may n view (expect (.word k)) :=
  keeping_expect (by simpa using other)

@[grind ←] theorem keeping_identifier : Keeping may n view identifier := by
  refine keeping_peekThen fun t => ?_
  grind

@[grind ←] theorem keeping_account (code : Steps) : Keeping may n view (account code) :=
  keeping_modify fun _ => .counting _ code

@[grind ←] theorem keeping_accountCode (code : Code) : Keeping may n view (accountCode code) := keeping_account _

@[grind ←] theorem keeping_emit {command : Command} (fine : may.commands command) : Keeping may n view (emit command) :=
  keeping_modify fun _ => .emitting _ fine

@[grind ←] theorem keeping_refer {l : Label} (outer : ∀ n, l ≠ .inside n) : Keeping may n view (refer l) :=
  keeping_modify fun _ => .referring _ outer

@[grind ←] theorem keeping_checkReach : Keeping may n view checkReach := by
  grind [checkReach]

@[grind ←] theorem keeping_freshLabel (free : may.loops) : Keeping may n view freshLabel :=
  keeping_of_step fun _ => ⟨_, rfl, .labelling _ free⟩

@[grind ←] theorem keeping_allocate (count : Nat) : Keeping may n view (allocate count) :=
  keeping_of_step fun _ => ⟨_, rfl, .allocating _ count⟩

@[grind ←] theorem keeping_place {l : Label} (fine : may.commands (.mark l)) : Keeping may n view (place l) := by
  grind [place]

@[grind ←] theorem keeping_resolve (name : String) : Keeping may n view (resolve name) := by
  refine ⟨fun {c slot c'} _ ran => ?_, fun _ failed => by cases failed⟩
  rcases resolve_cases ran with ⟨rfl, -⟩ | ⟨rfl, -⟩
  · exact .refl _
  · exact .naming c name

@[grind ←] theorem keeping_intern (text : String) : Keeping may n view (intern text) := by
  refine ⟨fun {c address c'} _ ran => ?_, fun {c e} _ failed => ?_⟩
  · rcases intern_cases ran with ⟨rfl, -⟩ | ⟨rfl, -⟩
    · exact .refl _
    · exact .interning c text
  · rw [intern, get_bind] at failed
    cases known : c.texts.lookup text <;> rw [known] at failed <;> cases failed

@[grind ←] theorem keeping_arrayLength (name : String) (length : Nat) (extents : List Int16) :
    Keeping may n view (arrayLength name length extents) := by
  induction extents generalizing length view with
  | nil => grind [arrayLength]
  | cons extent rest ih => grind [arrayLength]

@[grind ←] theorem keeping_dimension (name : String) (extents : List Int16) : Keeping may n view (dimension name extents) := by
  refine keeping_bind keeping_get fun c => keeping_check ?_ (by decide)
  refine keeping_bind (keeping_arrayLength _ _ _) fun length => keeping_bind (keeping_allocate length) fun base => ?_
  refine keeping_bind (keeping_modify fun c => { Context.Course.refl c with within := ?_ }) fun _ => keeping_pure _
  exact ⟨Nat.le_refl _, List.suffix_refl _, List.suffix_cons _ _, List.suffix_refl _, List.suffix_refl _, fun _ => id, rfl⟩

@[grind ←] theorem keeping_arrayFor (name : String) (known : Option ArrayBlock) (count : Nat) :
    Keeping may n view (arrayFor name known count) := by
  cases known <;> grind [arrayFor]

@[grind ←] theorem keeping_extentAt (name : String) (known : Option ArrayBlock) (i : Nat) :
    Keeping may n view (extentAt name known i) := by
  cases known <;> grind [extentAt]

/-- A token that is skipped is taken. -/
@[grind ←] theorem keeping_skipThen {t : Token} {f : Unit → Parser β} (other : t ≠ .word .DATA)
    (second : Keeping may (n - 1) .unknown (f ())) : Keeping may n (.next (some t)) (skip >>= f) :=
  keeping_after (keeping_skip other) takes_skip fun _ => second

theorem keeping_skipWhole {c : Context} {t : Token} {rest : List Token} {f : Unit → Parser β} (next : c.rest = t :: rest)
    (other : t ≠ .word .DATA) (second : Keeping may (n - 1) .unknown (f ())) : Keeping may n (.whole c) (skip >>= f) := by
  have h := keeping_skipThen other second
  have shows : (Outlook.next (some t)).Shows c := by rw [Outlook.Shows, next]; rfl
  exact ⟨fun same => same ▸ h.course shows, fun same => same ▸ h.errors shows⟩

/-- A parser that reads on after a token `t`. -/
@[grind ←] theorem keeping_more {t : Token} {f : Bool → Parser β} (other : t ≠ .word .DATA)
    (yes : Keeping may (n - 1) .unknown (f true)) (no : Keeping may n .unknown (f false)) :
    Keeping may n view (accept t >>= f) := by
  have both : Keeping may n view (peek >>= fun next => if next = some t then skip >>= fun _ => f true else f false) := by
    refine keeping_peekThen fun next => ?_
    split
    next same => exact same ▸ keeping_skipThen other yes
    next => exact ⟨fun _ => no.course trivial, fun _ => no.errors trivial⟩
  have same : (accept t >>= f) = peek >>= fun next => if next = some t then skip >>= fun _ => f true else f false := by
    funext c
    rw [accept_bind, peek_bind]
    split <;> rfl
  exact same ▸ both

/-- Every parser of expressions stays within its licence, and the fuel given is enough for it: eight units for each
token, and one for each parser that calls another before it takes a token. -/
structure KeepsAll (may : Licence) (fuel : Nat) : Prop where
  expression : ∀ {n : Int} {view} power, 8 * n + 2 ≤ fuel → Keeping may n view (expression fuel power)
  operators : ∀ {n : Int} {view} power left, 8 * n + 1 ≤ fuel → Keeping may n view (operators fuel power left)
  operand : ∀ {n : Int} {view}, 8 * n + 1 ≤ fuel → Keeping may n view (operand fuel)
  target : ∀ {n : Int} {view} name, 8 * n + 1 ≤ fuel → Keeping may n view (target fuel name)
  subscriptsAfter : ∀ {n : Int} {view} name known i, 8 * n + 3 ≤ fuel → Keeping may n view (subscriptsAfter fuel name known i)
  expressions : ∀ {n : Int} {view}, 8 * n + 3 ≤ fuel → Keeping may n view (expressions fuel)
  arguments : ∀ {n : Int} {view}, 8 * n + 4 ≤ fuel → Keeping may n view (arguments fuel)
  builtin : ∀ {n : Int} {view} f, 8 * n + 1 ≤ fuel → Keeping may n view (builtin fuel f)
  call : ∀ {n : Int} {view}, 8 * n + 1 ≤ fuel → Keeping may n view (call fuel)

attribute [local grind .] KeepsAll.expression KeepsAll.operators KeepsAll.operand KeepsAll.target KeepsAll.subscriptsAfter
  KeepsAll.expressions KeepsAll.arguments KeepsAll.builtin KeepsAll.call

theorem keepsAll (fuel : Nat) : KeepsAll may fuel := by
  induction fuel with
  | zero => constructor <;> intros <;> exact keeping_outOfFuel (by omega)
  | succ fuel ih =>
    constructor <;> intros
    case expression => grind [expression]
    case operators =>
      refine keeping_peekThen fun t => ?_
      grind
    case operand =>
      refine keeping_peekThen fun t => ?_
      rcases t with _ | t
      · exact keeping_unexpected _
      cases t with
      | operator op => cases op <;> grind
      | word k => cases k <;> grind
      | _ => grind
    case target name _ =>
      refine keeping_more (by simp) ?_ (by grind)
      refine keeping_bind keeping_get fun c => keeping_bind (ih.subscriptsAfter _ _ _ (by omega)) fun subscripts => ?_
      grind
    case subscriptsAfter => grind [subscriptsAfter]
    case expressions => grind [expressions]
    case arguments => grind [arguments]
    case builtin f _ => grind [builtin]
    case call =>
      refine keeping_bind keeping_identifier fun name => keeping_bind keeping_get fun c => ?_
      split
      · grind
      · refine keeping_more (by simp) ?_ (by grind)
        grind

@[grind ←] theorem keeping_expression (fuel power : Nat) (fits : 8 * n + 3 ≤ fuel := by omega) :
    Keeping may n view (expression fuel power) :=
  (keepsAll fuel).expression power (by omega)

@[grind ←] theorem keeping_target (fuel : Nat) (name : String) (fits : 8 * n + 3 ≤ fuel := by omega) :
    Keeping may n view (target fuel name) :=
  (keepsAll fuel).target name (by omega)

@[grind ←] theorem keeping_expressionsN (fuel count : Nat) (fits : 8 * n + 3 ≤ fuel := by omega) :
    Keeping may n view (expressionsN fuel count) := by
  fun_induction expressionsN fuel count generalizing view <;> grind

theorem takes_operand (fuel : Nat) : Takes view (operand fuel) := by
  cases fuel with
  | zero => exact takes_outOfFuel
  | succ fuel =>
    have all : KeepsAll everything fuel := keepsAll fuel
    have skips {t : Token} {f : Unit → Parser Expr} (h : Keeping everything (-1) .unknown (f ())) :
        Takes (.next (some t)) (skip >>= f) := takes_bind takes_skip fun _ => h
    refine takes_peekThen fun t => ?_
    rcases t with _ | t
    · exact takes_unexpected _
    cases t with
    | operator op => cases op <;> first | exact takes_unexpected _ | exact skips (by grind)
    | word k => cases k <;> first | exact takes_unexpected _ | exact skips (by grind)
    | _ => first | exact takes_unexpected _ | exact skips (by grind)

theorem takes_expression (fuel power : Nat) : Takes view (expression fuel power) := by
  cases fuel with
  | zero => exact takes_outOfFuel
  | succ fuel =>
    have after (e : Expr) : Keeping everything (-1) .unknown (operators fuel power e) :=
      (keepsAll fuel).operators power e (by omega)
    exact takes_bind (takes_operand fuel) after

/-- An array element takes its parenthesis. -/
theorem takes_element (fuel : Nat) (name : String) : Takes (.next (some .lparen)) (target fuel name) := by
  cases fuel with
  | zero => exact takes_outOfFuel
  | succ fuel =>
    have all : KeepsAll everything fuel := keepsAll fuel
    refine takes_accepting (?_ : Keeping everything (-1) _ _)
    refine keeping_bind keeping_get fun c => keeping_bind (all.subscriptsAfter _ _ _ (by omega)) fun subscripts => ?_
    grind

@[grind ←] theorem keeping_atEnd : Keeping may n view atEnd := by
  grind [atEnd]

@[grind ←] theorem keeping_lineNumber : Keeping may n view lineNumber := by
  refine keeping_peekThen fun t => ?_
  grind

@[grind ←] theorem keeping_lineJump {command : Label → Command} (fine : ∀ l, may.commands (command l)) :
    Keeping may n view (lineJump command) := by
  grind [lineJump]

@[grind ←] theorem keeping_assignment (assigned : ∀ t e, may.commands (.assign t e)) (fuel : Nat)
    (fits : 8 * n + 3 ≤ fuel := by omega) :
    Keeping may n view (assignment fuel) := by
  grind [assignment]

@[grind ←] theorem keeping_printItems (shown : ∀ e, may.commands (.print e)) (written : ∀ byte, may.commands (.write byte))
    (fuel : Nat) (ending : Bool) (fits : 8 * n + 4 ≤ fuel := by omega) :
    Keeping may n view (printItems fuel ending) := by
  induction fuel generalizing ending n view with
  | zero => exact keeping_outOfFuel (by omega)
  | succ fuel ih =>
    refine keeping_getThen fun c => ?_
    split
    case h_4 next => exact keeping_either (keeping_pure _) (keeping_skipWhole next (by simp) (ih _ (by omega)))
    case h_5 next => exact keeping_skipWhole next (by simp) (by grind)
    case h_6 =>
      refine keeping_after (keeping_expression fuel 0 (by omega)) (takes_expression fuel 0) fun e => ?_
      grind
    all_goals grind

@[grind ←] theorem keeping_print (shown : ∀ e, may.commands (.print e)) (written : ∀ byte, may.commands (.write byte))
    (fuel : Nat) (fits : 8 * n + 4 ≤ fuel := by omega) :
    Keeping may n view (print fuel) := by
  grind [print]

@[grind ←] theorem keeping_inputTargets (got : ∀ t isText, may.commands (.input t isText)) (fuel : Nat)
    (fits : 8 * n + 4 ≤ fuel := by omega) :
    Keeping may n view (inputTargets fuel) := by
  induction fuel generalizing n view with
  | zero => exact keeping_outOfFuel (by omega)
  | succ fuel ih => grind [inputTargets]

@[grind ←] theorem keeping_input (asked : ∀ address, may.commands (.prompt address))
    (got : ∀ t isText, may.commands (.input t isText)) (fuel : Nat) (fits : 8 * n + 4 ≤ fuel := by omega) :
    Keeping may n view (input fuel) := by
  refine keeping_peekThen fun t => ?_
  split <;> grind

@[grind ←] theorem keeping_read (taken : ∀ t count, may.commands (.read t count)) (fuel : Nat)
    (fits : 8 * n + 4 ≤ fuel := by omega) :
    Keeping may n view (read fuel) := by
  induction fuel generalizing n view with
  | zero => exact keeping_outOfFuel (by omega)
  | succ fuel ih =>
    refine keeping_bind keeping_identifier fun name => keeping_bind (keeping_target fuel name (by omega)) fun t => ?_
    grind

@[grind ←] theorem keeping_extents (fuel : Nat) (fits : 8 * n + 3 ≤ fuel := by omega) :
    Keeping may n view (extents fuel) := by
  induction fuel generalizing n view with
  | zero => exact keeping_outOfFuel (by omega)
  | succ fuel ih =>
    refine keeping_peekThen fun t => ?_
    grind

@[grind ←] theorem keeping_dim (fuel : Nat) (fits : 8 * n + 4 ≤ fuel := by omega) :
    Keeping may n view (dim fuel) := by
  induction fuel generalizing n view with
  | zero => exact keeping_outOfFuel (by omega)
  | succ fuel ih =>
    refine keeping_bind keeping_identifier fun name => keeping_bind (keeping_expect (by simp)) fun _ => ?_
    grind

@[grind ←] theorem keeping_simple (name : String) : Keeping may n view (simple name) := by
  grind [simple]

@[grind ←] theorem keeping_parametersAfter (fuel : Nat) (before : List String) (fits : 8 * n + 4 ≤ fuel := by omega) :
    Keeping may n view (parametersAfter fuel before) := by
  induction fuel generalizing before n view with
  | zero => exact keeping_outOfFuel (by omega)
  | succ fuel ih => grind [parametersAfter]

@[grind ←] theorem keeping_parameters (fuel : Nat) (fits : 8 * n + 4 ≤ fuel := by omega) :
    Keeping may n view (parameters fuel) := by
  grind [parameters]

@[grind ←] theorem keeping_poke (poked : ∀ address value, may.commands (.poke address value)) (fuel : Nat)
    (fits : 8 * n + 3 ≤ fuel := by omega) :
    Keeping may n view (poke fuel) := by
  grind [poke]

@[grind ←] theorem keeping_swap (swapped : ∀ left right, may.commands (.swap left right)) : Keeping may n view swap := by
  refine keeping_bind keeping_identifier fun left => keeping_bind (keeping_expect (by simp)) fun _ => ?_
  grind

@[grind ←] theorem keeping_randomize (seeded : ∀ e, may.commands (.seed e)) (fuel : Nat)
    (fits : 8 * n + 3 ≤ fuel := by omega) :
    Keeping may n view (randomize fuel) := by
  grind [randomize]

@[grind ←] theorem keeping_orElse (fuel : Nat) (default : Int16) (fits : 8 * n + 3 ≤ fuel := by omega) :
    Keeping may n view (orElse fuel default) := by
  grind [orElse]

section
variable {request : Syscall} (asked : ∀ request args, may.commands (.host request args))
include asked

@[grind ←] theorem keeping_hostCall (fuel count : Nat) (fits : 8 * n + 3 ≤ fuel := by omega) :
    Keeping may n view (hostCall fuel request count) := by
  grind [hostCall]

@[grind ←] theorem keeping_hostCallOr (fuel count : Nat) (default : Int16) (fits : 8 * n + 3 ≤ fuel := by omega) :
    Keeping may n view (hostCallOr fuel request count default) := by
  grind [hostCallOr]

@[grind ←] theorem keeping_line (fuel : Nat) (fits : 8 * n + 3 ≤ fuel := by omega) :
    Keeping may n view (line fuel) := by
  grind [line]

end

@[grind ←] theorem keeping_put (drawn : ∀ x y array, may.commands (.blit x y array)) (fuel : Nat)
    (fits : 8 * n + 3 ≤ fuel := by omega) :
    Keeping may n view (put fuel) := by
  refine keeping_bind (keeping_expression fuel 0 fits) fun x => keeping_bind (keeping_expect (by simp)) fun _ => ?_
  grind

/-- DATA is gone past up to the end of its statement. -/
theorem keeping_data (h : may.data) : Keeping may n view data := by
  refine keeping_modify fun c => { Context.Course.refl c with
    tokens := ⟨_, List.takeWhile_append_dropWhile.symm, fun _ => h⟩
    within := .of_same rfl rfl rfl rfl rfl fun _ => id }

section
variable (all : ∀ command, command.isFunction = false → may.commands command) (free : may.loops)
include all free

@[grind ←] theorem keeping_wait (fuel : Nat) (fits : 8 * n + 3 ≤ fuel := by omega) :
    Keeping may n view (wait fuel) := by
  refine keeping_bind (keeping_allocate 1) fun cell => keeping_bind (keeping_expression fuel 0 fits) fun e => ?_
  refine keeping_bind (keeping_emit (all _ rfl)) fun _ => keeping_bind (keeping_freshLabel free) fun top => ?_
  refine keeping_bind (keeping_freshLabel free) fun done => keeping_bind (keeping_emit (all _ rfl)) fun _ => ?_
  grind

@[grind ←] theorem keeping_choices (fuel : Nat) (cell : Nat) (gosubEnd : Option Label) (choice : Int16)
    (fits : 8 * n + 4 ≤ fuel := by omega) :
    Keeping may n view (choices fuel cell gosubEnd choice) := by
  induction fuel generalizing choice n view with
  | zero => exact keeping_outOfFuel (by omega)
  | succ fuel ih =>
    refine keeping_bind keeping_lineNumber fun n => ?_
    split
    · refine keeping_bind (keeping_freshLabel free) fun other => keeping_bind (keeping_emit (all _ rfl)) fun _ => ?_
      grind
    · grind

@[grind ←] theorem keeping_on (fuel : Nat) (fits : 8 * n + 4 ≤ fuel := by omega) :
    Keeping may n view (on fuel) := by
  refine keeping_bind (keeping_allocate 1) fun cell => keeping_bind (keeping_expression fuel 0 (by omega)) fun e => ?_
  grind

@[grind ←] theorem keeping_whileLoop (fuel : Nat) (fits : 8 * n + 3 ≤ fuel := by omega) :
    Keeping may n view (whileLoop fuel) := by
  refine keeping_bind (keeping_freshLabel free) fun top => keeping_bind (keeping_emit (all _ rfl)) fun _ => ?_
  refine keeping_bind (keeping_expression fuel 0 fits) fun e => keeping_bind (keeping_freshLabel free) fun exit => ?_
  refine keeping_bind (keeping_emit (all _ rfl)) fun _ => keeping_modify fun c => ?_
  exact .looping free (fun _ => .inl) fun loop member => (List.mem_cons.mp member).elim (fun same => .inr (same ▸ rfl)) .inl

@[grind ←] theorem keeping_wend : Keeping may n view wend := by
  refine keeping_getThen fun c => ?_
  split
  · exact keeping_fail (by decide) _
  · next loop outer open_ =>
    refine keeping_bind (keeping_modifyWhole (.looping free (fun _ => .inl) fun _ member => .inl ?_)) fun _ => by grind
    exact open_ ▸ List.mem_cons_of_mem _ member

@[grind ←] theorem keeping_forLoop (fuel : Nat) (fits : 8 * n + 3 ≤ fuel := by omega) :
    Keeping may n view (forLoop fuel) := by
  have opens (name : String) (slot : Slot) (limit step : Nat) (increment : Expr) :
      Keeping may n .unknown (openLoop name slot limit step increment) := by
    refine keeping_bind (keeping_emit (all _ rfl)) fun _ => keeping_bind (keeping_freshLabel free) fun top => ?_
    refine keeping_bind (keeping_emit (all _ rfl)) fun _ => keeping_bind (keeping_freshLabel free) fun exit => ?_
    refine keeping_bind (keeping_emit (all _ rfl)) fun _ => keeping_modify fun c => ?_
    exact .looping free (fun _ member => (List.mem_cons.mp member).elim (fun same => .inr (same ▸ rfl)) .inl) fun _ => .inl
  refine keeping_bind keeping_identifier fun name => keeping_bind (keeping_simple name) fun slot => ?_
  refine keeping_bind (keeping_expect (by simp)) fun _ => keeping_bind (keeping_expression fuel 0 fits) fun first => ?_
  refine keeping_bind (keeping_emit (all _ rfl)) fun _ => keeping_bind (keeping_expect (by simp)) fun _ => ?_
  refine keeping_bind (keeping_allocate 1) fun limit => keeping_bind (keeping_allocate 1) fun step => ?_
  refine keeping_bind (keeping_expression fuel 0 fits) fun last => keeping_bind (keeping_emit (all _ rfl)) fun _ => ?_
  refine keeping_bind (keeping_accept (by simp)) fun _ => keeping_either ?_ (opens _ _ _ _ _)
  exact keeping_bind (keeping_expression fuel 0 fits) fun _ => opens _ _ _ _ _

@[grind ←] theorem keeping_closeLoop (name : Option String) : Keeping may n view (closeLoop name) := by
  refine keeping_getThen fun c => ?_
  split
  · exact keeping_fail (by decide) _
  · next loop outer open_ =>
    refine keeping_bind (keeping_modifyWhole (.looping free (fun _ member => .inl ?_) fun _ => .inl)) fun _ => by grind
    exact open_ ▸ List.mem_cons_of_mem _ member

@[grind ←] theorem keeping_next (fuel : Nat) (fits : 8 * n + 4 ≤ fuel := by omega) :
    Keeping may n view (next fuel) := by
  induction fuel generalizing n view with
  | zero => exact keeping_outOfFuel (by omega)
  | succ fuel ih =>
    refine keeping_peekThen fun t => ?_
    split <;> grind

@[grind ←] theorem keeping_define (made : ∀ frame arity body, may.commands (.function frame arity body))
    (fuel : Nat) (fits : 8 * n + 4 ≤ fuel := by omega) :
    Keeping may n view (define fuel) := by
  refine keeping_bind (keeping_expect (by simp)) fun _ => keeping_bind keeping_identifier fun name => ?_
  refine keeping_bind (keeping_parameters fuel fits) fun names => keeping_bind (keeping_expect (by simp)) fun _ => ?_
  refine keeping_bind (keeping_freshLabel free) fun after => keeping_bind (keeping_emit (all _ rfl)) fun _ => ?_
  refine keeping_bind (keeping_emit (all _ rfl)) fun _ => keeping_bind (keeping_modify fun c => .scoping ?_) fun _ => ?_
  · rw [foldl_define names rfl]
    rfl
  refine keeping_bind keeping_get fun c => keeping_bind (keeping_allocate _) fun frame => ?_
  refine keeping_bind (keeping_accountCode _) fun _ => keeping_bind (keeping_expression fuel 0 (by omega)) fun body => ?_
  refine keeping_bind (keeping_modify fun c => .scoping rfl) fun _ => by grind

/-- Only IF holds other statements, and only DATA takes its own word. -/
theorem keeping_keyword (fuel : Nat) {k : Keyword} (noIf : k ≠ .IF) (noData : k ≠ .DATA)
    (made : k = .DEF → ∀ frame arity body, may.commands (.function frame arity body))
    (fits : 8 * n + 5 ≤ fuel := by omega) :
    Keeping may n view (keyword fuel k) := by
  cases fuel with
  | zero => exact keeping_outOfFuel (by omega)
  | succ fuel => cases k <;> grind [keyword]

end

theorem takes_identifier : Takes view identifier := by
  refine takes_peekThen fun t => ?_
  split
  · exact takes_bind takes_skip fun _ => (keeping_pure _ : Keeping everything (-1) _ _)
  · exact takes_unexpected _

/-- Whatever is licensed, all parsers of statements with the fuel given stay within it, and the fuel is enough. -/
structure KeepsStatements (may : Licence) (fuel : Nat) : Prop where
  statements : ∀ {n : Int} {view}, 8 * n + 7 ≤ fuel → Keeping may n view (statements fuel)
  taking : ∀ {view}, Takes view (statement fuel)
  statement : ∀ {n : Int} {view}, 8 * n + 6 ≤ fuel → Keeping may n view (statement fuel)
  keyword : ∀ {n : Int} {view} k, 8 * n + 5 ≤ fuel → Keeping may n view (keyword fuel k)
  ifThen : ∀ {n : Int} {view}, 8 * n + 4 ≤ fuel → Keeping may n view (ifThen fuel)
  branch : ∀ {n : Int} {view}, 8 * n + 8 ≤ fuel → Keeping may n view (branch fuel)

attribute [local grind .] KeepsStatements.statements KeepsStatements.statement KeepsStatements.keyword
  KeepsStatements.ifThen KeepsStatements.branch

theorem keepsStatements (all : ∀ command, may.commands command) (free : may.loops) (data : may.data) (fuel : Nat) :
    KeepsStatements may fuel := by
  induction fuel with
  | zero => constructor <;> intros <;> first | exact takes_outOfFuel | exact keeping_outOfFuel (by omega)
  | succ fuel ih =>
    constructor <;> intros
    case taking =>
      refine takes_peekThen fun t => ?_
      split
      · exact takes_bind takes_identifier fun name => (by grind : Keeping may (-1) _ _)
      · split
        all_goals first | exact takes_unexpected _ | exact takes_bind takes_skip fun _ => ih.keyword (n := -1) _ (by omega)
      · exact takes_unexpected _
    case statements =>
      refine keeping_peekThen fun t => ?_
      split
      case h_5 => exact keeping_after (ih.statement (by omega)) ih.taking (by grind)
      all_goals grind
    case statement =>
      refine keeping_peekThen fun t => ?_
      split
      · grind
      · split
        all_goals
          first | exact keeping_unexpected _ | exact keeping_bind (keeping_skipAny data) fun _ => ih.keyword _ (by omega)
      · grind
    case keyword k _ =>
      by_cases isData : k = .DATA
      · exact isData ▸ keeping_data data
      by_cases isIf : k = .IF
      · exact isIf ▸ ih.ifThen (by omega)
      · exact keeping_keyword (fun _ _ => all _) free _ isIf isData (fun _ _ _ _ => all _) ‹_›
    case ifThen =>
      refine keeping_after (keeping_expression fuel 0 (by omega)) (takes_expression fuel 0) fun e => ?_
      refine keeping_bind (keeping_freshLabel free) fun otherwise => ?_
      refine keeping_bind (keeping_emit (all _)) fun _ => keeping_bind (keeping_accept (by simp)) fun goes => ?_
      split
      · refine keeping_bind (keeping_lineJump fun _ => all _) fun _ => keeping_bind (keeping_accept (by simp)) fun _ => ?_
        grind
      · refine keeping_bind (keeping_expect (by simp)) fun _ => keeping_bind (ih.branch (by omega)) fun _ => ?_
        refine keeping_bind (keeping_accept (by simp)) fun _ => ?_
        grind
    case branch =>
      refine keeping_peekThen fun t => ?_
      split <;> grind

theorem keeping_wholeLine : Keeping everything n .unknown wholeLine := by
  refine keeping_getThen fun c => keeping_whole (keeping_bind ?_ (by grind))
  exact (keepsStatements (fun _ => trivial) trivial trivial _).statements (by rw [fuelFor]; omega)

theorem keeping_markLine (number : UInt16) : Keeping everything n .unknown (markLine number) :=
  keeping_bind keeping_get fun _ => keeping_check (keeping_emit trivial) (by decide)

end Parser

open Parser

/-- A line is read with its tokens and its number or row. -/
theorem compileLine_eq (s : SourceLine) (n : Int) : ∃ p : Parser Unit, Keeping everything n .unknown p ∧
    ∀ c, compileLine s c = within s.id p { c with rest := s.line.tokens, line := s.id } := by
  cases number : s.line.number with
  | none =>
    refine ⟨wholeLine, keeping_wholeLine, fun c => ?_⟩
    rw [compileLine, startLine, number, within, within, bind_assoc, modify_bind]
    rfl
  | some k =>
    refine ⟨do markLine k; wholeLine, keeping_bind (keeping_markLine k) fun _ => keeping_wholeLine, fun c => ?_⟩
    rw [compileLine, startLine, number, within, within, bind_assoc, modify_bind]

theorem within_of_compileLine {s : SourceLine} {c c' : Context} {u : Unit} (h : compileLine s c = .ok (u, c')) :
    c.Within c' := by
  obtain ⟨p, keeping, same⟩ := compileLine_eq s 0
  rw [same, within_eq_ok] at h
  have turned : c.Within { c with rest := s.line.tokens, line := s.id } := .of_same rfl rfl rfl rfl rfl fun _ => id
  exact turned.trans (keeping.course trivial h).within

theorem within_of_compileLines {lines : List SourceLine} {c c' : Context} {u : Unit}
    (h : lines.forM compileLine c = .ok (u, c')) : c.Within c' := by
  induction lines generalizing c with
  | nil =>
    cases h
    exact .refl _
  | cons s rest ih =>
    obtain ⟨_, d, first, later⟩ := bind_eq_ok.mp h
    exact (within_of_compileLine first).trans (ih later)

end BasicMachine.Language
