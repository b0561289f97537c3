/-!
# Scopes

The root scope hands out memory cells, the first name the first cell. A function body has a scope of its own, whose
names are places in a frame; place 0 of a frame keeps the caller's frame pointer.
-/
namespace BasicMachine.Language

/-- Where a variable lives: in a fixed cell, or at an offset in the active frame. -/
inductive Slot
  | cell (address : Nat)
  | place (offset : Int16)
  deriving DecidableEq, Repr

/-- Names with their numbers, the newest first, and the next free number. -/
structure Scope where
  names : List (String × Nat) := []
  next : Nat
  deriving DecidableEq, Repr

namespace Scope

def define (s : Scope) (name : String) : Scope := { names := (name, s.next) :: s.names, next := s.next + 1 }

def find? (s : Scope) (name : String) : Option Nat := s.names.lookup name

end Scope

/-- The root scope and the scopes inside it, the innermost first. -/
structure Scopes where
  root : Scope
  inner : List Scope := []
  deriving DecidableEq, Repr

namespace Scopes

/-- A root scope whose first cell is `base`. -/
def new (base : Nat) : Scopes := { root := { next := base } }

/-- A new innermost scope. -/
def enter (s : Scopes) : Scopes := { s with inner := { next := 1 } :: s.inner }

/-- Forgets the innermost scope. The root stays. -/
def leave (s : Scopes) : Scopes := { s with inner := s.inner.tail }

def isRoot (s : Scopes) : Bool := s.inner.isEmpty

/-- One past the last number handed out in the current scope. -/
def frameSize (s : Scopes) : Nat := (s.inner.head?.getD s.root).next

/-- One past the last cell handed out. -/
def highWater (s : Scopes) : Nat := s.root.next

/-- Takes `n` cells in a row. -/
def allocate (s : Scopes) (n : Nat) : Nat × Scopes :=
  (s.root.next, { s with root := { s.root with next := s.root.next + n } })

def defineRoot (s : Scopes) (name : String) : Slot × Scopes :=
  (.cell s.root.next, { s with root := s.root.define name })

/-- Declares a name in the current scope, where it hides an older one. -/
def define (s : Scopes) (name : String) : Slot × Scopes :=
  match s.inner with
  | [] => s.defineRoot name
  | innermost :: outer =>
    (.place (Int16.ofNat innermost.next), { s with inner := innermost.define name :: outer })

/-- The place that a name has in the nearest of the inner scopes that know it. -/
def findInner? (name : String) : List Scope → Option Slot
  | [] => none
  | innermost :: outer =>
    match innermost.find? name with
    | some n => some (.place (Int16.ofNat n))
    | none => findInner? name outer

def find? (s : Scopes) (name : String) : Option Slot :=
  findInner? name s.inner <|> (s.root.find? name).map .cell

/-- Looks a name up through every scope. An unknown name gets a cell. -/
def resolve (s : Scopes) (name : String) : Slot × Scopes :=
  match s.find? name with
  | some slot => (slot, s)
  | none => s.defineRoot name

end Scopes

end BasicMachine.Language
