import BasicMachine.Program.Basic

/-!
# Listings

One line per instruction with its address, after lines for the entry point and for the labels there. A byte that
begins no instruction has a line of its own.
-/
namespace BasicMachine.Program

/-- What lies at an address: an instruction, or a byte that is none. -/
structure Entry where
  address : Nat
  instruction : Option Instruction
  deriving DecidableEq

theorem le_of_decode {p : Program} {op : Opcode} {start next : Nat} {i : Instruction}
    (h : p.decode op start = .ok (i, next)) : start ≤ next := by
  cases op with
  | syscall =>
    simp only [decode, bind, Except.bind] at h
    split at h <;> cases h
    omega
  | _ =>
    cases h
    omega

theorem lt_of_instructionAt {p : Program} {address next : Nat} {i : Instruction}
    (h : p.instructionAt address = .ok (i, next)) : address < next := by
  unfold instructionAt at h
  cases hop : Opcode.ofByte (p.fetch address) with
  | error e => simp [hop, bind, Except.bind] at h
  | ok op =>
    simp only [hop, bind, Except.bind] at h
    exact le_of_decode h

/-- The entries from `address` on, each where the one before it ends, after those in `before`, the last first. -/
def entriesFrom (p : Program) (before : List Entry) (address : Nat) : List Entry :=
  if address < p.size then
    match h : p.instructionAt address with
    | .ok (i, next) =>
      have := lt_of_instructionAt h
      entriesFrom p (⟨address, some i⟩ :: before) next
    | .error _ => entriesFrom p (⟨address, none⟩ :: before) (address + 1)
  else before.reverse
termination_by p.size - address

def entries (p : Program) : List Entry := p.entriesFrom [] 0

def entryLines (p : Program) (labels : Labels) (e : Entry) : List String :=
  let start := if e.address = p.entry then ["      .entry"] else []
  let names := (labels.filter (·.2 == e.address)).map fun (name, _) => "      " ++ name ++ ":"
  let line := match e.instruction with
    | some i => i.text
    | none => "?? 0x" ++ Numeral.hex 2 (p.byteAt e.address).toNat
  start ++ names ++ [Numeral.hex 4 e.address ++ "    " ++ line]

def listing (p : Program) : List String := p.entries.flatMap (p.entryLines p.labels.sorted)

/-- Every line of the listing with its line end. -/
def listingText (p : Program) : String := String.join (p.listing.map (· ++ "\n"))

end BasicMachine.Program
