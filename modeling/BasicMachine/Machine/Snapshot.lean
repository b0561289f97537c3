import BasicMachine.Machine.Basic

/-!
# Snapshots

What a watcher sees of a machine before an instruction: registers, stack depth and the cells that IDX points to.
-/
namespace BasicMachine

structure Snapshot where
  opcode : Opcode
  pc : Nat
  depth : Nat
  a : Value
  b : Value
  c : Value
  idx : Nat
  /-- Address of the first cell shown. -/
  window : Nat
  cells : List Value
  deriving DecidableEq

/-- Cells that a snapshot shows at most. -/
def Snapshot.width : Nat := 8

def Machine.snapshot (m : Machine) (opcode : Opcode) : Snapshot :=
  let window := min m.idx m.memory.size
  { opcode
    pc := m.pc
    depth := m.stack.size
    a := m.a
    b := m.b
    c := m.c
    idx := m.idx
    window
    cells := (m.memory.extract window (min (window + Snapshot.width) m.memory.size)).toList }

def Snapshot.text (s : Snapshot) : String :=
  let cells :=
    if s.cells.isEmpty then ""
    else " [" ++ toString s.window ++ "]" ++ String.join (s.cells.map fun v => " " ++ v.text)
  Numeral.hex 4 s.pc ++ " " ++ s.opcode.mnemonic ++ " SP=" ++ toString s.depth ++ " A=" ++ s.a.text ++ " B=" ++
    s.b.text ++ " C=" ++ s.c.text ++ " IDX=" ++ toString s.idx ++ cells

end BasicMachine
