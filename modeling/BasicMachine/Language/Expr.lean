import BasicMachine.Language.Scope
import BasicMachine.Language.Step
import BasicMachine.Language.Token

/-!
# Expressions

Expressions whose names are resolved to cells, and the code that leaves their value on the stack.
-/
namespace BasicMachine.Language

/-- Cell of the frame pointer of the active function. -/
def frameCell : Nat := 0

/-- Cell of the number of the next DATA item. -/
def cursorCell : Nat := 1

/-- First cell of the DATA items. -/
def dataBase : Nat := 2

/-- An array: its first cell, its extents and its number of cells. -/
structure ArrayBlock where
  base : Nat
  extents : List Int16
  length : Nat
  deriving DecidableEq

inductive Expr
  | integer (n : Int16)
  | float (x : Float32)
  /-- The text constant in the cells from `address` on. -/
  | text (address : Nat)
  | variable (slot : Slot)
  | element (array : ArrayBlock) (subscripts : List Expr)
  | negate (e : Expr)
  | not (e : Expr)
  | binary (op : Operator) (left right : Expr)
  | builtin (f : Builtin) (args : List Expr)
  | call (name : String) (args : List Expr)

/-- What can be assigned to. -/
inductive Target
  | scalar (slot : Slot)
  | element (array : ArrayBlock) (subscripts : List Expr)

/-- IDX becomes the address of the active frame. -/
def frameCode : Code := [.pointer .setIdx frameCell, .short .deref 0]

namespace Slot

def load : Slot → Code
  | cell address => [.pointer .load address]
  | place offset => frameCode ++ [.short .loadX offset]

/-- Takes the value from the stack. -/
def store : Slot → Code
  | cell address => [.pointer .store address]
  | place offset => frameCode ++ [.short .storeX offset]

end Slot

namespace ArrayBlock

/-- What follows the first subscript. -/
def firstCode : Code := [.plain (.unary .floor)]

/-- What comes before each subscript but the first. -/
def scaleCode (extent : Int16) : Code := [.short .pushI extent, .plain (.binary .multiply)]

/-- What follows each subscript but the first. -/
def addCode : Code := [.plain (.unary .floor), .plain (.binary .add)]

/-- Fails unless the index on the stack lies inside the array. -/
def checkSteps (a : ArrayBlock) : Steps :=
  Steps.ofCode ([.plain .dup, .short .pushI (Int16.ofNat a.length)] ++ Operator.relation (-1) .equal) ++
    .skip .jz 15 ::
    Steps.ofCode ([.plain .dup, .short .pushI 0] ++ Operator.relation (-1) .notEqual) ++
    .skip .jnz 6 ::
    [.fixed (.short .fail ErrorCode.subscriptOutOfRange.number)]

/-- Turns the index on the stack into the address of the cell. -/
def baseCode (a : ArrayBlock) : Code := [.pointer .pushP a.base, .plain (.binary .add)]

end ArrayBlock

/-- From the address of a cell to its value. -/
def fetchCode : Code := [.plain .popIdx, .plain .loadI]

/-- The value on top goes to the cell whose address is below it. -/
def depositCode : Code := [.plain .swap, .plain .popIdx, .plain .storeI]

mutual

/-- The code of an expression and `after` it. -/
def Expr.codeBefore (after : Steps) : Expr → Steps
  | .integer n => .fixed (.short .pushI n) :: after
  | .float x => .fixed (.pushF x.toBits) :: after
  | .text address => .fixed (.pointer .pushP address) :: after
  | .variable slot => Steps.ofCode slot.load ++ after
  | .element array subscripts =>
    indexBefore array.extents
      (array.checkSteps ++ (Steps.ofCode array.baseCode ++ (Steps.ofCode fetchCode ++ after))) subscripts
  | .negate e => .fixed (.short .pushI 0) :: e.codeBefore (Steps.ofCode Operator.minus.code ++ after)
  | .not e => e.codeBefore (.fixed (.plain (.unary .not)) :: after)
  | .binary op left right => left.codeBefore (right.codeBefore (Steps.ofCode op.code ++ after))
  | .builtin f args => argumentsBefore (Steps.ofCode f.code ++ after) args
  | .call name args => argumentsBefore (.jump .call (.function name) :: after) args

/-- Arguments one after the other. -/
def argumentsBefore (after : Steps) : List Expr → Steps
  | [] => after
  | e :: rest => e.codeBefore (argumentsBefore after rest)

/-- The index of an element in its array, row by row. -/
def indexBefore (extents : List Int16) (after : Steps) : List Expr → Steps
  | [] => after
  | e :: rest => e.codeBefore (Steps.ofCode ArrayBlock.firstCode ++ innerBefore extents.tail after rest)

/-- The subscripts after the first, each with the extent of its own dimension. -/
def innerBefore (extents : List Int16) (after : Steps) : List Expr → Steps
  | [] => after
  | e :: rest =>
    Steps.ofCode (ArrayBlock.scaleCode (extents.headD 0)) ++
      e.codeBefore (Steps.ofCode ArrayBlock.addCode ++ innerBefore extents.tail after rest)

end

/-- The code that leaves the value of an expression on the stack. -/
def Expr.code (e : Expr) : Steps := e.codeBefore []

namespace Target

/-- The address of an array element on the stack, before the value; nothing for a scalar. -/
def address : Target → Steps
  | scalar _ => []
  | element array subscripts =>
    indexBefore array.extents (array.checkSteps ++ Steps.ofCode array.baseCode) subscripts

/-- Takes the value, and the address below it, from the stack. -/
def store : Target → Code
  | scalar slot => slot.store
  | element _ _ => depositCode

end Target

end BasicMachine.Language
