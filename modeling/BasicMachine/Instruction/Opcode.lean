import BasicMachine.Value.Arithmetic
import BasicMachine.Value.Comparison

/-!
# Operation codes

The instruction set by the kind of operand that follows the code byte, with the byte and the mnemonic of each code.
Expressions run on the value stack; the registers A, B and C carry arguments of host calls, and IDX addresses memory.
-/
namespace BasicMachine

inductive Register
  | a
  | b
  | c
  deriving DecidableEq, Repr

namespace Register

def all : List Register := [a, b, c]

def number : Register → UInt16
  | a => 0
  | b => 1
  | c => 2

def name : Register → String
  | a => "A"
  | b => "B"
  | c => "C"

def ofName? (s : String) : Option Register := all.find? (·.name == s)

def ofNumber (n : UInt16) : Except Error Register :=
  match all.find? (·.number == n) with
  | some r => .ok r
  | none => .error (.of .illegalFunctionCall ("NO REGISTER " ++ toString n.toNat))

end Register

/-- Calls to the host. The register of the instruction carries the first argument or receives the answer; the other
arguments are popped, the last of them first. -/
inductive Syscall
  | cls
  | write
  | read
  | readKey
  | keySet
  | puts
  | gets
  | readS
  | print
  | input
  | palette
  | colours
  | setPixel
  | getPixel
  | cursor
  | blit
  | sound
  | voice
  | line
  | box
  deriving DecidableEq, Repr

namespace Syscall

/-- Numbered from zero in this order. -/
def all : List Syscall :=
  [cls, write, read, readKey, keySet, puts, gets, readS, print, input, palette, colours, setPixel, getPixel, cursor,
    blit, sound, voice, line, box]

def number : Syscall → UInt16
  | cls => 0
  | write => 1
  | read => 2
  | readKey => 3
  | keySet => 4
  | puts => 5
  | gets => 6
  | readS => 7
  | print => 8
  | input => 9
  | palette => 10
  | colours => 11
  | setPixel => 12
  | getPixel => 13
  | cursor => 14
  | blit => 15
  | sound => 16
  | voice => 17
  | line => 18
  | box => 19

def name : Syscall → String
  | cls => "CLS"
  | write => "WRITE"
  | read => "READ"
  | readKey => "READKEY"
  | keySet => "KEYSET"
  | puts => "PUTS"
  | gets => "GETS"
  | readS => "READS"
  | print => "PRINT"
  | input => "INPUT"
  | palette => "PALETTE"
  | colours => "COLOURS"
  | setPixel => "SETPIXEL"
  | getPixel => "GETPIXEL"
  | cursor => "CURSOR"
  | blit => "BLIT"
  | sound => "SOUND"
  | voice => "VOICE"
  | line => "LINE"
  | box => "BOX"

def ofName? (s : String) : Option Syscall := all.find? (·.name == s)

def ofNumber (n : UInt16) : Except Error Syscall :=
  match all[n.toNat]? with
  | some call => .ok call
  | none => .error (.of .illegalFunctionCall ("NO SYSCALL " ++ toString n.toNat))

end Syscall

/-- Codes without an operand. -/
inductive PlainOp
  | nop
  | halt
  | yield
  | trace
  | pop
  | dup
  | swap
  | pushReg (r : Register)
  | popReg (r : Register)
  | loadI
  | storeI
  | pushIdx
  | popIdx
  | calloc
  | unary (f : Unary)
  | binary (f : Binary)
  | relation (f : Relation)
  | cmp
  | rnd
  | seed
  | len
  | clock
  | ret
  deriving DecidableEq, Repr

/-- Codes with a signed 16-bit operand. -/
inductive ShortOp
  | irq
  | fail
  | pushI
  | loadX
  | storeX
  | deref
  | alloc
  | clr
  | jmp
  | jz
  | jnz
  | call
  deriving DecidableEq, Repr

/-- Codes with an address operand. -/
inductive PointerOp
  | pushP
  | load
  | store
  | setIdx
  deriving DecidableEq, Repr

inductive Opcode
  | plain (op : PlainOp)
  | short (op : ShortOp)
  | pointer (op : PointerOp)
  | pushF
  | push
  | syscall
  | setS
  deriving DecidableEq, Repr

/-- What the bytes after an opcode mean. -/
inductive OperandKind
  | none
  | short
  | float
  | pointer
  | value
  | syscall
  | string
  deriving DecidableEq, Repr

namespace OperandKind

def name : OperandKind → String
  | none => "None"
  | short => "Short"
  | float => "Float"
  | pointer => "Pointer"
  | value => "Value"
  | syscall => "Syscall"
  | string => "String"

/-- Bytes of the operand; a string takes as many as it has, and a terminator. -/
def width? : OperandKind → Option Nat
  | none => some 0
  | short => some 2
  | float => some 4
  | pointer => some 3
  | value => some 4
  | syscall => some 4
  | string => Option.none

end OperandKind

def PlainOp.byte : PlainOp → UInt8
  | nop => 0x00
  | halt => 0x01
  | yield => 0x02
  | trace => 0x03
  | pop => 0x14
  | dup => 0x15
  | swap => 0x16
  | pushReg .a => 0x18
  | pushReg .b => 0x19
  | pushReg .c => 0x1a
  | popReg .a => 0x1b
  | popReg .b => 0x1c
  | popReg .c => 0x1d
  | loadI => 0x22
  | storeI => 0x23
  | pushIdx => 0x27
  | popIdx => 0x28
  | calloc => 0x2b
  | binary .add => 0x30
  | binary .subtract => 0x31
  | binary .multiply => 0x32
  | binary .divide => 0x33
  | binary .divideWhole => 0x34
  | binary .remainder => 0x35
  | binary .power => 0x36
  | unary .negate => 0x37
  | binary .and => 0x38
  | binary .or => 0x39
  | unary .not => 0x3a
  | relation .equal => 0x40
  | relation .notEqual => 0x41
  | relation .greater => 0x42
  | relation .greaterEqual => 0x43
  | relation .less => 0x44
  | relation .lessEqual => 0x45
  | cmp => 0x46
  | unary .floor => 0x50
  | unary .toFloat => 0x51
  | unary .toPointer => 0x52
  | unary .abs => 0x53
  | unary .sqr => 0x54
  | unary .sin => 0x55
  | unary .cos => 0x56
  | unary .tan => 0x57
  | unary .atn => 0x58
  | unary .log => 0x59
  | rnd => 0x5a
  | seed => 0x5b
  | len => 0x5c
  | clock => 0x5d
  | ret => 0x64

def PlainOp.mnemonic : PlainOp → String
  | nop => "NOP"
  | halt => "HALT"
  | yield => "YIELD"
  | trace => "TRACE"
  | pop => "POP"
  | dup => "DUP"
  | swap => "SWAP"
  | pushReg r => "PUSH" ++ r.name
  | popReg r => "POP" ++ r.name
  | loadI => "LOADI"
  | storeI => "STOREI"
  | pushIdx => "PUSHIDX"
  | popIdx => "POPIDX"
  | calloc => "CALLOC"
  | binary .add => "ADD"
  | binary .subtract => "SUB"
  | binary .multiply => "MUL"
  | binary .divide => "DIV"
  | binary .divideWhole => "IDIV"
  | binary .remainder => "MOD"
  | binary .power => "EXP"
  | unary .negate => "NEG"
  | binary .and => "AND"
  | binary .or => "OR"
  | unary .not => "NOT"
  | relation .equal => "EQ"
  | relation .notEqual => "NE"
  | relation .greater => "GT"
  | relation .greaterEqual => "GE"
  | relation .less => "LT"
  | relation .lessEqual => "LE"
  | cmp => "CMP"
  | unary .floor => "INT"
  | unary .toFloat => "FLT"
  | unary .toPointer => "PTR"
  | unary .abs => "ABS"
  | unary .sqr => "SQR"
  | unary .sin => "SIN"
  | unary .cos => "COS"
  | unary .tan => "TAN"
  | unary .atn => "ATN"
  | unary .log => "LOG"
  | rnd => "RND"
  | seed => "SEED"
  | len => "LEN"
  | clock => "CLOCK"
  | ret => "RET"

def ShortOp.byte : ShortOp → UInt8
  | irq => 0x04
  | fail => 0x06
  | pushI => 0x11
  | loadX => 0x24
  | storeX => 0x25
  | deref => 0x29
  | alloc => 0x2a
  | clr => 0x2c
  | jmp => 0x60
  | jz => 0x61
  | jnz => 0x62
  | call => 0x63

def ShortOp.mnemonic : ShortOp → String
  | irq => "IRQ"
  | fail => "FAIL"
  | pushI => "PUSHI"
  | loadX => "LOADX"
  | storeX => "STOREX"
  | deref => "DEREF"
  | alloc => "ALLOC"
  | clr => "CLR"
  | jmp => "JMP"
  | jz => "JZ"
  | jnz => "JNZ"
  | call => "CALL"

def PointerOp.byte : PointerOp → UInt8
  | pushP => 0x13
  | load => 0x20
  | store => 0x21
  | setIdx => 0x26

def PointerOp.mnemonic : PointerOp → String
  | pushP => "PUSHP"
  | load => "LOAD"
  | store => "STORE"
  | setIdx => "SETIDX"

namespace Opcode

def kind : Opcode → OperandKind
  | plain _ => .none
  | short _ => .short
  | pointer _ => .pointer
  | pushF => .float
  | push => .value
  | syscall => .syscall
  | setS => .string

def byte : Opcode → UInt8
  | plain op => op.byte
  | short op => op.byte
  | pointer op => op.byte
  | syscall => 0x05
  | push => 0x10
  | pushF => 0x12
  | setS => 0x2d

def mnemonic : Opcode → String
  | plain op => op.mnemonic
  | short op => op.mnemonic
  | pointer op => op.mnemonic
  | syscall => "SYSCALL"
  | push => "PUSH"
  | pushF => "PUSHF"
  | setS => "SETS"

/-- Cycles that an instruction takes; only NOP is free. -/
def cost (op : Opcode) : Nat := if op = plain .nop then 0 else 1

/-- Every code, by increasing byte. -/
def all : List Opcode :=
  [plain .nop, plain .halt, plain .yield, plain .trace, short .irq, syscall, short .fail,
    push, short .pushI, pushF, pointer .pushP, plain .pop, plain .dup, plain .swap,
    plain (.pushReg .a), plain (.pushReg .b), plain (.pushReg .c),
    plain (.popReg .a), plain (.popReg .b), plain (.popReg .c),
    pointer .load, pointer .store, plain .loadI, plain .storeI, short .loadX, short .storeX,
    pointer .setIdx, plain .pushIdx, plain .popIdx, short .deref, short .alloc, plain .calloc, short .clr, setS,
    plain (.binary .add), plain (.binary .subtract), plain (.binary .multiply), plain (.binary .divide),
    plain (.binary .divideWhole), plain (.binary .remainder), plain (.binary .power), plain (.unary .negate),
    plain (.binary .and), plain (.binary .or), plain (.unary .not),
    plain (.relation .equal), plain (.relation .notEqual), plain (.relation .greater),
    plain (.relation .greaterEqual), plain (.relation .less), plain (.relation .lessEqual), plain .cmp,
    plain (.unary .floor), plain (.unary .toFloat), plain (.unary .toPointer), plain (.unary .abs),
    plain (.unary .sqr), plain (.unary .sin), plain (.unary .cos), plain (.unary .tan), plain (.unary .atn),
    plain (.unary .log), plain .rnd, plain .seed, plain .len, plain .clock,
    short .jmp, short .jz, short .jnz, short .call, plain .ret]

def ofByte? (b : UInt8) : Option Opcode := all.find? (·.byte == b)

def ofByte (b : UInt8) : Except Error Opcode :=
  match ofByte? b with
  | some op => .ok op
  | none => .error (.of .unknownOpcode ("0x" ++ Numeral.hex 2 b.toNat))

def ofMnemonic? (s : String) : Option Opcode := all.find? (·.mnemonic == s)

end Opcode

end BasicMachine
