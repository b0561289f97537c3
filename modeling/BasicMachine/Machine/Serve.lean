import BasicMachine.Machine.Execute
import BasicMachine.Machine.Host
import BasicMachine.Machine.Raster
import BasicMachine.Single.Read
import BasicMachine.Text.Space

/-!
# Host calls at work

Arguments come from the register of the instruction and from the stack, the last of them on top; an answer goes to the
register.
-/
namespace BasicMachine.Session

variable {σ : Type}

/-- What PRINT shows of a value. -/
def printed : Value → Action String
  | .integer n => return toString n.toInt
  | .float x => return Single.plain x
  | .pointer address => Action.text address
  | .unset => Action.fail .typeMismatch "PRINT UNSET"

/-- The number that a line of input spells, or 0. -/
def inputValue (line : String) : Value :=
  let cs := Text.trim line.toList
  match Numeral.int16? cs, Single.read? cs with
  | some n, _ => .integer n
  | none, some x => .float x
  | none, none => .integer 0

/-- A line on the heap, without its zero bytes. -/
def storeLine (line : String) : Action Nat := do
  let bytes := (Utf8.encode line).filter (· != 0)
  let address ← Action.allocate (bytes.length + 1)
  Action.storeString bytes address
  return address

/-- The low bytes of `n` cells. -/
def cellBytes (start n : Nat) : Action (List UInt8) := do
  let memory := (← get).memory
  if memory.size < start + n then Action.fail .memoryFault "BLIT"
  Action.ofExcept ((memory.extract start (start + n)).toList.mapM Value.asByte)

def plot (host : Host σ) (colour : UInt8) : List Raster.Point → SessionM σ Unit
  | [] => return ()
  | p :: rest => do
    ask host (.setPixel (Int16.ofInt p.x) (Int16.ofInt p.y) colour)
    plot host colour rest

/-- Both ends of a line and its colour from the stack. -/
def popLine : Action (Raster.Point × Raster.Point × UInt8) := do
  let colour ← Action.popByte
  let y2 ← Action.popCoordinate
  let x2 ← Action.popCoordinate
  let y1 ← Action.popCoordinate
  let x1 ← Action.popCoordinate
  return (⟨x1.toInt, y1.toInt⟩, ⟨x2.toInt, y2.toInt⟩, colour)

/-- One more byte of a line that READS gets. -/
def keepByte (b : UInt8) : Action Unit := do
  let m ← get
  Action.setCell (m.idx + m.readCursor) (.integer (Int16.ofNat b.toNat))
  modify fun m => { m with readCursor := m.readCursor + 1, clock := m.clock + 1 }

/-- The end of a line that READS gets. -/
def closeLine (r : Register) : Action Unit := do
  let m ← get
  Action.setCell (m.idx + m.readCursor) (.integer 0)
  modify fun m => { m.setRegister r (.pointer m.idx) with readCursor := 0 }

/-- Bytes up to a line end go to memory, each for one of the `room` cycles that are left. Without a byte or a cycle
left, the call goes on in the next run. `extra` is the number of cycles spent so far. -/
def readString (host : Host σ) (r : Register) (room extra : Nat) : SessionM σ Progress := do
  let b ← ask host (.read false)
  if b = 0 then return .retry
  else if b = 10 ∨ b = 13 then
    act (closeLine r)
    return .next extra
  else
    act (keepByte b)
    match room with
    | 0 => return .retry
    | left + 1 => if left = 0 then return .retry else readString host r left (extra + 1)

/-- A call of the host, with `room` cycles left. -/
def serve (host : Host σ) (r : Register) (room : Nat) : Syscall → SessionM σ Progress
  | .cls => do
    ask host .cls
    return .next 0
  | .write => do
    let b ← act do Action.ofExcept (← Action.register r).asByte
    ask host (.write b)
    return .next 0
  | .read => do
    let b ← ask host (.read false)
    act (Action.setRegister r (.integer (Int16.ofNat b.toNat)))
    return .next 0
  | .readKey => do
    let b ← ask host (.read true)
    act (Action.setRegister r (.integer (Int16.ofNat b.toNat)))
    return .next 0
  | .keySet => do
    let key ← act do Action.ofExcept (← Action.register r).asByte
    let down ← ask host (.keySet key)
    act (Action.setRegister r (.ofBool down))
    return .next 0
  | .puts => do
    let s ← act do Action.text (← Action.ofExcept (← Action.register r).asPointer)
    ask host (.puts s)
    return .next 0
  | .gets => do
    let line ← ask host .gets
    act do Action.setRegister r (.pointer (← storeLine line))
    return .next 0
  | .readS => readString host r room 0
  | .print => do
    let s ← act do printed (← Action.register r)
    ask host (.puts s)
    return .next 0
  | .input => do
    let line ← ask host .gets
    act (Action.setRegister r (inputValue line))
    return .next 0
  | .palette => do
    let id ← act do Action.ofExcept (← Action.register r).asByte
    ask host (.palette id)
    return .next 0
  | .colours => do
    let background ← act Action.popByte
    let foreground ← act Action.popByte
    ask host (.colours foreground background)
    return .next 0
  | .setPixel => do
    let colour ← act Action.popByte
    let y ← act Action.popCoordinate
    let x ← act Action.popCoordinate
    ask host (.setPixel x y colour)
    return .next 0
  | .getPixel => do
    let y ← act Action.popCoordinate
    let x ← act Action.popCoordinate
    let colour ← ask host (.getPixel x y)
    act (Action.setRegister r (.integer (Int16.ofNat colour.toNat)))
    return .next 0
  | .cursor => do
    let column ← act Action.popByte
    let row ← act Action.popByte
    ask host (.cursor row column)
    return .next 0
  | .blit => do
    let n ← act Action.popCount
    let y ← act Action.popCoordinate
    let x ← act Action.popCoordinate
    let bytes ← act do cellBytes (← Action.ofExcept (← Action.register r).asPointer) n.toNat
    ask host (.blit x y bytes)
    return .next 0
  | .sound => do
    let duration ← act Action.popCount
    let frequency ← act Action.popCount
    let voice ← act Action.popByte
    ask host (.sound voice frequency duration)
    return .next 0
  | .voice => do
    let release ← act Action.popByte
    let sustain ← act Action.popByte
    let decay ← act Action.popByte
    let attack ← act Action.popByte
    let volume ← act Action.popByte
    let waveform ← act Action.popByte
    let voice ← act Action.popByte
    ask host (.voice voice waveform volume attack decay sustain release)
    return .next 0
  | .line => do
    let (first, second, colour) ← act popLine
    plot host colour (Raster.line first second)
    return .next 0
  | .box => do
    let (first, second, colour) ← act popLine
    plot host colour (Raster.box first second)
    return .next 0

end BasicMachine.Session
