import Std.Data.HashMap
import BasicMachine.Machine.Run

/-!
# A scripted host

A host that answers from prepared lines and keys, keeps the pixels that were set and records every call with its
answer.
-/
namespace BasicMachine

/-- A call as the record keeps it. Input calls stand with the byte that was given. -/
structure Recorded where
  call : HostCall
  /-- The byte that a read call got. -/
  byte : UInt8 := 0
  deriving DecidableEq, Repr

structure Script where
  /-- Lines that are still to be given, the next first. -/
  lines : List String := []
  /-- Keys that are still to be given, the next first. -/
  keys : List UInt8 := []
  /-- Keys that are held down. -/
  held : List UInt8 := []
  pixels : Std.HashMap (Int16 × Int16) UInt8 := {}
  /-- The calls so far. -/
  record : Array Recorded := #[]
  /-- What a watcher saw so far. -/
  seen : Array Snapshot := #[]

namespace Script

def note (s : Script) (call : HostCall) (byte : UInt8 := 0) : Script :=
  { s with record := s.record.push { call, byte } }

/-- Without a line or a key left, the answer is an empty line or 0. -/
def host : Host Script
  | .read noEcho, s =>
    let b := s.keys.headD 0
    (b, { s with keys := s.keys.tail, record := s.record.push { call := .read noEcho, byte := b } })
  | .keySet key, s => (s.held.contains key, s.note (.keySet key))
  | .gets, s =>
    (s.lines.headD "", { s with lines := s.lines.tail, record := s.record.push { call := .gets } })
  | .getPixel x y, s => (s.pixels.getD (x, y) 0, s.note (.getPixel x y))
  | .setPixel x y colour, s =>
    ((), { s with
      pixels := s.pixels.insert (x, y) colour
      record := s.record.push { call := .setPixel x y colour } })
  | .cls, s => ((), s.note .cls)
  | .write b, s => ((), s.note (.write b))
  | .puts t, s => ((), s.note (.puts t))
  | .palette id, s => ((), s.note (.palette id))
  | .colours f b, s => ((), s.note (.colours f b))
  | .cursor row column, s => ((), s.note (.cursor row column))
  | .blit x y bytes, s => ((), s.note (.blit x y bytes))
  | .sound v f d, s => ((), s.note (.sound v f d))
  | .voice v w l a d u r, s => ((), s.note (.voice v w l a d u r))

def watch (snapshot : Snapshot) (s : Script) : Script := { s with seen := s.seen.push snapshot }

end Script

end BasicMachine
