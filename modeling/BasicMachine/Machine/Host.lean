import BasicMachine.Machine.Action

/-!
# Hosts

Everything that a machine does to the outside world is a call that the host answers. A host is a function of its own
state, so that the same calls in the same state get the same answers.
-/
namespace BasicMachine

inductive HostCall
  | cls
  | write (byte : UInt8)
  /-- The next input byte, or 0 when nothing is waiting. -/
  | read (noEcho : Bool)
  /-- Whether a key is held down. -/
  | keySet (key : UInt8)
  | puts (text : String)
  /-- A line of input. -/
  | gets
  | palette (id : UInt8)
  | colours (foreground background : UInt8)
  | setPixel (x y : Int16) (colour : UInt8)
  | getPixel (x y : Int16)
  | cursor (row column : UInt8)
  | blit (x y : Int16) (bytes : List UInt8)
  | sound (voice : UInt8) (frequency duration : UInt16)
  | voice (voice waveform volume attack decay sustain release : UInt8)
  deriving DecidableEq, Repr

/-- What the host answers to a call. -/
abbrev HostCall.Answer : HostCall → Type
  | read _ => UInt8
  | keySet _ => Bool
  | gets => String
  | getPixel _ _ => UInt8
  | _ => Unit

/-- A host with states of type `σ`. -/
abbrev Host (σ : Type) := (call : HostCall) → σ → call.Answer × σ

/-- A machine and the state of its host. -/
structure Session (σ : Type) where
  machine : Machine
  host : σ

abbrev SessionM (σ : Type) := EStateM Error (Session σ)

namespace Session

variable {σ : Type}

/-- An action of the machine leaves the host alone. -/
def act (action : Action α) : SessionM σ α := fun ⟨m, t⟩ =>
  match action m with
  | .ok a m => .ok a ⟨m, t⟩
  | .error e m => .error e ⟨m, t⟩

/-- A call leaves the machine alone. -/
def ask (host : Host σ) (call : HostCall) : SessionM σ call.Answer := fun ⟨m, t⟩ =>
  let (a, t) := host call t
  .ok a ⟨m, t⟩

end Session

end BasicMachine
