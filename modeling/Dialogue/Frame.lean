import Dialogue.Protocol

/-!
What every protocol's frames have in common: the outcome of reading one from the start of a byte
string, the time at which it was captured, and the two queues in which it waits for a counterpart.
-/
namespace Dialogue

/-- The outcome of reading one frame from the start of a byte string. -/
inductive Parsed (F : Type) where
  /-- The first `length` bytes are a frame. -/
  | complete (frame : F) (length : Nat)
  /-- The bytes may begin a frame; none is complete before `minimum` bytes, where that is known. -/
  | needMore (minimum : Option Nat)
  /-- No frame begins with these bytes. -/
  | invalid (reason : String)
deriving DecidableEq

namespace Parsed

/-- The same outcome with another view of the frame. -/
def map {F G : Type} (f : F → G) : Parsed F → Parsed G
  | complete frame length => complete (f frame) length
  | needMore minimum => needMore minimum
  | invalid reason => invalid reason

/-- Whether a frame was read. -/
def isComplete {F : Type} : Parsed F → Bool
  | complete .. => true
  | _ => false

end Parsed

/-- Something captured, with its capture time in nanoseconds. -/
structure Stamped (α : Type) where
  time : Nat
  value : α
deriving DecidableEq

/-- The frames of one dialogue that wait for a counterpart, oldest first. -/
structure Lane (F : Type) where
  requests : List (Stamped F) := []
  responses : List (Stamped F) := []
deriving DecidableEq

namespace Lane

def count {F : Type} (l : Lane F) : Nat := l.requests.length + l.responses.length

def isEmpty {F : Type} (l : Lane F) : Bool := l.requests.isEmpty && l.responses.isEmpty

/-- Appends a frame to the queue of its direction. -/
def push {F : Type} (l : Lane F) (d : Direction) (f : Stamped F) : Lane F :=
  match d with
  | .request => { l with requests := l.requests ++ [f] }
  | .response => { l with responses := l.responses ++ [f] }

/-- Takes the oldest frame of a direction. -/
def pop {F : Type} (l : Lane F) (d : Direction) : Option (Stamped F) × Lane F :=
  match d with
  | .request => (l.requests.head?, { l with requests := l.requests.tail })
  | .response => (l.responses.head?, { l with responses := l.responses.tail })

end Lane

/-- The result of pairing the frames of a lane: the exchanges found, the number of anomalies, what
still waits, and the protocol's memory for the frames to come. -/
structure Paired (F S X : Type) where
  exchanges : List X := []
  errors : Nat := 0
  left : Lane F
  state : S

/-- A request with the response that answers it. -/
structure Matched (F : Type) where
  request : Stamped F
  response : Stamped F
deriving DecidableEq

/-- An exchange as every protocol shows it. A missing side has no time and no payload. -/
structure Summary where
  requestTime : Option Nat := none
  responseTime : Option Nat := none
  request : Bytes := []
  response : Bytes := []
deriving DecidableEq

end Dialogue
