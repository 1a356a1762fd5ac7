import Dialogue.Backlog

/-!
What the reconstruction needs to know of one wire protocol, and the conversation of a connection
that speaks it: the frames that wait and the protocol's memory.
-/
namespace Dialogue

/-- The rules of a wire protocol. -/
structure Dialect where
  protocol : Protocol
  /-- What reading and pairing remember of a connection. -/
  State : Type
  Frame : Type
  Exchange : Type
  initial : State
  /-- Reads one frame from the start of a byte string. -/
  parse : Direction → State → Bytes → Parsed Frame × State
  /-- The earliest position from the given one on at which a frame plausibly begins. -/
  boundary : Direction → State → Bytes → Nat → Option Nat
  /-- The bytes that a frame takes up in the stream. -/
  size : Frame → Nat
  /-- The key of the dialogue that a frame belongs to. -/
  key : Frame → Int
  /-- Pairs the frames of one dialogue. -/
  pair : State → Lane Frame → Paired Frame State Exchange
  summary : Exchange → Summary

/-- What is known of a connection beyond the bytes not yet read. -/
structure Conversation (d : Dialect) where
  backlog : Backlog d.Frame := []
  state : d.State := d.initial

/-- The exchanges that one pass over all dialogues has found, each with its key. -/
structure Round (d : Dialect) where
  exchanges : List (Int × d.Exchange) := []
  errors : Nat := 0
  backlog : Backlog d.Frame := []
  state : d.State

namespace Conversation

variable {d : Dialect}

/-- Files a frame under its key. -/
def push (c : Conversation d) (dir : Direction) (f : Stamped d.Frame) : Conversation d :=
  { c with backlog := c.backlog.push (d.key f.value) dir f }

/-- Pairs the frames of each lane in turn; what one lane teaches is known to the next. -/
def pairLanes (d : Dialect) (state : d.State) : Backlog d.Frame → Round d
  | [] => { state }
  | (key, lane) :: rest =>
    let paired := d.pair state lane
    let later := pairLanes d paired.state rest
    { exchanges := paired.exchanges.map (key, ·) ++ later.exchanges
      errors := paired.errors + later.errors
      backlog := (key, paired.left) :: later.backlog
      state := later.state }

/-- Pairs what waits, by ascending key, and drops the lanes that are left empty. -/
def pairAll (c : Conversation d) : Round d :=
  let round := pairLanes d c.state c.backlog
  { round with backlog := round.backlog.dropEmpty }

/-- The bytes that the waiting frames took up. -/
def queuedBytes (c : Conversation d) : Nat :=
  total (fun e => total (fun f => d.size f.value) (e.2.requests ++ e.2.responses)) c.backlog

end Conversation

end Dialogue
