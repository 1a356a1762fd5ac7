import Dialogue.Dialect
import Dialogue.Nats.Message
import Dialogue.Pairing

/-!
The NATS protocol: requests are paired with the replies that acknowledge them.

Acknowledgements are optional, so a request whose turn meets another message is recorded alone. A
request that meets nothing waits, since its acknowledgement may still come. What the server sends
of its own accord is recorded alone; an acknowledgement without a request is counted.
-/
namespace Dialogue.Nats

/-- A request, a response, or both. -/
structure Exchange where
  request : Option (Stamped Message) := none
  response : Option (Stamped Message) := none

abbrev Progress := Pairing.Progress Message Unit Exchange

/-- Whether a response acknowledges a request. -/
def acknowledges (response request : Message) : Bool :=
  match request.command with
  | .ping => response.command == .pong
  | _ => response.command == .ok || response.command == .err

/-- Whether the server sends a message of its own accord. -/
def isPush (m : Message) : Bool :=
  match m.command with
  | .msg | .hmsg | .info | .ping => true
  | _ => false

/-- Takes in a response that answers no request. -/
def unpaired (p : Progress) (response : Stamped Message) : Progress :=
  if isPush response.value then p.record { response := some response } else p.miss

/-- Takes in the responses captured before `time`. -/
def takeEarlier (time : Nat) (p : Progress) : List (Stamped Message) → Progress
  | [] => p.withResponses []
  | response :: rest =>
    if response.time < time then takeEarlier time (unpaired p response) rest
    else p.withResponses (response :: rest)

/-- Pairs the requests in order. -/
def pairRequests (p : Progress) : List (Stamped Message) → Progress
  | [] => (p.left.responses.foldl unpaired p).withResponses []
  | request :: rest =>
    let p := takeEarlier request.time p p.left.responses
    match p.left.responses with
    | [] => p.withRequests (request :: rest)
    | response :: responses =>
      if acknowledges response.value request.value then
        pairRequests ((p.record ⟨some request, some response⟩).withResponses responses) rest
      else pairRequests (p.record { request := some request }) rest

/-- Pairs the messages of a connection. -/
def pair (lane : Lane Message) : Paired Message Unit Exchange :=
  (pairRequests { left := { responses := lane.responses }, state := () } lane.requests).finish

def summary (x : Exchange) : Summary :=
  let shown (m : Option (Stamped Message)) : Bytes := (m.map (·.value.render)).getD []
  ⟨x.request.map (·.time), x.response.map (·.time), shown x.request, shown x.response⟩

def dialect : Dialect where
  protocol := .nats
  State := Unit
  Frame := Message
  Exchange := Exchange
  initial := ()
  parse d _ bs := (Message.parse d bs, ())
  boundary d _ bs start := Message.boundary d bs start
  size m := m.length
  key _ := 0
  pair _ lane := pair lane
  summary := summary

end Dialogue.Nats
