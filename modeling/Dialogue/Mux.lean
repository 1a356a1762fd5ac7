import Dialogue.Dialect
import Dialogue.Mux.Message
import Dialogue.Pairing

/-!
The mux protocol: requests and replies of one tag, paired by message type.

A reply answers the oldest request of the opposite type that was captured no later; Rerr answers
the oldest of any type. Requests of another type that stand before it have lost their reply and are
counted. What the server asks of the client, and leases, take no part.
-/
namespace Dialogue.Mux

/-- Whether a message from the client waits for no reply. -/
def isSilent (m : Message) : Bool := m.kind.isReply || m.kind == .tlease

/-- The pairing of mux messages; nothing is remembered between passes. -/
abbrev Progress := Pairing.Progress Message Unit (Matched Message)

/-- Looks for the request that a reply answers; requests of another type before it are dropped. -/
def settle (reply : Stamped Message) (p : Progress) : List (Stamped Message) → Progress
  | [] => p.miss.withRequests []
  | request :: rest =>
    if isSilent request.value then settle reply p rest
    else if reply.time < request.time then p.miss.withRequests (request :: rest)
    else if reply.value.kind.answers request.value.kind then
      (p.record ⟨request, reply⟩).withRequests rest
    else settle reply p.miss rest

/-- Takes in one message of the server. -/
def answer (p : Progress) (m : Stamped Message) : Progress :=
  if m.value.kind.isReply then settle m p p.left.requests else p

/-- Pairs the messages of one tag. -/
def pair (lane : Lane Message) : Paired Message Unit (Matched Message) :=
  (lane.responses.foldl answer { left := { requests := lane.requests }, state := () }).finish

def summary (x : Matched Message) : Summary :=
  ⟨some x.request.time, some x.response.time, x.request.value.body, x.response.value.body⟩

def dialect : Dialect where
  protocol := .mux
  State := Unit
  Frame := Message
  Exchange := Matched Message
  initial := ()
  parse _ _ bs := (Message.parse bs, ())
  boundary _ _ bs start := Message.boundary bs start
  size := Message.size
  key m := m.tag
  pair _ lane := pair lane
  summary := summary

end Dialogue.Mux
