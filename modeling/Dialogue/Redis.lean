import Dialogue.Dialect
import Dialogue.Pairing
import Dialogue.Redis.Message

/-!
The Redis protocol: replies are paired with commands in order.

A published message answers no command; it is recorded with a request made up for it. A server
confirms each channel of a subscription by a reply of its own. The first of them answers the
command, and as many as are owed after that are passed over.
-/
namespace Dialogue.Redis

/-- The number of confirmations still owed by the server. -/
abbrev Owed := Nat

abbrev Progress := Pairing.Progress Message Owed (Matched Message)

/-- The request made up for a published message. -/
def pushRequest (time : Nat) : Stamped Message := ⟨time, ⟨"PUSH PUB", .array [], 0⟩⟩

/-- The confirmations that a command brings besides its first reply. -/
def furtherConfirmations (m : Message) : Nat :=
  if m.isSubscription then m.argumentCount - 1 else 0

/-- Pairs a reply with a command, and notes the confirmations that are to come. -/
def exchange (owed : Owed) (request response : Stamped Message) : Matched Message × Owed :=
  (⟨request, response⟩, owed + furtherConfirmations request.value)

/-- Takes in one reply. -/
def answer (p : Progress) (reply : Stamped Message) : Progress :=
  if reply.value.isPush then p.record ⟨pushRequest reply.time, reply⟩
  else if 0 < p.state && reply.value.isConfirmation then { p with state := p.state - 1 }
  else Pairing.answer exchange p reply

/-- Pairs the messages of a connection. -/
def pair (owed : Owed) (lane : Lane Message) : Paired Message Owed (Matched Message) :=
  (lane.responses.foldl answer { left := { requests := lane.requests }, state := owed }).finish

def summary (x : Matched Message) : Summary :=
  ⟨some x.request.time, some x.response.time, x.request.value.render, x.response.value.render⟩

def dialect : Dialect where
  protocol := .redis
  State := Owed
  Frame := Message
  Exchange := Matched Message
  initial := (0 : Nat)
  parse d owed bs := (Message.parse d bs, owed)
  boundary d _ bs start := Message.boundary d bs start
  size m := m.length
  key _ := 0
  pair := pair
  summary := summary

end Dialogue.Redis
