import Dialogue.Dialect
import Dialogue.Kafka.Packet
import Dialogue.Pairing

/-!
The Kafka protocol: packets of one correlation identifier are paired in order.
-/
namespace Dialogue.Kafka

/-- Pairs the packets of one identifier. -/
def pair (seen : Seen) (lane : Lane Packet) : Paired Packet Seen (Matched Packet) :=
  Pairing.inOrder (fun seen request response => (⟨request, response⟩, seen)) seen lane

/-- The operation that the request of an exchange asks for. -/
def operation? (x : Matched Packet) : Option Nat := x.request.value.header.map (·.operation)

def summary (x : Matched Packet) : Summary :=
  ⟨some x.request.time, some x.response.time, x.request.value.body, x.response.value.body⟩

def dialect : Dialect where
  protocol := .kafka
  State := Seen
  Frame := Packet
  Exchange := Matched Packet
  initial := []
  parse := Packet.parseAndRemember
  boundary := Packet.boundary
  size := Packet.size
  key p := p.correlation
  pair := pair
  summary := summary

end Dialogue.Kafka
