import Dialogue.Dialect
import Dialogue.Dns.Framing
import Dialogue.Pairing

/-!
The domain name system: messages of one transaction are paired in order.
-/
namespace Dialogue.Dns

/-- Pairs the messages of one transaction. -/
def pair (lane : Lane Message) : Paired Message Unit (Matched Message) :=
  Pairing.inOrder (fun _ request response => (⟨request, response⟩, ())) () lane

def summary (x : Matched Message) : Summary :=
  ⟨some x.request.time, some x.response.time, x.request.value.shownQueries,
    x.response.value.shownAnswers⟩

def dialect : Dialect where
  protocol := .dns
  State := Unit
  Frame := Message
  Exchange := Matched Message
  initial := ()
  parse d _ bs := (Message.parse d bs, ())
  boundary d _ bs start := Message.boundary d bs start
  size m := m.length
  key m := m.transaction
  pair _ lane := pair lane
  summary := summary

end Dialogue.Dns
