import Dialogue.Dialect
import Dialogue.Http.Message
import Dialogue.Pairing

/-!
The HTTP/1 protocol: final responses are paired with requests in order, interim responses take no
part. Heads are read by a library, so the rules are given for any `HeadReader`; the one that is run
is `Head.read`.
-/
namespace Dialogue.Http

/-- Pairs the messages of a connection. -/
def pair (awaited : Awaited) (lane : Lane Message) : Paired Message Awaited (Matched Message) :=
  Pairing.inOrder (fun awaited request response => (⟨request, response⟩, awaited)) awaited
    { lane with responses := lane.responses.filter fun m => !m.value.status?.any isInterim }

def summary (x : Matched Message) : Summary :=
  ⟨some x.request.time, some x.response.time, x.request.value.render, x.response.value.render⟩

def dialect (read : HeadReader := Head.read) : Dialect where
  protocol := .http
  State := Awaited
  Frame := Message
  Exchange := Matched Message
  initial := []
  parse := Message.parse read
  boundary d _ bs start := Message.boundary d bs start
  size m := m.length
  key _ := 0
  pair := pair
  summary := summary

end Dialogue.Http
