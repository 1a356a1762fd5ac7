import Dialogue.Cql.Body
import Dialogue.Dialect
import Dialogue.Pairing

/-!
The Cassandra query protocol: the frames of a stream are paired in order, events take no part, and
the statements that the server prepares are remembered for the requests that execute them.
-/
namespace Dialogue.Cql

/-- One side of an exchange. -/
structure Side where
  time : Nat
  opcode : Opcode
  text : Bytes

/-- A request and its response. -/
structure Exchange where
  request : Side
  response : Side

/-- What a request and its response teach about prepared statements. -/
def learn (prepared : Prepared) (request response : Frame) (text : Bytes) : Prepared :=
  if request.opcode = .prepare then
    match preparedId? response with
    | some id => prepared.remember id text
    | none => prepared
  else prepared

/-- The exchange of a request and its response. -/
def exchange (prepared : Prepared) (request response : Stamped Frame) : Exchange × Prepared :=
  let text := renderRequest prepared request.value
  (⟨⟨request.time, request.value.opcode, text⟩,
      ⟨response.time, response.value.opcode, renderResponse response.value⟩⟩,
    learn prepared request.value response.value text)

/-- Pairs the frames of one stream. -/
def pair (prepared : Prepared) (lane : Lane Frame) : Paired Frame Prepared Exchange :=
  Pairing.inOrder exchange prepared
    { lane with responses := lane.responses.filter (·.value.opcode != .event) }

def summary (x : Exchange) : Summary :=
  ⟨some x.request.time, some x.response.time, x.request.text, x.response.text⟩

def dialect : Dialect where
  protocol := .cql
  State := Prepared
  Frame := Frame
  Exchange := Exchange
  initial := []
  parse d prepared bs := (Frame.parse d bs, prepared)
  boundary d _ bs start := Frame.boundary d bs start
  size := Frame.size
  key f := f.stream
  pair := pair
  summary := summary

end Dialogue.Cql
