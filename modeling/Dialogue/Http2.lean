import Dialogue.Dialect
import Dialogue.Hpack
import Dialogue.Http2.Reading
import Dialogue.Pairing
import Dialogue.Text

/-!
The HTTP/2 protocol: what each side sends on a stream is put together, up to the frame that ends it,
and the response is paired with the request. Header blocks are decompressed by a library, so the
rules are given for any `Decompressor`; the one that is run is `Decompressor.hpack`.
-/
namespace Dialogue.Http2

/-- What one side has sent on a stream. -/
structure HalfStream where
  /-- The time of the first frame. -/
  time : Nat := 0
  /-- The headers of all blocks in order, with those that follow the body. -/
  headers : List Header := []
  body : Bytes := []
  /-- The error code with which the stream was reset. -/
  reset : Option Nat := none
deriving DecidableEq

namespace HalfStream

/-- The half-stream that frames make up. -/
def collect (frames : List (Stamped Frame)) : HalfStream where
  time := (frames.head?.map (·.time)).getD 0
  headers := frames.flatMap fun f => match f.value.body with
    | .headers headers _ => headers
    | _ => []
  body := frames.flatMap fun f => match f.value.body with
    | .data bytes _ => bytes
    | _ => []
  reset := (frames.filterMap fun f => match f.value.body with
    | .reset code => some code
    | _ => none).getLast?

/-- The value of the first header of a name. -/
def header? (h : HalfStream) (name : String) : Option String := h.headers.lookup name

/-- What is shown of a half-stream: its headers, the error if any, and the body. -/
def render (h : HalfStream) : Bytes :=
  let line (name value : String) : Bytes := Text.encode s!"{name}: {value}\n"
  h.headers.flatMap (fun x => line x.1 x.2) ++
    (match h.reset with
      | some code => line "RST_STREAM" (errorName code)
      | none => []) ++
    (if h.body.isEmpty then [] else ascii "\n" ++ h.body)

end HalfStream

/-- What both sides have sent on a stream. -/
structure Exchange where
  stream : Nat
  request : HalfStream
  response : HalfStream
deriving DecidableEq

abbrev Progress := Pairing.Progress Frame Unit Exchange

/-- Splits behind the first frame that ends its side of the stream. -/
def splitHalf? (frames : List (Stamped Frame)) :
    Option (List (Stamped Frame) × List (Stamped Frame)) :=
  let before := frames.takeWhile (!·.value.endsHalf)
  match frames.drop before.length with
  | [] => none
  | last :: rest => some (before ++ [last], rest)

theorem length_splitHalf_lt {frames half rest : List (Stamped Frame)}
    (h : splitHalf? frames = some (half, rest)) : rest.length < frames.length := by
  simp only [splitHalf?] at h
  split at h
  · exact absurd h (by simp)
  · next last later hd =>
    obtain ⟨-, rfl⟩ := Prod.mk.inj (Option.some.inj h)
    have := congrArg List.length hd
    simp only [List.length_drop, List.length_cons] at this
    omega

/-- Pairs the sides of a stream in order. A response that meets no frame of a request is counted. -/
def pairHalves (stream : Nat) (p : Progress) (requests responses : List (Stamped Frame)) :
    Progress :=
  match h : splitHalf? responses with
  | none => (p.withRequests requests).withResponses responses
  | some (response, laterResponses) =>
    have := length_splitHalf_lt h
    if requests.isEmpty then pairHalves stream p.miss requests laterResponses
    else
      match splitHalf? requests with
      | none => (p.withRequests requests).withResponses responses
      | some (request, laterRequests) =>
        pairHalves stream
          (p.record ⟨stream, HalfStream.collect request, HalfStream.collect response⟩)
          laterRequests laterResponses
termination_by responses.length

/-- Pairs the frames of one stream. Nothing is exchanged on stream 0. -/
def pair (lane : Lane Frame) : Paired Frame Unit Exchange :=
  let stream := ((lane.requests.head?.or lane.responses.head?).map (·.value.stream)).getD 0
  if stream = 0 then { left := {}, state := () }
  else
    let contributing := List.filter fun f : Stamped Frame => f.value.contributes
    (pairHalves stream { state := () } (contributing lane.requests)
      (contributing lane.responses)).finish

/-- A library that decompresses header blocks. -/
structure Decompressor where
  /-- What is remembered from block to block. -/
  Table : Type
  initial : Table
  /-- The names and values of a block, none if it is malformed, and what is remembered then; every
  block has an answer. -/
  decompress : Table → Bytes → Option (List (Bytes × Bytes)) × Table

abbrev Decompressor.hpack : Decompressor := ⟨Hpack.Table, {}, Hpack.decode⟩

/-- The decoder of header blocks: a malformed block gives no headers. -/
def decodeHeaders (d : Decompressor) : Decoder d.Table := fun t block =>
  let (fields, t) := d.decompress t block
  ((fields.getD []).map fun f => (Text.lossy f.1, Text.lossy f.2), t)

def summary (x : Exchange) : Summary :=
  ⟨some x.request.time, some x.response.time, x.request.render, x.response.render⟩

def dialect (d : Decompressor := .hpack) : Dialect where
  protocol := .http2
  State := State d.Table
  Frame := Frame
  Exchange := Exchange
  initial := ⟨{ table := d.initial }, { table := d.initial }⟩
  parse := Frame.parse (decodeHeaders d)
  boundary _ _ bs start := Frame.boundary bs start
  size f := f.length
  key f := f.stream
  pair state lane :=
    let paired := pair lane
    ⟨paired.exchanges, paired.errors, paired.left, state⟩
  summary := summary

end Dialogue.Http2
