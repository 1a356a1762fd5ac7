import Dialogue.Amqp.Message
import Dialogue.Dialect
import Dialogue.Pairing

/-!
AMQP 0-9-1: the frames of a channel are put together to messages, and replies are paired with the
calls that wait for them.

What a client sends without waiting, and what a server sends unasked, is recorded alone. A reply
answers the oldest call that asked for it and was captured no later; calls that were passed over
were sent without waiting after all. Content without a method and replies without a call are
counted.
-/
namespace Dialogue.Amqp

/-- A request, a response, or both. -/
structure Exchange where
  request : Option Message := none
  response : Option Message := none
deriving DecidableEq

/-- The time of the request, or of the response where there is no request. -/
def Exchange.firstTime (x : Exchange) : Nat := ((x.request.or x.response).map (·.time)).getD 0

/-- A request whose reply is waited for, with its frames. -/
structure Call where
  message : Message
  frames : List (Stamped Frame)
deriving DecidableEq

/-- The progress of pairing; its state is the calls that wait, oldest first. -/
abbrev Progress := Pairing.Progress Frame (List Call) Exchange

/-- The call that a span of the requests is. -/
def Span.call? (s : Span) : Option Call :=
  match s.item with
  | .message m => if m.method.isCall then some ⟨m, s.frames⟩ else none
  | _ => none

/-- The exchange of a span of the requests for which no reply is waited for. -/
def Span.alone? (s : Span) : Option Exchange :=
  match s.item with
  | .message m => if m.method.isCall then none else some { request := some m }
  | _ => none

/-- Whether a reply answers a call. -/
def Call.answeredBy (reply : Message) (c : Call) : Bool :=
  c.message.time ≤ reply.time && reply.method.answers c.message.method

/-- Pairs a reply with the oldest call that it answers. -/
def answer (p : Progress) (reply : Message) : Progress :=
  let passed := p.state.takeWhile (!·.answeredBy reply)
  match p.state.drop passed.length with
  | [] => p.miss
  | call :: rest =>
    let p := passed.foldl (fun p c => p.record { request := some c.message }) p
    { p.record ⟨some call.message, some reply⟩ with state := rest }

/-- Takes in one span of the responses. -/
def takeIn (p : Progress) (s : Span) : Progress :=
  match s.item with
  | .noise => p
  | .orphan => p.miss
  | .message m => if m.method.isReply then answer p m else p.record { response := some m }

/-- Pairs the frames of one channel. -/
def pair (lane : Lane Frame) : Paired Frame Unit Exchange :=
  let asked := spans lane.requests
  let p : Progress :=
    { found := (asked.filterMap Span.alone?).reverse
      errors := asked.countP (·.item == .orphan)
      state := asked.filterMap Span.call? }
  let p := (spans lane.responses).foldl takeIn p
  { exchanges := p.found.reverse.mergeSort fun a b => a.firstTime ≤ b.firstTime
    errors := p.errors
    left := ⟨p.state.flatMap (·.frames) ++ unfinished lane.requests, unfinished lane.responses⟩
    state := () }

def summary (x : Exchange) : Summary :=
  let shown (m : Option Message) : Bytes := (m.map Message.render).getD []
  ⟨x.request.map (·.time), x.response.map (·.time), shown x.request, shown x.response⟩

def dialect : Dialect where
  protocol := .amqp
  State := Unit
  Frame := Frame
  Exchange := Exchange
  initial := ()
  parse _ _ bs := (Frame.parse bs, ())
  boundary _ _ bs start := Frame.boundary bs start
  size f := f.length
  key f := f.channel
  pair _ lane := pair lane
  summary := summary

end Dialogue.Amqp
