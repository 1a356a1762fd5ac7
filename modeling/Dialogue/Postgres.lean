import Dialogue.Dialect
import Dialogue.Memory
import Dialogue.Pairing
import Dialogue.Postgres.Reply

/-!
The PostgreSQL protocol: each request is paired with the messages of its reply.

Requests are taken in order, and what the server sent before a request is dropped first. Preparing,
binding and describing make no record unless they fail; what they teach gives a later execution its
statement and columns. A request whose reply is not there yet waits with those behind it. A reply
that does not belong to the request at hand costs the request.
-/
namespace Dialogue.Postgres

/-- A statement: its text, and the columns of its result where they are known. -/
structure Statement where
  query : Bytes := []
  columns : List Bytes := []
deriving DecidableEq

/-- What is known of a connection: the prepared statements by name, and the statement bound last. -/
structure Session where
  statements : Memory Bytes Statement := []
  portal : Option Statement := none
deriving DecidableEq

structure Exchange where
  request : Side
  response : Side
deriving DecidableEq

abbrev Progress := Pairing.Progress Message Session Exchange

/-- What a request with its reply comes to. -/
structure Completion where
  session : Session
  exchange : Option Exchange := none

/-- An exchange in which the server refuses a request that stands for the given statement. -/
def refusal (session : Session) (request : Side) (query : Bytes) (reply : Side) :
    Except DecodeError Completion := do
  let text ← Payload.renderError reply.text
  return ⟨session, some ⟨{ request with text := query }, { reply with text := text }⟩⟩

/-- A Parse message: the statement is entered under its name. -/
def completeParse (session : Session) (request reply : Side) : Except DecodeError Completion := do
  let (name, query) ← Payload.read Payload.names request.text
  if reply.tag = Tag.error then refusal session request query reply
  else
    let statements := session.statements.renew name { query := query }
    return { session := { session with statements := statements } }

/-- A Describe message: the columns become those of the statement or of the portal. -/
def completeDescribe (session : Session) (request reply : Side) :
    Except DecodeError Completion := do
  let (target, name) ← Payload.read Payload.target request.text
  if reply.tag ≠ Tag.rowDescription then return { session }
  let columns ← Payload.read Payload.rowDescription reply.text
  let describe (s : Statement) : Statement := { s with columns := columns }
  match target with
  | .statement =>
    return { session := { session with
      statements := session.statements.modify name describe } }
  | .portal => return { session := { session with portal := session.portal.map describe } }

/-- A Bind message: the portal is the statement as it is known now. -/
def completeBind (session : Session) (request reply : Side) : Except DecodeError Completion := do
  let (_, name) ← Payload.read Payload.names request.text
  let bound := (session.statements.value? name).getD {}
  if reply.tag = Tag.error then refusal session request bound.query reply
  else return { session := { session with portal := some bound } }

/-- A Close message: a statement is forgotten. -/
def completeClose (session : Session) (request reply : Side) : Except DecodeError Completion := do
  let (target, name) ← Payload.read Payload.target request.text
  if target = .statement ∧ reply.tag ≠ Tag.error then
    return { session := { session with statements := session.statements.forget name } }
  else return { session }

/-- What a request with its reply comes to. -/
def complete (session : Session) (request : Stamped Message) (reply : Side) :
    Except DecodeError Completion :=
  let side := Side.ofMessage request
  let tag := request.value.tag
  if tag = Tag.query then
    .ok ⟨session, some ⟨{ side with text := request.value.text }, reply⟩⟩
  else if tag = Tag.execute then
    .ok ⟨session, some ⟨{ side with text := (session.portal.getD {}).query }, reply⟩⟩
  else if tag = Tag.parse then completeParse session side reply
  else if tag = Tag.describe then completeDescribe session side reply
  else if tag = Tag.bind then completeBind session side reply
  else if tag = Tag.close then completeClose session side reply
  else .ok { session }

/-- The reply to a request at the start of the responses; none for a request without a reply. -/
def takeReply (session : Session) (tag : UInt8) (responses : List (Stamped Message)) :
    Option Take :=
  if tag = Tag.query then some (takeResult [] queryEnds responses)
  else if tag = Tag.execute then
    some (takeResult (session.portal.getD {}).columns executeEnds responses)
  else if tag = Tag.parse then some (takeSingle Tag.parseComplete responses)
  else if tag = Tag.bind then some (takeSingle Tag.bindComplete responses)
  else if tag = Tag.close then some (takeSingle Tag.closeComplete responses)
  else if tag = Tag.functionCall then some (takeSingle Tag.functionResult responses)
  else if tag = Tag.describe then some (takeDescribe responses)
  else none

/-- Counts a message that takes no part in an exchange, unless the server sent it unasked. -/
def discard (p : Progress) (m : Stamped Message) : Progress :=
  if Tag.unasked.contains m.value.tag then p else p.miss

/-- Drops what the server sent unasked or before `time`. -/
def dropStale (time : Nat) (p : Progress) : List (Stamped Message) → Progress
  | [] => p.withResponses []
  | m :: rest =>
    if Tag.unasked.contains m.value.tag ∨ m.time < time then dropStale time (discard p m) rest
    else p.withResponses (m :: rest)

/-- Enters what a request with its reply comes to. -/
def enter (p : Progress) : Except DecodeError Completion → Progress
  | .error _ => p.miss
  | .ok c =>
    let p := { p with state := c.session }
    match c.exchange with
    | none => p
    | some x => p.record x

/-- Pairs the requests in order. -/
def pairRequests (p : Progress) : List (Stamped Message) → Progress
  | [] => (p.left.responses.foldl discard p).withResponses []
  | request :: rest =>
    let p := dropStale request.time p p.left.responses
    let responses := p.left.responses
    match takeReply p.state request.value.tag responses with
    | none => pairRequests p rest
    | some .pending => p.withRequests (request :: rest)
    | some .mismatch => pairRequests p.miss rest
    | some (.malformed count) => pairRequests (p.miss.withResponses (responses.drop count)) rest
    | some (.done reply count) =>
      pairRequests
        (enter (p.withResponses (responses.drop count)) (complete p.state request reply)) rest

/-- Pairs the messages of a connection. -/
def pair (session : Session) (lane : Lane Message) : Paired Message Session Exchange :=
  (pairRequests { left := { responses := lane.responses }, state := session }
    lane.requests).finish

def summary (x : Exchange) : Summary :=
  ⟨some x.request.time, some x.response.time, x.request.text, x.response.text⟩

def dialect : Dialect where
  protocol := .pgsql
  State := Session
  Frame := Message
  Exchange := Exchange
  initial := {}
  parse d session bs := (Message.parse d bs, session)
  boundary d _ bs start := Message.boundary d bs start
  size := Message.size
  key _ := 0
  pair := pair
  summary := summary

end Dialogue.Postgres
