import Dialogue.Amqp.Frame
import Dialogue.Text

/-!
AMQP messages: a method and, where it has some, the content that the frames behind it carry.

A queue of frames is taken apart from the left into spans, each of them a message, a frame of no
message, or content whose method is lost. Frames that may still become a message stay unfinished.
Each frame is looked at once and spans are only ever added, so what later frames bring does not
change a span.
-/
namespace Dialogue.Amqp

/-- A method with its content. -/
structure Message where
  time : Nat
  channel : Nat
  method : Method
  arguments : Bytes
  content : Bytes
deriving DecidableEq

namespace Message

/-- A short text: a length of one byte and the bytes. -/
def shortText : Field String := return Text.lossy (← Field.bytes (← Field.u8))

/-- What the arguments of a method say about where a message goes. -/
def details (m : Method) : Field String :=
  match m.classId, m.methodId with
  | 60, 40 => do
    Field.skip 2
    let exchange ← shortText
    let key ← shortText
    return s!"exchange={exchange} routing_key={key}"
  | 60, 60 => do
    let consumer ← shortText
    let delivery ← Field.u64
    Field.skip 1
    let exchange ← shortText
    let key ← shortText
    return s!"consumer_tag={consumer} delivery_tag={delivery} exchange={exchange} routing_key={key}"
  | 50, 10 | 50, 20 | 50, 40 => do
    Field.skip 2
    let queue ← shortText
    return s!"queue={queue}"
  | 40, 10 => do
    Field.skip 2
    let exchange ← shortText
    return s!"exchange={exchange}"
  | _, _ => pure ""

/-- What is shown of a message: its method, where it goes and its content. -/
def render (m : Message) : Bytes :=
  let details := match (details m.method).read "amqp" m.arguments with
    | .ok "" => []
    | .ok details => ascii " " ++ Text.encode details
    | .error _ => []
  let content := if m.content.isEmpty then [] else ascii "\n" ++ m.content
  ascii m.method.name ++ details ++ content

end Message

/-- What a span is. -/
inductive Item where
  | message (message : Message)
  /-- A heartbeat, or the start of a client. -/
  | noise
  /-- Content whose method is lost. -/
  | orphan
deriving DecidableEq

/-- Frames that belong together, and what they are. -/
structure Span where
  frames : List (Stamped Frame)
  item : Item
deriving DecidableEq

/-- The frames at the end of a queue that may still become a message. -/
inductive Unfinished where
  | none
  /-- A method whose content is to come. -/
  | method (frame : Stamped Frame) (method : Method)
  /-- A method with its content header and body frames, last first; `missing` bytes are to come. -/
  | content (frame : Stamped Frame) (method : Method) (header : Stamped Frame)
      (bodies : List (Stamped Frame)) (missing : Nat)
deriving DecidableEq

/-- The frames in order. -/
def Unfinished.frames : Unfinished → List (Stamped Frame)
  | none => []
  | method frame _ => [frame]
  | content frame _ header bodies _ => frame :: header :: bodies.reverse

/-- How far a queue has been taken apart; the spans are held last first. -/
structure Assembly where
  spans : List Span := []
  unfinished : Unfinished := .none
deriving DecidableEq

namespace Assembly

/-- The message of a method frame with the given body frames, last first. -/
def messageOf (frame : Stamped Frame) (method : Method) (bodies : List (Stamped Frame)) : Message :=
  ⟨frame.time, frame.value.channel, method, frame.value.payload,
    bodies.reverse.flatMap (·.value.payload)⟩

/-- Adds a span behind which nothing is unfinished. -/
def close (a : Assembly) (s : Span) : Assembly := ⟨s :: a.spans, .none⟩

/-- Takes what is unfinished for a whole message. -/
def settle (a : Assembly) : Assembly :=
  match a.unfinished with
  | .none => a
  | .method frame method => a.close ⟨[frame], .message (messageOf frame method [])⟩
  | .content frame method header bodies _ =>
    a.close ⟨frame :: header :: bodies.reverse, .message (messageOf frame method bodies)⟩

/-- A frame where a message may begin. -/
def start (a : Assembly) (f : Stamped Frame) : Assembly :=
  match f.value.kind with
  | .protocolHeader | .heartbeat => a.close ⟨[f], .noise⟩
  | .contentHeader .. | .contentBody => a.close ⟨[f], .orphan⟩
  | .method m =>
    if m.hasContent then { a with unfinished := .method f m }
    else a.close ⟨[f], .message (messageOf f m [])⟩

/-- Keeps the content open while bytes are missing. -/
def await (a : Assembly) (frame : Stamped Frame) (method : Method) (header : Stamped Frame)
    (bodies : List (Stamped Frame)) (missing : Nat) : Assembly :=
  let a := { a with unfinished := .content frame method header bodies missing }
  if missing = 0 then a.settle else a

/-- Takes in one frame. Content that a frame of another kind cuts short is kept as it is. -/
def step (a : Assembly) (f : Stamped Frame) : Assembly :=
  match a.unfinished with
  | .none => a.start f
  | .method frame method =>
    match f.value.kind with
    | .contentHeader _ bodySize => a.await frame method f [] bodySize
    | _ => a.settle.start f
  | .content frame method header bodies missing =>
    match f.value.kind with
    | .contentBody => a.await frame method header (f :: bodies) (missing - f.value.payload.length)
    | _ => a.settle.start f

/-- Takes a queue apart. -/
def ofQueue (queue : List (Stamped Frame)) : Assembly := queue.foldl step {}

end Assembly

/-- The spans of a queue, in order. -/
def spans (queue : List (Stamped Frame)) : List Span := (Assembly.ofQueue queue).spans.reverse

/-- The frames of a queue behind its spans. -/
def unfinished (queue : List (Stamped Frame)) : List (Stamped Frame) :=
  (Assembly.ofQueue queue).unfinished.frames

end Dialogue.Amqp
