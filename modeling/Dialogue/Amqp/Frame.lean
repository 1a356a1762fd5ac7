import Dialogue.Amqp.Method
import Dialogue.Boundary
import Dialogue.Cursor
import Dialogue.Frame

/-!
AMQP frames: a type, a channel, a length, a payload of that length and an end mark; or the eight
bytes with which a client starts.
-/
namespace Dialogue.Amqp

/-- What a frame carries. -/
inductive Kind where
  | protocolHeader
  | method (method : Method)
  | contentHeader (classId bodySize : Nat)
  | contentBody
  | heartbeat
deriving DecidableEq

/-- A frame, with the arguments of a method or the bytes of a body; `length` is the number of bytes
it takes up. -/
structure Frame where
  channel : Nat
  kind : Kind
  payload : Bytes
  length : Nat
deriving DecidableEq

namespace Frame

/-- The bytes with which a client starts. -/
def protocolHeader : Bytes := [0x41, 0x4D, 0x51, 0x50, 0, 0, 9, 1]

/-- The bytes before the payload. -/
def headerLength : Nat := 7

/-- The mark at the end of a frame. -/
def endMark : UInt8 := 0xCE

def maxPayload : Nat := 128 * 1024 * 1024

/-- The types of frames: method, header, body and heartbeat. -/
def types : List UInt8 := [1, 2, 3, 8]

/-- Reads the bytes with which a client starts, at the start of a byte string. -/
def parseProtocolHeader (bs : Bytes) : Parsed Frame :=
  let start := bs.take protocolHeader.length
  if start ≠ protocolHeader.take start.length then .invalid "bad protocol header"
  else if start.length < protocolHeader.length then .needMore (some protocolHeader.length)
  else .complete ⟨0, .protocolHeader, [], protocolHeader.length⟩ protocolHeader.length

/-- The length of a payload, where type and length can be believed. -/
def checkHeader (type : UInt8) (length : Nat) : Except String Nat :=
  if !types.contains type then .error "unknown frame type"
  else if maxPayload < length then .error "frame size out of range"
  else .ok length

/-- The format of a payload: what a frame of the type carries. -/
def content (type : UInt8) : Field (Kind × Bytes) :=
  match type with
  | 1 => do
    let classId ← Field.u16
    let methodId ← Field.u16
    let rest ← fun c => .ok (c.rest, c)
    return (.method ⟨classId, methodId⟩, rest)
  | 2 => do
    let classId ← Field.u16
    Field.skip 2
    let bodySize ← Field.u64
    return (.contentHeader classId bodySize, [])
  | 3 => fun c => .ok ((.contentBody, c.rest), c)
  | _ => pure (.heartbeat, [])

/-- Reads a frame with the given header; `rest` starts with its payload. -/
def parseRest (type : UInt8) (channel length : Nat) (rest : Bytes) : Parsed Frame :=
  let total := headerLength + length + 1
  if !atLeast (length + 1) rest then .needMore (some total)
  else if (rest.drop length).head? ≠ some endMark then .invalid "missing frame end marker"
  else
    match (content type).read "amqp" (rest.take length) with
    | .error _ => .invalid "truncated frame payload"
    | .ok (kind, payload) => .complete ⟨channel, kind, payload, total⟩ total

/-- Reads a frame that is not the first of a client. -/
def parseGeneral : Bytes → Parsed Frame
  | type :: c₁ :: c₀ :: l₃ :: l₂ :: l₁ :: l₀ :: rest =>
    match checkHeader type (bigEndian [l₃, l₂, l₁, l₀]) with
    | .error reason => .invalid reason
    | .ok length => parseRest type (bigEndian [c₁, c₀]) length rest
  | _ => .needMore (some headerLength)

/-- Reads the frame at the start of a byte string. -/
def parse (bs : Bytes) : Parsed Frame :=
  if bs.head? = protocolHeader.head? then parseProtocolHeader bs else parseGeneral bs

/-- Whether a frame with its end mark, or the start of a client, stands here. -/
def credible (bs : Bytes) : Bool :=
  startsWith protocolHeader bs ||
    match bs with
    | type :: _ :: _ :: l₃ :: l₂ :: l₁ :: l₀ :: rest =>
      match checkHeader type (bigEndian [l₃, l₂, l₁, l₀]) with
      | .error _ => false
      | .ok length => (rest.drop length).head? == some endMark
    | _ => false

/-- The earliest position at which a frame with its end mark stands. -/
def boundary (bs : Bytes) (start : Nat) : Option Nat := Boundary.find credible start bs

end Frame

end Dialogue.Amqp
