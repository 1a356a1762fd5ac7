import Dialogue.Http2.Frame

/-!
Reading HTTP/2 frames.

A header block may be cut into several frames and is decoded when it is complete, so the pieces of
an open block are kept, for each direction one block. Decoding depends on the blocks before: `Table`
is what the decoder of header blocks remembers, and `decode` is that decoder. How frames are read is
the same whatever decodes their headers, so the decoder is a parameter.
-/
namespace Dialogue.Http2

/-- A decoder of header blocks. -/
abbrev Decoder (Table : Type) := Table → Bytes → List Header × Table

/-- A header block that waits for its further pieces. -/
structure Block where
  stream : Nat
  bytes : Bytes
  /-- Whether the stream ends with the block. -/
  endsStream : Bool
  /-- Whether the block belongs to a promise; it is decoded for what it teaches only. -/
  isPromise : Bool
deriving DecidableEq

/-- What is remembered of one direction. -/
structure Side (Table : Type) where
  table : Table
  pending : Option Block := none
deriving DecidableEq

/-- What is remembered of a connection. -/
structure State (Table : Type) where
  requests : Side Table
  responses : Side Table
deriving DecidableEq

namespace State

variable {Table : Type}

/-- The side of a direction. -/
def side (s : State Table) : Direction → Side Table
  | .request => s.requests
  | .response => s.responses

/-- Changes the side of a direction. -/
def withSide (s : State Table) (side : Side Table) : Direction → State Table
  | .request => { s with requests := side }
  | .response => { s with responses := side }

end State

/-- The greatest length of a block that comes in several pieces. -/
def maxBlock : Nat := 1024 * 1024

namespace Side

variable {Table : Type}

/-- Takes in a block as far as it goes; it is decoded when `complete`. -/
def takeBlock (decode : Decoder Table) (side : Side Table) (block : Block) (complete : Bool) :
    Body × Side Table :=
  if complete then
    let (headers, table) := decode side.table block.bytes
    (if block.isPromise then .control else .headers headers block.endsStream,
      { side with table := table })
  else (.control, { side with pending := some block })

/-- Takes in a further piece of a block. A piece for another stream, or with no block open, is
passed over; a block that grows too long is dropped. -/
def continueBlock (decode : Decoder Table) (side : Side Table) (h : FrameHeader)
    (piece : Bytes) : Body × Side Table :=
  match side.pending with
  | none => (.control, side)
  | some block =>
    if block.stream ≠ h.stream then (.control, side)
    else
      let side := { side with pending := none }
      if maxBlock < block.bytes.length + piece.length then (.control, side)
      else side.takeBlock decode { block with bytes := block.bytes ++ piece } h.endsHeaders

/-- What a frame contributes, and what it teaches. -/
def takeFrame (decode : Decoder Table) (side : Side Table) (h : FrameHeader) (payload : Bytes) :
    Except String (Body × Side Table) :=
  match h.kind with
  | .data => do return (.data (← h.unpad payload) h.endsStream, side)
  | .headers => do
    let fragment ← h.headersFragment payload
    return side.takeBlock decode ⟨h.stream, fragment, h.endsStream, false⟩ h.endsHeaders
  | .pushPromise => do
    let fragment ← h.promiseFragment payload
    return side.takeBlock decode ⟨h.stream, fragment, false, true⟩ h.endsHeaders
  | .continuation => .ok (side.continueBlock decode h payload)
  | .rstStream => .ok (.reset (bigEndian payload), side)
  | _ => .ok (.control, side)

end Side

namespace Frame

/-- The bytes with which a client opens a connection. -/
def preface : Bytes := ascii "PRI * HTTP/2.0\r\n\r\nSM\r\n\r\n"

/-- The opening of a connection as a frame. -/
def opening : Frame := ⟨0, .settings, 0, .preface, preface.length⟩

/-- Reads a frame that has a header. -/
def parseFramed {Table : Type} (decode : Decoder Table) (d : Direction) (state : State Table)
    (bs : Bytes) : Parsed Frame × State Table :=
  match FrameHeader.read? bs with
  | none => (.needMore (some FrameHeader.size), state)
  | some h =>
    match h.fault? with
    | some reason => (.invalid reason, state)
    | none =>
      if !atLeast h.frameLength bs then (.needMore (some h.frameLength), state)
      else
        match (state.side d).takeFrame decode h (slice bs FrameHeader.size h.length) with
        | .error reason => (.invalid reason, state)
        | .ok (body, side) =>
          (.complete ⟨h.stream, h.kind, h.flags, body, h.frameLength⟩ h.frameLength,
            state.withSide side d)

/-- Reads the frame at the start of a byte string. -/
def parse {Table : Type} (decode : Decoder Table) (d : Direction) (state : State Table)
    (bs : Bytes) : Parsed Frame × State Table :=
  let mayOpen := d = .request ∧ bs.isEmpty = false
  if mayOpen ∧ preface.isPrefixOf bs then (.complete opening preface.length, state)
  else if mayOpen ∧ bs.isPrefixOf preface then (.needMore (some preface.length), state)
  else parseFramed decode d state bs

end Frame

end Dialogue.Http2
