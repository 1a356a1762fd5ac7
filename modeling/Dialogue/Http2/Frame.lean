import Dialogue.Boundary
import Dialogue.Frame

/-!
HTTP/2 frames: a header of nine bytes with length, kind, flags and stream, and a payload.

Whether a header is credible follows from its kind: some kinds belong to a stream and some to the
connection as a whole, and some have a fixed length.
-/
namespace Dialogue.Http2

/-- The kinds of frames. -/
inductive Kind where
  | data | headers | priority | rstStream | settings | pushPromise | ping | goAway
  | windowUpdate | continuation
  | unknown (code : UInt8)
deriving DecidableEq, Repr

namespace Kind

def ofCode : UInt8 → Kind
  | 0 => data
  | 1 => headers
  | 2 => priority
  | 3 => rstStream
  | 4 => settings
  | 5 => pushPromise
  | 6 => ping
  | 7 => goAway
  | 8 => windowUpdate
  | 9 => continuation
  | code => unknown code

def name : Kind → String
  | data => "DATA"
  | headers => "HEADERS"
  | priority => "PRIORITY"
  | rstStream => "RST_STREAM"
  | settings => "SETTINGS"
  | pushPromise => "PUSH_PROMISE"
  | ping => "PING"
  | goAway => "GOAWAY"
  | windowUpdate => "WINDOW_UPDATE"
  | continuation => "CONTINUATION"
  | unknown _ => "UNKNOWN"

/-- Whether frames of this kind belong to a stream. -/
def needsStream : Kind → Bool
  | data | headers | priority | rstStream | pushPromise | continuation => true
  | _ => false

/-- Whether frames of this kind belong to the connection as a whole. -/
def forbidsStream : Kind → Bool
  | settings | ping | goAway => true
  | _ => false

/-- What is wrong with a payload of the given length. -/
def lengthFault? (length : Nat) : Kind → Option String
  | settings => if length % 6 = 0 then none else some "bad SETTINGS length"
  | ping => if length = 8 then none else some "bad PING length"
  | rstStream | windowUpdate => if length = 4 then none else some "bad frame length"
  | priority => if length = 5 then none else some "bad PRIORITY length"
  | goAway => if 8 ≤ length then none else some "bad GOAWAY length"
  | _ => none

end Kind

/-- The names of the error codes, from 0 on. -/
def errorNames : List String :=
  ["NO_ERROR", "PROTOCOL_ERROR", "INTERNAL_ERROR", "FLOW_CONTROL_ERROR", "SETTINGS_TIMEOUT",
    "STREAM_CLOSED", "FRAME_SIZE_ERROR", "REFUSED_STREAM", "CANCEL", "COMPRESSION_ERROR",
    "CONNECT_ERROR", "ENHANCE_YOUR_CALM", "INADEQUATE_SECURITY", "HTTP_1_1_REQUIRED"]

def errorName (code : Nat) : String := errorNames[code]?.getD "UNKNOWN"

/-- What stands before the payload of a frame; `length` is that of the payload. -/
structure FrameHeader where
  length : Nat
  kind : Kind
  flags : UInt8
  stream : Nat
deriving DecidableEq

namespace FrameHeader

/-- The length of a header. -/
def size : Nat := 9

/-- The header at the start of a byte string. The top bit of the stream has no meaning. -/
def read? : Bytes → Option FrameHeader
  | l₂ :: l₁ :: l₀ :: kind :: flags :: s₃ :: s₂ :: s₁ :: s₀ :: _ =>
    some ⟨bigEndian [l₂, l₁, l₀], Kind.ofCode kind, flags, bigEndian [s₃, s₂, s₁, s₀] % 0x80000000⟩
  | _ => none

/-- Whether the frame is the last of its direction on its stream. -/
def endsStream (h : FrameHeader) : Bool := h.flags &&& 0x01 != 0

/-- Whether the frame is the last of a header block. -/
def endsHeaders (h : FrameHeader) : Bool := h.flags &&& 0x04 != 0

def isPadded (h : FrameHeader) : Bool := h.flags &&& 0x08 != 0

/-- Whether priority fields stand before the header block. -/
def hasPriority (h : FrameHeader) : Bool := h.flags &&& 0x20 != 0

/-- The length of the frame. -/
def frameLength (h : FrameHeader) : Nat := size + h.length

/-- What is wrong with a header. -/
def fault? (h : FrameHeader) : Option String :=
  match h.kind with
  | .unknown _ => some "unknown frame type"
  | kind =>
    if kind.needsStream ∧ h.stream = 0 then some "stream frame on stream 0"
    else if kind.forbidsStream ∧ h.stream ≠ 0 then some "connection frame on a stream"
    else kind.lengthFault? h.length

/-- The payload without its padding, whose length stands before it. -/
def unpad (h : FrameHeader) (payload : Bytes) : Except String Bytes :=
  if !h.isPadded then .ok payload
  else
    match payload with
    | [] => .error "missing pad length"
    | padding :: rest =>
      if atLeast padding.toNat rest then .ok (rest.take (rest.length - padding.toNat))
      else .error "padding exceeds payload"

/-- The payload behind its first `n` bytes. -/
def skip (n : Nat) (reason : String) (payload : Bytes) : Except String Bytes :=
  if atLeast n payload then .ok (payload.drop n) else .error reason

/-- The piece of a header block in a frame that opens one. -/
def headersFragment (h : FrameHeader) (payload : Bytes) : Except String Bytes := do
  let unpadded ← h.unpad payload
  if h.hasPriority then skip 5 "truncated priority fields" unpadded else .ok unpadded

/-- The piece of a header block in a frame that promises a stream. -/
def promiseFragment (h : FrameHeader) (payload : Bytes) : Except String Bytes := do
  skip 4 "truncated promised stream id" (← h.unpad payload)

end FrameHeader

/-- A name and a value. -/
abbrev Header := String × String

/-- What a frame contributes to its stream. -/
inductive Body where
  /-- The bytes with which a client opens a connection. -/
  | preface
  /-- A header block that is complete. -/
  | headers (headers : List Header) (endsStream : Bool)
  | data (bytes : Bytes) (endsStream : Bool)
  /-- The end of a stream by an error. -/
  | reset (code : Nat)
  /-- Nothing: frames that concern the connection, pieces of header blocks, promises. -/
  | control
deriving DecidableEq

/-- A frame; `length` is the number of bytes it takes up. -/
structure Frame where
  stream : Nat
  kind : Kind
  flags : UInt8
  body : Body
  length : Nat
deriving DecidableEq

namespace Frame

/-- Whether a frame is the last of its direction on its stream. -/
def endsHalf (f : Frame) : Bool :=
  match f.body with
  | .headers _ ends | .data _ ends => ends
  | .reset _ => true
  | .preface | .control => false

def contributes (f : Frame) : Bool :=
  match f.body with
  | .preface | .control => false
  | _ => true

/-- The length up to which frames are credible where one is searched for. -/
def maxCredible : Nat := 16384

/-- The end of the frame that a credible header starts. -/
def credibleEnd? (bs : Bytes) : Option Nat :=
  match FrameHeader.read? bs with
  | none => none
  | some h => if h.fault? = none ∧ h.length ≤ maxCredible then some h.frameLength else none

/-- Whether a frame may start here: it is there in full, and if another header follows, that one is
credible too. -/
def isCredible (bs : Bytes) : Bool :=
  match credibleEnd? bs with
  | none => false
  | some stop =>
    atLeast stop bs &&
      (!atLeast FrameHeader.size (bs.drop stop) || (credibleEnd? (bs.drop stop)).isSome)

/-- The earliest position at which a frame may start. -/
def boundary (bs : Bytes) (start : Nat) : Option Nat := Boundary.find isCredible start bs

end Frame

end Dialogue.Http2
