import Dialogue.Boundary
import Dialogue.Frame

/-!
PostgreSQL messages, version 3 of the protocol.

A message is a tag, a length of four bytes that counts itself and a payload. What a client sends
first has no tag; it is given the tag zero, and its payload starts with a version or request code.
`Message.parse` reads one message and `Message.boundary` finds the next credible one.
-/
namespace Dialogue.Postgres

/-- The byte of a Latin letter or digit. -/
def byte (c : Char) : UInt8 := c.toUInt8

/-! The tags of messages; some stand for one thing from the client and another from the server. -/
namespace Tag

def startup : UInt8 := 0

def query : UInt8 := byte 'Q'
def parse : UInt8 := byte 'P'
def bind : UInt8 := byte 'B'
def describe : UInt8 := byte 'D'
def execute : UInt8 := byte 'E'
def close : UInt8 := byte 'C'
def functionCall : UInt8 := byte 'F'

def parseComplete : UInt8 := byte '1'
def bindComplete : UInt8 := byte '2'
def closeComplete : UInt8 := byte '3'
def commandComplete : UInt8 := byte 'C'
def dataRow : UInt8 := byte 'D'
def emptyQuery : UInt8 := byte 'I'
def error : UInt8 := byte 'E'
def functionResult : UInt8 := byte 'V'
def noData : UInt8 := byte 'n'
def parameters : UInt8 := byte 't'
def suspended : UInt8 := byte 's'
def rowDescription : UInt8 := byte 'T'

/-- Everything a client sends: besides the above Sync, Flush, Terminate, Password and copied
data. -/
def ofClient : List UInt8 :=
  ['Q', 'P', 'B', 'D', 'E', 'S', 'H', 'C', 'X', 'p', 'F', 'd', 'c', 'f'].map byte

/-- Everything a server sends. -/
def ofServer : List UInt8 :=
  ['R', 'K', '1', '2', '3', 'C', 'G', 'H', 'W', 'd', 'c', 'D', 'I', 'E', 'V', 'v', 'n', 'N', 'A',
    't', 'S', 's', 'Z', 'T'].map byte

/-- What a server sends of its own accord: parameter status, notices, readiness, key data,
authentication, notifications and the version it can speak. -/
def unasked : List UInt8 := ['S', 'N', 'Z', 'K', 'R', 'A', 'v'].map byte

/-- What may stand before the end of a result: descriptions, rows and copied data. -/
def inResult : List UInt8 := ['T', 'D', 'G', 'H', 'W', 'd', 'c'].map byte

/-- The tags of a direction. -/
def known : Direction → List UInt8
  | .request => ofClient
  | .response => ofServer

end Tag

/-- A message. -/
structure Message where
  tag : UInt8
  payload : Bytes
deriving DecidableEq

namespace Message

/-- The bytes of tag and length. -/
def headerLength : Nat := 5

/-- The longest message that is believed, without its tag. -/
def maxLength : Nat := 256 * 1024 * 1024

/-- The codes with which a client starts: version 3, and asking for encryption, to cancel a request
and for encryption by GSSAPI. -/
def startupCodes : List Nat := [0x30000, 80877103, 80877102, 80877104]

/-- The lengths that a startup message may have. -/
def minStartup : Nat := 8
def maxStartup : Nat := 10000

/-- The length that a message gives, which counts its own four bytes. -/
def length (m : Message) : Nat := m.payload.length + 4

/-- The bytes that a message takes up. -/
def size (m : Message) : Nat := if m.tag = Tag.startup then m.length else m.length + 1

/-- The payload without the zero bytes at its end. -/
def text (m : Message) : Bytes := (m.payload.reverse.dropWhile (· == 0)).reverse

/-- Reads a startup message. -/
def parseStartup : Bytes → Parsed Message
  | l₃ :: l₂ :: l₁ :: l₀ :: c₃ :: c₂ :: c₁ :: c₀ :: rest =>
    let length := bigEndian [l₃, l₂, l₁, l₀]
    if !startupCodes.contains (bigEndian [c₃, c₂, c₁, c₀]) then
      .invalid "unknown startup protocol version"
    else if length < minStartup ∨ maxStartup < length then
      .invalid "startup length out of range"
    else if atLeast (length - 8) rest then
      .complete ⟨Tag.startup, c₃ :: c₂ :: c₁ :: c₀ :: rest.take (length - 8)⟩ length
    else .needMore (some length)
  | _ => .needMore (some minStartup)

/-- The tag and length at the start of a tagged message, where both are credible. -/
def length? (d : Direction) : Bytes → Option Nat
  | tag :: l₃ :: l₂ :: l₁ :: l₀ :: _ =>
    let length := bigEndian [l₃, l₂, l₁, l₀]
    if (Tag.known d).contains tag ∧ 4 ≤ length ∧ length ≤ maxLength then some length else none
  | _ => none

/-- Reads a tagged message. -/
def parseTagged (d : Direction) : Bytes → Parsed Message
  | tag :: l₃ :: l₂ :: l₁ :: l₀ :: rest =>
    let length := bigEndian [l₃, l₂, l₁, l₀]
    if !(Tag.known d).contains tag then .invalid "unknown message tag"
    else if length < 4 ∨ maxLength < length then .invalid "message length out of range"
    else if atLeast (length - 4) rest then
      .complete ⟨tag, rest.take (length - 4)⟩ (length + 1)
    else .needMore (some (length + 1))
  | _ => .needMore (some headerLength)

/-- Reads the message at the start of a byte string. -/
def parse (d : Direction) (bs : Bytes) : Parsed Message :=
  if d = .request ∧ bs.head? = some 0 then parseStartup bs else parseTagged d bs

/-- Whether a whole tagged message stands here, and another tag behind it if there is more. -/
def credible (d : Direction) (bs : Bytes) : Bool :=
  match length? d bs with
  | none => false
  | some length =>
    atLeast (length + 1) bs && (bs.drop (length + 1)).head?.all (Tag.known d).contains

/-- The earliest position at which a message plausibly stands. -/
def boundary (d : Direction) (bs : Bytes) (start : Nat) : Option Nat :=
  Boundary.find (credible d) start bs

end Message

end Dialogue.Postgres
