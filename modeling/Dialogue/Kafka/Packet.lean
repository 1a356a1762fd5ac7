import Dialogue.Boundary
import Dialogue.Frame

/-!
Kafka packets: a length of four bytes and a message of that length.

A request names its operation, version, correlation identifier and client; a response gives only
the correlation identifier. `Packet.parse` reads one packet. `Packet.boundary` finds the next one:
a request by its header, a response by the identifier of a request that was seen before it.
-/
namespace Dialogue.Kafka

/-- The name of an operation. -/
def operationName : Int → String
  | 0 => "Produce"
  | 1 => "Fetch"
  | 2 => "ListOffsets"
  | 3 => "Metadata"
  | 8 => "OffsetCommit"
  | 9 => "OffsetFetch"
  | 10 => "FindCoordinator"
  | 11 => "JoinGroup"
  | 12 => "Heartbeat"
  | 13 => "LeaveGroup"
  | 14 => "SyncGroup"
  | 15 => "DescribeGroups"
  | 16 => "ListGroups"
  | 17 => "SaslHandshake"
  | 18 => "ApiVersions"
  | 19 => "CreateTopics"
  | 20 => "DeleteTopics"
  | 22 => "InitProducerId"
  | 36 => "SaslAuthenticate"
  | _ => "Unknown"

/-- What a request says of itself. -/
structure RequestHeader where
  operation : Nat
  version : Nat
  client : Option Bytes
deriving DecidableEq

/-- A request, which has a header, or a response. -/
structure Packet where
  correlation : Nat
  header : Option RequestHeader
  body : Bytes
deriving DecidableEq

/-- The correlation identifiers of the requests read last, the last one first. -/
abbrev Seen := List Nat

namespace Seen

/-- How many identifiers are remembered. -/
def limit : Nat := 1024

def remember (seen : Seen) (correlation : Nat) : Seen := (correlation :: seen).take limit

end Seen

namespace Packet

/-- The bytes that give the length. -/
def prefixLength : Nat := 4

/-- The shortest message of a direction: its fixed fields. -/
def minMessage : Direction → Nat
  | .request => 10
  | .response => 4

def maxMessage : Nat := 64 * 1024 * 1024

/-- The greatest operation, version and (signed) identifier that are believed. -/
def maxOperation : Nat := 74
def maxVersion : Nat := 20
def maxCorrelation : Nat := 0x7FFFFFFF

/-- The bytes that a packet takes up. -/
def size (p : Packet) : Nat :=
  match p.header with
  | none => prefixLength + 4 + p.body.length
  | some h => prefixLength + 10 + (h.client.getD []).length + p.body.length

/-- The length of the message that starts with these bytes, if it is believed. -/
def messageLength? (d : Direction) : Bytes → Option Nat
  | l₃ :: l₂ :: l₁ :: l₀ :: _ =>
    let length := bigEndian [l₃, l₂, l₁, l₀]
    if minMessage d ≤ length ∧ length ≤ maxMessage then some length else none
  | _ => none

/-- Operation, version and correlation identifier at the start of a request. -/
def requestFields? : Bytes → Option (Nat × Nat × Nat)
  | o₁ :: o₀ :: v₁ :: v₀ :: c₃ :: c₂ :: c₁ :: c₀ :: _ =>
    let operation := bigEndian [o₁, o₀]
    let version := bigEndian [v₁, v₀]
    let correlation := bigEndian [c₃, c₂, c₁, c₀]
    if operation ≤ maxOperation ∧ version ≤ maxVersion ∧ correlation ≤ maxCorrelation then
      some (operation, version, correlation)
    else none
  | _ => none

/-- The client that a request names, and the bytes behind it. A length of -1 stands for none. -/
def client : Bytes → Except String (Option Bytes × Bytes)
  | l₁ :: l₀ :: rest =>
    match twosComplement 16 (bigEndian [l₁, l₀]) with
    | .negSucc 0 => .ok (none, rest)
    | .negSucc _ => .error "negative client id length"
    | .ofNat n =>
      if atLeast n rest then .ok (some (rest.take n), rest.drop n)
      else .error "client id overruns message"
  | _ => .error "truncated client id"

/-- Reads a whole request. -/
def ofRequest (message : Bytes) : Except String Packet :=
  match requestFields? message with
  | none => .error "implausible request header"
  | some (operation, version, correlation) => do
    let (name, body) ← client (message.drop 8)
    return ⟨correlation, some ⟨operation, version, name⟩, body⟩

/-- Reads a whole response. -/
def ofResponse (message : Bytes) : Except String Packet :=
  let correlation := bigEndian (message.take 4)
  if correlation ≤ maxCorrelation then .ok ⟨correlation, none, message.drop 4⟩
  else .error "negative correlation id"

/-- Reads a whole message. -/
def ofMessage : Direction → Bytes → Except String Packet
  | .request => ofRequest
  | .response => ofResponse

/-- Reads the packet at the start of a byte string. -/
def parse (d : Direction) (bs : Bytes) : Parsed Packet :=
  if !atLeast prefixLength bs then .needMore (some prefixLength)
  else
    match messageLength? d bs with
    | none => .invalid "implausible message length"
    | some length =>
      if !atLeast (prefixLength + length) bs then .needMore (some (prefixLength + length))
      else
        match ofMessage d (slice bs prefixLength length) with
        | .error reason => .invalid reason
        | .ok packet => .complete packet (prefixLength + length)

/-- Reads a packet and remembers the identifier of a request. -/
def parseAndRemember (d : Direction) (seen : Seen) (bs : Bytes) : Parsed Packet × Seen :=
  let parsed := parse d bs
  match d, parsed with
  | .request, .complete packet _ => (parsed, seen.remember packet.correlation)
  | _, _ => (parsed, seen)

/-- Whether a message that can be told by its fields begins behind the length. -/
def recognised (d : Direction) (seen : Seen) (message : Bytes) : Bool :=
  match d with
  | .request => (requestFields? message).isSome
  | .response => atLeast 4 message && seen.contains (bigEndian (message.take 4))

/-- Whether a whole packet stands here, as far as it can be told. -/
def credible (d : Direction) (seen : Seen) (bs : Bytes) : Bool :=
  match messageLength? d bs with
  | none => false
  | some length =>
    atLeast (prefixLength + length) bs && recognised d seen (bs.drop prefixLength)

/-- The earliest position at which a whole packet plausibly stands. -/
def boundary (d : Direction) (seen : Seen) (bs : Bytes) (start : Nat) : Option Nat :=
  Boundary.find (credible d seen) start bs

end Packet

end Dialogue.Kafka
