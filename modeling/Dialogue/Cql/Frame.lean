import Dialogue.Boundary
import Dialogue.Frame

/-!
Frames of the Cassandra query protocol, versions 3 to 5.

A frame has a header of nine bytes, which holds the direction and version, flags, the stream, the
opcode and the length of the body, and the body. `Frame.parse` reads one frame and `Frame.boundary`
finds the next complete one.
-/
namespace Dialogue.Cql

/-- What a frame asks or tells. -/
inductive Opcode where
  | error | startup | ready | authenticate | options | supported | query | result | prepare
  | execute | register | event | batch | authChallenge | authResponse | authSuccess
deriving DecidableEq, Repr

namespace Opcode

def all : List Opcode :=
  [error, startup, ready, authenticate, options, supported, query, result, prepare, execute,
    register, event, batch, authChallenge, authResponse, authSuccess]

/-- The byte that stands for an opcode. -/
def code : Opcode → UInt8
  | error => 0x00
  | startup => 0x01
  | ready => 0x02
  | authenticate => 0x03
  | options => 0x05
  | supported => 0x06
  | query => 0x07
  | result => 0x08
  | prepare => 0x09
  | execute => 0x0A
  | register => 0x0B
  | event => 0x0C
  | batch => 0x0D
  | authChallenge => 0x0E
  | authResponse => 0x0F
  | authSuccess => 0x10

def ofCode? (b : UInt8) : Option Opcode := all.find? (·.code == b)

theorem ofCode?_code (o : Opcode) : ofCode? o.code = some o := by cases o <;> decide

def name : Opcode → String
  | error => "ERROR"
  | startup => "STARTUP"
  | ready => "READY"
  | authenticate => "AUTHENTICATE"
  | options => "OPTIONS"
  | supported => "SUPPORTED"
  | query => "QUERY"
  | result => "RESULT"
  | prepare => "PREPARE"
  | execute => "EXECUTE"
  | register => "REGISTER"
  | event => "EVENT"
  | batch => "BATCH"
  | authChallenge => "AUTH_CHALLENGE"
  | authResponse => "AUTH_RESPONSE"
  | authSuccess => "AUTH_SUCCESS"

/-- The side that sends an opcode. -/
def direction : Opcode → Direction
  | startup | options | query | prepare | execute | register | batch | authResponse => .request
  | error | ready | authenticate | supported | result | event | authChallenge | authSuccess =>
    .response

end Opcode

/-- A frame. -/
structure Frame where
  version : UInt8
  flags : UInt8
  stream : Int
  opcode : Opcode
  body : Bytes
deriving DecidableEq

namespace Frame

/-- The bytes before the body. -/
def headerLength : Nat := 9

/-- The longest body that is believed. -/
def maxBody : Nat := 256 * 1024 * 1024

/-- The bytes that a frame takes up. -/
def size (f : Frame) : Nat := headerLength + f.body.length

/-- The direction that the first byte of a frame tells. -/
def directionOf (first : UInt8) : Direction := if first < 0x80 then .request else .response

/-- What a header tells of its frame: the opcode and the length of the body. -/
def checkHeader (d : Direction) (first code : UInt8) (length : Nat) : Except String Opcode :=
  if directionOf first ≠ d then .error "direction bit does not match"
  else if first &&& 0x7F < 3 ∨ 5 < first &&& 0x7F then .error "unsupported protocol version"
  else
    match Opcode.ofCode? code with
    | none => .error "unknown opcode"
    | some opcode =>
      if opcode.direction ≠ d then .error "opcode not valid for direction"
      else if maxBody < length then .error "body length out of range"
      else .ok opcode

/-- Reads the frame at the start of a byte string. -/
def parse (d : Direction) : Bytes → Parsed Frame
  | first :: flags :: s₁ :: s₀ :: code :: l₃ :: l₂ :: l₁ :: l₀ :: rest =>
    let length := bigEndian [l₃, l₂, l₁, l₀]
    match checkHeader d first code length with
    | .error reason => .invalid reason
    | .ok opcode =>
      if atLeast length rest then
        .complete
          { version := first &&& 0x7F
            flags := flags
            stream := twosComplement 16 (bigEndian [s₁, s₀])
            opcode := opcode
            body := rest.take length }
          (headerLength + length)
      else .needMore (some (headerLength + length))
  | _ => .needMore (some headerLength)

/-- Whether a whole frame stands here. -/
def fits (d : Direction) : Bytes → Bool
  | first :: _ :: _ :: _ :: code :: l₃ :: l₂ :: l₁ :: l₀ :: rest =>
    let length := bigEndian [l₃, l₂, l₁, l₀]
    (checkHeader d first code length).toBool && atLeast length rest
  | _ => false

/-- The earliest position at which a whole frame stands. -/
def boundary (d : Direction) (bs : Bytes) (start : Nat) : Option Nat :=
  Boundary.find (fits d) start bs

end Frame

end Dialogue.Cql
