import Dialogue.Boundary
import Dialogue.Frame

/-!
MySQL packets: a length of three bytes, a sequence number and a payload of that length.

A command starts a sequence at 0 and names itself in its first byte; the reply goes on from 1.
`Packet.parse` reads one packet and `Packet.boundary` finds the next start of a sequence.
-/
namespace Dialogue.Mysql

namespace Command

/-- The names of the commands, in the order of their codes. -/
def names : List String :=
  ["COM_SLEEP", "COM_QUIT", "COM_INIT_DB", "COM_QUERY", "COM_FIELD_LIST", "COM_CREATE_DB",
    "COM_DROP_DB", "COM_REFRESH", "COM_SHUTDOWN", "COM_STATISTICS", "COM_PROCESS_INFO",
    "COM_CONNECT", "COM_PROCESS_KILL", "COM_DEBUG", "COM_PING", "COM_TIME", "COM_DELAYED_INSERT",
    "COM_CHANGE_USER", "COM_BINLOG_DUMP", "COM_TABLE_DUMP", "COM_CONNECT_OUT",
    "COM_REGISTER_SLAVE", "COM_STMT_PREPARE", "COM_STMT_EXECUTE", "COM_STMT_SEND_LONG_DATA",
    "COM_STMT_CLOSE", "COM_STMT_RESET", "COM_SET_OPTION", "COM_STMT_FETCH", "COM_DAEMON",
    "COM_BINLOG_DUMP_GTID", "COM_RESET_CONNECTION"]

/-- The name of a code. -/
def name (code : UInt8) : String := names[code.toNat]?.getD "COM_UNKNOWN"

def sleep : UInt8 := 0x00
def quit : UInt8 := 0x01
def initDb : UInt8 := 0x02
def query : UInt8 := 0x03
def fieldList : UInt8 := 0x04
def statistics : UInt8 := 0x09
def prepare : UInt8 := 0x16
def execute : UInt8 := 0x17
def sendLongData : UInt8 := 0x18
def close : UInt8 := 0x19
def reset : UInt8 := 0x1A

/-- The greatest code. -/
def last : UInt8 := 0x1F

end Command

/-- A packet. -/
structure Packet where
  sequence : UInt8
  payload : Bytes
deriving DecidableEq

namespace Packet

/-- The bytes before the payload. -/
def headerLength : Nat := 4

/-- The bytes that a packet takes up. -/
def size (p : Packet) : Nat := headerLength + p.payload.length

/-- Whether the server says with this packet that rows or definitions end. -/
def isEnd (p : Packet) : Bool := p.payload.head? == some 0xFE && p.payload.length < 9

def isError (p : Packet) : Bool := p.payload.head? == some 0xFF

/-- The length of the payload at the start of a byte string, and the sequence number, if they are
credible: a payload is not empty, and the first packet of a command names it. -/
def header? (d : Direction) : Bytes → Option (Nat × UInt8)
  | l₀ :: l₁ :: l₂ :: sequence :: rest =>
    let length := littleEndian [l₀, l₁, l₂]
    if length = 0 then none
    else if d = .request ∧ sequence = 0 ∧ rest.head?.any (Command.last < ·) then none
    else some (length, sequence)
  | _ => none

/-- Reads the packet at the start of a byte string. -/
def parse (d : Direction) (bs : Bytes) : Parsed Packet :=
  if !atLeast (headerLength + 1) bs then .needMore (some (headerLength + 1))
  else
    match header? d bs with
    | none => .invalid "implausible packet header"
    | some (length, sequence) =>
      if atLeast (headerLength + length) bs then
        .complete ⟨sequence, slice bs headerLength length⟩ (headerLength + length)
      else .needMore (some (headerLength + length))

/-- The sequence number with which a command or its reply starts. -/
def firstSequence : Direction → UInt8
  | .request => 0
  | .response => 1

/-- Whether a whole packet that starts a command or a reply stands here. -/
def starts (d : Direction) (bs : Bytes) : Bool :=
  match header? d bs with
  | none => false
  | some (length, sequence) =>
    sequence == firstSequence d && atLeast (headerLength + length) bs

/-- The earliest position at which a command or a reply starts. -/
def boundary (d : Direction) (bs : Bytes) (start : Nat) : Option Nat :=
  Boundary.find (starts d) start bs

end Packet

end Dialogue.Mysql
