import Dialogue.Dialect
import Dialogue.Mysql.Reply
import Dialogue.Pairing

/-!
The MySQL protocol: each command is paired with the packets of its reply.

Commands are taken in order. What the server sent before a command, or out of a reply's sequence,
is dropped first. A command whose reply is still unfinished waits; some commands have no reply.
Packets of the handshake are passed over. Each reply that is lost is counted once.
-/
namespace Dialogue.Mysql

/-- One side of an exchange. -/
structure Side where
  time : Nat
  text : Bytes

/-- A command, with its reply where it has one. -/
structure Exchange where
  command : Side
  reply : Option Side

abbrev Progress := Pairing.Progress Packet Prepared Exchange

/-- The command that a packet starts. -/
def commandOf (p : Packet) : UInt8 := p.payload.head?.getD Command.sleep

/-- Whether the server answers a command with nothing. -/
def isUnanswered (command : UInt8) : Bool :=
  command == Command.quit || command == Command.close || command == Command.sendLongData

/-- Counts a packet that takes no part in an exchange, if a reply starts with it. -/
def discard (p : Progress) (packet : Stamped Packet) : Progress :=
  if packet.value.sequence = 1 then p.miss else p

/-- Drops what cannot belong to the reply to a command captured at `time`. -/
def dropStale (time : Nat) (p : Progress) : List (Stamped Packet) → Progress
  | [] => p.withResponses []
  | packet :: rest =>
    if packet.time < time ∨ packet.value.sequence ≠ 1 then dropStale time (discard p packet) rest
    else p.withResponses (packet :: rest)

/-- The exchange of a command without reply, and what remains of the statements. -/
def unanswered (prepared : Prepared) (command : Stamped Packet) : Exchange × Prepared :=
  (⟨⟨command.time, renderCommand prepared command.value⟩, none⟩,
    if commandOf command.value = Command.close then
      match statement? command.value.payload with
      | some id => prepared.forget id
      | none => prepared
    else prepared)

/-- The exchange of a command and a reply, and what it teaches. -/
def answered (prepared : Prepared) (command first : Stamped Packet) (reply : Reply) :
    Exchange × Prepared :=
  let text := renderCommand prepared command.value
  (⟨⟨command.time, text⟩, some ⟨first.time, renderReply reply first.value⟩⟩,
    match reply with
    | .prepared statement _ _ => prepared.remember statement text
    | _ => prepared)

/-- Takes the reply of `packets` packets for a command off the responses. -/
def takeReply (p : Progress) (command : Stamped Packet) (packets : Nat) (reply : Reply) :
    Progress :=
  let rest := p.withResponses (p.left.responses.drop packets)
  match p.left.responses with
  | [] => rest
  | first :: _ =>
    let (x, prepared) := answered p.state command first reply
    { rest with state := prepared }.record x

/-- Pairs the commands in order. -/
def pairCommands (p : Progress) : List (Stamped Packet) → Progress
  | [] => (p.left.responses.foldl discard p).withResponses []
  | command :: rest =>
    if command.value.sequence ≠ 0 then pairCommands p rest
    else
      let p := dropStale command.time p p.left.responses
      let code := commandOf command.value
      if isUnanswered code then
        let (x, prepared) := unanswered p.state command
        pairCommands ({ p with state := prepared }.record x) rest
      else
        match group code p.left.responses with
        | .pending => p.withRequests (command :: rest)
        | .malformed => pairCommands (p.miss.withResponses p.left.responses.tail) rest
        | .complete packets reply => pairCommands (takeReply p command packets reply) rest

/-- Pairs the packets of a connection. -/
def pair (prepared : Prepared) (lane : Lane Packet) : Paired Packet Prepared Exchange :=
  (pairCommands { left := { responses := lane.responses }, state := prepared }
    lane.requests).finish

def summary (x : Exchange) : Summary :=
  ⟨some x.command.time, x.reply.map (·.time), x.command.text, (x.reply.map (·.text)).getD []⟩

def dialect : Dialect where
  protocol := .mysql
  State := Prepared
  Frame := Packet
  Exchange := Exchange
  initial := []
  parse d prepared bs := (Packet.parse d bs, prepared)
  boundary d _ bs start := Packet.boundary d bs start
  size := Packet.size
  key _ := 0
  pair := pair
  summary := summary

end Dialogue.Mysql
