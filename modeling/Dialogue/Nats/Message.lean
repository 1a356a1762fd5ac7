import Dialogue.Boundary
import Dialogue.Frame
import Dialogue.Line
import Dialogue.Text
import Dialogue.Text.Blank
import Dialogue.Text.Numeral

/-!
NATS messages: a control line of a command and its options and, for commands that publish or
deliver, a payload with its own line ending, whose length is the last option.

`Message.parse` reads one message and `Message.boundary` finds the next line that starts with a
command.
-/
namespace Dialogue.Nats

/-- The commands. -/
inductive Command where
  | info | connect | pub | hpub | sub | unsub | msg | hmsg | ping | pong | ok | err
deriving DecidableEq, Repr

namespace Command

def all : List Command := [info, connect, pub, hpub, sub, unsub, msg, hmsg, ping, pong, ok, err]

def name : Command → String
  | info => "INFO"
  | connect => "CONNECT"
  | pub => "PUB"
  | hpub => "HPUB"
  | sub => "SUB"
  | unsub => "UNSUB"
  | msg => "MSG"
  | hmsg => "HMSG"
  | ping => "PING"
  | pong => "PONG"
  | ok => "+OK"
  | err => "-ERR"

/-- The command that a word stands for, in capital or small letters. -/
def ofWord? (word : Bytes) : Option Command :=
  all.find? fun c => sameIgnoringCase (ascii c.name) word

/-- Whether a direction carries a command. -/
def validFor (d : Direction) : Command → Bool
  | connect | pub | hpub | sub | unsub => d == .request
  | info | msg | hmsg | ok | err => d == .response
  | ping | pong => true

/-- Whether a payload stands behind the control line. -/
def hasPayload : Command → Bool
  | pub | hpub | msg | hmsg => true
  | _ => false

end Command

/-- A message; `length` is the number of bytes it takes up. -/
structure Message where
  command : Command
  options : String
  payload : Bytes
  length : Nat
deriving DecidableEq

namespace Message

/-- The longest control line, without its ending. -/
def maxLine : Nat := 4096

def maxPayload : Nat := 64 * 1024 * 1024

/-- More bytes than any command has. -/
def wordLimit : Nat := 8

/-- What is shown of a message. -/
def render (m : Message) : Bytes :=
  let options := if m.options.isEmpty then [] else ascii " " ++ Text.encode m.options
  let payload := if m.payload.isEmpty then [] else ascii "\n" ++ m.payload
  ascii m.command.name ++ options ++ payload

/-- Whether a byte ends a command. -/
def endsWord (b : UInt8) : Bool := b == 32 || b == 9 || b == 13

/-- The bytes before the first one that ends a command, as far as a command could reach. -/
def firstWord (bs : Bytes) : Bytes := (bs.take wordLimit).takeWhile (!endsWord ·)

/-- The command at the start of a byte string and the number of its bytes: `none` while the bytes
may still become a command, and an error where they cannot. -/
def command? (bs : Bytes) : Except String (Option (Command × Nat)) :=
  let word := firstWord bs
  if atLeast (word.length + 1) bs then
    match Command.ofWord? word with
    | some c => .ok (some (c, word.length))
    | none => .error "unknown command"
  else if Command.all.any fun c =>
      word.length < c.name.length && sameIgnoringCase ((ascii c.name).take word.length) word then
    .ok none
  else .error "unknown command"

/-- Whether a character parts the options. -/
def partsOptions (c : Char) : Bool :=
  c == ' ' || c == '\t' || c == '\n' || c == '\x0c' || c == '\r'

/-- The last option. -/
def lastOption (options : String) : String :=
  String.ofList
    ((options.toList.reverse.dropWhile partsOptions).takeWhile (!partsOptions ·)).reverse

/-- The length of the payload that the options give. -/
def payloadLength? (c : Command) (options : String) : Option Nat :=
  if c.hasPayload then
    (Text.unsigned? 64 10 (Text.encode (lastOption options))).filter (· ≤ maxPayload)
  else some 0

/-- Reads the payload of `length` bytes at the start of `rest`, behind `before` bytes. -/
def parsePayload (c : Command) (options : String) (before length : Nat) (rest : Bytes) :
    Parsed Message :=
  let total := before + length + Line.ending.length
  if !atLeast (length + Line.ending.length) rest then .needMore (some total)
  else if slice rest length Line.ending.length ≠ Line.ending then
    .invalid "payload not terminated by CRLF"
  else .complete ⟨c, options, rest.take length, total⟩ total

/-- Reads the message at the start of a byte string. -/
def parse (d : Direction) (bs : Bytes) : Parsed Message :=
  match command? bs with
  | .error reason => .invalid reason
  | .ok none => .needMore none
  | .ok (some (c, wordLength)) =>
    if !c.validFor d then .invalid "command not valid for direction"
    else
      match Line.splitWithin? maxLine bs with
      | none =>
        if atLeast (maxLine + 1) bs then .invalid "control line too long" else .needMore none
      | some (line, rest) =>
        let options := Text.trim (Text.lossy (line.drop wordLength))
        let before := line.length + Line.ending.length
        match payloadLength? c options with
        | none => .invalid "bad payload size"
        | some length =>
          if c.hasPayload then parsePayload c options before length rest
          else .complete ⟨c, options, [], before⟩ before

/-- Whether a line that starts with a command stands here. -/
def credible (d : Direction) (bs : Bytes) : Bool :=
  match command? bs with
  | .ok (some (c, wordLength)) => c.validFor d && (Line.split? (bs.drop wordLength)).isSome
  | _ => false

/-- The earliest position at which a line starts with a command. -/
def boundary (d : Direction) (bs : Bytes) (start : Nat) : Option Nat :=
  Boundary.find (credible d) start bs

end Message

end Dialogue.Nats
