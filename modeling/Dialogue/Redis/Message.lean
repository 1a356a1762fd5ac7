import Dialogue.Boundary
import Dialogue.Frame
import Dialogue.Redis.Value

/-!
Redis messages: a command is an array of bulk strings, and a reply is any value.
-/
namespace Dialogue.Redis

/-- A command or reply; `length` is the number of bytes it takes up. -/
structure Message where
  /-- The name of a command in capital letters, nothing for a reply. -/
  command : String
  value : Value
  length : Nat

/-- The commands whose first argument belongs to their name. -/
def containerCommands : List String :=
  ["ACL", "CLIENT", "CLUSTER", "COMMAND", "CONFIG", "DEBUG", "FUNCTION", "LATENCY", "MEMORY",
    "MODULE", "OBJECT", "PUBSUB", "SCRIPT", "SLOWLOG", "XGROUP", "XINFO"]

/-- A word of a command's name. -/
def nameWord (bytes : Bytes) : String := (Text.lossy bytes).map Char.toUpper

/-- The name of a command with the given words. -/
def commandName (first : Bytes) (arguments : List Bytes) : String :=
  let name := nameWord first
  match arguments with
  | second :: _ =>
    if containerCommands.contains name then name ++ " " ++ nameWord second else name
  | [] => name

namespace Message

/-- The words of a command, where all of them are bulk strings. -/
def words? (items : List Value) : Option (List Bytes) :=
  if items.all (·.asBulk?.isSome) then some (items.filterMap Value.asBulk?) else none

/-- The name of the command that a value is. -/
def commandOf : Value → Except String String
  | .array items =>
    match words? items with
    | none => .error "command arguments must be bulk strings"
    | some [] => .error "empty command"
    | some (first :: arguments) => .ok (commandName first arguments)
  | _ => .error "command is not an array"

/-- Reads the message at the start of a byte string. -/
def parse (d : Direction) (bs : Bytes) : Parsed Message :=
  match Value.parse bs with
  | .error (.incomplete minimum) => .needMore minimum
  | .error (.invalid reason) => .invalid reason
  | .ok (value, length, _) =>
    match d with
    | .response => .complete ⟨"", value, length⟩ length
    | .request =>
      match commandOf value with
      | .ok command => .complete ⟨command, value, length⟩ length
      | .error reason => .invalid reason

/-- The letters that start a message. -/
def starts : Direction → List UInt8
  | .request => ['*'].map Char.toUInt8
  | .response => Value.types

/-- Whether a value stands here, or begins as far as the bytes go. -/
def credible (d : Direction) (bs : Bytes) : Bool :=
  bs.head?.any (starts d).contains &&
    match Value.parse bs with
    | .error (.invalid _) => false
    | _ => true

/-- The earliest position at which a message may begin. -/
def boundary (d : Direction) (bs : Bytes) (start : Nat) : Option Nat :=
  Boundary.find (credible d) start bs

/-- The members of an array. -/
def items (m : Message) : List Value :=
  match m.value with
  | .array items => items
  | _ => []

/-- The number of arguments behind the first word. -/
def argumentCount (m : Message) : Nat := m.items.length - 1

/-- The first word of an array. -/
def firstWord? (m : Message) : Option Bytes := m.items.head?.bind Value.asBulk?

/-- Whether a reply delivers a published message. -/
def isPush (m : Message) : Bool :=
  match m.firstWord? with
  | some word =>
    ((word == ascii "message" || word == ascii "smessage") && m.items.length == 3) ||
      (word == ascii "pmessage" && m.items.length == 4)
  | none => false

/-- What a server confirms a subscription or its end with. -/
def confirmations : List Bytes :=
  [ascii "subscribe", ascii "psubscribe", ascii "ssubscribe", ascii "unsubscribe",
    ascii "punsubscribe", ascii "sunsubscribe"]

/-- Whether a reply confirms a subscription or its end. -/
def isConfirmation (m : Message) : Bool := m.firstWord?.any confirmations.contains

/-- Whether a command subscribes to channels. -/
def isSubscription (m : Message) : Bool :=
  ["SUBSCRIBE", "PSUBSCRIBE", "SSUBSCRIBE"].contains m.command

/-- What is shown of a message: the name of a command and its arguments, or the value. -/
def render (m : Message) : Bytes :=
  Text.encode <| match m.value with
    | .array items =>
      if m.command.isEmpty then m.value.render
      else
        let arguments := items.drop (m.command.toList.count ' ' + 1)
        m.command ++ String.join (arguments.map fun item => " " ++ item.render)
    | value => value.render

end Message

end Dialogue.Redis
