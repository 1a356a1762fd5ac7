import Dialogue.Cursor
import Dialogue.Memory
import Dialogue.Mysql.Packet
import Dialogue.Text
import Dialogue.Text.Hex

/-!
The packets that make up the reply to a command, and what is shown of commands and replies.

A reply is one packet, or a description of columns and rows that end with a packet of their own.
Where it ends follows from the command and its first packet.
-/
namespace Dialogue.Mysql

/-- What a reply says. -/
inductive Reply where
  | ok
  | error
  | finished
  | text
  | resultSet (rows : Nat)
  | prepared (statement columns params : Nat)
  | fields (count : Nat)
deriving DecidableEq

/-- What the packets at hand are of the reply to a command. -/
inductive Group where
  /-- They end within the reply. -/
  | pending
  /-- The first `packets` of them are the reply. -/
  | complete (packets : Nat) (reply : Reply)
  /-- No reply starts with them. -/
  | malformed
deriving DecidableEq

/-- The most columns that a result is believed to have. -/
def maxColumns : Nat := 4096

/-- A number that says itself how long it is. -/
def sizedNumber : Field Nat := do
  let first ← Field.u8
  if first ≤ 0xFA then return first
  else
    match first with
    | 0xFC => Field.little 2
    | 0xFD => Field.little 3
    | 0xFE => Field.little 8
    | _ => Field.fault "length-encoded integer" ("0x" ++ Text.hexNumber 2 first)

/-- The statement, columns and parameters of the reply to a prepare command. -/
def prepareReply : Field (Nat × Nat × Nat) := do
  Field.skip 1
  let statement ← Field.little 4
  let columns ← Field.little 2
  let params ← Field.little 2
  return (statement, columns, params)

/-- The packets that describe `n` things: one each and one that ends them. -/
def describing (n : Nat) : Nat := if n = 0 then 0 else n + 1

/-- The reply to a prepare command that succeeded. -/
def prepareGroup (first : Bytes) (packets : List (Stamped Packet)) : Group :=
  match prepareReply.read "mysql" first with
  | .error _ => .malformed
  | .ok (statement, columns, params) =>
    let count := 1 + describing params + describing columns
    if atLeast count packets then .complete count (.prepared statement columns params)
    else .pending

/-- Whether a packet ends what it stands behind. -/
def ends (p : Stamped Packet) : Bool := p.value.isEnd || p.value.isError

/-- A list of fields, which ends with a packet of its own. -/
def fieldsGroup (packets : List (Stamped Packet)) : Group :=
  match packets.findIdx? ends with
  | some count => .complete (count + 1) (.fields count)
  | none => .pending

/-- A result set of `columns` columns: their definitions, perhaps a packet that ends them, the rows
and a packet that ends those. -/
def resultSetGroup (columns : Nat) (packets : List (Stamped Packet)) : Group :=
  match packets.drop (1 + columns) with
  | [] => .pending
  | p :: rest =>
    let (before, rows) := if p.value.isEnd then (2 + columns, rest) else (1 + columns, p :: rest)
    match rows.findIdx? ends with
    | some count => .complete (before + count + 1) (.resultSet count)
    | none => .pending

/-- A reply that starts with neither a status nor an end. -/
def longGroup (command : UInt8) (first : Bytes) (packets : List (Stamped Packet)) : Group :=
  if command = Command.statistics then .complete 1 .text
  else if command = Command.fieldList then fieldsGroup packets
  else
    match sizedNumber.read "mysql" first with
    | .error _ => .malformed
    | .ok columns =>
      if 1 ≤ columns ∧ columns ≤ maxColumns then resultSetGroup columns packets else .malformed

/-- The reply to a command at the start of the packets at hand. -/
def group (command : UInt8) (packets : List (Stamped Packet)) : Group :=
  match packets with
  | [] => .pending
  | first :: _ =>
    match first.value.payload with
    | [] => .complete 1 .text
    | 0xFF :: _ => .complete 1 .error
    | 0x00 :: _ =>
      if command = Command.prepare then prepareGroup first.value.payload packets
      else .complete 1 .ok
    | _ =>
      if first.value.isEnd then .complete 1 .finished
      else longGroup command first.value.payload packets

/-- The statements that the server has prepared, by number. -/
abbrev Prepared := Memory Nat Bytes

/-- The number of the statement that a command is about. -/
def statement? (payload : Bytes) : Option Nat :=
  match (do Field.skip 1; Field.little 4 : Field Nat).read "mysql" payload with
  | .ok statement => some statement
  | .error _ => none

/-- What is shown of a command. -/
def renderCommand (prepared : Prepared) (p : Packet) : Bytes :=
  match p.payload with
  | [] => []
  | command :: body =>
    let name := Command.name command
    if command = Command.query ∨ command = Command.prepare ∨ command = Command.initDb then body
    else if command = Command.execute ∨ command = Command.close ∨ command = Command.reset then
      match statement? p.payload with
      | some id => (prepared.value? id).getD (Text.encode s!"{name} stmt_id={id}")
      | none => Text.encode name
    else Text.encode name

/-- What is shown of an error: its code, and its message without the state in front of it. -/
def renderError (payload : Bytes) : String :=
  let body := payload.drop 1
  let (code, message) :=
    if atLeast 2 body then (littleEndian (body.take 2), body.drop 2) else (0, body)
  let message :=
    if message.head? == some 35 && atLeast 6 message then message.drop 6 else message
  s!"ERR {code}: {Text.lossy message}"

/-- What is shown of a reply with the given first packet. -/
def renderReply (reply : Reply) (first : Packet) : Bytes :=
  Text.encode <| match reply with
    | .ok => "OK"
    | .finished => "EOF"
    | .text => Text.lossy first.payload
    | .error => renderError first.payload
    | .resultSet rows => s!"Resultset rows = {rows}"
    | .fields count => s!"Fields = {count}"
    | .prepared statement columns params =>
      s!"PREPARE OK stmt_id={statement} columns={columns} params={params}"

end Dialogue.Mysql
