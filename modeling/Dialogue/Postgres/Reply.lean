import Dialogue.Postgres.Payload

/-!
The messages that make up the reply to a request, and the text that a result set is shown as.

A result is shown as lines: the names of the columns, each row and how the command ended. Lines
that are empty leave no trace as long as nothing stands before them.
-/
namespace Dialogue.Postgres

/-- A side of an exchange: the tag and length of the message that it ends with, and its text. -/
structure Side where
  time : Nat
  tag : UInt8
  length : Nat
  text : Bytes
deriving DecidableEq

/-- A message with its payload for a text. -/
def Side.ofMessage (m : Stamped Message) : Side :=
  ⟨m.time, m.value.tag, m.value.length, m.value.payload⟩

/-- What the messages at hand are of the reply to a request. -/
inductive Take where
  /-- The reply, which the first `count` messages make up. -/
  | done (reply : Side) (count : Nat)
  /-- They end within the reply. -/
  | pending
  /-- They are no reply to the request. -/
  | mismatch
  /-- The first `count` messages are the reply, and break its format. -/
  | malformed (count : Nat)

/-! ## Result sets -/

/-- The text of a value that is null. -/
def nullText : Bytes := ascii "[NULL]"

/-- A line of parts with commas between them. -/
def line (parts : List Bytes) : Bytes := [byte ','].intercalate parts

/-- Lines with line feeds between them; empty lines at the start are left out. -/
def joinLines (lines : List Bytes) : Bytes := [10].intercalate (lines.dropWhile (·.isEmpty))

/-- The line that shows a row. -/
def rowLine (payload : Bytes) : Except DecodeError Bytes := do
  return line ((← Payload.read Payload.dataRow payload).map (·.getD nullText))

/-- The line that names the columns. -/
def columnsLine (payload : Bytes) : Except DecodeError Bytes := do
  return line (← Payload.read Payload.rowDescription payload)

/-- How the end of a result is shown. -/
def terminalLines (m : Message) : Except DecodeError (List Bytes) :=
  if m.tag = Tag.error then (Payload.renderError m.payload).map fun l => [l]
  else .ok (if m.payload.isEmpty then [] else [m.text])

/-- The lines of a result before its end; `headed` says whether the columns have been named. -/
def bodyLines (headed : Bool) : List Message → Except DecodeError (List Bytes)
  | [] => .ok []
  | m :: rest =>
    if m.tag = Tag.rowDescription ∧ !headed then do
      let first ← columnsLine m.payload
      return first :: (← bodyLines true rest)
    else if m.tag = Tag.dataRow then do
      let first ← rowLine m.payload
      return first :: (← bodyLines headed rest)
    else bodyLines headed rest

/-- The text of a result whose columns may be known beforehand. -/
def resultText (columns : List Bytes) (body : List Message) (terminal : Message) :
    Except DecodeError Bytes := do
  let head := if columns.isEmpty then [] else [line columns]
  let body ← bodyLines (!columns.isEmpty) body
  return joinLines (head ++ body ++ (← terminalLines terminal))

/-- The tags with which the answer to a query ends. -/
def queryEnds : List UInt8 := [Tag.commandComplete, Tag.emptyQuery, Tag.error]

/-- The tags with which the answer to an execution ends, for the time being at least. -/
def executeEnds : List UInt8 := Tag.suspended :: queryEnds

/-- The messages before the end of a result, and the end. -/
inductive Extent where
  | found (body : List (Stamped Message)) (terminal : Stamped Message)
  | pending
  | mismatch

/-- Looks for the end of a result; `body` holds what stands before, last first. -/
def extent (ends : List UInt8) (body : List (Stamped Message)) :
    List (Stamped Message) → Extent
  | [] => .pending
  | m :: rest =>
    if ends.contains m.value.tag then .found body.reverse m
    else if Tag.inResult.contains m.value.tag || Tag.unasked.contains m.value.tag then
      extent ends (m :: body) rest
    else .mismatch

/-- The result at the start of the messages at hand. -/
def takeResult (columns : List Bytes) (ends : List UInt8) (responses : List (Stamped Message)) :
    Take :=
  match extent ends [] responses with
  | .pending => .pending
  | .mismatch => .mismatch
  | .found body terminal =>
    let first := body.headD terminal
    match resultText columns (body.map (·.value)) terminal.value with
    | .ok text =>
      .done ⟨first.time, terminal.value.tag, terminal.value.length, text⟩ (body.length + 1)
    | .error _ => .malformed (body.length + 1)

/-! ## Other replies -/

/-- A reply of one message of the given tag, or an error. -/
def takeSingle (tag : UInt8) : List (Stamped Message) → Take
  | [] => .pending
  | m :: _ =>
    if m.value.tag = tag ∨ m.value.tag = Tag.error then .done (Side.ofMessage m) 1 else .mismatch

/-- The tags with which the answer to a Describe message ends. -/
def describeEnds : List UInt8 := [Tag.rowDescription, Tag.noData, Tag.error]

/-- A description at the start of the messages at hand, behind `before` of them. -/
def takeDescription (before : Nat) : List (Stamped Message) → Take
  | [] => .pending
  | m :: _ =>
    if describeEnds.contains m.value.tag then .done (Side.ofMessage m) (before + 1) else .mismatch

/-- The reply to a Describe message: perhaps the parameters, and the columns or their absence. -/
def takeDescribe : List (Stamped Message) → Take
  | [] => .pending
  | m :: rest =>
    if m.value.tag = Tag.parameters then takeDescription 1 rest else takeDescription 0 (m :: rest)

end Dialogue.Postgres
