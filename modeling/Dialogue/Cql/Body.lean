import Dialogue.Cql.Frame
import Dialogue.Cursor
import Dialogue.Memory
import Dialogue.Text
import Dialogue.Text.Hex

/-!
The bodies of frames and what is shown of them: the text of a statement, the kind of a result with
its number of rows, the message of an error. A body that breaks its format is shown as empty.
-/
namespace Dialogue.Cql

/-- A string or short byte string: a length of two bytes and the bytes. -/
def short : Field Bytes := do Field.bytes (← Field.u16)

/-- A long string: a signed length of four bytes and the bytes. -/
def long : Field Bytes := do
  let length ← Field.i32
  if length < 0 then Field.fault "long string" (toString length) else Field.bytes length.toNat

/-- Passes over the description of a column's type, which holds others at most `levels` deep. -/
def skipType : Nat → Field Unit
  | 0 => Field.fault "type" "nesting too deep"
  | levels + 1 => do
    match ← Field.u16 with
    | 0x0000 => let _ ← short
    | 0x0020 => skipType levels
    | 0x0022 => skipType levels
    | 0x0021 =>
      skipType levels
      skipType levels
    | 0x0030 =>
      let _ ← short
      let _ ← short
      let _ ← Field.times (← Field.u16) do
        let _ ← short
        skipType levels
    | 0x0031 => let _ ← Field.times (← Field.u16) (skipType levels)
    | _ => pure ()

/-- The levels at which a column's type may hold others, with its own. -/
def typeLevels : Nat := 17

/-- Passes over the keyspace and table of a column. -/
def skipTable : Field Unit := do
  let _ ← short
  let _ ← short

/-- The number of rows of a result, which stands behind the description of its columns. Bit 0 of
the flags gives one table for all columns, bit 1 a paging state, bit 2 leaves the columns out. -/
def rowCount : Field Int := do
  let flags ← Field.u32
  let columns ← Field.i32
  if flags.testBit 1 then
    let length ← Field.i32
    if 0 < length then Field.skip length.toNat
  if !flags.testBit 2 then
    let global := flags.testBit 0
    if global then skipTable
    let _ ← Field.times columns.toNat do
      if !global then skipTable
      let _ ← short
      skipType typeLevels
  Field.i32

/-- The statements that the server has prepared, by identifier. -/
abbrev Prepared := Memory Bytes Bytes

/-- Prints a byte string as text. -/
def shown (bs : Bytes) : String := Text.lossy bs

/-- What is shown of a request. -/
def requestField (prepared : Prepared) : Opcode → Field Bytes
  | .query | .prepare => long
  | .execute => do
    let id ← short
    return (prepared.value? id).getD (Text.encode s!"EXECUTE {Text.hexBytes id}")
  | .startup => do
    let options ← Field.times (← Field.u16) do
      let key ← short
      let value ← short
      return s!"{shown key}={shown value}"
    return Text.encode (",".intercalate options)
  | .register => do
    let events ← Field.times (← Field.u16) short
    return Text.encode (",".intercalate (events.map shown))
  | .batch => do
    let _ ← Field.u8
    let count ← Field.u16
    return Text.encode s!"BATCH of {count} statements"
  | _ => pure []

/-- What is shown of a result. -/
def resultField : Field String := do
  match ← Field.i32 with
  | 1 => return "Response type = VOID"
  | 2 =>
    let rows ← rowCount
    return s!"Response type = ROWS\nNumber of rows = {rows}"
  | 3 =>
    let keyspace ← short
    return s!"Response type = SET_KEYSPACE\nKeyspace = {shown keyspace}"
  | 4 => return "Response type = PREPARED"
  | 5 => return "Response type = SCHEMA_CHANGE"
  | kind => Field.fault "result kind" (toString kind)

/-- What is shown of a response. -/
def responseField : Opcode → Field Bytes
  | .error => do
    let code ← Field.u32
    let message ← short
    return Text.encode s!"[0x{Text.hexNumber 4 code}] {shown message}"
  | .result => return Text.encode (← resultField)
  | .authenticate => short
  | _ => pure []

/-- What a format gives to a body, nothing where the body breaks it. -/
def render (field : Field Bytes) (body : Bytes) : Bytes :=
  match field.read "cql" body with
  | .ok text => text
  | .error _ => []

def renderRequest (prepared : Prepared) (f : Frame) : Bytes :=
  render (requestField prepared f.opcode) f.body

def renderResponse (f : Frame) : Bytes := render (responseField f.opcode) f.body

/-- The identifier that a response gives to a prepared statement. -/
def preparedId? (f : Frame) : Option Bytes :=
  if f.opcode ≠ .result then none
  else
    let format : Field (Option Bytes) := do
      if (← Field.i32) = 4 then return some (← short) else return none
    match format.read "cql" f.body with
    | .ok id => id
    | .error _ => none

end Dialogue.Cql
