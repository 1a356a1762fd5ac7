import Dialogue.Cursor
import Dialogue.Postgres.Message
import Dialogue.Text.Hex

/-!
The payloads of PostgreSQL messages.
-/
namespace Dialogue.Postgres

/-- What a Describe or Close message is about. -/
inductive Target where
  | statement
  | portal
deriving DecidableEq, Repr

/-- The letter of a target. -/
def Target.code : Target → UInt8
  | statement => byte 'S'
  | portal => byte 'P'

namespace Payload

/-- The number of members of a list, which stands before them. -/
def count (name : String) : Field Nat := do
  let n ← Field.i16
  if n < 0 then Field.fault name (toString n) else return n.toNat

/-- The bytes of a column's description behind its name: table, attribute, type, size of the type,
modifier and format. -/
def columnAttributes : Nat := 18

/-- The name of a column, with its description passed over. -/
def column : Field Bytes := do
  let name ← Field.zeroEnded
  Field.skip columnAttributes
  return name

/-- The names of the columns that a row description describes. -/
def rowDescription : Field (List Bytes) := do Field.times (← count "field count") column

/-- A value, or none where its length is negative. -/
def value : Field (Option Bytes) := do
  let length ← Field.i32
  if length < 0 then return none else return some (← Field.bytes length.toNat)

/-- The values of a row. -/
def dataRow : Field (List (Option Bytes)) := do Field.times (← count "column count") value

/-- A field of an error, or none at the end of the fields. -/
def errorField : Field (Option (UInt8 × Bytes)) := do
  let code ← Field.u8
  if code = 0 then return none else return some (UInt8.ofNat code, ← Field.zeroEnded)

/-- The fields of an error or notice: codes with texts. -/
def errorFields : Field (List (UInt8 × Bytes)) := Field.untilNone errorField

/-- Two names: statement and query of a Parse message, portal and statement of a Bind message. -/
def names : Field (Bytes × Bytes) := do
  let first ← Field.zeroEnded
  let second ← Field.zeroEnded
  return (first, second)

/-- What a Describe or Close message is about, and its name. -/
def target : Field (Target × Bytes) := do
  let code ← Field.u8
  if code = Target.statement.code.toNat then return (.statement, ← Field.zeroEnded)
  else if code = Target.portal.code.toNat then return (.portal, ← Field.zeroEnded)
  else Field.fault "describe target" ("0x" ++ Text.hexNumber 2 code)

/-- A parameter, or none at the end of the parameters, which is an empty name. -/
def parameter : Field (Option (Bytes × Bytes)) := do
  let name ← Field.zeroEnded
  if name.isEmpty then return none else return some (name, ← Field.zeroEnded)

/-- The parameters of a startup message. -/
def startupParameters : Field (List (Bytes × Bytes)) := do
  Field.skip 4
  Field.untilNone parameter

/-- The value that a format gives to a payload. -/
def read {α : Type} (format : Field α) (payload : Bytes) : Except DecodeError α :=
  format.read "pgsql" payload

/-- The text of a field of an error. -/
def fieldText (fields : List (UInt8 × Bytes)) (code : Char) : Option Bytes :=
  fields.lookup (byte code)

/-- What is shown of an error: its severity and its message. -/
def renderError (payload : Bytes) : Except DecodeError Bytes := do
  let fields ← read errorFields payload
  let severity := match fieldText fields 'S' with
    | some severity => severity ++ ascii ": "
    | none => []
  return severity ++ (fieldText fields 'M').getD []

end Payload

end Dialogue.Postgres
