import Dialogue.Line
import Dialogue.Text
import Dialogue.Text.Numeral

/-!
Values of the Redis serialization protocol, version 2.

A value starts with a letter that says what it is. Simple strings, errors and numbers fill the line
behind it; a bulk string gives its length there and follows with an ending of its own; an array
gives the number of its members, which follow. `Value.parse` reads one value.
-/
namespace Dialogue.Redis

/-- A value. -/
inductive Value where
  | simple (bytes : Bytes)
  | error (bytes : Bytes)
  | integer (n : Int)
  | bulk (bytes : Bytes)
  | nullBulk
  | array (items : List Value)
  | nullArray

/-- Why no value can be read. -/
inductive Fault where
  /-- The bytes end within the value; no value is complete before `minimum` bytes, where that is
  known. -/
  | incomplete (minimum : Option Nat)
  | invalid (reason : String)
deriving DecidableEq

namespace Value

/-- How deep arrays may hold each other. -/
def maxDepth : Nat := 16

def maxBulk : Int := 512 * 1024 * 1024

def maxItems : Int := 1024 * 1024

/-- The length up to which the end of a line is waited for. -/
def maxLine : Nat := 64 * 1024

/-- The bytes of a bulk string that is not null. -/
def asBulk? : Value → Option Bytes
  | bulk bytes => some bytes
  | _ => none

mutual

/-- What is shown of a value. -/
def render : Value → String
  | simple bytes => Text.lossy bytes
  | error bytes => Text.lossy bytes
  | integer n => toString n
  | bulk bytes => Text.lossy bytes
  | nullBulk => "<NULL>"
  | array items => "[" ++ renderItems items ++ "]"
  | nullArray => "<NULL>"

/-- What is shown of the members of an array. -/
def renderItems : List Value → String
  | [] => ""
  | item :: rest => render item ++ renderMore rest

/-- What is shown of further members. -/
def renderMore : List Value → String
  | [] => ""
  | item :: rest => ", " ++ render item ++ renderMore rest

end

/-- What reading gives: a value, the position behind it and the bytes from there on. -/
abbrev Reading (α : Type) := Except Fault (α × Nat × Bytes)

/-- The rest of the line at a position. -/
def lineAt (position : Nat) (bs : Bytes) : Reading Bytes :=
  match Line.split? bs with
  | some (line, rest) => .ok (line, position + line.length + Line.ending.length, rest)
  | none =>
    if atLeast (maxLine + 1) bs then .error (.invalid "line too long")
    else .error (.incomplete none)

/-- The number that a line writes. -/
def number (line : Bytes) : Except Fault Int :=
  match Text.integer? 64 line with
  | some n => .ok n
  | none => .error (.invalid "malformed integer")

/-- A bulk string of `n` bytes at a position. -/
def bulkAt (n position : Nat) (bs : Bytes) : Reading Value :=
  let length := n + Line.ending.length
  if !atLeast length bs then .error (.incomplete (some (position + length)))
  else if slice bs n Line.ending.length ≠ Line.ending then
    .error (.invalid "bulk string not terminated")
  else .ok (.bulk (bs.take n), position + length, bs.drop length)

/-- `n` values, each read by `item`; `found` holds those read before, last first. -/
def itemsAt (item : Nat → Bytes → Reading Value) (found : List Value) :
    Nat → Nat → Bytes → Reading Value
  | 0, position, bs => .ok (.array found.reverse, position, bs)
  | n + 1, position, bs =>
    match item position bs with
    | .error fault => .error fault
    | .ok (value, position, bs) => itemsAt item (value :: found) n position bs

/-- The value that starts with the letter `type` and has `line` behind it. -/
def ofLine (item : Nat → Bytes → Reading Value) (type : UInt8) (line : Bytes) (position : Nat)
    (bs : Bytes) : Except Fault (Value × Nat × Bytes) :=
  match Char.ofNat type.toNat with
  | '+' => .ok (.simple line, position, bs)
  | '-' => .ok (.error line, position, bs)
  | ':' => do return (.integer (← number line), position, bs)
  | '$' => do
    let n ← number line
    if n = -1 then return (.nullBulk, position, bs)
    else if 0 ≤ n ∧ n ≤ maxBulk then bulkAt n.toNat position bs
    else throw (.invalid "bad bulk length")
  | _ => do
    let n ← number line
    if n = -1 then return (.nullArray, position, bs)
    else if 0 ≤ n ∧ n ≤ maxItems then itemsAt item [] n.toNat position bs
    else throw (.invalid "bad array length")

/-- The letters that start a value. -/
def types : List UInt8 := ['+', '-', ':', '$', '*'].map Char.toUInt8

/-- The value at a position; within it arrays may lie at `levels` levels, its own included. -/
def parseAt : Nat → Nat → Bytes → Reading Value
  | 0, _, _ => .error (.invalid "nesting too deep")
  | _ + 1, position, [] => .error (.incomplete (some (position + 1)))
  | levels + 1, position, type :: rest =>
    if !types.contains type then .error (.invalid "unknown type byte")
    else
      match lineAt (position + 1) rest with
      | .error fault => .error fault
      | .ok (line, position, rest) => ofLine (parseAt levels) type line position rest

/-- The value at the start of a byte string. -/
def parse (bs : Bytes) : Reading Value := parseAt (maxDepth + 1) 0 bs

end Value

end Dialogue.Redis
