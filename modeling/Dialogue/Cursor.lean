import Dialogue.Error

/-!
A cursor over a payload, and the fields that payload formats are made of.

A `Field α` reads a value at the cursor and leaves the cursor behind it. A failed read says where
the field would have ended; since it returns no cursor, the caller's cursor has not moved.
-/
namespace Dialogue

/-- A place in a payload: the bytes read so far are counted, the others still held. -/
structure Cursor where
  /-- The name that errors carry. -/
  owner : String
  offset : Nat
  rest : Bytes

namespace Cursor

/-- The start of a payload. -/
def start (owner : String) (payload : Bytes) : Cursor := ⟨owner, 0, payload⟩

def remaining (c : Cursor) : Nat := c.rest.length

/-- The length of the whole payload. -/
def size (c : Cursor) : Nat := c.offset + c.remaining

def atEnd (c : Cursor) : Bool := c.rest.isEmpty

/-- The fault of a field at this cursor. -/
def invalid (c : Cursor) (field reason : String) : DecodeError :=
  .invalidField c.owner field reason

end Cursor

/-- A reader of one field: the value and the cursor behind it, or the fault. -/
abbrev Field (α : Type) := StateT Cursor (Except DecodeError) α

namespace Field

/-- The next `n` bytes. -/
def bytes (n : Nat) : Field Bytes := fun c =>
  if atLeast n c.rest then
    .ok (c.rest.take n, { c with offset := c.offset + n, rest := c.rest.drop n })
  else .error (.tooShort c.owner (c.offset + n) c.size)

/-- Passes over `n` bytes. -/
def skip (n : Nat) : Field Unit := do
  let _ ← bytes n

/-- A number of `n` bytes, most significant first. -/
def big (n : Nat) : Field Nat := return bigEndian (← bytes n)

/-- A number of `n` bytes, least significant first. -/
def little (n : Nat) : Field Nat := return littleEndian (← bytes n)

def u8 : Field Nat := big 1
def u16 : Field Nat := big 2
def u32 : Field Nat := big 4
def u64 : Field Nat := big 8
def i16 : Field Int := return twosComplement 16 (← u16)
def i32 : Field Int := return twosComplement 32 (← u32)

/-- The bytes up to a zero byte, which is passed over. -/
def zeroEnded : Field Bytes := fun c =>
  match cutAt 0 c.rest with
  | some (text, rest) => .ok (text, { c with offset := c.offset + text.length + 1, rest := rest })
  | none => .error (c.invalid "string" "missing NUL terminator")

/-- Fails with a fault of the named field. -/
def fault {α : Type} (field reason : String) : Field α := fun c => .error (c.invalid field reason)

/-- `n` fields of one format, in order; `found` holds those read before, last first. -/
def timesFrom {α : Type} (field : Field α) : Nat → List α → Field (List α)
  | 0, found => fun c => .ok (found.reverse, c)
  | n + 1, found => fun c =>
    match field c with
    | .ok (x, c) => timesFrom field n (x :: found) c
    | .error e => .error e

/-- `n` fields of one format. -/
def times {α : Type} (n : Nat) (field : Field α) : Field (List α) := timesFrom field n []

/-- Items of one format until it gives none, at most `n` of them. -/
def untilNoneFrom {α : Type} (item : Field (Option α)) : Nat → List α → Field (List α)
  | 0, _ => fault "list" "no end"
  | n + 1, found => fun c =>
    match item c with
    | .ok (some x, c) => untilNoneFrom item n (x :: found) c
    | .ok (none, c) => .ok (found.reverse, c)
    | .error e => .error e

/-- Items of one format until it gives none. Each item takes up a byte or more, so that there are
not more of them than bytes. -/
def untilNone {α : Type} (item : Field (Option α)) : Field (List α) := fun c =>
  untilNoneFrom item (c.remaining + 1) [] c

/-- The value that a format gives to a payload; bytes behind it are not looked at. -/
def read {α : Type} (field : Field α) (owner : String) (payload : Bytes) : Except DecodeError α :=
  match field (Cursor.start owner payload) with
  | .ok (x, _) => .ok x
  | .error e => .error e

end Field

end Dialogue
