import Dialogue.Boundary
import Dialogue.Dns.Message

/-!
Reading DNS messages off a byte string.

A message gives no length: it ends where its last record ends, so the sections are walked. A name
is a row of labels that ends with the root or goes on at an earlier place of the message; it ends,
for the walk, behind the first such pointer.
-/
namespace Dialogue.Dns

/-- Why no message can be read. -/
inductive Fault where
  /-- The bytes end within the message. -/
  | incomplete
  | invalid (reason : String)
deriving DecidableEq

abbrev Walk (α : Type) := Except Fault α

/-- The bytes before the sections. -/
def headerLength : Nat := 12

/-- The most entries that a section is believed to have. -/
def maxEntries : Nat := 256

def maxOperation : Nat := 5

/-- The longest name, in bytes of its text. -/
def maxName : Nat := 255

/-- How many pointers a name may follow. -/
def maxJumps : Nat := 32

/-- The number in the two bytes at a position. -/
def wordAt (msg : Bytes) (position : Nat) : Walk Nat :=
  match msg.drop position with
  | a :: b :: _ => .ok (bigEndian [a, b])
  | _ => .error .incomplete

/-- A name with another label behind it. -/
def addLabel (name : String) (label : Bytes) : String :=
  if name.isEmpty then Text.lossy label else name ++ "." ++ Text.lossy label

/-- Reads the labels at the start of `bs`, which stands at `position`: the name, the position behind
the labels, and where the name goes on if it ends with a pointer. -/
def labels (name : String) (position : Nat) (bs : Bytes) : Walk (String × Nat × Option Nat) :=
  match bs with
  | [] => .error .incomplete
  | b :: rest =>
    if b = 0 then .ok (name, position + 1, none)
    else if b < 64 then
      if !atLeast b.toNat rest then .error .incomplete
      else
        let name := addLabel name (rest.take b.toNat)
        if maxName < name.utf8ByteSize then .error (.invalid "name too long")
        else labels name (position + 1 + b.toNat) (rest.drop b.toNat)
    else if b < 192 then .error (.invalid "reserved label type")
    else
      match rest with
      | [] => .error .incomplete
      | low :: _ => .ok (name, position + 2, some (256 * (b.toNat - 192) + low.toNat))
termination_by bs.length
decreasing_by
  simp only [List.length_drop, List.length_cons]
  omega

/-- Reads a name that may still follow `jumps` pointers, each to a place before the pointer: the
name and the position behind its first part. -/
def nameFrom (msg : Bytes) (jumps : Nat) (name : String) (position : Nat) :
    Walk (String × Nat) :=
  match labels name position (msg.drop position) with
  | .error fault => .error fault
  | .ok (name, stop, none) => .ok (name, stop)
  | .ok (name, stop, some target) =>
    match jumps with
    | 0 => .error (.invalid "bad compression pointer")
    | jumps + 1 =>
      if stop ≤ target + 2 then .error (.invalid "bad compression pointer")
      else (nameFrom msg jumps name target).map fun r => (r.1, stop)

/-- The name at a position, and the position behind it. -/
def nameAt (msg : Bytes) (position : Nat) : Walk (String × Nat) := nameFrom msg maxJumps "" position

/-- The question at a position: a name, a type and a class. -/
def queryAt (msg : Bytes) (position : Nat) : Walk (Query × Nat) := do
  let (name, stop) ← nameAt msg position
  let type ← wordAt msg stop
  let _ ← wordAt msg (stop + 2)
  return (⟨name, type⟩, stop + 4)

/-- The data of a record of the given type, which are `length` bytes at `position`. -/
def dataAt (msg : Bytes) (type position length : Nat) : Walk Data :=
  if type = 1 ∧ length = 4 then .ok (.ipv4 (slice msg position 4))
  else if type = 28 ∧ length = 16 then .ok (.ipv6 (slice msg position 16))
  else if type = 5 then (nameAt msg position).map fun r => .alias r.1
  else .ok .other

/-- The frame of the record at a position: its name, its type, and where its data stand. -/
def recordAt (msg : Bytes) (position : Nat) : Walk (String × Nat × Nat × Nat) := do
  let (name, stop) ← nameAt msg position
  let type ← wordAt msg stop
  let length ← wordAt msg (stop + 8)
  if atLeast length (msg.drop (stop + 10)) then return (name, type, stop + 10, length)
  else throw .incomplete

/-- The record at a position with its data. -/
def answerAt (msg : Bytes) (position : Nat) : Walk (Answer × Nat) := do
  let (name, type, start, length) ← recordAt msg position
  let data ← dataAt msg type start length
  return (⟨name, type, data⟩, start + length)

/-- The record at a position without its data. -/
def passRecord (msg : Bytes) (position : Nat) : Walk (Unit × Nat) := do
  let (_, _, start, length) ← recordAt msg position
  return ((), start + length)

/-- `n` entries from a position on. -/
def entries {α : Type} (entryAt : Nat → Walk (α × Nat)) : Nat → Nat → Walk (List α × Nat)
  | 0, position => .ok ([], position)
  | n + 1, position => do
    let (entry, position) ← entryAt position
    let (rest, position) ← entries entryAt n position
    return (entry :: rest, position)

/-- Whether the flags of a message mark it as a response. -/
def directionOf (flags : Nat) : Direction := if flags.testBit 15 then .response else .request

/-- Reads the message at the start of a byte string. -/
def walk (d : Direction) (msg : Bytes) : Walk Message := do
  let transaction ← wordAt msg 0
  let flags ← wordAt msg 2
  let asked ← wordAt msg 4
  let answered ← wordAt msg 6
  let authorities ← wordAt msg 8
  let extras ← wordAt msg 10
  if directionOf flags ≠ d then throw (.invalid "QR bit does not match direction")
  if maxOperation < flags / 2048 % 16 then throw (.invalid "unknown opcode")
  if [asked, answered, authorities, extras].any (maxEntries < ·) then
    throw (.invalid "implausible section count")
  let (queries, position) ← entries (queryAt msg) asked headerLength
  let (answers, position) ← entries (answerAt msg) answered position
  let (_, position) ← entries (passRecord msg) (authorities + extras) position
  return ⟨transaction, flags, queries, answers, position⟩

namespace Message

/-- Reads the message at the start of a byte string. -/
def parse (d : Direction) (bs : Bytes) : Parsed Message :=
  if !atLeast headerLength bs then .needMore (some headerLength)
  else
    match walk d bs with
    | .ok message => .complete message message.length
    | .error .incomplete => .needMore none
    | .error (.invalid reason) => .invalid reason

/-- Whether a message stands here, or begins as far as the bytes go. -/
def credible (d : Direction) (bs : Bytes) : Bool :=
  atLeast headerLength bs &&
    match walk d bs with
    | .error (.invalid _) => false
    | _ => true

/-- The earliest position at which a message plausibly begins. -/
def boundary (d : Direction) (bs : Bytes) (start : Nat) : Option Nat :=
  Boundary.find (credible d) start bs

end Message

end Dialogue.Dns
