import Dialogue.Bytes

/-!
UTF-8 text in byte strings.

`decode` reads a byte string as the Unicode standard recommends: each well-formed sequence is one
character, and each maximal part that begins a sequence without completing it, or begins none, is
one fault. `lossy` shows a fault as U+FFFD, `strict?` refuses it. `encode` writes a text.
-/
namespace Dialogue.Text

/-- What the bytes read so far ask of the next one. -/
inductive Pending where
  /-- A character may begin. -/
  | none
  /-- `count` bytes are to come, the next of them within `low` and `high`; `value` holds the bits
  before them. -/
  | tail (value count : Nat) (low high : UInt8)
deriving DecidableEq

/-- The characters and faults found so far, last first, with what is still open. -/
structure Reading where
  found : List (Option Char)
  pending : Pending

/-- A byte where a character may begin. -/
def Reading.lead (found : List (Option Char)) (b : UInt8) : Reading :=
  if b < 0x80 then ⟨some (Char.ofNat b.toNat) :: found, .none⟩
  else if b < 0xC2 then ⟨none :: found, .none⟩
  else if b < 0xE0 then ⟨found, .tail (b.toNat - 0xC0) 1 0x80 0xBF⟩
  else if b < 0xF0 then
    ⟨found, .tail (b.toNat - 0xE0) 2 (if b = 0xE0 then 0xA0 else 0x80)
      (if b = 0xED then 0x9F else 0xBF)⟩
  else if b < 0xF5 then
    ⟨found, .tail (b.toNat - 0xF0) 3 (if b = 0xF0 then 0x90 else 0x80)
      (if b = 0xF4 then 0x8F else 0xBF)⟩
  else ⟨none :: found, .none⟩

/-- One byte: it continues the open sequence, or closes it as a fault and begins anew. -/
def Reading.step (r : Reading) (b : UInt8) : Reading :=
  match r.pending with
  | .none => .lead r.found b
  | .tail value count low high =>
    if low ≤ b ∧ b ≤ high then
      let value := 64 * value + (b.toNat - 0x80)
      if count ≤ 1 then ⟨some (Char.ofNat value) :: r.found, .none⟩
      else ⟨r.found, .tail value (count - 1) 0x80 0xBF⟩
    else .lead (none :: r.found) b

/-- Closes an unfinished sequence as a fault. -/
def Reading.finish (r : Reading) : List (Option Char) :=
  (match r.pending with
    | .none => r.found
    | .tail .. => none :: r.found).reverse

/-- The characters of a byte string, `none` for each maximal faulty part. -/
def decode (bs : Bytes) : List (Option Char) := (bs.foldl Reading.step ⟨[], .none⟩).finish

/-- The text of a byte string, with U+FFFD for each faulty part. -/
def lossy (bs : Bytes) : String := String.ofList ((decode bs).map (·.getD '\uFFFD'))

/-- The text of a byte string that is UTF-8 throughout. -/
def strict? (bs : Bytes) : Option String :=
  let found := decode bs
  if found.all (·.isSome) then some (String.ofList (found.filterMap id)) else none

/-- The UTF-8 bytes of a text. -/
def encode (s : String) : Bytes := s.toList.flatMap String.utf8EncodeChar

end Dialogue.Text
