/-!
Byte strings and the numbers written in them.

A byte string is a list, so that readers are recursions that hand on the unread rest. Fixed-width
numbers are read in either byte order by `bigEndian` and `littleEndian`; `twosComplement` gives
such a number its sign. `atLeast` tests a length without walking past it.
-/
namespace Dialogue

/-- A byte string, first byte first. -/
abbrev Bytes := List UInt8

/-- The number whose base 256 digits are the bytes, most significant first. -/
def bigEndian (bs : Bytes) : Nat := bs.foldl (fun n b => 256 * n + b.toNat) 0

/-- The number whose base 256 digits are the bytes, least significant first. -/
def littleEndian (bs : Bytes) : Nat := bs.foldr (fun b n => b.toNat + 256 * n) 0

/-- The integer that a `bits` wide word stands for when its top bit is the sign. -/
def twosComplement (bits n : Nat) : Int :=
  if n < 1 <<< (bits - 1) then (n : Int) else (n : Int) - ((1 <<< bits : Nat) : Int)

/-- Whether a list has `n` members or more; members past the `n`-th are not visited. -/
def atLeast {α : Type} (n : Nat) (xs : List α) : Bool := n == 0 || !(xs.drop (n - 1)).isEmpty

theorem atLeast_iff {α : Type} {n : Nat} {xs : List α} : atLeast n xs = true ↔ n ≤ xs.length := by
  simp only [atLeast, Bool.or_eq_true, beq_iff_eq, Bool.not_eq_true', List.isEmpty_eq_false_iff,
    ne_eq, List.drop_eq_nil_iff]
  omega

/-- The `n` bytes from `offset` on, or fewer where the string ends. -/
def slice (bs : Bytes) (offset n : Nat) : Bytes := (bs.drop offset).take n

/-- The bytes of a text that holds characters below 256 only. -/
def ascii (s : String) : Bytes := s.toList.map fun c => UInt8.ofNat c.toNat

/-- The small letter of a capital letter of the Latin alphabet; other bytes are kept. -/
def lowerByte (b : UInt8) : UInt8 := if 65 ≤ b ∧ b ≤ 90 then b + 32 else b

/-- The capital letter of a small letter of the Latin alphabet; other bytes are kept. -/
def upperByte (b : UInt8) : UInt8 := if 97 ≤ b ∧ b ≤ 122 then b - 32 else b

/-- Equality that takes capital and small Latin letters for the same. -/
def sameIgnoringCase (a b : Bytes) : Bool := a.map lowerByte == b.map lowerByte

/-- Whether `word` stands at the start of `bs`. -/
def startsWith (word bs : Bytes) : Bool := bs.take word.length == word

/-- Splits at the first `b`: the bytes before it and the bytes after it. -/
def cutAt (b : UInt8) (bs : Bytes) : Option (Bytes × Bytes) :=
  match bs.dropWhile (· != b) with
  | [] => none
  | _ :: rest => some (bs.takeWhile (· != b), rest)

end Dialogue
