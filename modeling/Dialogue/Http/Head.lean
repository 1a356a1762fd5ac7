import Dialogue.Protocol
import Dialogue.Text

/-!
The heads of HTTP/1 messages: a start line and header lines, up to an empty line.

Bytes are read from the left, and the first of two things that happens decides: a byte that no head
has at its place, or the end of the bytes. A line ends with a line feed, with or without a carriage
return before it. Empty lines before the start line are passed over.
-/
namespace Dialogue.Http

/-- The first line of a message. -/
inductive StartLine where
  | request (method path : String)
  | response (status : Nat) (reason : String)
deriving DecidableEq

/-- A name in small letters, and a value. -/
abbrev Header := String × String

/-- The head of a message; `length` is the number of bytes it takes up. -/
structure Head where
  start : StartLine
  /-- The version behind `HTTP/1.`. -/
  minor : Nat
  headers : List Header
  length : Nat
deriving DecidableEq

namespace Head

/-- Why no head can be read. -/
inductive Stop where
  /-- The bytes end within the head. -/
  | unfinished
  | malformed
deriving DecidableEq

/-- A place in the bytes: how many were read, and the others. -/
structure Place where
  read : Nat
  rest : Bytes

/-- A reader of a part of the head. -/
abbrev Part (α : Type) := StateT Place (Except Stop) α

/-- The most header lines. -/
def maxHeaders : Nat := 100

/-- The bytes that names and methods are made of. -/
def isToken (b : UInt8) : Bool :=
  (48 ≤ b && b ≤ 57) || (65 ≤ b && b ≤ 90) || (97 ≤ b && b ≤ 122) ||
    (['!', '#', '$', '%', '&', '\'', '*', '+', '-', '.', '^', '_', '`', '|', '~'].map
      Char.toUInt8).contains b

/-- The bytes that targets are made of. -/
def isTarget (b : UInt8) : Bool := 0x20 < b && b != 0x7F

/-- Space and horizontal tab. -/
def isBlank (b : UInt8) : Bool := b == 32 || b == 9

/-- The bytes that values and reasons are made of. -/
def isText (b : UInt8) : Bool := isTarget b || isBlank b

def malformed {α : Type} : Part α := fun _ => .error .malformed

/-- The next byte. -/
def next : Part UInt8 := fun p =>
  match p.rest with
  | [] => .error .unfinished
  | b :: rest => .ok (b, ⟨p.read + 1, rest⟩)

/-- The bytes up to the first that is not accepted. -/
def run (accept : UInt8 → Bool) : Part Bytes := fun p =>
  let bytes := p.rest.takeWhile accept
  .ok (bytes, ⟨p.read + bytes.length, p.rest.drop bytes.length⟩)

/-- A certain byte. -/
def expect (b : UInt8) : Part Unit := do
  if (← next) ≠ b then malformed

/-- The rest of a line ending whose first byte is `b`. -/
def endLine (b : UInt8) : Part Unit :=
  if b = 13 then expect 10 else if b = 10 then pure () else malformed

/-- Passes over empty lines, of which `n` bytes were read. -/
def skipEmptyLines (n : Nat) : Bytes → Except Stop Place
  | [] => .error .unfinished
  | 10 :: rest => skipEmptyLines (n + 1) rest
  | 13 :: 10 :: rest => skipEmptyLines (n + 2) rest
  | 13 :: [] => .error .unfinished
  | 13 :: _ :: _ => .error .malformed
  | b :: rest => .ok ⟨n, b :: rest⟩

/-- What versions have in common. -/
def versionStart : Bytes := ascii "HTTP/1."

/-- The number behind `HTTP/1.`, which is 0 or 1. Too few bytes are malformed as far as they go, and
unfinished otherwise. -/
def version : Part Nat := fun p =>
  let start := p.rest.take versionStart.length
  if !atLeast (versionStart.length + 1) p.rest then
    .error (if start = versionStart.take start.length then .unfinished else .malformed)
  else if start ≠ versionStart then .error .malformed
  else
    match p.rest.drop versionStart.length with
    | 48 :: rest => .ok (0, ⟨p.read + versionStart.length + 1, rest⟩)
    | 49 :: rest => .ok (1, ⟨p.read + versionStart.length + 1, rest⟩)
    | _ => .error .malformed

/-- A method, a target and a version. -/
def requestLine : Part (StartLine × Nat) := do
  let method ← run isToken
  expect 32
  if method.isEmpty then malformed
  let target ← run isTarget
  expect 32
  if target.isEmpty then malformed
  match Text.strict? target with
  | none => malformed
  | some path =>
    let minor ← version
    endLine (← next)
    return (.request (Text.lossy method) path, minor)

/-- A decimal digit. -/
def digit : Part Nat := do
  let b ← next
  if 48 ≤ b ∧ b ≤ 57 then return b.toNat - 48 else malformed

/-- The reason of a response, which is left out if a byte of it is not ASCII. -/
def reason : Part String := do
  let bytes ← run isText
  endLine (← next)
  return if bytes.any (0x80 ≤ ·) then "" else Text.lossy bytes

/-- A version, a status of three digits and perhaps a reason. -/
def statusLine : Part (StartLine × Nat) := do
  let minor ← version
  expect 32
  let hundreds ← digit
  let tens ← digit
  let ones ← digit
  let status := 100 * hundreds + 10 * tens + ones
  let b ← next
  if b = 32 then return (.response status (← reason), minor)
  else
    endLine b
    return (.response status "", minor)

/-- A value: blanks at its two ends do not count. -/
def value : Part Bytes := do
  let _ ← run isBlank
  let bytes ← run isText
  endLine (← next)
  return (bytes.reverse.dropWhile isBlank).reverse

/-- A header line, or none at the end of the head. -/
def headerLine : Part (Option Header) := do
  let name ← run isToken
  let b ← next
  if name.isEmpty then
    endLine b
    return none
  else if b = 58 then
    return some ((Text.lossy name).map Char.toLower, Text.lossy (← value))
  else malformed

/-- Header lines up to the end of the head, `n` of them at most; `found` holds those before, last
first. -/
def headerLines (found : List Header) : Nat → Part (List Header)
  | 0 => do
    match ← headerLine with
    | none => return found.reverse
    | some _ => malformed
  | n + 1 => do
    match ← headerLine with
    | none => return found.reverse
    | some header => headerLines (header :: found) n

/-- A start line and header lines. -/
def lines (startLine : Part (StartLine × Nat)) : Part (StartLine × Nat × List Header) := do
  let (start, minor) ← startLine
  return (start, minor, ← headerLines [] maxHeaders)

/-- The start line of a direction. -/
def startLine : Direction → Part (StartLine × Nat)
  | .request => requestLine
  | .response => statusLine

/-- Reads the head at the start of a byte string. -/
def read (d : Direction) (bs : Bytes) : Except Stop Head :=
  match skipEmptyLines 0 bs with
  | .error stop => .error stop
  | .ok place =>
    match lines (startLine d) place with
    | .error stop => .error stop
    | .ok ((start, minor, headers), place) => .ok ⟨start, minor, headers, place.read⟩

end Head

end Dialogue.Http
