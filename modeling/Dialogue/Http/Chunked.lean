import Dialogue.Line
import Dialogue.Text
import Dialogue.Text.Blank
import Dialogue.Text.Numeral

/-!
Chunked bodies: each chunk is a line with its size in hexadecimal, perhaps with an extension behind
a semicolon, the bytes and a line ending. A chunk of size zero ends the body; lines may stand behind
it up to an empty one.
-/
namespace Dialogue.Http.Chunked

/-- What reading a chunked body gives. -/
inductive Reading where
  /-- The first `length` bytes are a body with the given content. -/
  | complete (content : Bytes) (length : Nat)
  /-- The bytes end within the body. -/
  | incomplete
  | malformed
deriving DecidableEq

/-- The position before which a chunk must end. -/
def maxEnd : Nat := 0xFFFFFFFFFFFFFFFD

/-- The size that a line gives to a chunk. The whole line is text. -/
def size? (line : Bytes) : Option Nat :=
  (Text.strict? line).bind fun text =>
    let size := String.ofList (text.toList.takeWhile (· != ';'))
    Text.unsigned? 64 16 (Text.encode (Text.trim size))

/-- The number of bytes up to the end of the first empty line, of which `n` were passed. -/
def emptyLineEnd (n : Nat) : Bytes → Option Nat
  | [] => none
  | b :: rest =>
    if startsWith (Line.ending ++ Line.ending) (b :: rest) then some (n + 4)
    else emptyLineEnd (n + 1) rest

/-- The end of a body behind the line of the last chunk. -/
def readEnd (content : Bytes) (position : Nat) (bs : Bytes) : Reading :=
  if startsWith Line.ending bs then .complete content (position + Line.ending.length)
  else
    match emptyLineEnd 0 bs with
    | some n => .complete content (position + n)
    | none => .incomplete

/-- Reads chunks from a position on; `chunks` holds the bytes of those before, last first. -/
def readFrom (chunks : List Bytes) (position : Nat) (bs : Bytes) : Reading :=
  match h : Line.split? bs with
  | none => .incomplete
  | some (line, rest) =>
    have := Line.length_split_lt h
    match size? line with
    | none => .malformed
    | some size =>
      let position := position + line.length + Line.ending.length
      if size = 0 then readEnd chunks.reverse.flatten position rest
      else if maxEnd ≤ position + size then .malformed
      else if !atLeast (size + Line.ending.length) rest then .incomplete
      else if slice rest size Line.ending.length ≠ Line.ending then .malformed
      else
        readFrom (rest.take size :: chunks) (position + size + Line.ending.length)
          (rest.drop (size + Line.ending.length))
termination_by bs.length
decreasing_by
  simp only [List.length_drop]
  omega

/-- Reads the chunked body at the start of a byte string. -/
def read (bs : Bytes) : Reading := readFrom [] 0 bs

end Dialogue.Http.Chunked
