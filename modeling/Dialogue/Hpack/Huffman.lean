import Dialogue.Bytes

/-!
The Huffman code of header strings.

The code is canonical: a shorter code precedes a longer one, and codes of one length ascend with
their symbols. So the lengths determine it. The bits read of a code are kept as their distance from
the least code of their length; where that distance is below the number of symbols with codes of
this length, it picks one of them.
-/
namespace Dialogue.Hpack.Huffman

/-- The length of the code of each byte, and of the symbol behind them, which ends a string. -/
def codeLengths : List Nat :=
  [13, 23, 28, 28, 28, 28, 28, 28, 28, 24, 30, 28, 28, 30, 28, 28,
   28, 28, 28, 28, 28, 28, 30, 28, 28, 28, 28, 28, 28, 28, 28, 28,
   6, 10, 10, 12, 13, 6, 8, 11, 10, 10, 8, 11, 8, 6, 6, 6,
   5, 5, 5, 6, 6, 6, 6, 6, 6, 6, 7, 8, 15, 6, 12, 10,
   13, 6, 7, 7, 7, 7, 7, 7, 7, 7, 7, 7, 7, 7, 7, 7,
   7, 7, 7, 7, 7, 7, 7, 7, 8, 7, 8, 13, 19, 13, 14, 6,
   15, 5, 6, 5, 6, 5, 6, 6, 6, 5, 7, 7, 6, 6, 6, 5,
   6, 7, 6, 5, 5, 6, 7, 7, 7, 7, 7, 15, 11, 14, 13, 28,
   20, 22, 20, 20, 22, 22, 22, 23, 22, 23, 23, 23, 23, 23, 24, 23,
   24, 24, 22, 23, 24, 23, 23, 23, 23, 21, 22, 23, 22, 23, 23, 24,
   22, 21, 20, 22, 22, 23, 23, 21, 23, 22, 22, 24, 21, 22, 23, 23,
   21, 21, 22, 21, 23, 22, 23, 23, 20, 22, 22, 22, 23, 22, 22, 23,
   26, 26, 20, 19, 22, 23, 22, 25, 26, 26, 26, 27, 27, 26, 24, 25,
   19, 21, 26, 27, 27, 26, 27, 24, 21, 21, 26, 26, 28, 27, 27, 27,
   20, 24, 20, 21, 22, 21, 21, 23, 22, 22, 25, 25, 24, 24, 26, 23,
   26, 27, 26, 26, 27, 27, 27, 27, 27, 28, 27, 27, 27, 27, 27, 26,
   30]

/-- The length of the longest code. -/
def maxLength : Nat := 30

/-- The symbol that ends a string. -/
def endOfString : Nat := 256

/-- The symbols with codes of a length, ascending. -/
def symbolsOfLength (n : Nat) : List Nat :=
  (codeLengths.zipIdx.filter (·.1 == n)).map (·.2)

/-- The symbols by the length of their codes, from length 1 on. -/
def levels : List (List Nat) := (List.range maxLength).map fun n => symbolsOfLength (n + 1)

/-- The bits read of a code that is not complete. -/
structure Code where
  /-- The symbols whose codes are longer than what was read, by length. -/
  longer : List (List Nat) := levels
  /-- The distance from the least code of the length read, or from where it would be. -/
  offset : Nat := 0
  /-- How many bits were read. -/
  length : Nat := 0
  /-- Whether every bit read is one. -/
  onlyOnes : Bool := true

/-- The progress through a string; the bytes decoded are held last first. -/
structure Progress where
  found : Bytes := []
  code : Code := {}

/-- The longest padding behind the last code. -/
def maxPadding : Nat := 7

/-- Takes in a bit. A string that holds its own end is malformed. -/
def step (p : Progress) (bit : Bool) : Option Progress :=
  match p.code.longer with
  | [] => none
  | level :: longer =>
    let offset := 2 * p.code.offset + bit.toNat
    match level[offset]? with
    | some symbol =>
      if symbol = endOfString then none else some { found := UInt8.ofNat symbol :: p.found }
    | none =>
      some { p with code :=
        { longer := longer
          offset := offset - level.length
          length := p.code.length + 1
          onlyOnes := p.code.onlyOnes && bit } }

/-- The bits of a byte, most significant first. -/
def bits (b : UInt8) : List Bool := [7, 6, 5, 4, 3, 2, 1, 0].map b.toNat.testBit

/-- Decodes a string. Bits left over are padding, of which there is less than a byte, all ones. -/
def decode? (bs : Bytes) : Option Bytes :=
  match bs.foldlM (fun p b => (bits b).foldlM step p) {} with
  | none => none
  | some p =>
    if p.code.length ≤ maxPadding ∧ p.code.onlyOnes then some p.found.reverse else none

end Dialogue.Hpack.Huffman
