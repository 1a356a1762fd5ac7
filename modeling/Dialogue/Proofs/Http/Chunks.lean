import Mathlib
import Dialogue.Proofs.Http
import Dialogue.Proofs.Text
import Dialogue.Proofs.Wire.Numerals

/-!
Chunked bodies are read as they are written, and waited for until they are whole.

A `Body` is a list of chunks, a last chunk without bytes and perhaps trailer lines. How the size of
a chunk is spelled and what stands behind a semicolon is the sender's choice. What is shown:
  1. a verdict does not change when more bytes come (`readFrom_append`);
  2. a size line says the size, whatever the spelling and the extension (`SizeLine.size?_bytes`);
  3. one chunk is passed by its length, without a look at its bytes (`readFrom_chunk`), and the
     trailers up to the first empty line (`readEnd_closing`);
  4. `Body.chunks_exact`: a whole body is read to its last byte, and what has come in of one is
     incomplete, since by (1) another verdict would stand for the whole body as well.
-/
namespace Dialogue.Http.Chunked

/-! ## More bytes -/

section
variable {word bs : Bytes} {n stop position : Nat} {content : Bytes} {chunks : List Bytes}

theorem le_length_of_startsWith (h : startsWith word bs = true) : word.length ≤ bs.length := by
  have taken := congrArg List.length (beq_iff_eq.1 h)
  rw [List.length_take] at taken
  omega

theorem startsWith_append (long : word.length ≤ bs.length) (tail : Bytes) :
    startsWith word (bs ++ tail) = startsWith word bs := by
  unfold startsWith
  rw [List.take_append_of_le_length long]

/-- An empty line takes up four bytes with the ending before it. -/
theorem le_emptyLineEnd (h : emptyLineEnd n bs = some stop) : n + 4 ≤ stop := by
  induction bs generalizing n with
  | nil => cases h
  | cons b bs ih =>
    rw [emptyLineEnd] at h
    split at h
    · exact (Option.some.inj h).le
    · have := ih h
      omega

theorem emptyLineEnd_append (h : emptyLineEnd n bs = some stop) (tail : Bytes) :
    emptyLineEnd n (bs ++ tail) = some stop := by
  induction bs generalizing n with
  | nil => cases h
  | cons b bs ih =>
    have long : (Line.ending ++ Line.ending).length ≤ (b :: bs).length := by
      have le := emptyLineEnd_le h
      have ge := le_emptyLineEnd h
      show 4 ≤ _
      omega
    rw [List.cons_append, emptyLineEnd, ← List.cons_append, startsWith_append long]
    rw [emptyLineEnd] at h
    split_ifs at h ⊢
    · exact h
    · exact ih h

theorem readEnd_append (h : readEnd content position bs ≠ .incomplete) (tail : Bytes) :
    readEnd content position (bs ++ tail) = readEnd content position bs := by
  unfold readEnd at h ⊢
  by_cases ends : startsWith Line.ending bs = true
  · rw [startsWith_append (le_length_of_startsWith ends), if_pos ends, if_pos ends]
  · rw [if_neg ends] at h ⊢
    cases found : emptyLineEnd 0 bs with
    | none =>
      rw [found] at h
      exact absurd rfl h
    | some stop =>
      have long : Line.ending.length ≤ bs.length := by
        have le := emptyLineEnd_le found
        have ge := le_emptyLineEnd found
        show 2 ≤ _
        omega
      rw [startsWith_append long, if_neg ends, emptyLineEnd_append found]

/-- What is made of the bytes behind a size line. -/
theorem readFrom_of_split {line rest : Bytes} (split : Line.split? bs = some (line, rest)) :
    readFrom chunks position bs =
      (size? line).elim .malformed fun size =>
        let position := position + line.length + Line.ending.length
        if size = 0 then readEnd chunks.reverse.flatten position rest
        else if maxEnd ≤ position + size then .malformed
        else if !atLeast (size + Line.ending.length) rest then .incomplete
        else if slice rest size Line.ending.length ≠ Line.ending then .malformed
        else
          readFrom (rest.take size :: chunks) (position + size + Line.ending.length)
            (rest.drop (size + Line.ending.length)) := by
  rw [readFrom]
  split
  · next none => cases none.symm.trans split
  · next line' rest' same =>
    cases same.symm.trans split
    cases size? line <;> rfl

/-- A verdict stays when more bytes come. -/
theorem readFrom_append (h : readFrom chunks position bs ≠ .incomplete) (tail : Bytes) :
    readFrom chunks position (bs ++ tail) = readFrom chunks position bs := by
  fun_induction readFrom chunks position bs with
  | case1 => exact absurd rfl h
  | case2 chunks position bs line rest split _ faulty =>
    rw [readFrom_of_split (Line.split?_append split tail), faulty]
    rfl
  | case3 chunks position bs line rest split _ _ measured =>
    rw [readFrom_of_split (Line.split?_append split tail), measured, Option.elim_some]
    dsimp only
    rw [if_pos rfl]
    exact readEnd_append h tail
  | case4 chunks position bs line rest split _ size measured _ some beyond =>
    rw [readFrom_of_split (Line.split?_append split tail), measured, Option.elim_some]
    dsimp only
    rw [if_neg some, if_pos beyond]
  | case5 => exact absurd rfl h
  | case6 chunks position bs line rest split _ size measured _ some fits whole other =>
    have whole := atLeast_of_not whole
    have le := atLeast_iff.1 whole
    rw [readFrom_of_split (Line.split?_append split tail), measured, Option.elim_some]
    dsimp only
    rw [if_neg some, if_neg fits, atLeast_append whole, if_neg (by decide), slice_append le,
      if_pos other]
  | case7 chunks position bs line rest split _ size measured _ some fits whole ends ih =>
    have whole := atLeast_of_not whole
    have le := atLeast_iff.1 whole
    rw [readFrom_of_split (Line.split?_append split tail), measured, Option.elim_some]
    dsimp only
    rw [if_neg some, if_neg fits, atLeast_append whole, if_neg (by decide), slice_append le,
      if_neg ends, List.take_append_of_le_length (by omega), List.drop_append_of_le_length le]
    exact ih h

end

/-! ## Bodies as they are written -/

/-- The line of a chunk of `size` bytes: the size, and perhaps an extension behind a semicolon. -/
structure SizeLine (size : Nat) where
  digits : String
  spelled : Text.SpellsHex digits size
  extension : Option String
  plain : ∀ text ∈ extension, ∀ c ∈ text.toList, c ≠ '\r' ∧ c ≠ '\n'

namespace SizeLine

variable {size : Nat} (l : SizeLine size)

def text : String := l.digits ++ l.extension.elim "" (";" ++ ·)

/-- How the line is written, without its ending. -/
def bytes : Bytes := Text.encode l.text

/-- A digit is none of the other bytes of a size line. -/
theorem bounds_of_mem {c : Char} (h : c ∈ l.digits.toList) :
    48 ≤ c.toNat ∧ c.toNat ≤ 102 ∧ c.toNat ≠ 59 := by
  obtain ⟨d, small, same⟩ := l.spelled.digit h
  have shape := Text.toNat_of_toLower small same
  omega

theorem trimmed_digits : Text.Trimmed l.digits := by
  have blank : ∀ c ∈ l.digits.toList, Text.isBlank c = false := by
    intro c hc
    have bounds := l.bounds_of_mem hc
    simp [Text.isBlank]
    omega
  exact ⟨fun c hc => blank c (List.mem_of_mem_head? hc),
    fun c hc => blank c (List.mem_of_mem_getLast? hc)⟩

/-- The digits go up to the first semicolon. -/
theorem takeWhile_text : l.text.toList.takeWhile (· != ';') = l.digits.toList := by
  have digits : ∀ c ∈ l.digits.toList, (c != ';') = true := by
    intro c hc
    have bounds := l.bounds_of_mem hc
    rw [bne_iff_ne]
    rintro rfl
    exact bounds.2.2 rfl
  rw [text, String.toList_append, List.takeWhile_append_of_pos digits]
  cases l.extension with
  | none => simp
  | some extension => simp

/-- The line says the size, however it is spelled. -/
theorem size?_bytes (small : size < 2 ^ 64) : size? l.bytes = some size := by
  have plain : ∀ c ∈ l.digits.toList, 48 ≤ c.toNat ∧ c.toNat < 0x80 := by
    intro c hc
    have bounds := l.bounds_of_mem hc
    omega
  unfold size?
  rw [bytes, Text.strict?_encode, Option.bind_some]
  dsimp only
  rw [l.takeWhile_text, String.ofList_toList, Text.trim_of_trimmed l.trimmed_digits]
  exact Text.unsigned?_encode plain l.spelled.natural? small

theorem plain_bytes : Line.Plain l.bytes := by
  apply Line.plain_of_not_mem
  apply Text.not_mem_encode (by decide)
  intro c hc
  rw [text, String.toList_append] at hc
  rcases List.mem_append.1 hc with digit | rest
  · have bounds := l.bounds_of_mem digit
    show c.toNat ≠ 13
    omega
  · cases extension : l.extension with
    | none => simp [extension] at rest
    | some text =>
      rw [extension, Option.elim_some, String.toList_append] at rest
      rcases List.mem_append.1 rest with semicolon | mem
      · obtain rfl : c = ';' := by simpa using semicolon
        decide
      · intro number
        exact (l.plain text extension c mem).1 (Char.toNat_inj.1 number)

end SizeLine

/-- A chunk with some bytes. -/
structure Chunk where
  content : Bytes
  some : content ≠ []
  line : SizeLine content.length

/-- How a chunk is written. -/
def Chunk.bytes (c : Chunk) : Bytes :=
  c.line.bytes ++ ascii "\r\n" ++ (c.content ++ ascii "\r\n")

/-- How trailer lines are written, with the empty line behind them. -/
def closing (trailers : List Bytes) : Bytes := trailers.flatMap (· ++ ascii "\r\n") ++ ascii "\r\n"

/-- A body as a side sends it. -/
structure Body where
  chunks : List Chunk
  last : SizeLine 0
  trailers : List Bytes
  plain : ∀ line ∈ trailers, line ≠ [] ∧ 13 ∉ line ∧ 10 ∉ line

namespace Body

/-- How a body is written. -/
def bytes (b : Body) : Bytes :=
  b.chunks.flatMap Chunk.bytes ++ (b.last.bytes ++ ascii "\r\n" ++ closing b.trailers)

/-- What a body says. -/
def content (b : Body) : Bytes := b.chunks.flatMap Chunk.content

end Body

/-! ## The end of a body -/

section
variable {n position : Nat} {content more rest : Bytes} {line : Bytes} {trailers : List Bytes}

/-- No empty line begins within a line. -/
theorem emptyLineEnd_line (plain : 13 ∉ line) (more : Bytes) :
    emptyLineEnd n (line ++ more) = emptyLineEnd (n + line.length) more := by
  induction line generalizing n with
  | nil => rfl
  | cons b line ih =>
    obtain ⟨other, later⟩ := not_or.1 (mt List.mem_cons.2 plain)
    have goes : ¬ startsWith (Line.ending ++ Line.ending) (b :: (line ++ more)) = true := by
      intro starts
      have first := congrArg List.head? (beq_iff_eq.1 starts)
      exact other (Option.some.inj first).symm
    rw [List.cons_append, emptyLineEnd, if_neg goes, ih later, List.length_cons]
    congr 1
    omega

/-- The ending of a line is passed where another line begins behind it. -/
theorem emptyLineEnd_between {b : UInt8} (other : b ≠ 13) (more : Bytes) :
    emptyLineEnd n (13 :: 10 :: b :: more) = emptyLineEnd (n + 2) (b :: more) := by
  have goes : ¬ startsWith (Line.ending ++ Line.ending) (13 :: 10 :: b :: more) = true := by
    intro starts
    have third : some b = some 13 := congrArg (·[2]?) (beq_iff_eq.1 starts)
    exact other (Option.some.inj third)
  have stays : ¬ startsWith (Line.ending ++ Line.ending) (10 :: b :: more) = true := by
    intro starts
    cases congrArg List.head? (beq_iff_eq.1 starts)
  rw [emptyLineEnd, if_neg goes, emptyLineEnd, if_neg stays]

/-- The first empty line is the one that closes the trailers. -/
theorem emptyLineEnd_closing (plain : ∀ line ∈ trailers, line ≠ [] ∧ 13 ∉ line)
    (some : trailers ≠ []) :
    emptyLineEnd n (closing trailers ++ rest) = .some (n + (closing trailers).length) := by
  induction trailers generalizing n with
  | nil => exact absurd rfl some
  | cons line later ih =>
    have whole : closing (line :: later) = line ++ (ascii "\r\n" ++ closing later) := by
      simp [closing]
    rw [whole, List.append_assoc, emptyLineEnd_line (plain line List.mem_cons_self).2]
    cases later with
    | nil =>
      show Option.some (n + line.length + 4) = _
      simp [closing, ascii]
      omega
    | cons next later =>
      have below := fun l hl => plain l (List.mem_cons_of_mem line hl)
      obtain ⟨b, text, first⟩ := List.exists_cons_of_ne_nil (below next List.mem_cons_self).1
      have other : b ≠ 13 := by
        rintro rfl
        exact (below next List.mem_cons_self).2 (first ▸ List.mem_cons_self)
      have goes : closing (next :: later) ++ rest =
          b :: (text ++ (ascii "\r\n" ++ closing later ++ rest)) := by
        simp [closing, first]
      have passed : ascii "\r\n" ++ closing (next :: later) ++ rest =
          13 :: 10 :: (closing (next :: later) ++ rest) := rfl
      rw [passed, goes, emptyLineEnd_between other, ← goes,
        ih below (List.cons_ne_nil next later)]
      simp [ascii]
      omega

/-- A body ends with the empty line that closes its trailers. -/
theorem readEnd_closing (plain : ∀ line ∈ trailers, line ≠ [] ∧ 13 ∉ line) (rest : Bytes) :
    readEnd content position (closing trailers ++ rest) =
      .complete content (position + (closing trailers).length) := by
  cases trailers with
  | nil => rfl
  | cons line later =>
    have goes : ¬ startsWith Line.ending (closing (line :: later) ++ rest) = true := by
      intro starts
      obtain ⟨b, text, first⟩ := List.exists_cons_of_ne_nil (plain line List.mem_cons_self).1
      have front : closing (line :: later) ++ rest =
          b :: (text ++ (ascii "\r\n" ++ closing later ++ rest)) := by
        simp [closing, first]
      rw [front] at starts
      have same : some b = some 13 := congrArg List.head? (beq_iff_eq.1 starts)
      obtain rfl := Option.some.inj same
      exact (plain line List.mem_cons_self).2 (first ▸ List.mem_cons_self)
    unfold readEnd
    rw [if_neg goes, emptyLineEnd_closing plain (List.cons_ne_nil line later), Nat.zero_add]

end

/-! ## Chunk by chunk -/

section
variable {chunks : List Bytes} {position : Nat}

/-- The line of a chunk goes up to its ending. -/
theorem SizeLine.split?_bytes {size : Nat} (l : SizeLine size) (rest : Bytes) :
    Line.split? (l.bytes ++ ascii "\r\n" ++ rest) = some (l.bytes, rest) :=
  Line.split?_plain l.plain_bytes rest

/-- A chunk is passed by its length, whatever its bytes. -/
theorem readFrom_chunk (c : Chunk) (fits : position + c.bytes.length ≤ maxBytes) (rest : Bytes) :
    readFrom chunks position (c.bytes ++ rest) =
      readFrom (c.content :: chunks) (position + c.bytes.length) rest := by
  have two : (ascii "\r\n").length = Line.ending.length := rfl
  have length : c.bytes.length =
      c.line.bytes.length + Line.ending.length + (c.content.length + Line.ending.length) := by
    simp only [Chunk.bytes, List.length_append, two]
  have limit : maxBytes < maxEnd := by decide
  have small : maxBytes < 2 ^ 64 := by decide
  have some : c.content.length ≠ 0 := by simpa using c.some
  have ended : slice (c.content ++ ascii "\r\n" ++ rest) c.content.length Line.ending.length =
      Line.ending := by
    rw [slice, List.append_assoc, List.drop_left]
    rfl
  have behind : (c.content ++ ascii "\r\n" ++ rest).drop
      (c.content.length + Line.ending.length) = rest := by
    rw [← two, ← List.length_append, List.drop_left]
  have within : atLeast (c.content.length + Line.ending.length)
      (c.content ++ ascii "\r\n" ++ rest) = true := by
    rw [atLeast_iff, List.length_append, List.length_append, two]
    omega
  have split : Line.split? (c.bytes ++ rest) =
      .some (c.line.bytes, c.content ++ ascii "\r\n" ++ rest) := by
    rw [Chunk.bytes, List.append_assoc _ _ rest]
    exact c.line.split?_bytes _
  rw [readFrom_of_split split, c.line.size?_bytes (by omega), Option.elim_some]
  dsimp only
  rw [if_neg some, if_neg (by omega), within, if_neg (by decide), ended,
    if_neg (not_not.2 rfl), behind, List.append_assoc, List.take_left, length]
  congr 1
  omega

/-- The last chunk ends the body. -/
theorem readFrom_last (last : SizeLine 0) {trailers : List Bytes}
    (plain : ∀ line ∈ trailers, line ≠ [] ∧ 13 ∉ line) (rest : Bytes) :
    readFrom chunks position (last.bytes ++ ascii "\r\n" ++ closing trailers ++ rest) =
      .complete chunks.reverse.flatten
        (position + (last.bytes ++ ascii "\r\n" ++ closing trailers).length) := by
  have split : Line.split? (last.bytes ++ ascii "\r\n" ++ closing trailers ++ rest) =
      some (last.bytes, closing trailers ++ rest) := by
    rw [List.append_assoc _ _ rest]
    exact last.split?_bytes _
  rw [readFrom_of_split split, last.size?_bytes (by decide), Option.elim_some]
  dsimp only
  rw [if_pos rfl, readEnd_closing plain]
  congr 1
  simp [Line.ending, ascii]
  omega

/-- The chunks of a body are read one after the other. -/
theorem readFrom_chunks (cs : List Chunk)
    (fits : position + (cs.flatMap Chunk.bytes).length ≤ maxBytes) (rest : Bytes) :
    readFrom chunks position (cs.flatMap Chunk.bytes ++ rest) =
      readFrom ((cs.map Chunk.content).reverse ++ chunks)
        (position + (cs.flatMap Chunk.bytes).length) rest := by
  induction cs generalizing chunks position with
  | nil => rfl
  | cons c cs ih =>
    rw [List.flatMap_cons, List.length_append] at fits
    rw [List.flatMap_cons, List.append_assoc, readFrom_chunk c (by omega), ih (by omega)]
    simp [Nat.add_assoc]

end

namespace Body

variable (b : Body)

theorem read_bytes (fits : b.bytes.length ≤ maxBytes) (rest : Bytes) :
    read (b.bytes ++ rest) = .complete b.content b.bytes.length := by
  have plain := fun line hl => (b.plain line hl).imp_right And.left
  have part : (b.chunks.flatMap Chunk.bytes).length ≤ b.bytes.length := by
    rw [bytes, List.length_append]
    omega
  unfold read
  rw [bytes, List.append_assoc, readFrom_chunks b.chunks (by omega), readFrom_last b.last plain]
  simp [content, List.flatMap_def]

/-- **Chunked bodies are decoded exactly.** Let a body be written with any bytes in its chunks, with
the sizes spelled in any way, with or without extensions and trailers. Whatever follows, it is read
as the bytes of its chunks one behind the other, and takes up just what was written. As long as some
of it is missing it is incomplete. -/
theorem chunks_exact (fits : b.bytes.length ≤ maxBytes) :
    (∀ rest, read (b.bytes ++ rest) = .complete b.content b.bytes.length) ∧
      ∀ n < b.bytes.length, read (b.bytes.take n) = .incomplete := by
  refine ⟨b.read_bytes fits, fun n part => ?_⟩
  by_contra verdict
  -- The verdict would be that on the whole body, which is longer.
  have whole := readFrom_append verdict (b.bytes.drop n)
  have known := b.read_bytes fits []
  rw [List.append_nil] at known
  rw [List.take_append_drop] at whole
  have le := read_le (whole.symm.trans known)
  rw [List.length_take] at le
  omega

/-- Ten bytes and five, with a line ending and a size line among them, and a trailer. -/
def twoChunks : Body where
  chunks :=
    [⟨ascii "a\r\n0\r\n\r\nbc", by decide, ⟨"0A", ⟨2, by decide +kernel⟩, some " x=1;y", by simp⟩⟩,
      ⟨ascii "hello", by decide, ⟨"5", ⟨0, by decide +kernel⟩, none, by simp⟩⟩]
  last := ⟨"00", ⟨2, by decide +kernel⟩, some "", by simp⟩
  trailers := [ascii "X: 1"]
  plain := by decide +kernel

theorem chunks_exact_twoChunks :
    twoChunks.bytes =
        ascii "0A; x=1;y\r\na\r\n0\r\n\r\nbc\r\n5\r\nhello\r\n00;\r\nX: 1\r\n\r\n" ∧
      twoChunks.bytes.length ≤ maxBytes ∧
      read (twoChunks.bytes ++ ascii "HTTP/1.1") =
        .complete (ascii "a\r\n0\r\n\r\nbchello") 46 ∧
      read (ascii "0A; x=1;y\r\na\r\n0\r\n\r\nb") = .incomplete := by
  have fits : twoChunks.bytes.length ≤ maxBytes := by decide +kernel
  obtain ⟨whole, cut⟩ := chunks_exact twoChunks fits
  refine ⟨by decide +kernel, fits, (whole _).trans (by decide +kernel), ?_⟩
  have taken := cut 20 (by decide +kernel)
  exact (congrArg read (by decide +kernel)).trans taken

end Body

end Dialogue.Http.Chunked
