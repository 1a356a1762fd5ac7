import Mathlib
import Dialogue.Proofs.Nats.Cuts
import Dialogue.Proofs.Text
import Dialogue.Proofs.Wire
import Dialogue.Proofs.Wire.Numerals

/-!
NATS messages are read as they are written, whatever follows them.

A `Draft` says what a side means to send: a command in any spelling, options as a text, perhaps with
blanks around it, and a payload. Its bytes are put together from these parts alone. The reader has
to find the parts again in bytes that may hold anything behind the control line:
  1. the options are the text between the blanks (`Draft.trim_padding`);
  2. the length of the payload is the numeral that they end in (`unsigned?_of_announces`), so
     that no line ending in the payload is looked at;
  3. what was read does not change when more bytes come (`Message.parse_append`).
`Draft.framing_exact` puts these together, for one message and for messages one behind the other.
-/
namespace Dialogue.Nats

/-! ## What follows a message -/

namespace Message

variable {d : Direction} {c : Command} {options : String} {before length n : Nat} {bs rest : Bytes}
  {m : Message}

theorem parsePayload_append (h : parsePayload c options before length rest = .complete m n)
    (tail : Bytes) : parsePayload c options before length (rest ++ tail) = .complete m n := by
  unfold parsePayload at h ⊢
  dsimp only at h ⊢
  split_ifs at h with short ends
  have whole := atLeast_of_not short
  have le := atLeast_iff.1 whole
  rw [atLeast_append whole, slice_append le, if_neg (by decide), if_neg ends,
    List.take_append_of_le_length (by omega)]
  exact h

/-- A message that was read is the same whatever follows. -/
theorem parse_append (h : parse d bs = .complete m n) (tail : Bytes) :
    parse d (bs ++ tail) = .complete m n := by
  unfold parse at h
  split at h
  · cases h
  · cases h
  · next c word command =>
    split at h
    · cases h
    · next valid =>
      split at h
      · split_ifs at h
      · next line rest split =>
        dsimp only at h
        split at h
        · cases h
        · next length announced =>
          unfold parse
          rw [command?_append command tail]
          dsimp only
          rw [if_neg valid, Line.splitWithin?_append split tail]
          dsimp only
          rw [announced]
          dsimp only
          split_ifs at h ⊢
          · exact parsePayload_append h tail
          · exact h

end Message

/-! ## The length of the payload -/

/-- The last option writes `n` in digits: nothing or a blank stands before them. -/
def Announces (options : String) (n : Nat) : Prop :=
  ∃ earlier digits : List Char, options.toList = earlier ++ digits ∧
    (∀ c ∈ earlier.getLast?, c = ' ' ∨ c = '\t' ∨ c = '\x0c') ∧ digits ≠ [] ∧
    (∀ c ∈ digits, c.isDigit = true) ∧ Nat.ofDigitChars 10 digits 0 = n

section
variable {earlier digits : List Char}
  (parted : ∀ c ∈ earlier.getLast?, Message.partsOptions c = true)
  (whole : ∀ c ∈ digits, Message.partsOptions c = false)
include parted whole

/-- The last option goes back to the last blank. -/
theorem lastOption_append (some : digits ≠ []) :
    Message.lastOption (String.ofList (earlier ++ digits)) = String.ofList digits := by
  have fresh : (digits.reverse ++ earlier.reverse).dropWhile Message.partsOptions =
      digits.reverse ++ earlier.reverse := by
    obtain ⟨last, front, eq⟩ := List.exists_cons_of_ne_nil (List.reverse_ne_nil_iff.2 some)
    have mem : last ∈ digits := List.mem_reverse.1 (eq ▸ List.mem_cons_self)
    rw [eq, List.cons_append, List.dropWhile_cons_of_neg (by simp [whole last mem])]
  have stop : earlier.reverse.takeWhile (!Message.partsOptions ·) = [] := by
    cases back : earlier.reverse with
    | nil => rfl
    | cons last front =>
      have mem : last ∈ earlier.getLast? := by
        rw [← List.head?_reverse, back]
        rfl
      exact List.takeWhile_cons_of_neg (by simp [parted last mem])
  unfold Message.lastOption
  rw [String.toList_ofList, List.reverse_append, fresh,
    List.takeWhile_append_of_pos (by simpa using whole), stop, List.append_nil,
    List.reverse_reverse]

end

/-- A digit is no blank, and is written in one byte. -/
theorem partsOptions_of_isDigit {c : Char} (digit : c.isDigit = true) :
    Message.partsOptions c = false := by
  have bounds := Text.bounds_of_isDigit digit
  have other : ∀ blank : Char, blank.toNat < 48 → c ≠ blank := by
    rintro blank small rfl
    omega
  simp [Message.partsOptions, other ' ' (by decide), other '\t' (by decide), other '\n' (by decide),
    other '\x0c' (by decide), other '\r' (by decide)]

/-- The length that is announced is read. -/
theorem unsigned?_of_announces {options : String} {n : Nat} (announces : Announces options n)
    (small : n < 2 ^ 64) :
    Text.unsigned? 64 10 (Text.encode (Message.lastOption options)) = some n := by
  obtain ⟨earlier, digits, split, parted, some, digit, rfl⟩ := announces
  have last : Message.lastOption options = String.ofList digits := by
    rw [← String.ofList_toList (s := options), split]
    refine lastOption_append ?_ (fun c hc => partsOptions_of_isDigit (digit c hc)) some
    intro c hc
    rcases parted c hc with rfl | rfl | rfl <;> rfl
  have plain : ∀ c ∈ (String.ofList digits).toList, 48 ≤ c.toNat ∧ c.toNat < 0x80 := by
    intro c hc
    rw [String.toList_ofList] at hc
    have := Text.bounds_of_isDigit (digit c hc)
    omega
  rw [last]
  exact Text.unsigned?_encode plain (Text.natural?_of_isDigit some digit) small

/-! ## Drafts -/

/-- What stands between a command and its options. -/
def IsGap (s : String) : Prop := ∀ c ∈ s.toList, c = ' ' ∨ c = '\t'

/-- A message as a side means it, with the spelling and the blanks that it chooses. -/
structure Draft (d : Direction) where
  command : Command
  carried : command.validFor d = true
  /-- The command in capital or small letters. -/
  word : Bytes
  spelled : sameIgnoringCase (ascii command.name) word = true
  /-- The blanks before the options. -/
  before : String
  options : String
  /-- The blanks behind the options. -/
  behind : String
  gaps : IsGap before ∧ IsGap behind
  apart : options ≠ "" → before ≠ ""
  trimmed : Text.Trimmed options
  plain : ∀ c ∈ options.toList, c ≠ '\r' ∧ c ≠ '\n'
  short : (word ++ Text.encode (before ++ options ++ behind)).length ≤ 4096
  payload : Bytes
  small : payload.length ≤ 64 * 1024 * 1024
  announced : command.hasPayload = true → Announces options payload.length
  bare : command.hasPayload = false → payload = []

namespace Draft

variable {d : Direction} (m : Draft d)

/-- How a draft is written. -/
def bytes : Bytes :=
  m.word ++ Text.encode (m.before ++ m.options ++ m.behind) ++ ascii "\r\n" ++
    if m.command.hasPayload then m.payload ++ ascii "\r\n" else []

/-- How a draft is read. -/
def message : Message := ⟨m.command, m.options, m.payload, m.bytes.length⟩

theorem isBlank_of_gap {s : String} (gap : IsGap s) : ∀ c ∈ s.toList, Text.isBlank c = true := by
  intro c hc
  rcases gap c hc with rfl | rfl <;> rfl

/-- The options are the text between the blanks. -/
theorem trim_padding :
    Text.trim (Text.lossy (Text.encode (m.before ++ m.options ++ m.behind))) = m.options := by
  rw [Text.lossy_encode]
  exact Text.trim_padded (isBlank_of_gap m.gaps.1) (isBlank_of_gap m.gaps.2) m.trimmed

/-- What stands behind the command begins with a blank. -/
theorem head_padding :
    ∀ b ∈ (Text.encode (m.before ++ m.options ++ m.behind)).head?, Message.endsWord b = true := by
  have gap : ∀ c ∈ (m.before ++ m.options ++ m.behind).toList.head?, c = ' ' ∨ c = '\t' := by
    intro c hc
    rw [String.toList_append, String.toList_append, List.append_assoc] at hc
    cases before : m.before.toList with
    | cons first rest =>
      rw [before] at hc
      obtain rfl : first = c := Option.some.inj hc
      exact m.gaps.1 first (before ▸ List.mem_cons_self)
    | nil =>
      have none : m.options.toList = [] := by
        by_contra some
        exact m.apart (fun empty => some (empty ▸ rfl)) (String.toList_inj.1 before)
      rw [before, none] at hc
      exact m.gaps.2 c (List.mem_of_mem_head? hc)
  intro b hb
  unfold Text.encode at hb
  cases text : (m.before ++ m.options ++ m.behind).toList with
  | nil =>
    rw [text] at hb
    cases hb
  | cons first rest =>
    rw [text] at hb gap
    rcases gap first rfl with rfl | rfl
    · obtain rfl := Option.some.inj hb
      rfl
    · obtain rfl := Option.some.inj hb
      rfl

/-- No return stands in the control line. -/
theorem not_mem_line : 13 ∉ m.word ++ Text.encode (m.before ++ m.options ++ m.behind) := by
  rw [List.mem_append, not_or]
  constructor
  · intro mem
    have named := (sameIgnoringCase_iff.1 m.spelled).symm
    have inside : Message.endsWord 13 = false := Command.endsWord_of_small named 13 mem
    cases inside
  · apply Text.not_mem_encode (by decide)
    intro c hc number
    obtain rfl : c = '\r' := Char.toNat_inj.1 number
    rw [String.toList_append, String.toList_append, List.mem_append, List.mem_append] at hc
    rcases hc with (hc | hc) | hc
    · rcases m.gaps.1 _ hc with eq | eq <;> cases eq
    · exact (m.plain _ hc).1 rfl
    · rcases m.gaps.2 _ hc with eq | eq <;> cases eq

/-- A draft is a message that a side may send. -/
def written : Written d where
  command := m.command
  carried := m.carried
  word := m.word
  named := m.spelled
  options := Text.encode (m.before ++ m.options ++ m.behind)
  apart := m.head_padding
  plain := Line.plain_of_not_mem m.not_mem_line
  short := m.short
  payload := m.payload
  announced payload := by
    rw [m.trim_padding]
    have small := m.small
    exact unsigned?_of_announces (m.announced payload) (by omega)
  believed := m.small
  bare := m.bare

theorem bytes_written : m.written.bytes = m.bytes := rfl

theorem message_written : m.written.message = m.message := by
  unfold Written.message message
  rw [m.bytes_written]
  exact congrArg (Message.mk m.command · m.payload m.bytes.length) m.trim_padding

theorem parse_bytes (rest : Bytes) :
    Message.parse d (m.bytes ++ rest) = .complete m.message m.bytes.length := by
  have alone := m.written.parse_bytes
  rw [m.bytes_written, m.message_written] at alone
  exact Message.parse_append alone rest

theorem bytes_ne_nil : m.bytes ≠ [] := by
  intro none
  have alone := m.parse_bytes []
  rw [none] at alone
  cases alone

/-- **NATS messages are framed exactly.** Whatever the command, its spelling, the options, the
blanks around them and the payload, which may hold line endings and commands of its own, and
whatever follows: the command, the options and the payload are read, and the bytes of the message
are used up. So messages one behind the other are read one after the other, to the last byte. -/
theorem framing_exact (d : Direction) :
    (∀ (m : Draft d) (rest : Bytes), Message.parse d (m.bytes ++ rest) =
      .complete ⟨m.command, m.options, m.payload, m.bytes.length⟩ m.bytes.length) ∧
    ∀ ms : List (Draft d), dialect.unpack d () (ms.flatMap bytes) = (ms.map message, [], ()) := by
  refine ⟨parse_bytes, fun ms => ?_⟩
  induction ms with
  | nil => exact dialect.unpack_nil (by rintro frame n ⟨⟩)
  | cons m ms ih =>
    have first : dialect.parse d () (m.bytes ++ ms.flatMap bytes) =
        (.complete m.message m.bytes.length, ()) :=
      Prod.ext (m.parse_bytes _) rfl
    rw [List.flatMap_cons, dialect.unpack_append m.bytes_ne_nil first, ih]
    rfl

/-- A payload that looks like other messages, behind a command in mixed letters. -/
def disguised : Draft .request where
  command := .hpub
  carried := rfl
  word := ascii "hPuB"
  spelled := by decide +kernel
  before := " \t"
  options := "a.b  14"
  behind := " "
  gaps := by simp [IsGap]
  apart _ := by decide
  trimmed := by simp [Text.Trimmed]; decide
  plain := by simp
  short := by decide +kernel
  payload := ascii "PING\r\nPUB a 0\r"
  small := by decide +kernel
  announced _ := ⟨"a.b  ".toList, "14".toList, by simp [Nat.ofDigitChars]; decide +kernel⟩
  bare := by decide

example :
    disguised.bytes = ascii "hPuB \ta.b  14 \r\nPING\r\nPUB a 0\r\r\n" ∧
      Message.parse .request (disguised.bytes ++ ascii "PONG\r\n") =
        .complete disguised.message 32 := by
  decide +kernel

end Draft

end Dialogue.Nats
