import Mathlib
import Dialogue.Proofs.Lines

/-!
NATS messages that arrive in pieces.

`Written` are the messages that a side may send: a command in capital or small letters, options
behind it, and for some commands the payload whose length is the last option. The reader looks at
them in three stages, and each has a way of its own to wait: a beginning of the command is told from
other words (`command?_take`), a beginning of the line from lines that are too long
(`splitWithin?_take`), and a beginning of the payload is measured. `Written.verdicts` puts together
what is said of every beginning of a message. Two of them are refused, since the reader stops
waiting one byte early: the command without the byte behind it, and a line of the greatest length
with half of its ending.
-/
namespace Dialogue

/-! ## Lines within a limit -/

namespace Line

variable {line : Bytes} {limit : Nat}

/-- A line within the limit ends where it is ended. -/
theorem splitWithin?_plain (plain : Plain line) (short : line.length ≤ limit) (rest : Bytes) :
    splitWithin? limit (line ++ ending ++ rest) = some (line, rest) := by
  have within : (line ++ ending).length ≤ limit + ending.length := by
    rw [List.length_append]
    omega
  unfold splitWithin?
  rw [List.take_append, List.take_of_length_le within, split?_plain plain]
  dsimp only
  rw [← List.length_append, List.drop_left]

/-- Where some of a line and its ending is missing, no line is found. -/
theorem splitWithin?_take (plain : Plain line) {n : Nat} (cut : n < (line ++ ending).length) :
    splitWithin? limit ((line ++ ending).take n) = none := by
  unfold splitWithin?
  rw [List.take_take, split?_take plain (lt_of_le_of_lt (Nat.min_le_right _ _) cut)]

end Line

namespace Nats

/-! ## Commands -/

/-- Equal but for capital letters. -/
theorem sameIgnoringCase_iff {a b : Bytes} :
    sameIgnoringCase a b = true ↔ a.map lowerByte = b.map lowerByte := beq_iff_eq

namespace Command

/-- The name of a command in small letters. -/
def small (c : Command) : Bytes := (ascii c.name).map lowerByte

theorem mem_all (c : Command) : c ∈ all := by cases c <;> decide

theorem length_small (c : Command) : c.small.length = c.name.length := by
  rw [small, ascii, List.length_map, List.length_map, String.length_toList]

theorem length_small_lt (c : Command) : c.small.length < Message.wordLimit := by
  cases c <;> decide

/-- No byte of a command's name ends it. -/
theorem any_endsWord_small : ∀ c ∈ all, c.small.any Message.endsWord = false := by
  decide +kernel

/-- No command begins with the name of another. -/
theorem not_begins : ∀ c ∈ all, ∀ longer ∈ all, c.small.length < longer.small.length →
    longer.small.take c.small.length ≠ c.small := by
  decide +kernel

/-- The name of a command is not that of an earlier one. -/
theorem find?_small : ∀ c ∈ all, all.find? (fun other => other.small == c.small) = some c := by
  decide +kernel

variable {c : Command} {word : Bytes}

theorem ofWord?_of_small (named : word.map lowerByte = c.small) : ofWord? word = some c := by
  unfold ofWord? sameIgnoringCase
  rw [named]
  exact find?_small c c.mem_all

theorem length_of_small (named : word.map lowerByte = c.small) :
    word.length = c.small.length := by
  rw [← named, List.length_map]

/-- A byte that ends a command is no letter. -/
theorem lowerByte_of_endsWord {b : UInt8} (h : Message.endsWord b = true) : lowerByte b = b := by
  simp only [Message.endsWord, Bool.or_eq_true, beq_iff_eq] at h
  obtain (rfl | rfl) | rfl := h <;> rfl

theorem endsWord_of_small (named : word.map lowerByte = c.small) :
    ∀ b ∈ word, Message.endsWord b = false := by
  intro b mem
  by_contra ends
  have ends : Message.endsWord b = true := by simpa using ends
  have mem : lowerByte b ∈ c.small := named ▸ List.mem_map_of_mem mem
  rw [lowerByte_of_endsWord ends] at mem
  exact List.any_eq_false.1 (any_endsWord_small c c.mem_all) b mem ends

end Command

namespace Message

open Command

variable {c : Command} {word : Bytes}

/-- A beginning of a word without an end is a word so far. -/
theorem firstWord_of_word (few : word.length ≤ wordLimit)
    (whole : ∀ b ∈ word, endsWord b = false) : firstWord word = word := by
  rw [firstWord, List.take_of_length_le few, List.takeWhile_eq_self_iff]
  simpa using whole

/-- The first word goes to the byte that ends it. -/
theorem firstWord_append (few : word.length < wordLimit)
    (whole : ∀ b ∈ word, endsWord b = false) {b : UInt8} (ends : endsWord b = true)
    (rest : Bytes) : firstWord (word ++ b :: rest) = word := by
  obtain ⟨room, eq⟩ : ∃ room, wordLimit - word.length = room + 1 :=
    ⟨wordLimit - word.length - 1, by omega⟩
  rw [firstWord, List.take_append, List.take_of_length_le few.le, eq, List.take_succ_cons,
    List.takeWhile_append_of_pos (by simpa using whole),
    List.takeWhile_cons_of_neg (by simp [ends]), List.append_nil]

/-- A command with a byte behind it that ends it. -/
theorem command?_word (named : word.map lowerByte = c.small) {b : UInt8}
    (ends : endsWord b = true) (rest : Bytes) :
    command? (word ++ b :: rest) = .ok (some (c, word.length)) := by
  have few : word.length < wordLimit := length_of_small named ▸ c.length_small_lt
  unfold command?
  dsimp only
  rw [firstWord_append few (endsWord_of_small named) ends, ofWord?_of_small named,
    if_pos (atLeast_iff.2 (by simp))]

/-- The bytes of a command's name, or of its beginning, and nothing behind them: they are waited on
if the name has more of them. -/
theorem command?_take (named : word.map lowerByte = c.small) {n : Nat} (le : n ≤ word.length) :
    command? (word.take n) = if n = word.length then .error "unknown command" else .ok none := by
  have length : (word.take n).length = n := List.length_take_of_le le
  have few : word.length < wordLimit := length_of_small named ▸ c.length_small_lt
  have first : firstWord (word.take n) = word.take n :=
    firstWord_of_word (by omega) fun b mem => endsWord_of_small named b (List.mem_of_mem_take mem)
  have begins : ∀ longer : Command,
      (n < longer.name.length &&
        sameIgnoringCase ((ascii longer.name).take n) (word.take n)) = true ↔
      n < longer.small.length ∧ longer.small.take n = c.small.take n := by
    intro longer
    rw [Bool.and_eq_true, decide_eq_true_eq, sameIgnoringCase_iff, List.map_take, List.map_take,
      named, longer.length_small]
    rfl
  unfold command?
  dsimp only
  rw [first, length, if_neg (by rw [atLeast_iff]; omega)]
  split_ifs with more whole whole
  · -- Nothing is missing, and no other command goes on.
    obtain ⟨longer, -, goes⟩ := List.any_eq_true.1 more
    obtain ⟨lt, eq⟩ := (begins longer).1 goes
    rw [whole, length_of_small named, List.take_length] at eq
    rw [whole, length_of_small named] at lt
    exact absurd eq (not_begins c c.mem_all longer longer.mem_all lt)
  · rfl
  · rfl
  · refine absurd (List.any_eq_true.2 ⟨c, c.mem_all, (begins c).2 ⟨?_, rfl⟩⟩) more
    have := length_of_small named
    omega

end Message

/-! ## Messages as they are sent -/

/-- A message as a side may send it. -/
structure Written (d : Direction) where
  command : Command
  carried : command.validFor d = true
  /-- The command as it is written. -/
  word : Bytes
  named : sameIgnoringCase (ascii command.name) word = true
  /-- What stands behind the command up to the end of the line. -/
  options : Bytes
  apart : ∀ b ∈ options.head?, Message.endsWord b = true
  plain : Line.Plain (word ++ options)
  short : (word ++ options).length ≤ Message.maxLine
  payload : Bytes
  /-- The last option is the length of the payload. -/
  announced : command.hasPayload = true →
    Text.unsigned? 64 10 (Text.encode (Message.lastOption (Text.trim (Text.lossy options)))) =
      some payload.length
  believed : payload.length ≤ Message.maxPayload
  bare : command.hasPayload = false → payload = []

namespace Written

open Message

variable {d : Direction} (w : Written d)

/-- The control line. -/
def line : Bytes := w.word ++ w.options

/-- What stands behind the control line and its ending. -/
def body : Bytes := if w.command.hasPayload then w.payload ++ Line.ending else []

/-- The bytes of a message. -/
def bytes : Bytes := w.line ++ Line.ending ++ w.body

/-- The message that is read. -/
def message : Message :=
  ⟨w.command, Text.trim (Text.lossy w.options), w.payload, w.bytes.length⟩

theorem small_word : w.word.map lowerByte = w.command.small :=
  (sameIgnoringCase_iff.1 w.named).symm

theorem length_line : w.line.length = w.word.length + w.options.length := List.length_append

theorem length_bytes : w.bytes.length = w.line.length + Line.ending.length + w.body.length := by
  rw [bytes, List.length_append, List.length_append]

theorem length_body (payload : w.command.hasPayload = true) :
    w.body.length = w.payload.length + Line.ending.length := by
  rw [body, if_pos payload, List.length_append]

theorem payloadLength?_options :
    payloadLength? w.command (Text.trim (Text.lossy w.options)) = some w.payload.length := by
  unfold payloadLength?
  cases payload : w.command.hasPayload with
  | true =>
    rw [if_pos rfl, w.announced payload, Option.filter_some, if_pos (by simpa using w.believed)]
  | false =>
    rw [if_neg Bool.false_ne_true, w.bare payload]
    rfl

/-- Behind the command stands a byte that ends it. -/
theorem exists_rest : ∃ b rest, endsWord b = true ∧ w.bytes = w.word ++ b :: rest := by
  have split : w.bytes = w.word ++ (w.options ++ Line.ending ++ w.body) := by
    simp only [bytes, line, List.append_assoc]
  cases options : w.options with
  | nil => exact ⟨13, 10 :: w.body, rfl, split.trans (by rw [options]; rfl)⟩
  | cons b rest =>
    refine ⟨b, rest ++ Line.ending ++ w.body, w.apart b (by rw [options]; rfl), ?_⟩
    rw [split, options]
    rfl

/-- The command is known as soon as the byte behind it is there. -/
theorem command?_bytes {n : Nat} (behind : w.word.length < n) :
    command? (w.bytes.take n) = .ok (some (w.command, w.word.length)) := by
  obtain ⟨b, rest, ends, eq⟩ := w.exists_rest
  obtain ⟨more, rfl⟩ : ∃ more, n = w.word.length + (more + 1) :=
    ⟨n - w.word.length - 1, by omega⟩
  rw [eq, List.take_length_add_append, List.take_succ_cons]
  exact command?_word w.small_word ends (rest.take more)

/-- Behind the command, the reader asks for the line. -/
theorem parse_behind {n : Nat} (behind : w.word.length < n) :
    parse d (w.bytes.take n) =
      (Line.splitWithin? maxLine (w.bytes.take n)).elim
        (if atLeast (maxLine + 1) (w.bytes.take n) then .invalid "control line too long"
          else .needMore none)
        fun (line, rest) =>
          let options := Text.trim (Text.lossy (line.drop w.word.length))
          let before := line.length + Line.ending.length
          (payloadLength? w.command options).elim (.invalid "bad payload size") fun length =>
            if w.command.hasPayload then parsePayload w.command options before length rest
            else .complete ⟨w.command, options, [], before⟩ before := by
  unfold parse
  rw [w.command?_bytes behind]
  dsimp only
  rw [w.carried, if_neg (by decide)]
  cases Line.splitWithin? maxLine (w.bytes.take n) with
  | none => rfl
  | some split =>
    obtain ⟨line, rest⟩ := split
    dsimp only [Option.elim_some]
    cases payloadLength? w.command (Text.trim (Text.lossy (line.drop w.word.length))) <;> rfl

/-- Where the line and its ending are there, the rest is measured against the payload. -/
theorem parse_body {n : Nat} (behind : w.line.length + Line.ending.length ≤ n) :
    parse d (w.bytes.take n) =
      if w.command.hasPayload then
        parsePayload w.command w.message.options (w.line.length + Line.ending.length)
          w.payload.length (w.body.take (n - (w.line.length + Line.ending.length)))
      else .complete w.message w.bytes.length := by
  have length := w.length_line
  have positive : 0 < Line.ending.length := by decide
  have cut : w.bytes.take n = w.line ++ Line.ending ++
      w.body.take (n - (w.line.length + Line.ending.length)) := by
    rw [bytes, List.take_append, List.take_of_length_le (by rw [List.length_append]; omega),
      List.length_append]
  have found : Line.splitWithin? maxLine (w.bytes.take n) = some (w.line, _) :=
    cut ▸ Line.splitWithin?_plain w.plain w.short _
  rw [w.parse_behind (by omega), found, Option.elim_some]
  dsimp only
  have options : w.line.drop w.word.length = w.options := List.drop_left
  rw [options, w.payloadLength?_options, Option.elim_some]
  split_ifs with payload
  · rfl
  · have payload : w.command.hasPayload = false := by simpa using payload
    have none : w.body = [] := by rw [body, payload]; rfl
    have whole : w.bytes.length = w.line.length + Line.ending.length := by
      rw [w.length_bytes, none]
      rfl
    rw [message, whole, w.bare payload]

/-- A whole message is read. -/
theorem parse_bytes : parse d w.bytes = .complete w.message w.bytes.length := by
  have total := w.length_bytes
  have read := w.parse_body (n := w.bytes.length) (by omega)
  rw [List.take_length] at read
  rw [read]
  split_ifs with payload
  · have measured := w.length_body payload
    rw [List.take_of_length_le (by omega)]
    unfold parsePayload
    dsimp only
    have there : w.body = w.payload ++ Line.ending ++ [] := by
      rw [body, if_pos payload, List.append_nil]
    have ended : slice w.body w.payload.length Line.ending.length = Line.ending := by
      rw [slice, there, List.append_nil, List.drop_left, List.take_length]
    have taken : w.body.take w.payload.length = w.payload := by
      rw [there, List.append_nil, List.take_left]
    have all : w.line.length + Line.ending.length + w.payload.length + Line.ending.length =
        w.bytes.length := by omega
    rw [if_neg (by simpa [atLeast_iff] using measured.ge), if_neg (not_not.2 ended), taken, all]
    rfl
  · rfl

/-- What the reader makes of the first `n` bytes of a message. -/
def verdict (n : Nat) : Parsed Message :=
  if n = w.word.length then .invalid "unknown command"
  else if n = maxLine + 1 ∧ w.line.length = maxLine then .invalid "control line too long"
  else if n < w.line.length + Line.ending.length then .needMore none
  else .needMore (some w.bytes.length)

/-- A beginning of the command is told from other words. -/
theorem parse_within_word {n : Nat} (within : n ≤ w.word.length) :
    parse d (w.bytes.take n) =
      if n = w.word.length then .invalid "unknown command" else .needMore none := by
  obtain ⟨b, rest, -, eq⟩ := w.exists_rest
  unfold parse
  rw [eq, List.take_append_of_le_length within, command?_take w.small_word within]
  split_ifs <;> rfl

/-- A beginning of the line is waited on as long as no longer line could be meant. -/
theorem parse_within_line {n : Nat} (behind : w.word.length < n)
    (within : n < w.line.length + Line.ending.length) :
    parse d (w.bytes.take n) =
      if maxLine < n then .invalid "control line too long" else .needMore none := by
  have inside : n < (w.line ++ Line.ending).length := by rwa [List.length_append]
  have cut : w.bytes.take n = (w.line ++ Line.ending).take n :=
    List.take_append_of_le_length inside.le
  have there : (w.bytes.take n).length = n := by
    rw [cut, List.length_take_of_le inside.le]
  have none : Line.splitWithin? maxLine (w.bytes.take n) = none :=
    cut ▸ Line.splitWithin?_take w.plain inside
  rw [w.parse_behind behind, none, Option.elim_none]
  simp only [atLeast_iff, there, Nat.succ_le_iff]

/-- **A message that arrives in pieces is waited on, but for two cuts.** Whatever the message, all
of it is read as it is meant. Of every smaller number of its bytes, none included, the reader says
that more are needed, and how many once the payload has been announced, with two exceptions: the
command is refused as long as the byte behind it is missing, and a line of `maxLine` bytes is
refused while it has only the first byte of its ending. -/
theorem verdicts :
    parse d w.bytes = .complete w.message w.bytes.length ∧
      ∀ n < w.bytes.length, parse d (w.bytes.take n) = w.verdict n := by
  refine ⟨w.parse_bytes, fun n part => ?_⟩
  have total := w.length_bytes
  have line := w.length_line
  have short : w.line.length ≤ maxLine := w.short
  have two : Line.ending.length = 2 := rfl
  unfold verdict
  rcases Nat.lt_or_ge w.word.length n with behind | within
  · rw [if_neg behind.ne']
    rcases Nat.lt_or_ge n (w.line.length + Line.ending.length) with inside | outside
    · rw [w.parse_within_line behind inside, if_pos inside]
      have long : maxLine < n ↔ n = maxLine + 1 ∧ w.line.length = maxLine := by omega
      simp only [long]
    · -- Something is missing behind the line, so there is a payload.
      have payload : w.command.hasPayload = true := by
        by_contra none
        have none : w.body.length = 0 := by rw [body, if_neg none]; rfl
        omega
      have measured := w.length_body payload
      rw [w.parse_body outside, if_pos payload, if_neg (by omega), if_neg (by omega), parsePayload]
      have missing : (!atLeast (w.payload.length + Line.ending.length)
          (w.body.take (n - (w.line.length + Line.ending.length)))) = true := by
        rw [Bool.not_eq_true', ← Bool.not_eq_true, atLeast_iff, List.length_take]
        omega
      rw [if_pos missing, total, measured, Nat.add_assoc _ w.payload.length]
  · rw [w.parse_within_word within]
    by_cases whole : n = w.word.length
    · rw [if_pos whole, if_pos whole]
    · rw [if_neg whole, if_neg whole, if_neg (by omega), if_pos (by omega)]

/-- A published message, with the command in small letters. -/
def hello : Written .request where
  command := .pub
  carried := rfl
  word := ascii "pub"
  named := by decide +kernel
  options := 32 :: ascii "a 5"
  apart := by rintro _ ⟨⟩; rfl
  plain := Line.plain_of_not_mem (by decide +kernel)
  short := by decide +kernel
  payload := ascii "hello"
  announced _ := by decide +kernel
  believed := by decide +kernel
  bare := by decide

/-- A command with blanks behind it. -/
def padded (n : Nat) (short : 4 + n ≤ maxLine) : Written .request where
  command := .ping
  carried := rfl
  word := ascii "PING"
  named := by decide +kernel
  options := List.replicate n 32
  apart b mem := by rw [List.eq_of_mem_replicate (List.mem_of_mem_head? mem)]; rfl
  plain := Line.plain_of_not_mem fun mem =>
    (List.mem_append.1 mem).elim (by decide +kernel) fun mem => by
      cases List.eq_of_mem_replicate mem
  short := by rwa [List.length_append, List.length_replicate]
  payload := []
  announced payload := by cases payload
  believed := Nat.zero_le _
  bare _ := rfl

theorem length_line_padded (n : Nat) (short : 4 + n ≤ maxLine) :
    (padded n short).line.length = 4 + n :=
  List.length_append.trans (congrArg (4 + ·) List.length_replicate)

theorem verdicts_brimming :
    parse .request hello.bytes = .complete ⟨.pub, "a 5", ascii "hello", 16⟩ 16 ∧
      parse .request (ascii "p") = .needMore none ∧
      parse .request (ascii "pub") = .invalid "unknown command" ∧
      parse .request (ascii "pub a 5\r") = .needMore none ∧
      parse .request (ascii "pub a 5\r\nhe") = .needMore (some 16) ∧
      ∃ brimming : Written .request, brimming.line.length = maxLine ∧
        parse .request (brimming.bytes.take 4096) = .needMore none ∧
        parse .request (brimming.bytes.take 4097) = .invalid "control line too long" := by
  obtain ⟨whole, cuts⟩ := verdicts hello
  have sixteen : hello.bytes.length = 16 := by decide +kernel
  rw [sixteen] at whole cuts
  refine ⟨whole.trans ?_, (cuts 1 ?_).trans ?_, (cuts 3 ?_).trans ?_, (cuts 8 ?_).trans ?_,
    (cuts 11 ?_).trans ?_, padded 4092 (by decide), ?_⟩
  iterate 9 decide +kernel
  obtain ⟨-, narrow⟩ := verdicts (padded 4092 (by decide))
  have line := length_line_padded 4092 (by decide)
  have total := (padded 4092 (by decide)).length_bytes
  have two : Line.ending.length = 2 := rfl
  have four : (padded 4092 (by decide)).word.length = 4 := rfl
  refine ⟨line, (narrow 4096 (by omega)).trans ?_, (narrow 4097 (by omega)).trans ?_⟩
  · rw [verdict, four, line]
    rfl
  · rw [verdict, four, line]
    rfl

/-- A command on its own line. -/
def ping : Written .request where
  command := .ping
  carried := rfl
  word := ascii "PING"
  named := by decide +kernel
  options := []
  apart := by rintro _ ⟨⟩
  plain := Line.plain_of_not_mem (by decide +kernel)
  short := by decide +kernel
  payload := []
  announced := by decide
  believed := by decide +kernel
  bare _ := rfl

/-- A command that has arrived up to its last letter is refused. -/
theorem command_alone_refused :
    ping.bytes = ascii "PING\r\n" ∧ parse .request ping.bytes = .complete ping.message 6 ∧
      ping.bytes.take 4 = ascii "PING" ∧
      parse .request (ping.bytes.take 4) = .invalid "unknown command" := by
  decide +kernel

end Written

end Nats

end Dialogue
