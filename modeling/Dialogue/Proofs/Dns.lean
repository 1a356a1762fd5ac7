import Dialogue.Dns
import Dialogue.Proofs.Delimited

/-!
Walking a DNS message that is still arriving.

A message says nowhere how long it is, so what has to be shown of it is shown of the walk: a walk
over some bytes either runs out of them or ends as it would with any bytes behind them. `Settles`
is that relation between two walks; it holds of every part of a message and goes through the
composition of parts. A part can be read just if the smaller parts can that it consists of, each
where the one before it ends (`queryAt_ok_iff` to `walk_ok_iff`); so a walk that ends well has come
no further than the bytes go.
-/
namespace Dialogue.Dns

variable {α β : Type}

/-- The first walk runs out of bytes, or both end in the same way. -/
def Settles (a b : Walk α) : Prop := a = .error .incomplete ∨ b = a

namespace Settles

theorem refl (a : Walk α) : Settles a a := .inr rfl

theorem bind {a b : Walk α} {f g : α → Walk β} (h : Settles a b)
    (hfg : ∀ x, a = .ok x → Settles (f x) (g x)) : Settles (a >>= f) (b >>= g) := by
  rcases h with rfl | rfl
  · exact .inl rfl
  · cases b with
    | error fault => exact .refl _
    | ok x => exact hfg x rfl

theorem map {a b : Walk α} (h : Settles a b) (f : α → β) : Settles (a.map f) (b.map f) := by
  rcases h with rfl | rfl
  · exact .inl rfl
  · exact .refl _

theorem ok {a b : Walk α} {x : α} (h : Settles a b) (done : a = .ok x) : b = .ok x := by
  rcases h with out | same
  · cases done.symm.trans out
  · exact same.trans done

end Settles

theorem ok_of_bind {a : Walk α} {f : α → Walk β} {y : β} (h : a >>= f = .ok y) :
    ∃ x, a = .ok x ∧ f x = .ok y := by
  cases a with
  | error fault => cases h
  | ok x => exact ⟨x, rfl, h⟩

theorem bind_ok_iff {a : Walk α} {f : α → Walk β} {y : β} :
    a >>= f = .ok y ↔ ∃ x, a = .ok x ∧ f x = .ok y :=
  ⟨ok_of_bind, fun ⟨_, first, second⟩ => first ▸ second⟩

/-! ## The parts of a message -/

section Parts
variable {msg : Bytes} (tail : Bytes)

theorem settles_wordAt (position : Nat) :
    Settles (wordAt msg position) (wordAt (msg ++ tail) position) := by
  unfold wordAt
  rw [List.drop_append]
  match msg.drop position with
  | [] => exact .inl rfl
  | [_] => exact .inl rfl
  | _ :: _ :: _ => exact .refl _

/-- A label that fits is taken up, and the labels behind it are read. -/
theorem labels_cons {name : String} {position : Nat} {b : UInt8} {rest : Bytes} (hzero : ¬ b = 0)
    (hlabel : b < 64) (fits : atLeast b.toNat rest = true) :
    labels name position (b :: rest) =
      if maxName < (addLabel name (rest.take b.toNat)).utf8ByteSize then
        .error (.invalid "name too long")
      else
        labels (addLabel name (rest.take b.toNat)) (position + 1 + b.toNat)
          (rest.drop b.toNat) := by
  rw [labels.eq_def]
  simp only [if_neg hzero, if_pos hlabel, fits, Bool.not_true, Bool.false_eq_true, if_false]

theorem settles_labels (name : String) (position : Nat) (bs : Bytes) :
    Settles (labels name position bs) (labels name position (bs ++ tail)) := by
  -- one case for each way in which the walk over labels goes on or ends
  induction name, position, bs using labels.induct with
  | case1 name position => exact .inl (by rw [labels])
  | case2 name position rest =>
    right
    rw [List.cons_append, labels.eq_def, labels.eq_def]
    rfl
  | case3 name position b rest hzero hlabel short =>
    left
    rw [labels.eq_def]
    simp only [if_neg hzero, if_pos hlabel, if_pos short]
  | case4 name position b rest hzero hlabel short _ long =>
    have fits := atLeast_of_not short
    right
    rw [List.cons_append, labels_cons hzero hlabel fits,
      labels_cons hzero hlabel (atLeast_append fits tail), take_append_of_atLeast fits]
    exact (if_pos long).trans (if_pos long).symm
  | case5 name position b rest hzero hlabel short _ within ih =>
    have fits := atLeast_of_not short
    rw [List.cons_append, labels_cons hzero hlabel fits,
      labels_cons hzero hlabel (atLeast_append fits tail), take_append_of_atLeast fits,
      List.drop_append_of_le_length (atLeast_iff.1 fits), if_neg within, if_neg within]
    exact ih
  | case6 name position b rest hzero hlabel reserved =>
    right
    rw [List.cons_append, labels.eq_def, labels.eq_def]
    simp only [if_neg hzero, if_neg hlabel, if_pos reserved]
  | case7 name position b hzero hlabel pointer =>
    left
    rw [labels.eq_def]
    simp only [if_neg hzero, if_neg hlabel, if_neg pointer]
  | case8 name position b hzero hlabel pointer low rest =>
    right
    rw [List.cons_append, List.cons_append, labels.eq_def, labels.eq_def]
    simp only [if_neg hzero, if_neg hlabel, if_neg pointer]

theorem settles_labelsAt (name : String) (position : Nat) :
    Settles (labels name position (msg.drop position))
      (labels name position ((msg ++ tail).drop position)) := by
  rw [List.drop_append]
  exact settles_labels _ name position _

theorem settles_nameFrom (jumps : Nat) (name : String) (position : Nat) :
    Settles (nameFrom msg jumps name position) (nameFrom (msg ++ tail) jumps name position) := by
  -- Pointers lead anywhere in the message, so only the jumps that are left become fewer.
  induction jumps generalizing name position with
  | zero =>
    unfold nameFrom
    rcases settles_labelsAt tail name position with h | h
    · exact .inl (by rw [h])
    · exact .inr (by rw [h])
  | succ jumps ih =>
    unfold nameFrom
    rcases settles_labelsAt tail name position with h | h
    · exact .inl (by rw [h])
    · rw [h]
      match labels name position (msg.drop position) with
      | .error fault => exact .refl _
      | .ok (name, stop, none) => exact .refl _
      | .ok (name, stop, some target) =>
        dsimp only
        split_ifs
        · exact .refl _
        · exact (ih name target).map _

theorem settles_nameAt (position : Nat) :
    Settles (nameAt msg position) (nameAt (msg ++ tail) position) :=
  settles_nameFrom tail maxJumps "" position

theorem settles_queryAt (position : Nat) :
    Settles (queryAt msg position) (queryAt (msg ++ tail) position) := by
  unfold queryAt
  refine (settles_nameAt tail position).bind fun ⟨name, stop⟩ _ => ?_
  refine (settles_wordAt tail stop).bind fun type _ => ?_
  exact (settles_wordAt tail (stop + 2)).bind fun _ _ => .refl _

theorem settles_recordAt (position : Nat) :
    Settles (recordAt msg position) (recordAt (msg ++ tail) position) := by
  unfold recordAt
  refine (settles_nameAt tail position).bind fun ⟨name, stop⟩ _ => ?_
  refine (settles_wordAt tail stop).bind fun type _ => ?_
  refine (settles_wordAt tail (stop + 8)).bind fun length _ => ?_
  by_cases whole : atLeast length (msg.drop (stop + 10))
  · rw [if_pos whole, List.drop_append, if_pos (atLeast_append whole _)]
    exact .refl _
  · rw [if_neg whole]
    exact .inl rfl

/-- Addresses are read from bytes that are there, a name may go on elsewhere. -/
theorem settles_dataAt {type position length : Nat} (h : position + length ≤ msg.length) :
    Settles (dataAt msg type position length) (dataAt (msg ++ tail) type position length) := by
  unfold dataAt
  split_ifs with hipv4 hipv6
  · rw [slice_append (by omega)]
    exact .refl _
  · rw [slice_append (by omega)]
    exact .refl _
  · exact (settles_nameAt tail position).map _
  · exact .refl _

/-! ## What it takes to read the parts -/

variable {position stop : Nat}

theorem wordAt_ok_iff {n : Nat} :
    wordAt msg position = .ok n ↔
      ∃ a b tail, msg.drop position = a :: b :: tail ∧ bigEndian [a, b] = n := by
  unfold wordAt
  constructor
  · intro h
    split at h
    · next a b tail rest => exact ⟨a, b, tail, rest, Except.ok.inj h⟩
    · cases h
  · rintro ⟨a, b, tail, rest, rfl⟩
    rw [rest]

theorem wordAt_le {n : Nat} (h : wordAt msg position = .ok n) :
    position + 2 ≤ msg.length := by
  obtain ⟨a, b, tail, bytes, -⟩ := wordAt_ok_iff.1 h
  have length := congrArg List.length bytes
  simp only [List.length_drop, List.length_cons] at length
  omega

theorem queryAt_ok_iff {query : Query} :
    queryAt msg position = .ok (query, stop) ↔
      ∃ behind word, nameAt msg position = .ok (query.name, behind) ∧
        wordAt msg behind = .ok query.type ∧ wordAt msg (behind + 2) = .ok word ∧
        stop = behind + 4 := by
  unfold queryAt
  constructor
  · intro h
    obtain ⟨⟨name, behind⟩, named, h⟩ := ok_of_bind h
    obtain ⟨type, typed, h⟩ := ok_of_bind h
    obtain ⟨word, classed, h⟩ := ok_of_bind h
    cases h
    exact ⟨behind, word, named, typed, classed, rfl⟩
  · rintro ⟨behind, word, named, typed, classed, rfl⟩
    exact bind_ok_iff.2 ⟨_, named, bind_ok_iff.2 ⟨_, typed, bind_ok_iff.2 ⟨_, classed, rfl⟩⟩⟩

theorem recordAt_ok_iff {name : String} {type start length : Nat} :
    recordAt msg position = .ok (name, type, start, length) ↔
      ∃ behind, nameAt msg position = .ok (name, behind) ∧ wordAt msg behind = .ok type ∧
        wordAt msg (behind + 8) = .ok length ∧ start = behind + 10 ∧
        start + length ≤ msg.length := by
  unfold recordAt
  constructor
  · intro h
    obtain ⟨⟨name, behind⟩, named, h⟩ := ok_of_bind h
    obtain ⟨type, typed, h⟩ := ok_of_bind h
    obtain ⟨length, sized, h⟩ := ok_of_bind h
    have started := wordAt_le sized
    split at h
    · next whole =>
      rw [atLeast_iff, List.length_drop] at whole
      cases h
      exact ⟨behind, named, typed, sized, rfl, by omega⟩
    · cases h
  · rintro ⟨behind, named, typed, sized, rfl, whole⟩
    have there : atLeast length (msg.drop (behind + 10)) = true := by
      rw [atLeast_iff, List.length_drop]
      omega
    exact bind_ok_iff.2 ⟨_, named, bind_ok_iff.2 ⟨_, typed, bind_ok_iff.2 ⟨_, sized, if_pos there⟩⟩⟩

theorem dataAt_alias_ok_iff {start length : Nat} {data : Data} :
    dataAt msg 5 start length = .ok data ↔
      ∃ r, nameAt msg start = .ok r ∧ data = .alias r.1 := by
  have read : dataAt msg 5 start length = (nameAt msg start).map fun r => .alias r.1 := rfl
  rw [read]
  constructor
  · intro h
    cases named : nameAt msg start with
    | error fault =>
      rw [named] at h
      cases h
    | ok r =>
      rw [named] at h
      cases h
      exact ⟨r, rfl, rfl⟩
  · rintro ⟨r, named, rfl⟩
    rw [named]
    rfl

theorem answerAt_ok_iff {answer : Answer} :
    answerAt msg position = .ok (answer, stop) ↔
      ∃ start length, recordAt msg position = .ok (answer.name, answer.type, start, length) ∧
        dataAt msg answer.type start length = .ok answer.data ∧ stop = start + length := by
  unfold answerAt
  constructor
  · intro h
    obtain ⟨⟨name, type, start, length⟩, framed, h⟩ := ok_of_bind h
    obtain ⟨data, filled, h⟩ := ok_of_bind h
    cases h
    exact ⟨start, length, framed, filled, rfl⟩
  · rintro ⟨start, length, framed, filled, rfl⟩
    exact bind_ok_iff.2 ⟨_, framed, bind_ok_iff.2 ⟨_, filled, rfl⟩⟩

theorem passRecord_ok_iff {u : Unit} :
    passRecord msg position = .ok (u, stop) ↔
      ∃ name type start length, recordAt msg position = .ok (name, type, start, length) ∧
        stop = start + length := by
  unfold passRecord
  constructor
  · intro h
    obtain ⟨⟨name, type, start, length⟩, framed, h⟩ := ok_of_bind h
    cases h
    exact ⟨name, type, start, length, framed, rfl⟩
  · rintro ⟨name, type, start, length, framed, rfl⟩
    exact bind_ok_iff.2 ⟨_, framed, rfl⟩

theorem entries_succ_ok_iff {entryAt : Nat → Walk (α × Nat)} {n : Nat} {found : List α} :
    entries entryAt (n + 1) position = .ok (found, stop) ↔
      ∃ entry next rest, entryAt position = .ok (entry, next) ∧
        entries entryAt n next = .ok (rest, stop) ∧ found = entry :: rest := by
  rw [entries]
  constructor
  · intro h
    obtain ⟨⟨entry, next⟩, first, h⟩ := ok_of_bind h
    obtain ⟨⟨rest, last⟩, others, h⟩ := ok_of_bind h
    cases h
    exact ⟨entry, next, rest, first, others, rfl⟩
  · rintro ⟨entry, next, rest, first, others, rfl⟩
    exact bind_ok_iff.2 ⟨_, first, bind_ok_iff.2 ⟨_, others, rfl⟩⟩

/-! ## Where the parts end -/

theorem queryAt_le {query : Query} (h : queryAt msg position = .ok (query, stop)) :
    0 < stop ∧ stop ≤ msg.length := by
  obtain ⟨behind, word, -, -, classed, rfl⟩ := queryAt_ok_iff.1 h
  have := wordAt_le classed
  omega

theorem recordAt_le {type start length : Nat} {name : String}
    (h : recordAt msg position = .ok (name, type, start, length)) :
    0 < start ∧ start + length ≤ msg.length := by
  obtain ⟨behind, -, -, -, rfl, whole⟩ := recordAt_ok_iff.1 h
  exact ⟨Nat.succ_pos _, whole⟩

theorem answerAt_le {answer : Answer} (h : answerAt msg position = .ok (answer, stop)) :
    0 < stop ∧ stop ≤ msg.length := by
  obtain ⟨start, length, framed, -, rfl⟩ := answerAt_ok_iff.1 h
  have := recordAt_le framed
  omega

theorem passRecord_le {u : Unit} (h : passRecord msg position = .ok (u, stop)) :
    0 < stop ∧ stop ≤ msg.length := by
  obtain ⟨name, type, start, length, framed, rfl⟩ := passRecord_ok_iff.1 h
  have := recordAt_le framed
  omega

/-- Entries end where the last of them does. -/
theorem entries_induction {entryAt : Nat → Walk (α × Nat)} {motive : Nat → Prop}
    (hentry : ∀ {position entry stop}, entryAt position = .ok (entry, stop) → motive stop)
    {n : Nat} {found : List α} (hposition : motive position)
    (h : entries entryAt n position = .ok (found, stop)) : motive stop := by
  induction n generalizing position found with
  | zero =>
    cases h
    exact hposition
  | succ n ih =>
    obtain ⟨entry, next, rest, first, others, -⟩ := entries_succ_ok_iff.1 h
    exact ih (hentry first) others

/-! ## The message -/

theorem settles_answerAt (position : Nat) :
    Settles (answerAt msg position) (answerAt (msg ++ tail) position) := by
  unfold answerAt
  refine (settles_recordAt tail position).bind fun ⟨name, type, start, length⟩ hrecord => ?_
  exact (settles_dataAt tail (recordAt_le hrecord).2).bind fun _ _ => .refl _

theorem settles_passRecord (position : Nat) :
    Settles (passRecord msg position) (passRecord (msg ++ tail) position) := by
  unfold passRecord
  exact (settles_recordAt tail position).bind fun _ _ => .refl _

theorem settles_entries {before after : Nat → Walk (α × Nat)}
    (h : ∀ position, Settles (before position) (after position)) (n position : Nat) :
    Settles (entries before n position) (entries after n position) := by
  induction n generalizing position with
  | zero => exact .refl _
  | succ n ih =>
    unfold entries
    refine (h position).bind fun ⟨entry, next⟩ _ => ?_
    exact (ih next).bind fun _ _ => .refl _

/-- The sections behind a header that is believed; `others` counts the records of the last two. -/
def sections (msg : Bytes) (transaction flags asked answered others : Nat) : Walk Message := do
  let (queries, position) ← entries (queryAt msg) asked headerLength
  let (answers, position) ← entries (answerAt msg) answered position
  let (_, position) ← entries (passRecord msg) others position
  return ⟨transaction, flags, queries, answers, position⟩

theorem walk_eq (dir : Direction) (msg : Bytes) : walk dir msg = (do
    let transaction ← wordAt msg 0
    let flags ← wordAt msg 2
    let asked ← wordAt msg 4
    let answered ← wordAt msg 6
    let authorities ← wordAt msg 8
    let extras ← wordAt msg 10
    if directionOf flags ≠ dir then .error (.invalid "QR bit does not match direction")
    else if maxOperation < flags / 2048 % 16 then .error (.invalid "unknown opcode")
    else if [asked, answered, authorities, extras].any (maxEntries < ·) then
      .error (.invalid "implausible section count")
    else sections msg transaction flags asked answered (authorities + extras)) := by
  unfold walk
  refine congrArg _ (funext fun transaction => congrArg _ (funext fun flags => ?_))
  refine congrArg _ (funext fun asked => congrArg _ (funext fun answered => ?_))
  refine congrArg _ (funext fun authorities => congrArg _ (funext fun extras => ?_))
  split_ifs <;> rfl

theorem settles_sections (transaction flags asked answered others : Nat) :
    Settles (sections msg transaction flags asked answered others)
      (sections (msg ++ tail) transaction flags asked answered others) := by
  unfold sections
  refine (settles_entries (settles_queryAt tail) asked headerLength).bind ?_
  rintro ⟨queries, next⟩ -
  refine (settles_entries (settles_answerAt tail) answered next).bind ?_
  rintro ⟨answers, next⟩ -
  exact (settles_entries (settles_passRecord tail) others next).bind fun _ _ => .refl _

theorem settles_walk (dir : Direction) : Settles (walk dir msg) (walk dir (msg ++ tail)) := by
  rw [walk_eq, walk_eq]
  refine (settles_wordAt tail 0).bind fun transaction _ => ?_
  refine (settles_wordAt tail 2).bind fun flags _ => ?_
  refine (settles_wordAt tail 4).bind fun asked _ => ?_
  refine (settles_wordAt tail 6).bind fun answered _ => ?_
  refine (settles_wordAt tail 8).bind fun authorities _ => ?_
  refine (settles_wordAt tail 10).bind fun extras _ => ?_
  split_ifs
  · exact .refl _
  · exact .refl _
  · exact .refl _
  · exact settles_sections tail ..

theorem sections_ok_iff {transaction flags asked answered others : Nat} {message : Message} :
    sections msg transaction flags asked answered others = .ok message ↔
      ∃ behindQueries behindAnswers passed,
        entries (queryAt msg) asked headerLength = .ok (message.queries, behindQueries) ∧
        entries (answerAt msg) answered behindQueries = .ok (message.answers, behindAnswers) ∧
        entries (passRecord msg) others behindAnswers = .ok (passed, message.length) ∧
        message.transaction = transaction ∧ message.flags = flags := by
  unfold sections
  constructor
  · intro h
    obtain ⟨⟨queries, behindQueries⟩, hqueries, h⟩ := ok_of_bind h
    obtain ⟨⟨answers, behindAnswers⟩, hanswers, h⟩ := ok_of_bind h
    obtain ⟨⟨passed, stop⟩, hpassed, h⟩ := ok_of_bind h
    cases h
    exact ⟨behindQueries, behindAnswers, passed, hqueries, hanswers, hpassed, rfl, rfl⟩
  · rintro ⟨behindQueries, behindAnswers, passed, hqueries, hanswers, hpassed, rfl, rfl⟩
    exact bind_ok_iff.2 ⟨_, hqueries, bind_ok_iff.2 ⟨_, hanswers, bind_ok_iff.2 ⟨_, hpassed, rfl⟩⟩⟩

/-- A header that is believed, with its six numbers. -/
structure Header (dir : Direction) (msg : Bytes)
    (transaction flags asked answered authorities extras : Nat) : Prop where
  transaction_word : wordAt msg 0 = .ok transaction
  flags_word : wordAt msg 2 = .ok flags
  asked_word : wordAt msg 4 = .ok asked
  answered_word : wordAt msg 6 = .ok answered
  authorities_word : wordAt msg 8 = .ok authorities
  extras_word : wordAt msg 10 = .ok extras
  direction : directionOf flags = dir
  operation : flags / 2048 % 16 ≤ maxOperation
  few : ∀ n ∈ [asked, answered, authorities, extras], n ≤ maxEntries

/-- The header is the same in other bytes that have the same words there. -/
theorem Header.transfer {dir : Direction} {other : Bytes}
    {transaction flags asked answered authorities extras : Nat}
    (header : Header dir msg transaction flags asked answered authorities extras)
    (same : ∀ {position n}, position + 2 ≤ headerLength → wordAt msg position = .ok n →
      wordAt other position = .ok n) :
    Header dir other transaction flags asked answered authorities extras :=
  { header with
    transaction_word := same (by decide) header.transaction_word
    flags_word := same (by decide) header.flags_word
    asked_word := same (by decide) header.asked_word
    answered_word := same (by decide) header.answered_word
    authorities_word := same (by decide) header.authorities_word
    extras_word := same (by decide) header.extras_word }

theorem walk_ok_iff {dir : Direction} {message : Message} :
    walk dir msg = .ok message ↔ ∃ transaction flags asked answered authorities extras,
      Header dir msg transaction flags asked answered authorities extras ∧
        sections msg transaction flags asked answered (authorities + extras) = .ok message := by
  rw [walk_eq]
  constructor
  · intro h
    obtain ⟨transaction, h0, h⟩ := ok_of_bind h
    obtain ⟨flags, h2, h⟩ := ok_of_bind h
    obtain ⟨asked, h4, h⟩ := ok_of_bind h
    obtain ⟨answered, h6, h⟩ := ok_of_bind h
    obtain ⟨authorities, h8, h⟩ := ok_of_bind h
    obtain ⟨extras, h10, h⟩ := ok_of_bind h
    split_ifs at h with direction operation many
    refine ⟨transaction, flags, asked, answered, authorities, extras, ?_, h⟩
    refine ⟨h0, h2, h4, h6, h8, h10, not_not.1 direction, Nat.not_lt.1 operation, ?_⟩
    simpa using many
  · rintro ⟨transaction, flags, asked, answered, authorities, extras, header, h⟩
    refine bind_ok_iff.2 ⟨_, header.transaction_word, bind_ok_iff.2 ⟨_, header.flags_word, ?_⟩⟩
    refine bind_ok_iff.2 ⟨_, header.asked_word, bind_ok_iff.2 ⟨_, header.answered_word, ?_⟩⟩
    refine bind_ok_iff.2 ⟨_, header.authorities_word, bind_ok_iff.2 ⟨_, header.extras_word, ?_⟩⟩
    have few : ¬ [asked, answered, authorities, extras].any (maxEntries < ·) = true := by
      simpa using header.few
    rw [if_neg (not_not.2 header.direction), if_neg (Nat.not_lt.2 header.operation), if_neg few]
    exact h

theorem sections_le {transaction flags asked answered others : Nat} {message : Message}
    (begins : headerLength ≤ msg.length)
    (h : sections msg transaction flags asked answered others = .ok message) :
    0 < message.length ∧ message.length ≤ msg.length := by
  obtain ⟨behindQueries, behindAnswers, passed, hqueries, hanswers, hpassed, -⟩ :=
    sections_ok_iff.1 h
  have hnext := entries_induction queryAt_le ⟨by decide, begins⟩ hqueries
  have hnext := entries_induction answerAt_le hnext hanswers
  exact entries_induction passRecord_le hnext hpassed

theorem Header.le {dir : Direction} {transaction flags asked answered authorities extras : Nat}
    (header : Header dir msg transaction flags asked answered authorities extras) :
    headerLength ≤ msg.length := wordAt_le header.extras_word

theorem walk_le {dir : Direction} {message : Message} (h : walk dir msg = .ok message) :
    0 < message.length ∧ message.length ≤ msg.length := by
  obtain ⟨_, _, _, _, _, _, header, h⟩ := walk_ok_iff.1 h
  exact sections_le header.le h

theorem Message.parse_complete_iff {dir : Direction} {message : Message} {n : Nat} :
    Message.parse dir msg = .complete message n ↔
      walk dir msg = .ok message ∧ n = message.length := by
  unfold Message.parse
  constructor
  · intro h
    split_ifs at h
    split at h
    · next walked =>
      obtain ⟨rfl, rfl⟩ := Parsed.complete.inj h
      exact ⟨walked, rfl⟩
    · cases h
    · cases h
  · rintro ⟨walked, rfl⟩
    obtain ⟨_, _, _, _, _, _, header, -⟩ := walk_ok_iff.1 walked
    simp only [atLeast_iff.2 header.le, Bool.not_true, Bool.false_eq_true, if_false, walked]

end Parts

theorem Message.delimits_parse (dir : Direction) : Delimits (Message.parse dir) where
  bounded := by
    intro bs frame n h
    obtain ⟨walked, rfl⟩ := parse_complete_iff.1 h
    exact walk_le walked
  stable := by
    intro bs more tail
    unfold Message.parse at more ⊢
    split_ifs at more with short
    · exact absurd rfl (more _)
    · have started := atLeast_of_not short
      simp only [started, atLeast_append started tail]
      rcases settles_walk tail dir with hwalk | hwalk
      · rw [hwalk] at more
        exact absurd rfl (more _)
      · rw [hwalk]

theorem delimited : dialect.Delimited := Delimits.dialect Message.delimits_parse fun _ _ _ => rfl

end Dialogue.Dns
