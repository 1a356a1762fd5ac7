import Dialogue.Proofs.Announced

/-!
How far the bytes go that a message is read from.

A name stands where its first row stands, but pointers lead the reading to other rows, and labels
run on from there: `reach` is where the last of these bytes stand. The sections only ever look into
the bytes that the message takes up; so what can lead out of a message are its names, and the names
of aliases among them, which are read on beyond the data of their records. `names` lists where the
names of a message begin. A message is the same whatever stands behind it just if all of them reach
no further than the message does (`Message.self_contained_iff`).
-/
namespace Dialogue.Dns

variable {α : Type} {msg : Bytes} {position : Nat}

/-! ## The reach of a name -/

/-- The end of the bytes that a name is read from, which may still follow `jumps` pointers. -/
def reachFrom (msg : Bytes) : (jumps : Nat) → (name : String) → (position : Nat) → Nat
  | 0, name, position =>
    (labels name position (msg.drop position)).toOption.elim position fun row => row.2.1
  | jumps + 1, name, position =>
    (labels name position (msg.drop position)).toOption.elim position fun row =>
      row.2.2.elim row.2.1 fun target => max row.2.1 (reachFrom msg jumps row.1 target)

/-- The end of the bytes that the name at a position is read from. -/
def reach (msg : Bytes) (position : Nat) : Nat := reachFrom msg maxJumps "" position

namespace NameRows

variable {jumps stop far : Nat} {name read : String}

theorem reachFrom_eq (h : NameRows msg jumps name position read stop far) :
    reachFrom msg jumps name position = far := by
  induction h with
  | @root jumps _ _ _ _ row => cases jumps <;> simp only [reachFrom, row] <;> rfl
  | pointer row _ _ ih =>
    simp only [reachFrom, row]
    exact congrArg (max _) ih

theorem reach_le (h : NameRows msg jumps name position read stop far) : far ≤ msg.length := by
  have row_le : ∀ {name position read stop onward},
      labels name position (msg.drop position) = .ok (read, stop, onward) → stop ≤ msg.length := by
    intro name position read stop onward h
    have begins : position < stop := labels_lt h
    have ends := labels_le h
    rw [List.length_drop] at ends
    omega
  induction h with
  | root row => exact row_le row
  | pointer row _ _ ih => exact max_le (row_le row) ih

theorem append (h : NameRows msg jumps name position read stop far) (tail : Bytes) :
    NameRows (msg ++ tail) jumps name position read stop far := by
  induction h with
  | root row => exact .root ((settles_labelsAt tail _ _).ok row)
  | pointer row back _ ih => exact .pointer ((settles_labelsAt tail _ _).ok row) back ih

theorem take (h : NameRows msg jumps name position read stop far) {n : Nat} (le : far ≤ n) :
    NameRows (msg.take n) jumps name position read stop far := by
  have same : ∀ {name position read stop onward},
      labels name position (msg.drop position) = .ok (read, stop, onward) → stop ≤ n →
      labels name position ((msg.take n).drop position) = .ok (read, stop, onward) := by
    intro name position read stop onward h le
    rw [List.drop_take]
    exact labels_take h (by omega)
  induction h with
  | root row => exact .root (same row le)
  | pointer row back _ ih =>
    obtain ⟨here, there⟩ := max_le_iff.1 le
    exact .pointer (same row here) back (ih there)

end NameRows

theorem reach_le {r : String × Nat} (h : nameAt msg position = .ok r) :
    reach msg position ≤ msg.length := by
  obtain ⟨far, rows⟩ := exists_nameRows h
  exact rows.reachFrom_eq.trans_le rows.reach_le

theorem reach_append {r : String × Nat} (h : nameAt msg position = .ok r) (tail : Bytes) :
    reach (msg ++ tail) position = reach msg position := by
  obtain ⟨far, rows⟩ := exists_nameRows h
  exact (rows.append tail).reachFrom_eq.trans rows.reachFrom_eq.symm

theorem nameAt_take {r : String × Nat} (h : nameAt msg position = .ok r) {n : Nat}
    (le : reach msg position ≤ n) : nameAt (msg.take n) position = .ok r := by
  obtain ⟨far, rows⟩ := exists_nameRows h
  exact (rows.take (rows.reachFrom_eq.symm.trans_le le)).nameFrom

/-! ## The names of a message -/

/-- Where the entries begin of which there are `n` from a position on. -/
def starts (entryAt : Nat → Walk (α × Nat)) : (n : Nat) → (position : Nat) → List Nat
  | 0, _ => []
  | n + 1, position =>
    position :: (entryAt position).toOption.elim [] fun entry => starts entryAt n entry.2

/-- Where `n` entries end that begin at a position. -/
def behind (entryAt : Nat → Walk (α × Nat)) (n position : Nat) : Nat :=
  (entries entryAt n position).toOption.elim position Prod.snd

/-- Where the names of an answer begin: its own, and in an alias the name that it stands for. -/
def answerNames (msg : Bytes) (position : Nat) : List Nat :=
  position :: (recordAt msg position).toOption.elim [] fun record =>
    if record.2.1 = 5 then [record.2.2.1] else []

/-- The number that the header gives at a position. -/
def count (msg : Bytes) (position : Nat) : Nat := (wordAt msg position).toOption.getD 0

/-- Where the names begin that are read in the sections. -/
def sectionNames (msg : Bytes) (asked answered others : Nat) : List Nat :=
  let answers := behind (queryAt msg) asked headerLength
  starts (queryAt msg) asked headerLength ++
    (starts (answerAt msg) answered answers).flatMap (answerNames msg) ++
    starts (passRecord msg) others (behind (answerAt msg) answered answers)

/-- Where the names begin that are read in the message at the start of some bytes. -/
def names (msg : Bytes) : List Nat :=
  sectionNames msg (count msg 4) (count msg 6) (count msg 8 + count msg 10)

/-! ## Cutting the bytes behind a message -/

section
variable {n stop : Nat}

theorem wordAt_take {value : Nat} (h : wordAt msg position = .ok value) (le : position + 2 ≤ n) :
    wordAt (msg.take n) position = .ok value := by
  obtain ⟨a, b, tail, bytes, number⟩ := wordAt_ok_iff.1 h
  obtain ⟨k, hk⟩ := Nat.exists_eq_add_of_le' (show 2 ≤ n - position by omega)
  refine wordAt_ok_iff.2 ⟨a, b, tail.take k, ?_, number⟩
  rw [List.drop_take, bytes, hk]
  rfl

theorem queryAt_take {query : Query} (h : queryAt msg position = .ok (query, stop)) (le : stop ≤ n)
    (within : reach msg position ≤ n) : queryAt (msg.take n) position = .ok (query, stop) := by
  obtain ⟨behind, word, named, typed, classed, rfl⟩ := queryAt_ok_iff.1 h
  exact queryAt_ok_iff.2 ⟨behind, word, nameAt_take named within, wordAt_take typed (by omega),
    wordAt_take classed (by omega), rfl⟩

theorem recordAt_take {name : String} {type start length : Nat}
    (h : recordAt msg position = .ok (name, type, start, length)) (le : start + length ≤ n)
    (within : reach msg position ≤ n) :
    recordAt (msg.take n) position = .ok (name, type, start, length) := by
  obtain ⟨behind, named, typed, sized, rfl, whole⟩ := recordAt_ok_iff.1 h
  refine recordAt_ok_iff.2 ⟨behind, nameAt_take named within, wordAt_take typed (by omega),
    wordAt_take sized (by omega), rfl, ?_⟩
  rw [List.length_take]
  exact le_min le whole

theorem slice_take {start length : Nat} (le : start + length ≤ n) :
    slice (msg.take n) start length = slice msg start length := by
  unfold slice
  rw [List.drop_take, List.take_take, min_eq_left (by omega)]

/-- Data other than a name do not go beyond the bytes of the record. -/
theorem dataAt_take {type start length : Nat} {data : Data}
    (h : dataAt msg type start length = .ok data) (le : start + length ≤ n)
    (within : type = 5 → reach msg start ≤ n) :
    dataAt (msg.take n) type start length = .ok data := by
  by_cases aliased : type = 5
  · subst aliased
    obtain ⟨r, named, rfl⟩ := dataAt_alias_ok_iff.1 h
    exact dataAt_alias_ok_iff.2 ⟨r, nameAt_take named (within rfl), rfl⟩
  · unfold dataAt at h ⊢
    rw [if_neg aliased] at h ⊢
    split_ifs at h ⊢
    · rwa [slice_take (by omega)]
    · rwa [slice_take (by omega)]
    · exact h

theorem answerAt_take {answer : Answer} (h : answerAt msg position = .ok (answer, stop))
    (le : stop ≤ n) (within : ∀ p ∈ answerNames msg position, reach msg p ≤ n) :
    answerAt (msg.take n) position = .ok (answer, stop) := by
  obtain ⟨start, length, framed, filled, rfl⟩ := answerAt_ok_iff.1 h
  unfold answerNames at within
  rw [framed, List.forall_mem_cons] at within
  obtain ⟨own, data⟩ := within
  refine answerAt_ok_iff.2 ⟨start, length, recordAt_take framed le own, ?_, rfl⟩
  exact dataAt_take filled le fun aliased =>
    data start (by simp [Except.toOption, aliased])

theorem passRecord_take {u : Unit} (h : passRecord msg position = .ok (u, stop)) (le : stop ≤ n)
    (within : reach msg position ≤ n) : passRecord (msg.take n) position = .ok (u, stop) := by
  obtain ⟨name, type, start, length, framed, rfl⟩ := passRecord_ok_iff.1 h
  exact passRecord_ok_iff.2 ⟨name, type, start, length, recordAt_take framed le within, rfl⟩

/-- Entries are found again where each of them is, up to where they end. -/
theorem entries_of_each {before after : Nat → Walk (α × Nat)} {k : Nat} {found : List α}
    (entry_lt : ∀ {position entry stop}, before position = .ok (entry, stop) → position < stop)
    (h : entries before k position = .ok (found, stop))
    (each : ∀ p ∈ starts before k position, ∀ {entry next}, before p = .ok (entry, next) →
      next ≤ stop → after p = .ok (entry, next)) :
    entries after k position = .ok (found, stop) := by
  induction k generalizing position found with
  | zero => exact h
  | succ k ih =>
    obtain ⟨entry, next, rest, first, others, rfl⟩ := entries_succ_ok_iff.1 h
    -- Where the first entry is read, its starts go on where it ends, which is before `stop`.
    rw [starts, first, List.forall_mem_cons] at each
    obtain ⟨here, later⟩ := each
    exact entries_succ_ok_iff.2 ⟨entry, next, rest, here first (entries_mono entry_lt others),
      ih others later, rfl⟩

theorem behind_eq {entryAt : Nat → Walk (α × Nat)} {k : Nat} {found : List α}
    (h : entries entryAt k position = .ok (found, stop)) : behind entryAt k position = stop := by
  rw [behind, h]
  rfl

theorem count_eq {value : Nat} (h : wordAt msg position = .ok value) :
    count msg position = value := by
  rw [count, h]
  rfl

theorem names_eq {dir : Direction} {transaction flags asked answered authorities extras : Nat}
    (header : Header dir msg transaction flags asked answered authorities extras) :
    names msg = sectionNames msg asked answered (authorities + extras) := by
  rw [names, count_eq header.asked_word, count_eq header.answered_word,
    count_eq header.authorities_word, count_eq header.extras_word]

theorem sections_take {transaction flags asked answered others : Nat} {message : Message}
    (h : sections msg transaction flags asked answered others = .ok message)
    (le : message.length ≤ n)
    (within : ∀ p ∈ sectionNames msg asked answered others, reach msg p ≤ n) :
    sections (msg.take n) transaction flags asked answered others = .ok message := by
  obtain ⟨behindQueries, behindAnswers, passed, hqueries, hanswers, hpassed, numbers⟩ :=
    sections_ok_iff.1 h
  simp only [sectionNames, behind_eq hqueries, behind_eq hanswers, List.mem_append,
    List.mem_flatMap, or_imp, forall_and, forall_exists_index, and_imp] at within
  obtain ⟨⟨queries, answers⟩, records⟩ := within
  have behindAnswers_le : behindAnswers ≤ n := (entries_mono passRecord_lt hpassed).trans le
  have behindQueries_le : behindQueries ≤ n :=
    (entries_mono answerAt_lt hanswers).trans behindAnswers_le
  refine sections_ok_iff.2 ⟨behindQueries, behindAnswers, passed, ?_, ?_, ?_, numbers⟩
  · exact entries_of_each queryAt_lt hqueries fun p hp _ _ entry last =>
      queryAt_take entry (last.trans behindQueries_le) (queries p hp)
  · exact entries_of_each answerAt_lt hanswers fun p hp _ _ entry last =>
      answerAt_take entry (last.trans behindAnswers_le) fun q hq => answers q p hp hq
  · exact entries_of_each passRecord_lt hpassed fun p hp _ _ entry last =>
      passRecord_take entry (last.trans le) (records p hp)

/-- A message of which no name reaches beyond some bytes is read from these. -/
theorem walk_take {dir : Direction} {message : Message} (h : walk dir msg = .ok message)
    (le : message.length ≤ n) (within : ∀ p ∈ names msg, reach msg p ≤ n) :
    walk dir (msg.take n) = .ok message := by
  have begins : headerLength ≤ n := (headerLength_le_of_walk h).trans le
  obtain ⟨transaction, flags, asked, answered, authorities, extras, header, h⟩ := walk_ok_iff.1 h
  rw [names_eq header] at within
  exact walk_ok_iff.2 ⟨transaction, flags, asked, answered, authorities, extras,
    header.transfer fun within word => wordAt_take word (within.trans begins),
    sections_take h le within⟩

end

/-! ## More bytes behind a message -/

section
variable {stop : Nat}

theorem exists_entry {entryAt : Nat → Walk (α × Nat)} {k p : Nat} {found : List α}
    (h : entries entryAt k position = .ok (found, stop)) (hp : p ∈ starts entryAt k position) :
    ∃ entry next, entryAt p = .ok (entry, next) := by
  induction k generalizing position found with
  | zero => cases hp
  | succ k ih =>
    obtain ⟨entry, next, rest, first, others, rfl⟩ := entries_succ_ok_iff.1 h
    rw [starts, first] at hp
    rcases List.mem_cons.1 hp with rfl | later
    · exact ⟨entry, next, first⟩
    · exact ih others later

theorem starts_of_settles {before after : Nat → Walk (α × Nat)} {k : Nat} {found : List α}
    (settles : ∀ p, Settles (before p) (after p))
    (h : entries before k position = .ok (found, stop)) :
    starts after k position = starts before k position := by
  induction k generalizing position found with
  | zero => rfl
  | succ k ih =>
    obtain ⟨entry, next, rest, first, others, rfl⟩ := entries_succ_ok_iff.1 h
    rw [starts, starts, first, (settles position).ok first]
    exact congrArg _ (ih others)

theorem answerNames_append {answer : Answer} (h : answerAt msg position = .ok (answer, stop))
    (tail : Bytes) : answerNames (msg ++ tail) position = answerNames msg position := by
  obtain ⟨start, length, framed, -⟩ := answerAt_ok_iff.1 h
  rw [answerNames, answerNames, framed, (settles_recordAt tail position).ok framed]

theorem exists_nameAt_of_record {record : String × Nat × Nat × Nat}
    (h : recordAt msg position = .ok record) : ∃ r, nameAt msg position = .ok r := by
  obtain ⟨behind, named, -⟩ := recordAt_ok_iff.1 h
  exact ⟨_, named⟩

theorem exists_nameAt_of_answer {answer : Answer} {p : Nat}
    (h : answerAt msg position = .ok (answer, stop)) (hp : p ∈ answerNames msg position) :
    ∃ r, nameAt msg p = .ok r := by
  obtain ⟨start, length, framed, filled, -⟩ := answerAt_ok_iff.1 h
  rw [answerNames, framed] at hp
  rcases List.mem_cons.1 hp with rfl | hp
  · exact exists_nameAt_of_record framed
  · change p ∈ (if answer.type = 5 then [start] else []) at hp
    split_ifs at hp with aliased
    · rw [aliased] at filled
      obtain ⟨r, named, -⟩ := dataAt_alias_ok_iff.1 filled
      exact ⟨r, List.mem_singleton.1 hp ▸ named⟩
    · cases hp

variable {transaction flags asked answered others : Nat} {message : Message}

theorem exists_nameAt_of_sections {p : Nat}
    (h : sections msg transaction flags asked answered others = .ok message)
    (hp : p ∈ sectionNames msg asked answered others) : ∃ r, nameAt msg p = .ok r := by
  obtain ⟨behindQueries, behindAnswers, passed, hqueries, hanswers, hpassed, -⟩ :=
    sections_ok_iff.1 h
  simp only [sectionNames, behind_eq hqueries, behind_eq hanswers, List.mem_append,
    List.mem_flatMap] at hp
  rcases hp with (query | ⟨q, answer, hp⟩) | record
  · obtain ⟨query, next, found⟩ := exists_entry hqueries query
    obtain ⟨behind, word, named, -⟩ := queryAt_ok_iff.1 found
    exact ⟨_, named⟩
  · obtain ⟨answer, next, found⟩ := exists_entry hanswers answer
    exact exists_nameAt_of_answer found hp
  · obtain ⟨u, next, found⟩ := exists_entry hpassed record
    obtain ⟨name, type, start, length, framed, -⟩ := passRecord_ok_iff.1 found
    exact exists_nameAt_of_record framed

theorem sectionNames_append
    (h : sections msg transaction flags asked answered others = .ok message) (tail : Bytes) :
    sectionNames (msg ++ tail) asked answered others = sectionNames msg asked answered others := by
  obtain ⟨behindQueries, behindAnswers, passed, hqueries, hanswers, hpassed, -⟩ :=
    sections_ok_iff.1 h
  have queriesThere := (settles_entries (settles_queryAt tail) asked headerLength).ok hqueries
  have answersThere := (settles_entries (settles_answerAt tail) answered behindQueries).ok hanswers
  simp only [sectionNames, behind_eq hqueries, behind_eq hanswers, behind_eq queriesThere,
    behind_eq answersThere, starts_of_settles (settles_queryAt tail) hqueries,
    starts_of_settles (settles_answerAt tail) hanswers,
    starts_of_settles (settles_passRecord tail) hpassed]
  congr 2
  refine List.flatMap_congr fun p hp => ?_
  obtain ⟨answer, next, found⟩ := exists_entry hanswers hp
  exact answerNames_append found tail

/-- The names of a message reach no further than the bytes that it was read from, and they are the
same with other bytes behind these. -/
theorem names_of_walk {dir : Direction} (h : walk dir msg = .ok message) (tail : Bytes) :
    names (msg ++ tail) = names msg ∧
      ∀ p ∈ names msg, reach (msg ++ tail) p ≤ msg.length := by
  obtain ⟨transaction, flags, asked, answered, authorities, extras, header, h⟩ := walk_ok_iff.1 h
  have there : Header dir (msg ++ tail) transaction flags asked answered authorities extras :=
    header.transfer fun _ => (settles_wordAt tail _).ok
  rw [names_eq header, names_eq there]
  refine ⟨sectionNames_append h tail, fun p hp => ?_⟩
  obtain ⟨r, named⟩ := exists_nameAt_of_sections h hp
  exact (reach_append named tail).trans_le (reach_le named)

end

/-! ## Messages that stand alone -/

namespace Message

variable {dir : Direction} {bs : Bytes} {message : Message} {n : Nat}

/-- The bytes that a message takes up give it whatever stands behind them, just if no name of it is
read from beyond them; else these bytes alone are taken for the beginning of a message. -/
theorem self_contained_iff (h : Message.parse dir bs = .complete message n) :
    ((∀ p ∈ names bs, reach bs p ≤ n) ↔
      ∀ tail, Message.parse dir (bs.take n ++ tail) = .complete message n) ∧
    (¬ (∀ p ∈ names bs, reach bs p ≤ n) →
      Message.parse dir (bs.take n) = .needMore none) := by
  obtain ⟨walked, rfl⟩ := parse_complete_iff.1 h
  have bounds := walk_le walked
  have cut : (bs.take message.length).length = message.length := List.length_take_of_le bounds.2
  -- Read from these bytes alone, the message has the same names, and none can reach beyond them.
  have alone : walk dir (bs.take message.length) = .ok message →
      ∀ p ∈ names bs, reach bs p ≤ message.length := by
    intro walked
    obtain ⟨same, inside⟩ := names_of_walk walked (bs.drop message.length)
    rw [List.take_append_drop] at same inside
    rw [same]
    rwa [cut] at inside
  refine ⟨⟨fun within tail => ?_, fun everywhere => ?_⟩, fun beyond => ?_⟩
  · have read := walk_take walked (Nat.le_refl _) within
    exact parse_complete_iff.2 ⟨(settles_walk tail dir).ok read, rfl⟩
  · have read := everywhere []
    rw [List.append_nil] at read
    exact alone (parse_complete_iff.1 read).1
  · have settled : Settles (walk dir (bs.take message.length))
        (walk dir (bs.take message.length ++ bs.drop message.length)) := settles_walk _ dir
    -- The walk over fewer bytes runs out of them or ends like the one over all.
    rcases settled with out | same
    · have begins : atLeast headerLength (bs.take message.length) = true := by
        rw [atLeast_iff, cut]
        exact headerLength_le_of_walk walked
      simp only [Message.parse, begins, Bool.not_true, Bool.false_eq_true, if_false, out]
    · rw [List.take_append_drop] at same
      exact absurd (alone (same ▸ walked)) beyond

/-- A response of 35 bytes whose only answer is an alias in compressed form. -/
theorem self_contained_compressed :
    let bytes : Bytes := [0, 7, 0x80, 0, 0, 1, 0, 1, 0, 0, 0, 0, 1, 97, 0, 0, 5, 0, 1,
      0xC0, 12, 0, 5, 0, 1, 0, 0, 0, 0, 0, 4, 1, 98, 0xC0, 12]
    let message : Message := ⟨7, 0x8000, [⟨"a", 5⟩], [⟨"a", 5, .alias "b.a"⟩], 35⟩
    Message.parse .response (bytes ++ [1, 97, 0]) = .complete message 35 ∧
      ∀ tail, Message.parse .response (bytes ++ tail) = .complete message 35 := by
  have read : Message.parse .response ([0, 7, 0x80, 0, 0, 1, 0, 1, 0, 0, 0, 0, 1, 97, 0, 0, 5, 0, 1,
      0xC0, 12, 0, 5, 0, 1, 0, 0, 0, 0, 0, 4, 1, 98, 0xC0, 12] ++ [1, 97, 0]) =
      .complete ⟨7, 0x8000, [⟨"a", 5⟩], [⟨"a", 5, .alias "b.a"⟩], 35⟩ 35 := by decide +kernel
  exact ⟨read, (self_contained_iff read).1.1 (by decide +kernel)⟩

/-- The data of an alias end where the message does, and its name is read from what follows. -/
theorem alias_read_from_behind :
    let bytes : Bytes := [0, 7, 0x80, 0, 0, 0, 0, 1, 0, 0, 0, 0,
      0, 0, 5, 0, 1, 0, 0, 0, 0, 0, 0]
    Message.parse .response (bytes ++ [1, 97, 0]) =
        .complete ⟨7, 0x8000, [], [⟨"", 5, .alias "a"⟩], 23⟩ 23 ∧
      Message.parse .response (bytes ++ [1, 98, 0]) =
        .complete ⟨7, 0x8000, [], [⟨"", 5, .alias "b"⟩], 23⟩ 23 ∧
      Message.parse .response bytes = .needMore none := by
  decide +kernel

end Message

end Dialogue.Dns
