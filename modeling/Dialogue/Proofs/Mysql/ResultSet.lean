import Mathlib
import Dialogue.Proofs.Accounting

/-!
Where a result set of MySQL ends.

A server sends the number of columns, their definitions, the rows and a packet that ends those;
older servers end the definitions with a packet like that, too. The two forms are told apart by the
packet behind the definitions. That packet is a row, or it ends the definitions, but in a result set
without rows whose definitions are not ended it already ends the rows. So the reply is found to be
what was sent (`ResultSet.group_packets`), whatever stands behind it, except for that form
(`ResultSet.group_bare`): there the search goes on through what the server says to later commands.
-/
namespace Dialogue

namespace Mysql

open Pairing

/-- A result set as a server sends it. -/
structure ResultSet where
  /-- Tells the number of columns. -/
  count : Stamped Packet
  definitions : List (Stamped Packet)
  /-- Ends the definitions, where the server ends them. -/
  delimiter : Option (Stamped Packet)
  rows : List (Stamped Packet)
  /-- Ends the rows. -/
  final : Stamped Packet
  told : sizedNumber.read "mysql" count.value.payload = .ok definitions.length
  positive : 1 ≤ definitions.length
  believed : definitions.length ≤ maxColumns
  delimits : ∀ p ∈ delimiter, p.value.isEnd = true
  plain : ∀ p ∈ rows, ends p = false
  closes : final.value.isEnd = true

/-! ## The number of columns -/

theorem read_sizedNumber_nil (n : Nat) : sizedNumber.read "mysql" [] ≠ .ok n := by
  intro h
  cases h

theorem read_sizedNumber_zero (rest : Bytes) : sizedNumber.read "mysql" (0x00 :: rest) = .ok 0 :=
  rfl

theorem read_sizedNumber_error (rest : Bytes) (n : Nat) :
    sizedNumber.read "mysql" (0xFF :: rest) ≠ .ok n := by
  intro h
  cases h

/-- A number of eight bytes is no shorter than that. -/
theorem length_of_read_sizedNumber {rest : Bytes} {n : Nat}
    (h : sizedNumber.read "mysql" (0xFE :: rest) = .ok n) : 8 ≤ rest.length := by
  by_contra short
  have few : atLeast 8 rest = false := by
    rw [← Bool.not_eq_true, atLeast_iff]
    exact short
  have read : sizedNumber (Cursor.start "mysql" (0xFE :: rest)) =
      Field.little 8 ⟨"mysql", 1, rest⟩ := rfl
  have fault : Field.little 8 ⟨"mysql", 1, rest⟩ =
      .error (.tooShort "mysql" 9 (1 + rest.length)) := by
    show Except.bind (if atLeast 8 rest then _ else _) _ = _
    rw [few]
    rfl
  rw [Field.read, read, fault] at h
  cases h

/-- A packet that tells a number of columns starts no other reply. -/
theorem group_of_count {code : UInt8} {first : Stamped Packet} {later : List (Stamped Packet)}
    {columns : Nat} (told : sizedNumber.read "mysql" first.value.payload = .ok columns)
    (positive : 1 ≤ columns) (believed : columns ≤ maxColumns)
    (statistics : code ≠ Command.statistics) (fields : code ≠ Command.fieldList) :
    group code (first :: later) = resultSetGroup columns (first :: later) := by
  have filled : first.value.payload ≠ [] := by
    intro none
    rw [none] at told
    exact read_sizedNumber_nil _ told
  have noError : first.value.payload.head? ≠ some 0xFF := by
    intro h
    obtain ⟨rest, payload⟩ := List.head?_eq_some_iff.1 h
    rw [payload] at told
    exact read_sizedNumber_error _ _ told
  have noSuccess : first.value.payload.head? ≠ some 0x00 := by
    intro h
    obtain ⟨rest, payload⟩ := List.head?_eq_some_iff.1 h
    rw [payload, read_sizedNumber_zero] at told
    cases told
    omega
  have noEnd : ¬ first.value.isEnd = true := by
    intro h
    rw [Packet.isEnd, Bool.and_eq_true, beq_iff_eq, decide_eq_true_eq] at h
    obtain ⟨rest, payload⟩ := List.head?_eq_some_iff.1 h.1
    rw [payload] at told
    have length := length_of_read_sizedNumber told
    rw [payload, List.length_cons] at h
    omega
  rw [group_eq_rule, rule, if_neg filled, if_neg noError, if_neg noSuccess, if_neg noEnd,
    longGroup, if_neg statistics, if_neg fields, told]
  exact if_pos ⟨positive, believed⟩

/-! ## The packets of a result set -/

/-- The first packet that ends something stands behind those that do not. -/
theorem findIdx?_ends {rows : List (Stamped Packet)} {final : Stamped Packet}
    (plain : ∀ p ∈ rows, ends p = false) (closes : final.value.isEnd = true)
    (next : List (Stamped Packet)) :
    (rows ++ final :: next).findIdx? ends = some rows.length := by
  have none : rows.findIdx? ends = none := List.findIdx?_eq_none_iff.2 plain
  have last : ends final = true := by rw [ends, closes, Bool.true_or]
  rw [List.findIdx?_append, none, List.findIdx?_cons, last]
  simp

namespace ResultSet

variable (set : ResultSet) {code : UInt8} {next : List (Stamped Packet)}

/-- The packets, in the order in which they are sent. -/
def packets : List (Stamped Packet) :=
  set.count :: set.definitions ++ set.delimiter.toList ++ set.rows ++ [set.final]

/-- Whether neither rows nor an end of the definitions stand in front of the last packet. -/
def Bare : Prop := set.delimiter = none ∧ set.rows = []

theorem length_packets :
    set.packets.length =
      1 + set.definitions.length + set.delimiter.toList.length + set.rows.length + 1 := by
  simp only [packets, List.length_append, List.length_cons, List.length_nil]
  omega

/-- What stands behind the definitions. -/
theorem drop_packets (next : List (Stamped Packet)) :
    (set.packets ++ next).drop (1 + set.definitions.length) =
      set.delimiter.toList ++ (set.rows ++ set.final :: next) := by
  have split : set.packets ++ next = (set.count :: set.definitions) ++
      (set.delimiter.toList ++ (set.rows ++ set.final :: next)) := by
    simp [packets]
  rw [split, Nat.add_comm, List.drop_left' List.length_cons]

theorem group_eq (statistics : code ≠ Command.statistics) (fields : code ≠ Command.fieldList)
    (next : List (Stamped Packet)) :
    group code (set.packets ++ next) =
      resultSetGroup set.definitions.length (set.packets ++ next) :=
  group_of_count set.told set.positive set.believed statistics fields

section
variable (statistics : code ≠ Command.statistics) (fields : code ≠ Command.fieldList)
include statistics fields

/-- A result set ends where it was ended, whatever is sent after it. -/
theorem group_packets (full : ¬ set.Bare) (next : List (Stamped Packet)) :
    group code (set.packets ++ next) =
      .complete set.packets.length (.resultSet set.rows.length) := by
  rw [set.group_eq statistics fields, set.length_packets]
  have found := findIdx?_ends set.plain set.closes next
  cases delimiter : set.delimiter with
  | some p =>
    have behind : _ = p :: (set.rows ++ set.final :: next) :=
      (set.drop_packets next).trans (by rw [delimiter]; rfl)
    rw [resultSetGroup_of_drop behind, set.delimits p delimiter, Bool.toNat_true, List.drop_one,
      List.tail_cons, found]
    rfl
  | none =>
    cases rows : set.rows with
    | nil => exact absurd ⟨delimiter, rows⟩ full
    | cons row later =>
      have behind : _ = row :: (later ++ set.final :: next) :=
        (set.drop_packets next).trans (by rw [delimiter, rows]; rfl)
      -- The packet behind the definitions is a row, so it does not end them.
      have goes : row.value.isEnd = false :=
        (Bool.or_eq_false_iff.1 (set.plain row (rows ▸ List.mem_cons_self))).1
      rw [rows, List.cons_append] at found
      rw [resultSetGroup_of_drop behind, goes, Bool.toNat_false, List.drop_zero, found]
      rfl

/-- The end of a result set that has nothing in front of it is taken for the end of the definitions,
and the rows are looked for in what is sent after it. -/
theorem group_bare (bare : set.Bare) (next : List (Stamped Packet)) :
    group code (set.packets ++ next) =
      (next.findIdx? ends).elim .pending fun rows =>
        .complete (set.packets.length + (rows + 1)) (.resultSet rows) := by
  obtain ⟨delimiter, rows⟩ := bare
  have behind : _ = set.final :: next :=
    (set.drop_packets next).trans (by rw [delimiter, rows]; rfl)
  rw [set.group_eq statistics fields, set.length_packets, resultSetGroup_of_drop behind, set.closes,
    delimiter, rows, Bool.toNat_true, List.drop_one, List.tail_cons]
  rfl

end

/-! ## The exchange of a command and a result set -/

/-- Whether a result set comes at the right place to answer a command, and the command is one that
result sets answer. -/
structure Answers (command : Stamped Packet) : Prop where
  starts : command.value.sequence = 0
  follows : set.count.value.sequence = 1
  ordered : command.time ≤ set.count.time
  awaited : isUnanswered (commandOf command.value) = false
  statistics : commandOf command.value ≠ Command.statistics
  fields : commandOf command.value ≠ Command.fieldList

variable {set} {command : Stamped Packet}

theorem Answers.counts (h : set.Answers command) : clerk.ignores command = false :=
  decide_eq_false fun other => other h.starts

/-- No packet is passed over in front of the result set. -/
theorem Answers.fresh (h : set.Answers command) (next : List (Stamped Packet)) :
    ∀ m rest, set.packets ++ next = m :: rest → clerk.stale command.time m = false := by
  rintro m rest ⟨⟩
  have ordered := h.ordered
  exact decide_eq_false fun old => old.elim (by omega) fun other => other h.follows

theorem Answers.settle_complete (h : set.Answers command) (prepared : Prepared) {count : Nat}
    {reply : Reply} (complete : group (commandOf command.value) (set.packets ++ next) =
      .complete count reply) :
    clerk.settle prepared command (set.packets ++ next) =
      some ⟨count, .exchange (answered prepared command set.count reply).1,
        (answered prepared command set.count reply).2⟩ := by
  show settle prepared command _ = _
  rw [settle, if_neg (by simp [h.awaited]), complete]
  rfl

theorem Answers.settle_pending (h : set.Answers command) (prepared : Prepared)
    (pending : group (commandOf command.value) (set.packets ++ next) = .pending) :
    clerk.settle prepared command (set.packets ++ next) = none := by
  show settle prepared command _ = _
  rw [settle, if_neg (by simp [h.awaited]), pending]

/-- What is shown of a command with a result set of so many rows. -/
def shown (set : ResultSet) (prepared : Prepared) (command : Stamped Packet) (rows : Nat) :
    Exchange := (answered prepared command set.count (.resultSet rows)).1

/-- **A result set ends where it was ended**, in both forms and for any number of columns: the
command is paired with the packets up to the last one and shown with its rows, and pairing goes on
with what stands behind it, as if neither had been there. Only a result set without rows whose
definitions are not ended runs on. As long as nothing behind it ends a part of a reply, the command
waits; otherwise the packets up to there are taken with it, the ones in front of the last count as
rows, and the commands behind are left with the others. -/
theorem ends_where_sent (h : set.Answers command) (prepared : Prepared)
    (requests next : List (Stamped Packet)) :
    let grouped := group (commandOf command.value) (set.packets ++ next)
    let paired := pair prepared ⟨command :: requests, set.packets ++ next⟩
    (¬ set.Bare →
      grouped = .complete set.packets.length (.resultSet set.rows.length) ∧
      let later := pair prepared ⟨requests, next⟩
      paired = { later with
        exchanges := set.shown prepared command set.rows.length :: later.exchanges }) ∧
    (set.Bare → next.findIdx? ends = none →
      grouped = .pending ∧
      paired = ⟨[], 0, ⟨command :: requests, set.packets ++ next⟩, prepared⟩) ∧
    (set.Bare → ∀ rows, next.findIdx? ends = some rows →
      grouped = .complete (set.packets.length + (rows + 1)) (.resultSet rows) ∧
      let later := pair prepared ⟨requests, next.drop (rows + 1)⟩
      paired = { later with
        exchanges := set.shown prepared command rows :: later.exchanges }) := by
  intro grouped paired
  refine ⟨fun full => ?_, fun bare none => ?_, fun bare rows found => ?_⟩
  · have complete := set.group_packets h.statistics h.fields full next
    have walked := keeps_pairCommands.pair_of_settled h.counts (h.fresh next) requests
      (h.settle_complete prepared complete)
    rw [List.drop_left] at walked
    exact ⟨complete, walked.trans (by simp [pair, Clerk.opening, answered, shown])⟩
  · have pending := set.group_bare h.statistics h.fields bare next
    rw [none] at pending
    exact ⟨pending, keeps_pairCommands.pair_of_waiting h.counts (h.fresh next) requests
      (h.settle_pending prepared pending)⟩
  · have complete := set.group_bare h.statistics h.fields bare next
    rw [found] at complete
    have walked := keeps_pairCommands.pair_of_settled h.counts (h.fresh next) requests
      (h.settle_complete prepared complete)
    rw [List.drop_length_add_append] at walked
    exact ⟨complete, walked.trans (by simp [pair, Clerk.opening, answered, shown])⟩

/-- Two commands, and a reply that refuses the second. -/
def selectCommand : Stamped Packet := ⟨1, 0, Command.query :: ascii "select a"⟩

def dropCommand : Stamped Packet := ⟨4, 0, Command.query :: ascii "drop b"⟩

def refusal : Stamped Packet := ⟨5, 1, [0xFF, 0x7A, 0x04]⟩

/-- A result set of one column, whose definitions are not ended. -/
def plainly (rows : List (Stamped Packet)) (plain : ∀ p ∈ rows, ends p = false) : ResultSet where
  count := ⟨2, 1, [1]⟩
  definitions := [⟨2, 2, ascii "a"⟩]
  delimiter := none
  rows := rows
  final := ⟨3, UInt8.ofNat (3 + rows.length), [0xFE, 0, 0, 2, 0]⟩
  told := rfl
  positive := Nat.le_refl 1
  believed := by decide
  delimits := by rintro p ⟨⟩
  plain := plain
  closes := rfl

/-- One row. -/
def single : ResultSet := plainly [⟨2, 3, [1, 49]⟩] (by decide)

/-- No rows. -/
def vacant : ResultSet := plainly [] (by decide)

theorem ends_where_sent_single :
    single.Answers selectCommand ∧ ¬ single.Bare ∧
      group Command.query (single.packets ++ [refusal]) = .complete 4 (.resultSet 1) ∧
      (pair [] ⟨[selectCommand, dropCommand], single.packets ++ [refusal]⟩).exchanges.length = 2 ∧
      vacant.Answers selectCommand ∧ vacant.Bare ∧ [refusal].findIdx? ends = some 0 ∧
      group Command.query (vacant.packets ++ [refusal]) = .complete 4 (.resultSet 0) := by
  have answers : single.Answers selectCommand := ⟨rfl, rfl, by decide, rfl, by decide, by decide⟩
  have late : vacant.Answers selectCommand := ⟨rfl, rfl, by decide, rfl, by decide, by decide⟩
  have full : ¬ single.Bare := by rintro ⟨-, ⟨⟩⟩
  have bare : vacant.Bare := ⟨rfl, rfl⟩
  have found : [refusal].findIdx? ends = some 0 := rfl
  obtain ⟨whole, paired⟩ := (ends_where_sent answers [] [dropCommand] [refusal]).1 full
  obtain ⟨runsOn, -⟩ := (ends_where_sent late [] [dropCommand] [refusal]).2.2 bare 0 found
  refine ⟨answers, full, whole, ?_, late, bare, found, runsOn⟩
  rw [paired]
  decide +kernel

/-- A result set without rows takes the reply to the next command with it, which is left waiting. -/
theorem next_reply_taken :
    vacant.rows = [] ∧ vacant.packets.length = 3 ∧
      group Command.query (vacant.packets ++ [refusal]) = .complete 4 (.resultSet 0) ∧
      let paired := pair [] ⟨[selectCommand, dropCommand], vacant.packets ++ [refusal]⟩
      paired.exchanges.length = 1 ∧ paired.left.requests.map (·.time) = [4] ∧
        paired.left.responses.length = 0 := by
  decide +kernel

end ResultSet

end Mysql

end Dialogue
