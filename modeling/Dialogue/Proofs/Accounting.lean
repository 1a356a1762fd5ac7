import Mathlib
import Dialogue.Proofs.Causality
import Dialogue.Proofs.Ledger

/-!
PostgreSQL and MySQL lose nothing without counting it.

The ledger of a pass balances, and its entries are fair: a request that asks for a result comes to
one exchange or one error, the messages that it takes are its whole reply, and a message that no
request takes leaves alone and is one error, unless it is of a kind that starts no reply. Both
dialects go through the requests as a clerk does, so each needs only what one step of it does.
-/
namespace Dialogue

namespace Postgres

open Pairing

/-! ## The ledger of a PostgreSQL connection -/

/-- What becomes of a request whose reply takes `count` messages. -/
def settlement (session : Session) (count : Nat) :
    Except DecodeError Completion → Settlement Session Exchange
  | .error _ => ⟨count, .error, session⟩
  | .ok c => ⟨count, c.exchange.elim .nothing .exchange, c.session⟩

/-- What becomes of a request with these responses at hand. -/
def settle (session : Session) (request : Stamped Message) (responses : List (Stamped Message)) :
    Option (Settlement Session Exchange) :=
  match takeReply session request.value.tag responses with
  | none => some ⟨0, .nothing, session⟩
  | some .pending => none
  | some .mismatch => some ⟨0, .error, session⟩
  | some (.malformed count) => some ⟨count, .error, session⟩
  | some (.done reply count) => some (settlement session count (complete session request reply))

/-- How the requests of a connection are gone through. -/
def clerk : Clerk Message Session Exchange where
  ignores _ := false
  stale := stale
  stray m := if Tag.unasked.contains m.value.tag then .nothing else .error
  settle := settle

theorem discard_eq (p : Progress) (m : Stamped Message) :
    discard p m = p.note (clerk.aside p.state m) := by
  unfold discard Clerk.aside clerk
  dsimp only
  split <;> rfl

theorem enter_eq (p : Progress) (request : Stamped Message) (count : Nat)
    (completed : Except DecodeError Completion) :
    let s := settlement p.state count completed
    enter (p.withResponses (p.left.responses.drop count)) completed =
      (p.note (s.entry request p.left.responses)).withResponses
        (p.left.responses.drop s.taken) := by
  cases completed with
  | error e => rfl
  | ok c =>
    obtain ⟨session, exchange⟩ := c
    cases exchange <;> rfl

theorem keeps_pairRequests : clerk.Keeps pairRequests where
  nil p := congrArg (fun step => (p.left.responses.foldl step p).withResponses [])
    (funext₂ discard_eq)
  ignored _ _ _ out := by cases out
  settled p request rest _ := by
    intro q
    have dropped : dropStale request.time p p.left.responses = q := by
      rw [dropStale_eq, funext₂ discard_eq]
      rfl
    rw [pairRequests, dropped]
    show _ = (settle q.state request q.left.responses).elim _ _
    unfold settle
    generalize takeReply q.state request.value.tag q.left.responses = taken
    rcases taken with _ | ⟨reply, count⟩ | _ | _ | count
    · rfl
    · exact congrArg (pairRequests · rest) (enter_eq q request count _)
    · rfl
    · rfl
    · rfl

/-! ## What a reply takes -/

/-- The messages that a reply takes, where it has ended. -/
def Take.count? : Take → Option Nat
  | done _ count => some count
  | malformed count => some count
  | _ => none

/-- What is found of a result does not depend on what stands behind its end. -/
theorem extent_found {ends : List UInt8} {body ms before : List (Stamped Message)}
    {terminal : Stamped Message} (h : extent ends body ms = .found before terminal) :
    ∃ more rest, before = body.reverse ++ more ∧ ms = more ++ terminal :: rest ∧
      ∀ later, extent ends body (more ++ terminal :: later) = .found before terminal := by
  induction ms generalizing body with
  | nil => cases h
  | cons m rest ih =>
    rw [extent] at h
    split_ifs at h with ended inside
    · obtain ⟨rfl, rfl⟩ := Extent.found.inj h
      exact ⟨[], rest, by simp, rfl, fun later => if_pos ended⟩
    · obtain ⟨more, behind, rfl, rfl, same⟩ := ih h
      refine ⟨m :: more, behind, by simp, rfl, fun later => ?_⟩
      rw [List.cons_append, extent, if_neg ended, if_pos inside]
      exact same later

section
variable {ms : List (Stamped Message)} {taken : Take} {count : Nat}

theorem take_takeResult {columns : List Bytes} {ends : List UInt8}
    (h : takeResult columns ends ms = taken) (counts : taken.count? = some count) :
    count ≤ ms.length ∧ takeResult columns ends (ms.take count) = taken := by
  unfold takeResult at h
  split at h
  · subst h
    cases counts
  · subst h
    cases counts
  · next before terminal found =>
    obtain ⟨_, rest, rfl, rfl, same⟩ := extent_found found
    have length : count = before.length + 1 := by
      dsimp only at h
      split at h <;> (subst h; exact (Option.some.inj counts).symm)
    have whole : (before ++ terminal :: rest).take count = before ++ [terminal] := by
      rw [length, List.take_length_add_append]
      rfl
    refine ⟨by simp [length], ?_⟩
    rw [whole, takeResult, same []]
    exact h

theorem take_takeSingle {tag : UInt8} (h : takeSingle tag ms = taken)
    (counts : taken.count? = some count) :
    count ≤ ms.length ∧ takeSingle tag (ms.take count) = taken := by
  cases ms with
  | nil =>
    subst h
    cases counts
  | cons m rest =>
    unfold takeSingle at h
    dsimp only at h
    split at h
    · next fits =>
      subst h
      cases counts
      exact ⟨by simp, if_pos fits⟩
    · subst h
      cases counts

theorem take_takeDescribe (h : takeDescribe ms = taken) (counts : taken.count? = some count) :
    count ≤ ms.length ∧ takeDescribe (ms.take count) = taken := by
  cases ms with
  | nil =>
    subst h
    cases counts
  | cons m rest =>
    unfold takeDescribe at h
    dsimp only at h
    split at h
    · next parameters =>
      cases rest with
      | nil =>
        subst h
        cases counts
      | cons second rest =>
        unfold takeDescription at h
        dsimp only at h
        split at h
        · next ended =>
          subst h
          cases counts
          exact ⟨by simp, (if_pos parameters).trans (if_pos ended)⟩
        · subst h
          cases counts
    · next other =>
      unfold takeDescription at h
      dsimp only at h
      split at h
      · next ended =>
        subst h
        cases counts
        exact ⟨by simp, (if_neg other).trans (if_pos ended)⟩
      · subst h
        cases counts

/-- The messages that a reply takes are a whole reply on their own. -/
theorem take_takeReply {session : Session} {tag : UInt8}
    (h : takeReply session tag ms = some taken) (counts : taken.count? = some count) :
    count ≤ ms.length ∧ takeReply session tag (ms.take count) = some taken := by
  unfold takeReply at h ⊢
  split_ifs at h ⊢
  · exact (take_takeResult (Option.some.inj h) counts).imp_right (congrArg some)
  · exact (take_takeResult (Option.some.inj h) counts).imp_right (congrArg some)
  · exact (take_takeSingle (Option.some.inj h) counts).imp_right (congrArg some)
  · exact (take_takeSingle (Option.some.inj h) counts).imp_right (congrArg some)
  · exact (take_takeSingle (Option.some.inj h) counts).imp_right (congrArg some)
  · exact (take_takeSingle (Option.some.inj h) counts).imp_right (congrArg some)
  · exact (take_takeDescribe (Option.some.inj h) counts).imp_right (congrArg some)

end

/-! ## What an entry says -/

/-- The tags of the requests that the server answers. -/
def answeredTags : List UInt8 :=
  [Tag.query, Tag.execute, Tag.parse, Tag.bind, Tag.close, Tag.functionCall, Tag.describe]

/-- A message that no request takes leaves alone, and is an error unless it was sent unasked. -/
def Aside (e : Entry Message Session Exchange) : Prop :=
  ∃ m, e.responses = [m] ∧
    e.outcome = if Tag.unasked.contains m.value.tag then .nothing else .error

/-- What becomes of a request. -/
structure Settles (session : Session) (request : Stamped Message)
    (e : Entry Message Session Exchange) : Prop where
  /-- A query or an execution comes to an exchange or to an error. -/
  counted : request.value.tag = Tag.query ∨ request.value.tag = Tag.execute → e.outcome ≠ .nothing
  /-- A request that the server does not answer takes no message, and is no error. -/
  silent : request.value.tag ∉ answeredTags → e.responses = [] ∧ e.outcome = .nothing
  /-- The messages that are taken are a whole reply to the request, be it in the right format or
  not. -/
  whole : e.responses ≠ [] → ∃ taken, takeReply session request.value.tag e.responses = some taken ∧
    taken.count? = some e.responses.length
  /-- An exchange is what the request and the reply that it takes come to. -/
  shown : ∀ x, e.outcome = .exchange x → ∃ reply,
    takeReply session request.value.tag e.responses = some (.done reply e.responses.length) ∧
      complete session request reply = .ok ⟨e.after, some x⟩

/-- An entry accounts for a request with its reply, or for a message on its own. -/
def Fair (session : Session) (e : Entry Message Session Exchange) : Prop :=
  e.request.elim (Aside e) fun request => Settles session request e

theorem takeReply_eq_none {session : Session} {tag : UInt8} {responses : List (Stamped Message)} :
    takeReply session tag responses = none ↔ tag ∉ answeredTags := by
  unfold takeReply answeredTags
  split_ifs <;> simp [*]

section
variable {session : Session} {request : Stamped Message} {responses : List (Stamped Message)}

/-- What a request comes to without a reply; `outcome` is nothing or an error. -/
theorem settles_alone {outcome : Outcome Exchange} (after : Session)
    (counted : request.value.tag = Tag.query ∨ request.value.tag = Tag.execute →
      outcome ≠ .nothing)
    (silent : request.value.tag ∉ answeredTags → outcome = .nothing)
    (none : outcome.exchange? = none) :
    Settles session request ⟨some request, [], outcome, after⟩ where
  counted := counted
  silent out := ⟨rfl, silent out⟩
  whole some := absurd rfl some
  shown x made := by
    obtain rfl : outcome = .exchange x := made
    cases none

/-- A query or an execution that is answered makes an exchange. -/
theorem complete_of_result (reply : Side)
    (result : request.value.tag = Tag.query ∨ request.value.tag = Tag.execute) :
    ∃ x, complete session request reply = .ok ⟨session, some x⟩ := by
  have execute : Tag.execute ≠ Tag.query := by decide
  rcases result with tag | tag <;> simp [complete, tag, execute]

theorem settles_of_done {reply : Side} {count : Nat}
    (taken : takeReply session request.value.tag responses = some (.done reply count)) :
    Settles session request
      ((settlement session count (complete session request reply)).entry request responses) := by
  obtain ⟨le, whole⟩ := take_takeReply taken rfl
  have length : (responses.take count).length = count := List.length_take_of_le le
  have silent : request.value.tag ∈ answeredTags := by
    by_contra out
    rw [takeReply_eq_none.2 out] at taken
    cases taken
  cases completed : complete session request reply with
  | error e =>
    exact
      { counted := fun _ => by simp [settlement, Settlement.entry]
        silent := absurd silent
        whole := fun _ => ⟨_, whole, congrArg some length.symm⟩
        shown := fun x made => by cases made }
  | ok c =>
    obtain ⟨after, exchange⟩ := c
    refine
      { counted := fun result => ?_
        silent := absurd silent
        whole := fun _ => ⟨_, whole, congrArg some length.symm⟩
        shown := fun x made => ⟨reply, ?_, ?_⟩ }
    · obtain ⟨x, answered⟩ : ∃ x, complete session request reply = .ok ⟨session, some x⟩ :=
        complete_of_result reply result
      rw [answered] at completed
      cases completed
      simp [settlement, Settlement.entry]
    · exact whole.trans (congrArg (fun n => some (Take.done reply n)) length.symm)
    · cases exchange with
      | none => cases made
      | some y =>
        cases made
        exact completed

theorem settles_of_settle {s : Settlement Session Exchange}
    (h : settle session request responses = some s) :
    Settles session request (s.entry request responses) := by
  unfold settle at h
  -- A query or an execution is answered, so the first case is none of theirs.
  split at h
  · next unanswered =>
    cases h
    refine settles_alone session (fun result => ?_) (fun _ => rfl) rfl
    refine absurd ?_ (takeReply_eq_none.1 unanswered)
    rcases result with tag | tag <;> (rw [tag]; decide)
  · cases h
  · next mismatch =>
    cases h
    refine settles_alone session (fun _ => by simp) (fun out => ?_) rfl
    rw [takeReply_eq_none.2 out] at mismatch
    cases mismatch
  · next count malformed =>
    cases h
    obtain ⟨le, whole⟩ := take_takeReply malformed rfl
    exact
      { counted := fun _ => by simp [Settlement.entry]
        silent := fun out => by
          rw [takeReply_eq_none.2 out] at malformed
          cases malformed
        whole := fun _ => ⟨_, whole, congrArg some (List.length_take_of_le le).symm⟩
        shown := fun x made => by cases made }
  · next reply count done =>
    cases h
    exact settles_of_done done

end

theorem fair_of_step {session : Session} {e : Entry Message Session Exchange}
    (h : clerk.Step session e) : Fair session e := by
  cases h with
  | aside m => exact ⟨m, rfl, rfl⟩
  | passed ignored => cases ignored
  | settled _ _ settled => exact settles_of_settle settled

end Postgres

namespace Mysql

open Pairing

/-! ## The ledger of a MySQL connection -/

/-- What becomes of a command with these packets at hand. -/
def settle (prepared : Prepared) (command : Stamped Packet) (responses : List (Stamped Packet)) :
    Option (Settlement Prepared Exchange) :=
  if isUnanswered (commandOf command.value) then
    some ⟨0, .exchange (unanswered prepared command).1, (unanswered prepared command).2⟩
  else
    match group (commandOf command.value) responses with
    | .pending => none
    | .malformed => some ⟨1, .error, prepared⟩
    | .complete packets reply =>
      responses.head?.map fun first =>
        ⟨packets, .exchange (answered prepared command first reply).1,
          (answered prepared command first reply).2⟩

/-- How the commands of a connection are gone through. -/
def clerk : Clerk Packet Prepared Exchange where
  ignores command := decide (command.value.sequence ≠ 0)
  stale := stale
  stray m := if m.value.sequence = 1 then .error else .nothing
  settle := settle

theorem discard_eq (p : Progress) (m : Stamped Packet) :
    discard p m = p.note (clerk.aside p.state m) := by
  unfold discard Clerk.aside clerk
  dsimp only
  split <;> rfl

theorem keeps_pairCommands : clerk.Keeps pairCommands where
  nil p := congrArg (fun step => (p.left.responses.foldl step p).withResponses [])
    (funext₂ discard_eq)
  ignored p command rest out := by
    rw [pairCommands, if_pos (of_decide_eq_true out)]
  settled p command rest starts := by
    intro q
    have dropped : dropStale command.time p p.left.responses = q := by
      rw [dropStale_eq, funext₂ discard_eq]
      rfl
    rw [pairCommands, if_neg (of_decide_eq_false starts), dropped]
    show _ = (settle q.state command q.left.responses).elim _ _
    unfold settle
    dsimp only
    split
    · rfl
    · cases responses : q.left.responses with
      | nil => rfl
      | cons first later =>
        generalize group (commandOf command.value) (first :: later) = taken
        cases taken with
        | pending => rfl
        | malformed => rfl
        | complete packets reply =>
          unfold takeReply
          rw [responses]
          rfl

/-! ## What a reply takes -/

/-- Whether the packets that a rule takes for a reply are a whole reply on their own. -/
def Whole (rule : List (Stamped Packet) → Group) : Prop :=
  ∀ packets count reply, packets ≠ [] → rule packets = .complete count reply →
    0 < count ∧ count ≤ packets.length ∧ rule (packets.take count) = .complete count reply

theorem whole_const (said : Reply) : Whole fun _ => .complete 1 said := by
  intro packets count reply some h
  cases h
  exact ⟨Nat.one_pos, List.length_pos_of_ne_nil some, rfl⟩

theorem take_findIdx? {packets : List (Stamped Packet)} {i : Nat}
    (h : packets.findIdx? ends = some i) :
    i < packets.length ∧ (packets.take (i + 1)).findIdx? ends = some i := by
  refine ⟨(List.findIdx?_eq_some_iff_findIdx_eq.1 h).1, ?_⟩
  simp [List.findIdx?_take, h]

theorem whole_fieldsGroup : Whole fieldsGroup := by
  intro packets count reply _ h
  unfold fieldsGroup at h
  split at h
  · next i found =>
    cases h
    obtain ⟨lt, found⟩ := take_findIdx? found
    exact ⟨i.succ_pos, lt, by rw [fieldsGroup, found]⟩
  · cases h

/-- The rows of a result set stand behind the columns and perhaps a packet that ends those. -/
theorem resultSetGroup_of_drop {packets : List (Stamped Packet)} {columns : Nat}
    {p : Stamped Packet} {rest : List (Stamped Packet)}
    (behind : packets.drop (1 + columns) = p :: rest) :
    resultSetGroup columns packets =
      (((p :: rest).drop p.value.isEnd.toNat).findIdx? ends).elim .pending fun rows =>
        .complete (1 + columns + p.value.isEnd.toNat + rows + 1) (.resultSet rows) := by
  unfold resultSetGroup
  rw [behind]
  dsimp only
  cases p.value.isEnd with
  | true =>
    show _ = (rest.findIdx? ends).elim _ _
    rw [if_pos rfl, show 1 + columns + true.toNat = 2 + columns by simp; omega]
    dsimp only
    cases rest.findIdx? ends <;> rfl
  | false =>
    show _ = ((p :: rest).findIdx? ends).elim _ _
    rw [if_neg Bool.false_ne_true]
    dsimp only
    cases (p :: rest).findIdx? ends <;> rfl

theorem whole_resultSetGroup (columns : Nat) : Whole (resultSetGroup columns) := by
  intro packets count reply _ h
  cases behind : packets.drop (1 + columns) with
  | nil =>
    rw [resultSetGroup, behind] at h
    cases h
  | cons p rest =>
    have length : packets.length - (1 + columns) = (p :: rest).length := by
      rw [← behind, List.length_drop]
    rw [resultSetGroup_of_drop behind] at h
    cases found : ((p :: rest).drop p.value.isEnd.toNat).findIdx? ends with
    | none =>
      rw [found] at h
      cases h
    | some rows =>
      rw [found] at h
      cases h
      obtain ⟨lt, found⟩ := take_findIdx? found
      rw [List.length_drop] at lt
      have first : (packets.take (1 + columns + p.value.isEnd.toNat + rows + 1)).drop (1 + columns)
          = p :: rest.take (p.value.isEnd.toNat + rows) := by
        rw [List.drop_take, behind, Nat.add_assoc, Nat.add_assoc, Nat.add_sub_cancel_left]
        rfl
      refine ⟨Nat.succ_pos _, by omega, ?_⟩
      rw [resultSetGroup_of_drop first, ← List.take_succ_cons, List.drop_take,
        show p.value.isEnd.toNat + rows + 1 - p.value.isEnd.toNat = rows + 1 by omega, found]
      rfl

theorem whole_prepareGroup (first : Bytes) : Whole (prepareGroup first) := by
  intro packets count reply _ h
  unfold prepareGroup at h
  split at h
  · cases h
  · next statement columns params read =>
    dsimp only at h
    split at h
    · next enough =>
      cases h
      have le := atLeast_iff.1 enough
      refine ⟨by omega, le, ?_⟩
      rw [prepareGroup, read]
      simp [atLeast_iff, le]
    · cases h

theorem whole_longGroup (code : UInt8) (first : Bytes) : Whole (longGroup code first) := by
  intro packets count reply some h
  unfold longGroup at h ⊢
  split_ifs at h ⊢
  · cases h
    exact ⟨Nat.one_pos, List.length_pos_of_ne_nil some, rfl⟩
  · exact whole_fieldsGroup packets count reply some h
  · split at h
    · cases h
    · split_ifs at h ⊢
      exact whole_resultSetGroup _ packets count reply some h

/-- The rule that the first packet chooses. -/
def rule (code : UInt8) (first : Packet) : List (Stamped Packet) → Group :=
  if first.payload = [] then fun _ => .complete 1 .text
  else if first.payload.head? = some 0xFF then fun _ => .complete 1 .error
  else if first.payload.head? = some 0x00 then
    if code = Command.prepare then prepareGroup first.payload else fun _ => .complete 1 .ok
  else if first.isEnd then fun _ => .complete 1 .finished
  else longGroup code first.payload

theorem group_eq_rule (code : UInt8) (first : Stamped Packet) (later : List (Stamped Packet)) :
    group code (first :: later) = rule code first.value (first :: later) := by
  unfold group rule
  dsimp only
  split
  · next empty => rw [if_pos empty]
  · next rest error => simp [error]
  · next rest success =>
    simp only [success, List.head?_cons, reduceCtorEq, if_false, if_true, Option.some.injEq,
      show (0x00 : UInt8) ≠ 0xFF by decide]
    split <;> rfl
  · next empty error success =>
    have noError : first.value.payload.head? ≠ some 0xFF := by
      intro h
      obtain ⟨rest, payload⟩ := List.head?_eq_some_iff.1 h
      exact error rest payload
    have noSuccess : first.value.payload.head? ≠ some 0x00 := by
      intro h
      obtain ⟨rest, payload⟩ := List.head?_eq_some_iff.1 h
      exact success rest payload
    rw [if_neg empty, if_neg noError, if_neg noSuccess]
    split <;> rfl

/-- The packets that a reply takes are a whole reply on their own. -/
theorem whole_group (code : UInt8) : Whole (group code) := by
  intro packets count reply some h
  cases packets with
  | nil => exact absurd rfl some
  | cons first later =>
    rw [group_eq_rule] at h
    have whole : Whole (rule code first.value) := by
      unfold rule
      split_ifs
      · exact whole_const .text
      · exact whole_const .error
      · exact whole_prepareGroup _
      · exact whole_const .ok
      · exact whole_const .finished
      · exact whole_longGroup code _
    obtain ⟨pos, le, taken⟩ := whole _ count reply some h
    refine ⟨pos, le, ?_⟩
    obtain ⟨n, rfl⟩ := Nat.exists_eq_succ_of_ne_zero pos.ne'
    rw [List.take_succ_cons, group_eq_rule]
    exact taken

/-- Whether a rule says that no reply starts here without looking at the packets. -/
def Judged (rule : List (Stamped Packet) → Group) : Prop :=
  ∀ packets others, rule packets = .malformed → rule others = .malformed

theorem judged_const (said : Group) : Judged fun _ => said := fun _ _ h => h

theorem resultSetGroup_ne_malformed (columns : Nat) (packets : List (Stamped Packet)) :
    resultSetGroup columns packets ≠ .malformed := by
  cases behind : packets.drop (1 + columns) with
  | nil => simp [resultSetGroup, behind]
  | cons p rest =>
    rw [resultSetGroup_of_drop behind]
    cases ((p :: rest).drop p.value.isEnd.toNat).findIdx? ends <;> simp

theorem judged_prepareGroup (first : Bytes) : Judged (prepareGroup first) := by
  intro packets others h
  unfold prepareGroup at h ⊢
  split at h
  · rfl
  · dsimp only at h
    split at h <;> cases h

theorem judged_longGroup (code : UInt8) (first : Bytes) : Judged (longGroup code first) := by
  intro packets others h
  unfold longGroup at h ⊢
  split_ifs at h ⊢
  · unfold fieldsGroup at h
    split at h <;> cases h
  · split at h
    · rfl
    · split_ifs at h ⊢
      · exact absurd h (resultSetGroup_ne_malformed _ packets)
      · rfl

/-- Whether a reply starts with a packet is seen from the packet alone. -/
theorem group_singleton {code : UInt8} {first : Stamped Packet} {later : List (Stamped Packet)}
    (h : group code (first :: later) = .malformed) : group code [first] = .malformed := by
  rw [group_eq_rule] at h ⊢
  have judged : Judged (rule code first.value) := by
    unfold rule
    split_ifs
    · exact judged_const _
    · exact judged_const _
    · exact judged_prepareGroup _
    · exact judged_const _
    · exact judged_const _
    · exact judged_longGroup code _
  exact judged _ _ h

/-! ## What an entry says -/

/-- A packet that no command takes leaves alone, and is an error if a reply starts with it. -/
def Aside (e : Entry Packet Prepared Exchange) : Prop :=
  ∃ m, e.responses = [m] ∧ e.outcome = if m.value.sequence = 1 then .error else .nothing

/-- What becomes of a packet of the client. -/
structure Settles (prepared : Prepared) (command : Stamped Packet)
    (e : Entry Packet Prepared Exchange) : Prop where
  /-- A command comes to an exchange or to an error. -/
  counted : command.value.sequence = 0 → e.outcome ≠ .nothing
  /-- A packet that is no command takes no packet, and is no error. -/
  silent : command.value.sequence ≠ 0 → e.responses = [] ∧ e.outcome = .nothing
  /-- The packets that are taken are a whole reply, or one packet that starts none. -/
  whole : e.responses ≠ [] →
    (∃ reply, group (commandOf command.value) e.responses =
      .complete e.responses.length reply) ∨
    (∃ first, e.responses = [first]) ∧ group (commandOf command.value) e.responses = .malformed
  /-- An exchange is what the command comes to, with the reply that it takes if it has one. -/
  shown : ∀ x, e.outcome = .exchange x →
    (isUnanswered (commandOf command.value) = true ∧ e.responses = [] ∧
      (x, e.after) = unanswered prepared command) ∨
    ∃ first later reply, e.responses = first :: later ∧
      group (commandOf command.value) e.responses = .complete e.responses.length reply ∧
      (x, e.after) = answered prepared command first reply

/-- An entry accounts for a command with its reply, or for a packet on its own. -/
def Fair (prepared : Prepared) (e : Entry Packet Prepared Exchange) : Prop :=
  e.request.elim (Aside e) fun command => Settles prepared command e

theorem settles_of_settle {prepared : Prepared} {command : Stamped Packet}
    {responses : List (Stamped Packet)} {s : Settlement Prepared Exchange}
    (starts : command.value.sequence = 0) (h : settle prepared command responses = some s) :
    Settles prepared command (s.entry command responses) := by
  unfold settle at h
  split at h
  · next alone =>
    cases h
    exact
      { counted := fun _ => by simp [Settlement.entry]
        silent := absurd starts
        whole := absurd rfl
        shown := fun x made => by
          cases made
          exact .inl ⟨alone, rfl, rfl⟩ }
  · split at h
    · cases h
    · next malformed =>
      cases h
      cases responses with
      | nil => cases malformed
      | cons first later =>
        -- One packet is taken, and it alone shows that no reply starts with it.
        exact
          { counted := fun _ => by simp [Settlement.entry]
            silent := absurd starts
            whole := fun _ => .inr ⟨⟨first, rfl⟩, group_singleton malformed⟩
            shown := fun x made => by cases made }
    · next packets reply complete =>
      cases responses with
      | nil => cases complete
      | cons first later =>
        cases h
        obtain ⟨pos, le, whole⟩ := whole_group _ _ packets reply (List.cons_ne_nil _ _) complete
        have length : ((first :: later).take packets).length = packets :=
          List.length_take_of_le le
        have taken : group (commandOf command.value) ((first :: later).take packets) =
            .complete ((first :: later).take packets).length reply := by rw [whole, length]
        exact
          { counted := fun _ => by simp [Settlement.entry]
            silent := absurd starts
            whole := fun _ => .inl ⟨reply, taken⟩
            shown := fun x made => by
              cases made
              obtain ⟨n, rfl⟩ := Nat.exists_eq_succ_of_ne_zero pos.ne'
              exact .inr ⟨first, later.take n, reply, rfl, taken, rfl⟩ }

theorem fair_of_step {prepared : Prepared} {e : Entry Packet Prepared Exchange}
    (h : clerk.Step prepared e) : Fair prepared e := by
  cases h with
  | aside m => exact ⟨m, rfl, rfl⟩
  | @passed command other =>
    have other : command.value.sequence ≠ 0 := of_decide_eq_true other
    exact
      { counted := fun starts => absurd starts other
        silent := fun _ => ⟨rfl, rfl⟩
        whole := absurd rfl
        shown := fun x made => by cases made }
  | settled counts _ settled =>
    exact settles_of_settle (not_not.1 (of_decide_eq_false counts)) settled

end Mysql

/-- **PostgreSQL and MySQL lose nothing without counting it**, whatever waits in a lane and whatever
is remembered. One pass keeps a ledger that balances: the requests and the responses that are gone
are those of its entries, in order, each entry comes to at most one exchange or one error, and these
are all that the pass finds and counts. Each entry is fair. A query, an execution or a MySQL command
comes to an exchange or to an error; the messages that it takes are its whole reply; a response that
no request takes leaves alone, and is one error, unless it was sent unasked or, in MySQL, does not
start a reply; and what the server does not answer is no error. -/
theorem Protocol.losses_accounted :
    (∀ (session : Postgres.Session) (lane : Lane Postgres.Message),
      Ledger.Balances session (Postgres.clerk.ledger session lane) lane
          (Postgres.pair session lane) ∧
        Ledger.Trail Postgres.Fair session (Postgres.clerk.ledger session lane)) ∧
    ∀ (prepared : Mysql.Prepared) (lane : Lane Mysql.Packet),
      Ledger.Balances prepared (Mysql.clerk.ledger prepared lane) lane
          (Mysql.pair prepared lane) ∧
        Ledger.Trail Mysql.Fair prepared (Mysql.clerk.ledger prepared lane) := by
  constructor
  · intro session lane
    exact ⟨Postgres.keeps_pairRequests.balances session lane,
      (Postgres.clerk.trail_walk session _ _).imp fun _ _ => Postgres.fair_of_step⟩
  · intro prepared lane
    exact ⟨Mysql.keeps_pairCommands.balances prepared lane,
      (Mysql.clerk.trail_walk prepared _ _).imp fun _ _ => Mysql.fair_of_step⟩

/-- A ping, an answer from before it, its own and a packet that starts no reply. -/
def Mysql.hasty : Lane Mysql.Packet :=
  ⟨[⟨5, 0, [0x0E]⟩], [⟨3, 1, [0x00]⟩, ⟨6, 1, [0x00]⟩, ⟨7, 2, [0x00]⟩]⟩

/-- For each entry: whether it has a request, its responses and its errors. -/
example :
    (Mysql.clerk.ledger [] Mysql.hasty).map
        (fun e => (e.request.isSome, e.responses.length, e.outcome.errors)) =
      [(false, 1, 1), (true, 1, 0), (false, 1, 0)] := by
  decide +kernel

end Dialogue
