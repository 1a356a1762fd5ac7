import Mathlib
import Dialogue.Proofs.Accounting
import Dialogue.Proofs.Memory

/-!
A text that is shown for a prepared statement is the one that was prepared last.

The entries of a run of passes say which statements were prepared and closed, in the order in which
the pairing saw it (`deed?`), and what a step does to the memory follows from what its entry says
(`Turn`, `learn`). So along every run the memory recalls what the entries before say: no other text
is ever shown, and never more than `Memory.limit` are held. In PostgreSQL an execution shows what
was bound last, with the text that stood when it was bound.
-/
namespace Dialogue

/-- What is read off a list with one more member. -/
theorem filterMap_snoc {α β : Type} (f : α → Option β) (xs : List α) (x : α) :
    (xs ++ [x]).filterMap f = xs.filterMap f ++ (f x).toList := by
  rw [List.filterMap_append]
  cases h : f x <;> simp [h]

/-- What the runs of a dialect show of the statements that it remembers. -/
structure Remembers {F S X : Type} (initial : S) (pair : S → Lane F → Paired F S X)
    (ledger : S → Lane F → Ledger F S X) (held : S → Nat)
    (Shows : Ledger F S X → Entry F S X → Prop) : Prop where
  /-- The ledger of each pass accounts for it. -/
  balances : ∀ σ lane, Ledger.Balances σ (ledger σ lane) lane (pair σ lane)
  /-- The memory is bounded after each pass of a run. -/
  bounded : ∀ lanes : List (Lane F),
    held (lanes.foldl (fun σ lane => (pair σ lane).state) initial) ≤ Memory.limit
  /-- Within a pass, too. -/
  within : ∀ lanes, ∀ e ∈ Ledger.history ledger initial lanes, held e.after ≤ Memory.limit
  /-- What an entry shows follows from the entries before it. -/
  shows : ∀ lanes earlier e later,
    Ledger.history ledger initial lanes = earlier ++ e :: later → Shows earlier e

/-- A run remembers what each step keeps up. -/
theorem Remembers.of_trail {F S X : Type} {initial : S} {pair : S → Lane F → Paired F S X}
    {ledger : S → Lane F → Ledger F S X} {held : S → Nat}
    {Shows : Ledger F S X → Entry F S X → Prop} {Step : S → Entry F S X → Prop}
    (Knows : Ledger F S X → S → Prop)
    (balances : ∀ σ lane, Ledger.Balances σ (ledger σ lane) lane (pair σ lane))
    (trail : ∀ σ lane, Ledger.Trail Step σ (ledger σ lane)) (start : Knows [] initial)
    (kept : ∀ past σ e, Knows past σ → Step σ e → Knows (past ++ [e]) e.after)
    (few : ∀ past σ, Knows past σ → held σ ≤ Memory.limit)
    (shows : ∀ past σ e, Knows past σ → Step σ e → Shows past e) :
    Remembers initial pair ledger held Shows where
  balances := balances
  bounded lanes := by
    have run := (Ledger.trail_history trail initial lanes).keeps start kept
    rw [← Ledger.leaves_history balances]
    exact few _ _ run.1
  within lanes e he := by
    have run := (Ledger.trail_history trail initial lanes).keeps start kept
    obtain ⟨earlier, later, split⟩ := List.append_of_mem he
    obtain ⟨σ, knows, step⟩ := run.2 earlier e later split
    exact few _ _ (kept _ _ _ knows step)
  shows lanes earlier e later split := by
    have run := (Ledger.trail_history trail initial lanes).keeps start kept
    obtain ⟨σ, knows, step⟩ := run.2 earlier e later split
    exact shows _ _ _ (by simpa using knows) step

namespace Postgres

/-! ## PostgreSQL -/

/-- What a request and the first message of its reply do to the statements. -/
def deedOf (request reply : Message) : Option (Deed Bytes Bytes) :=
  if request.tag = Tag.parse ∧ reply.tag = Tag.parseComplete then
    (Payload.read Payload.names request.payload).toOption.map fun names => .prepares names.1 names.2
  else if request.tag = Tag.close ∧ reply.tag = Tag.closeComplete then
    ((Payload.read Payload.target request.payload).toOption.filter (·.1 = .statement)).map
      fun target => .closes target.2
  else none

/-- What an entry does to the statements. -/
def deed? (e : Entry Message Session Exchange) : Option (Deed Bytes Bytes) :=
  e.request.bind fun request => e.responses.head?.bind fun reply =>
    deedOf request.value reply.value

/-- The name of the statement that an entry binds. -/
def bound? (e : Entry Message Session Exchange) : Option Bytes :=
  e.request.bind fun request => e.responses.head?.bind fun reply =>
    if request.value.tag = Tag.bind ∧ reply.value.tag = Tag.bindComplete then
      (Payload.read Payload.names request.value.payload).toOption.map (·.2)
    else none

/-- What a step does to the session, and what its entry says about it. -/
inductive Turn (session : Session) (e : Entry Message Session Exchange) : Prop where
  | prepares {name query : Bytes} (deed : deed? e = some (.prepares name query))
      (bound : bound? e = none)
      (after : e.after =
        { session with statements := session.statements.renew name { query := query } })
  | closes {name : Bytes} (deed : deed? e = some (.closes name)) (bound : bound? e = none)
      (after : e.after = { session with statements := session.statements.forget name })
  | binds {name : Bytes} (deed : deed? e = none) (bound : bound? e = some name)
      (after : e.after =
        { session with portal := some ((session.statements.value? name).getD {}) })
  | describes {name : Bytes} {columns : List Bytes} (deed : deed? e = none)
      (bound : bound? e = none)
      (after : e.after = { session with
        statements := session.statements.modify name fun s => { s with columns := columns } })
  | describesPortal {columns : List Bytes} (deed : deed? e = none) (bound : bound? e = none)
      (after : e.after = { session with
        portal := session.portal.map fun s => { s with columns := columns } })
  | idle (deed : deed? e = none) (bound : bound? e = none) (after : e.after = session)

section
variable {session : Session} {request m : Stamped Message} {e : Entry Message Session Exchange}

theorem deed?_of_tag (asks : e.request = some request) (parse : request.value.tag ≠ Tag.parse)
    (close : request.value.tag ≠ Tag.close) : deed? e = none := by
  simp [deed?, asks, deedOf, parse, close]

theorem bound?_of_tag (asks : e.request = some request) (bind : request.value.tag ≠ Tag.bind) :
    bound? e = none := by
  simp [bound?, asks, bind]

/-- Most kinds of requests do nothing to the statements. -/
theorem turn_of_tag (asks : e.request = some request)
    (other : request.value.tag ∉ [Tag.parse, Tag.bind, Tag.close]) (after : e.after = session) :
    Turn session e := by
  simp only [List.mem_cons, List.not_mem_nil, or_false, not_or] at other
  obtain ⟨parse, bind, close⟩ := other
  exact .idle (deed?_of_tag asks parse close) (bound?_of_tag asks bind) after

/-- The session that a completion leaves, which is the old one if there is none. -/
def leftBy (session : Session) (completed : Except DecodeError Completion) : Session :=
  completed.toOption.elim session (·.session)

theorem settlement_after (count : Nat) (completed : Except DecodeError Completion) :
    (settlement session count completed).after = leftBy session completed := by
  cases completed <;> rfl

theorem leftBy_refusal (request : Side) (query : Bytes) (reply : Side) :
    leftBy session (refusal session request query reply) = session := by
  unfold refusal
  cases Payload.renderError reply.text <;> rfl

theorem deed?_eq (asks : e.request = some request) (first : e.responses.head? = some m) :
    deed? e = deedOf request.value m.value := by
  simp [deed?, asks, first]

theorem turn_of_parse (tag : request.value.tag = Tag.parse) (asks : e.request = some request)
    (first : e.responses.head? = some m)
    (replies : m.value.tag = Tag.parseComplete ∨ m.value.tag = Tag.error)
    (after : e.after =
      leftBy session (completeParse session (Side.ofMessage request) (Side.ofMessage m))) :
    Turn session e := by
  have bound : bound? e = none := bound?_of_tag asks (by rw [tag]; decide)
  have deed := deed?_eq asks first
  have other : ¬ (Tag.parse = Tag.close) := by decide
  unfold completeParse at after
  unfold deedOf at deed
  simp only [tag, other, false_and, if_false, true_and] at deed
  have text : (Side.ofMessage request).text = request.value.payload := rfl
  rw [text] at after
  cases read : Payload.read Payload.names request.value.payload with
  | error fault =>
    rw [read] at after deed
    exact .idle (deed.trans (ite_self none)) bound after
  | ok names =>
    obtain ⟨name, query⟩ := names
    rw [read] at after deed
    change e.after = leftBy session (if m.value.tag = Tag.error then _ else _) at after
    by_cases failed : m.value.tag = Tag.error
    · rw [if_pos failed, leftBy_refusal] at after
      rw [failed, if_neg (by decide)] at deed
      exact .idle deed bound after
    · rw [if_neg failed] at after
      rw [if_pos (replies.resolve_right failed)] at deed
      exact .prepares deed bound after

theorem turn_of_bind (tag : request.value.tag = Tag.bind) (asks : e.request = some request)
    (first : e.responses.head? = some m)
    (replies : m.value.tag = Tag.bindComplete ∨ m.value.tag = Tag.error)
    (after : e.after =
      leftBy session (completeBind session (Side.ofMessage request) (Side.ofMessage m))) :
    Turn session e := by
  have deed : deed? e = none :=
    deed?_of_tag asks (by rw [tag]; decide) (by rw [tag]; decide)
  have bound : bound? e = if m.value.tag = Tag.bindComplete then
      (Payload.read Payload.names request.value.payload).toOption.map (·.2) else none := by
    simp [bound?, asks, first, tag]
  unfold completeBind at after
  have text : (Side.ofMessage request).text = request.value.payload := rfl
  rw [text] at after
  cases read : Payload.read Payload.names request.value.payload with
  | error fault =>
    rw [read] at after bound
    exact .idle deed (bound.trans (ite_self none)) after
  | ok names =>
    obtain ⟨portal, name⟩ := names
    rw [read] at after bound
    change e.after = leftBy session (if m.value.tag = Tag.error then _ else _) at after
    by_cases failed : m.value.tag = Tag.error
    · rw [if_pos failed, leftBy_refusal] at after
      rw [failed, if_neg (by decide)] at bound
      exact .idle deed bound after
    · rw [if_neg failed] at after
      rw [if_pos (replies.resolve_right failed)] at bound
      exact .binds deed bound after

theorem turn_of_close (tag : request.value.tag = Tag.close) (asks : e.request = some request)
    (first : e.responses.head? = some m)
    (replies : m.value.tag = Tag.closeComplete ∨ m.value.tag = Tag.error)
    (after : e.after =
      leftBy session (completeClose session (Side.ofMessage request) (Side.ofMessage m))) :
    Turn session e := by
  have bound : bound? e = none := bound?_of_tag asks (by rw [tag]; decide)
  have deed := deed?_eq asks first
  have other : ¬ (Tag.close = Tag.parse) := by decide
  unfold completeClose at after
  unfold deedOf at deed
  simp only [tag, other, false_and, if_false, true_and] at deed
  have text : (Side.ofMessage request).text = request.value.payload := rfl
  rw [text] at after
  cases read : Payload.read Payload.target request.value.payload with
  | error fault =>
    rw [read] at after deed
    exact .idle (deed.trans (ite_self none)) bound after
  | ok target =>
    obtain ⟨target, name⟩ := target
    rw [read] at after deed
    change e.after = leftBy session (if target = .statement ∧ m.value.tag ≠ Tag.error then _
      else _) at after
    by_cases failed : m.value.tag = Tag.error
    · rw [if_neg (fun h => h.2 failed)] at after
      rw [failed, if_neg (by decide)] at deed
      exact .idle deed bound after
    · rw [if_pos (replies.resolve_right failed)] at deed
      cases target with
      | statement =>
        rw [if_pos ⟨rfl, failed⟩] at after
        exact .closes deed bound after
      | portal =>
        rw [if_neg (fun h => by cases h.1)] at after
        exact .idle deed bound after

theorem turn_of_describe (tag : request.value.tag = Tag.describe)
    (asks : e.request = some request) {reply : Side}
    (after : e.after = leftBy session (completeDescribe session (Side.ofMessage request) reply)) :
    Turn session e := by
  have bound : bound? e = none := bound?_of_tag asks (by rw [tag]; decide)
  have deed : deed? e = none :=
    deed?_of_tag asks (by rw [tag]; decide) (by rw [tag]; decide)
  unfold completeDescribe at after
  cases read : Payload.read Payload.target (Side.ofMessage request).text with
  | error fault =>
    rw [read] at after
    exact .idle deed bound after
  | ok target =>
    obtain ⟨target, name⟩ := target
    rw [read] at after
    change e.after = leftBy session (if reply.tag ≠ Tag.rowDescription then _ else _) at after
    by_cases described : reply.tag = Tag.rowDescription
    · rw [if_neg (not_not.2 described)] at after
      cases columns : Payload.read Payload.rowDescription reply.text with
      | error fault =>
        rw [columns] at after
        exact .idle deed bound after
      | ok columns =>
        rw [columns] at after
        cases target with
        | statement => exact .describes deed bound after
        | portal => exact .describesPortal deed bound after
    · rw [if_pos described] at after
      exact .idle deed bound after

theorem takeSingle_done {tag : UInt8} {ms : List (Stamped Message)} {reply : Side} {count : Nat}
    (h : takeSingle tag ms = .done reply count) :
    ∃ m, ms.head? = some m ∧ (m.value.tag = tag ∨ m.value.tag = Tag.error) ∧
      reply = Side.ofMessage m ∧ count = 1 := by
  cases ms with
  | nil => cases h
  | cons m rest =>
    unfold takeSingle at h
    dsimp only at h
    split at h
    · next fits =>
      cases h
      exact ⟨m, rfl, fits, rfl, rfl⟩
    · cases h

theorem turn_of_done {responses : List (Stamped Message)} {reply : Side} {count : Nat}
    (taken : takeReply session request.value.tag responses = some (.done reply count)) :
    Turn session
      ((settlement session count (complete session request reply)).entry request responses) := by
  generalize written :
    (settlement session count (complete session request reply)).entry request responses = e
  have asks : e.request = some request := by rw [← written]; rfl
  -- All that the cases need of the entry is its request, its first response and what it leaves.
  have after : e.after = leftBy session (complete session request reply) := by
    rw [← written]
    exact settlement_after count _
  have first : count = 1 → e.responses.head? = responses.head? := by
    rintro rfl
    rw [← written]
    cases complete session request reply <;> cases responses <;> rfl
  unfold complete at after
  unfold takeReply at taken
  split_ifs at taken with query execute parse bind close call describe
  · rw [query] at after
    exact turn_of_tag asks (by rw [query]; decide) after
  · rw [execute] at after
    exact turn_of_tag asks (by rw [execute]; decide) after
  · obtain ⟨m, head, replies, rfl, rfl⟩ := takeSingle_done (Option.some.inj taken)
    rw [parse] at after
    exact turn_of_parse parse asks ((first rfl).trans head) replies after
  · obtain ⟨m, head, replies, rfl, rfl⟩ := takeSingle_done (Option.some.inj taken)
    rw [bind] at after
    exact turn_of_bind bind asks ((first rfl).trans head) replies after
  · obtain ⟨m, head, replies, rfl, rfl⟩ := takeSingle_done (Option.some.inj taken)
    rw [close] at after
    exact turn_of_close close asks ((first rfl).trans head) replies after
  · rw [call] at after
    exact turn_of_tag asks (by rw [call]; decide) after
  · rw [describe] at after
    exact turn_of_describe describe asks after

/-- Only results have a format that can be broken. -/
theorem tag_of_malformed {responses : List (Stamped Message)} {tag : UInt8} {count : Nat}
    (taken : takeReply session tag responses = some (.malformed count)) :
    tag = Tag.query ∨ tag = Tag.execute := by
  have single : ∀ tag, takeSingle tag responses ≠ .malformed count := by
    intro tag
    unfold takeSingle
    split
    · simp
    · split <;> simp
  unfold takeReply at taken
  split_ifs at taken with query execute
  · exact .inl query
  · exact .inr execute
  · exact absurd (Option.some.inj taken) (single _)
  · exact absurd (Option.some.inj taken) (single _)
  · exact absurd (Option.some.inj taken) (single _)
  · exact absurd (Option.some.inj taken) (single _)
  · have described := Option.some.inj taken
    unfold takeDescribe takeDescription at described
    repeat' split at described
    all_goals cases described

/-- What a step does to the statements is what its entry says. -/
theorem turn_of_step (h : clerk.Step session e) : Turn session e := by
  cases h with
  | aside m => exact .idle rfl rfl rfl
  | passed ignored => cases ignored
  | @settled request responses s _ _ settled =>
    change settle session request responses = some s at settled
    unfold settle at settled
    split at settled
    · cases settled
      exact .idle rfl rfl rfl
    · cases settled
    · cases settled
      exact .idle rfl rfl rfl
    · next count malformed =>
      cases settled
      refine turn_of_tag rfl ?_ rfl
      rcases tag_of_malformed malformed with tag | tag <;> (rw [tag]; decide)
    · next reply count done =>
      cases settled
      exact turn_of_done done

end

/-! ### What an execution shows -/

/-- Everything that entries do to the statements. -/
def deeds (past : Ledger Message Session Exchange) : List (Deed Bytes Bytes) := past.filterMap deed?

/-- A text is what was bound last: the text that stood then for the statement, none if nothing has
been bound. -/
def Resolved (past : Ledger Message Session Exchange) (text : Bytes) : Prop :=
  ((∀ d ∈ past, bound? d = none) ∧ text = []) ∨
    ∃ before b after name, past = before ++ b :: after ∧ bound? b = some name ∧
      (∀ d ∈ after, bound? d = none) ∧ Attributed (deeds before) name [] text

/-- The session recalls what the entries so far say. -/
structure Knows (past : Ledger Message Session Exchange) (session : Session) : Prop where
  statements : Recalls Statement.query session.statements (deeds past)
  portal : Resolved past (session.portal.getD {}).query

section
variable {session : Session} {e : Entry Message Session Exchange}
  {past : Ledger Message Session Exchange} {text : Bytes}

/-- What is bound does not change until something is bound again. -/
theorem Resolved.append (h : Resolved past text) (bound : bound? e = none) :
    Resolved (past ++ [e]) text := by
  rcases h with ⟨none, empty⟩ | ⟨before, b, after, name, rfl, binds, none, attributed⟩
  · exact .inl ⟨List.forall_mem_append.2 ⟨none, List.forall_mem_singleton.2 bound⟩, empty⟩
  · exact .inr ⟨before, b, after ++ [e], name, by simp, binds,
      List.forall_mem_append.2 ⟨none, List.forall_mem_singleton.2 bound⟩, attributed⟩

theorem Knows.step (h : Knows past session) (step : clerk.Step session e) :
    Knows (past ++ [e]) e.after := by
  obtain ⟨statements, portal⟩ := h
  have idle : deed? e = none → deeds (past ++ [e]) = deeds past := by
    intro deed
    rw [deeds, filterMap_snoc, deed]
    exact List.append_nil _
  cases turn_of_step step with
  | prepares deed bound after =>
    rw [after]
    refine ⟨?_, portal.append bound⟩
    rw [deeds, filterMap_snoc, deed]
    exact statements.renew _ _
  | closes deed bound after =>
    rw [after]
    refine ⟨?_, portal.append bound⟩
    rw [deeds, filterMap_snoc, deed]
    exact statements.forget _
  | @binds name deed bound after =>
    rw [after]
    -- The portal takes the statement as the entries so far leave it.
    refine ⟨?_, .inr ⟨past, e, [], name, rfl, bound, by simp, ?_⟩⟩
    · rw [idle deed]
      exact statements
    · have attributed := statements.attributed name []
      cases held : session.statements.value? name <;> rw [held] at attributed <;> exact attributed
  | @describes name columns deed bound after =>
    rw [after]
    refine ⟨?_, portal.append bound⟩
    rw [idle deed]
    exact statements.modify name (fun s => { s with columns := columns }) fun _ => rfl
  | describesPortal deed bound after =>
    rw [after]
    refine ⟨by rwa [idle deed], ?_⟩
    have kept := portal.append bound
    cases bindings : session.portal <;> rw [bindings] at kept <;> exact kept
  | idle deed bound after =>
    rw [after]
    exact ⟨by rwa [idle deed], portal.append bound⟩

/-- What an entry shows of an execution is what was bound last. -/
def Shows (earlier : Ledger Message Session Exchange) (e : Entry Message Session Exchange) : Prop :=
  ∀ request x, e.request = some request → request.value.tag = Tag.execute →
    e.outcome = .exchange x → Resolved earlier x.request.text

theorem Knows.shows (h : Knows past session) (step : clerk.Step session e) : Shows past e := by
  intro request x asks execute made
  have fair := fair_of_step step
  rw [Fair, asks] at fair
  obtain ⟨reply, -, completed⟩ := Settles.shown fair x made
  unfold complete at completed
  rw [execute] at completed
  obtain ⟨-, shown⟩ := Completion.mk.inj (Except.ok.inj completed)
  cases shown
  exact h.portal

theorem remembers :
    Remembers {} pair clerk.ledger (fun session => session.statements.length) Shows :=
  .of_trail Knows keeps_pairRequests.balances (fun session _ => clerk.trail_walk session _ _)
    ⟨.start _, .inl ⟨by simp, rfl⟩⟩ (fun _ _ _ => Knows.step) (fun _ _ h => h.statements.bounded)
    fun _ _ _ => Knows.shows

end

/-- A statement is prepared, bound and closed before it is executed. -/
def closedEarly : Lane Message :=
  ⟨[⟨1, Tag.parse, ascii "s\x00select 1\x00"⟩, ⟨2, Tag.bind, ascii "\x00s\x00"⟩,
      ⟨3, Tag.close, ascii "Ss\x00"⟩, ⟨4, Tag.execute, ascii "\x00"⟩],
    [⟨5, Tag.parseComplete, []⟩, ⟨6, Tag.bindComplete, []⟩, ⟨7, Tag.closeComplete, []⟩,
      ⟨8, Tag.commandComplete, ascii "SELECT 1"⟩]⟩

example : (pair {} closedEarly).exchanges.map (·.request.text) = [ascii "select 1"] := by
  decide +kernel

end Postgres

namespace Mysql

/-! ## MySQL -/

/-- The statement that a reply to a prepare command gives. -/
def prepared? (reply : Packet) : Option Nat :=
  if reply.payload.head? = some 0 then
    (prepareReply.read "mysql" reply.payload).toOption.map (·.1)
  else none

/-- What an entry does to the statements. -/
def deed? (e : Entry Packet Prepared Exchange) : Option (Deed Nat Bytes) :=
  (e.request.filter (·.value.sequence = 0)).bind fun command =>
    if commandOf command.value = Command.close then
      (statement? command.value.payload).map .closes
    else if commandOf command.value = Command.prepare then
      (e.responses.head?.bind fun first => prepared? first.value).map fun id =>
        .prepares id (command.value.payload.drop 1)
    else none

/-- What a step does to the statements, and what its entry says about it. -/
inductive Turn (prepared : Prepared) (e : Entry Packet Prepared Exchange) : Prop where
  | prepares {id : Nat} {text : Bytes} (deed : deed? e = some (.prepares id text))
      (after : e.after = prepared.remember id text)
  | closes {id : Nat} (deed : deed? e = some (.closes id)) (after : e.after = prepared.forget id)
  | idle (deed : deed? e = none) (after : e.after = prepared)

/-- The statement that a reply gives. -/
def Reply.statement? : Reply → Option Nat
  | prepared statement _ _ => some statement
  | _ => none

theorem statement?_of_longGroup {code : UInt8} {first : Bytes} {packets : List (Stamped Packet)}
    {count : Nat} {reply : Reply} (h : longGroup code first packets = .complete count reply) :
    reply.statement? = none := by
  unfold longGroup at h
  split_ifs at h
  · cases h
    rfl
  · unfold fieldsGroup at h
    split at h <;> cases h
    rfl
  · split at h
    · cases h
    · split_ifs at h
      unfold resultSetGroup at h
      split at h
      · cases h
      · dsimp only at h
        split at h <;> cases h
        rfl

section
variable {prepared : Prepared} {command first : Stamped Packet} {later : List (Stamped Packet)}
  {e : Entry Packet Prepared Exchange}

/-- A reply gives a statement where a prepare command has succeeded. -/
theorem statement?_of_group {code : UInt8} {count : Nat} {reply : Reply}
    (h : group code (first :: later) = .complete count reply) :
    reply.statement? = if code = Command.prepare then prepared? first.value else none := by
  rw [group_eq_rule] at h
  unfold rule at h
  unfold prepared?
  split_ifs at h with empty error zero prepare finished
  · cases h
    simp [empty, Reply.statement?]
  · cases h
    simp [error, Reply.statement?]
  · rw [if_pos prepare, if_pos zero]
    unfold prepareGroup at h
    split at h
    · cases h
    · next statement columns params read =>
      dsimp only at h
      split at h
      · cases h
        rw [read]
        rfl
      · cases h
  · cases h
    rw [if_neg prepare]
    rfl
  · cases h
    rw [if_neg zero, ite_self]
    rfl
  · rw [if_neg zero, ite_self]
    exact statement?_of_longGroup h

theorem prepared?_of_malformed
    (h : group Command.prepare (first :: later) = .malformed) : prepared? first.value = none := by
  rw [group_eq_rule] at h
  unfold rule at h
  unfold prepared?
  split_ifs at h with empty error zero finished
  · rw [if_pos zero]
    unfold prepareGroup at h
    split at h
    · next fault read =>
      rw [read]
      rfl
    · dsimp only at h
      split at h <;> cases h
  · exact if_neg zero

theorem renderCommand_of_prepare {p : Packet} (prepare : commandOf p = Command.prepare) :
    renderCommand prepared p = p.payload.drop 1 := by
  unfold commandOf at prepare
  unfold renderCommand
  cases payload : p.payload with
  | nil => rfl
  | cons code body =>
    rw [payload] at prepare
    obtain rfl : code = Command.prepare := prepare
    rfl

theorem answered_state (reply : Reply) :
    (answered prepared command first reply).2 =
      reply.statement?.elim prepared fun id =>
        prepared.remember id (renderCommand prepared command.value) := by
  cases reply <;> rfl

/-- A command does nothing to the statements but by preparing one. -/
theorem deed?_of_awaited (asks : e.request = some command) (starts : command.value.sequence = 0)
    (awaited : ¬ isUnanswered (commandOf command.value) = true)
    (head : e.responses.head? = some first) :
    deed? e = (if commandOf command.value = Command.prepare then prepared? first.value
      else none).map fun id => .prepares id (command.value.payload.drop 1) := by
  have goesOn : commandOf command.value ≠ Command.close := by
    intro close
    rw [close] at awaited
    exact awaited (by decide)
  simp only [deed?, asks, Option.filter_some, starts, decide_true, if_true, Option.bind_some,
    goesOn, if_false, head]
  split <;> rfl

theorem turn_of_unanswered (asks : e.request = some command)
    (starts : command.value.sequence = 0) (alone : isUnanswered (commandOf command.value) = true)
    (after : e.after = (unanswered prepared command).2) : Turn prepared e := by
  have deed : deed? e = if commandOf command.value = Command.close then
      (statement? command.value.payload).map .closes else none := by
    simp only [deed?, asks, Option.filter_some, starts, decide_true, if_true, Option.bind_some]
    split
    · rfl
    · refine if_neg fun prepare => ?_
      rw [prepare] at alone
      exact absurd alone (by decide)
  unfold unanswered at after
  dsimp only at after
  split at after
  · next close =>
    rw [if_pos close] at deed
    cases held : statement? command.value.payload with
    | none =>
      rw [held] at after deed
      exact .idle deed after
    | some id =>
      rw [held] at after deed
      exact .closes deed after
  · next other =>
    rw [if_neg other] at deed
    exact .idle deed after

theorem turn_of_answered (asks : e.request = some command) (starts : command.value.sequence = 0)
    (awaited : ¬ isUnanswered (commandOf command.value) = true)
    (head : e.responses.head? = some first) {count : Nat} {reply : Reply}
    (complete : group (commandOf command.value) (first :: later) = .complete count reply)
    (after : e.after = (answered prepared command first reply).2) : Turn prepared e := by
  have deed := deed?_of_awaited asks starts awaited head
  have statement := statement?_of_group complete
  rw [← statement] at deed
  rw [answered_state] at after
  cases said : reply.statement? with
  | none =>
    rw [said] at deed after
    exact .idle deed after
  | some id =>
    have prepare : commandOf command.value = Command.prepare := by
      by_contra other
      rw [if_neg other, said] at statement
      cases statement
    rw [said, renderCommand_of_prepare prepare] at after
    rw [said] at deed
    exact .prepares deed after

/-- What a step does to the statements is what its entry says. -/
theorem turn_of_step (h : clerk.Step prepared e) : Turn prepared e := by
  cases h with
  | aside m => exact .idle rfl rfl
  | @passed command other =>
    have other : command.value.sequence ≠ 0 := of_decide_eq_true other
    exact .idle (by simp [deed?, Clerk.passed, other]) rfl
  | @settled command responses s counts _ settled =>
    have starts : command.value.sequence = 0 := not_not.1 (of_decide_eq_false counts)
    change settle prepared command responses = some s at settled
    unfold settle at settled
    split at settled
    · next alone =>
      cases settled
      exact turn_of_unanswered rfl starts alone rfl
    · next awaited =>
      cases responses with
      | nil => cases settled
      | cons first later =>
        split at settled
        · cases settled
        · next malformed =>
          cases settled
          refine .idle ?_ rfl
          rw [deed?_of_awaited rfl starts awaited rfl]
          split
          · next prepare =>
            rw [prepare] at malformed
            rw [prepared?_of_malformed malformed]
            rfl
          · rfl
        · next packets reply complete =>
          cases settled
          obtain ⟨pos, -, -⟩ := whole_group _ _ packets reply (List.cons_ne_nil _ _) complete
          obtain ⟨n, rfl⟩ := Nat.exists_eq_succ_of_ne_zero pos.ne'
          exact turn_of_answered rfl starts awaited rfl complete rfl

end

/-! ### What commands about a statement show -/

/-- Everything that entries do to the statements. -/
def deeds (past : Ledger Packet Prepared Exchange) : List (Deed Nat Bytes) := past.filterMap deed?

/-- What is shown of a command about a statement that is not remembered. -/
def unknown (code : UInt8) (id : Nat) : Bytes := Text.encode s!"{Command.name code} stmt_id={id}"

/-- What an entry shows of a command about a statement is the text that stands for the statement,
or its number if that is not remembered; without a number, only the command is named. -/
def Shows (earlier : Ledger Packet Prepared Exchange) (e : Entry Packet Prepared Exchange) : Prop :=
  ∀ command x, e.request = some command →
    commandOf command.value ∈ [Command.execute, Command.close, Command.reset] →
      e.outcome = .exchange x →
        (statement? command.value.payload).elim
          (x.command.text = Text.encode (Command.name (commandOf command.value))) fun id =>
            Attributed (deeds earlier) id (unknown (commandOf command.value) id) x.command.text

section
variable {prepared : Prepared} {e : Entry Packet Prepared Exchange}
  {past : Ledger Packet Prepared Exchange}

abbrev Knows (past : Ledger Packet Prepared Exchange) (prepared : Prepared) : Prop :=
  Recalls id prepared (deeds past)

theorem Knows.step (h : Knows past prepared) (step : clerk.Step prepared e) :
    Knows (past ++ [e]) e.after := by
  unfold Knows deeds
  rw [filterMap_snoc]
  cases turn_of_step step with
  | prepares deed after =>
    rw [after, deed]
    exact h.remember _ _
  | closes deed after =>
    rw [after, deed]
    exact h.forget _
  | idle deed after =>
    rw [after, deed]
    exact (List.append_nil (deeds past)).symm ▸ h

theorem renderCommand_about {p : Packet}
    (about : commandOf p ∈ [Command.execute, Command.close, Command.reset]) :
    renderCommand prepared p =
      (statement? p.payload).elim (Text.encode (Command.name (commandOf p))) fun id =>
        (prepared.value? id).getD (unknown (commandOf p) id) := by
  unfold renderCommand commandOf at *
  cases payload : p.payload with
  | nil =>
    rw [payload] at about
    exact absurd about (by decide)
  | cons code body =>
    rw [payload] at about
    have about : code = Command.execute ∨ code = Command.close ∨ code = Command.reset := by
      simpa using about
    have other : ¬ (code = Command.query ∨ code = Command.prepare ∨ code = Command.initDb) := by
      rcases about with rfl | rfl | rfl <;> decide
    dsimp only
    rw [if_neg other, if_pos about]
    cases statement? (code :: body) <;> rfl

theorem Knows.shows (h : Knows past prepared) (step : clerk.Step prepared e) : Shows past e := by
  intro command x asks about made
  have fair := fair_of_step step
  rw [Fair, asks] at fair
  have text : x.command.text = renderCommand prepared command.value := by
    rcases Settles.shown fair x made with ⟨-, -, alone⟩ | ⟨first, later, reply, -, -, replied⟩
    · rw [(Prod.mk.inj alone).1]
    · rw [(Prod.mk.inj replied).1]
  rw [text, renderCommand_about about]
  cases statement? command.value.payload with
  | none => rfl
  | some id =>
    have attributed := h.attributed id (unknown (commandOf command.value) id)
    rwa [Option.map_id] at attributed

theorem remembers : Remembers [] pair clerk.ledger List.length Shows :=
  .of_trail Knows keeps_pairCommands.balances (fun prepared _ => clerk.trail_walk prepared _ _)
    (.start _) (fun _ _ _ => Knows.step) (fun _ _ h => h.bounded) fun _ _ _ => Knows.shows

end

end Mysql

namespace Cql

/-! ## CQL -/

/-- Whether a response may answer a request. -/
def answers (response : Stamped Frame) : Bool := response.value.opcode != .event

/-- The ledger of a pass over the frames of one stream. -/
def ledger (prepared : Prepared) (lane : Lane Frame) : Ledger Frame Prepared Exchange :=
  (Pairing.orderly answers exchange prepared lane.requests lane.responses).1

/-- What an entry does to the statements. -/
def deed? (e : Entry Frame Prepared Exchange) : Option (Deed Bytes Bytes) :=
  e.request.bind fun request => e.responses.head?.bind fun response =>
    if request.value.opcode = .prepare then
      (preparedId? response.value).map fun id => .prepares id (render long request.value.body)
    else none

/-- Everything that entries do to the statements. -/
def deeds (past : Ledger Frame Prepared Exchange) : List (Deed Bytes Bytes) := past.filterMap deed?

/-- What is shown of a statement that is not remembered. -/
def unknown (id : Bytes) : Bytes := Text.encode s!"EXECUTE {Text.hexBytes id}"

/-- What an entry shows of an execution is the text that stands for the statement, or its identifier
if that is not remembered; nothing without an identifier. -/
def Shows (earlier : Ledger Frame Prepared Exchange) (e : Entry Frame Prepared Exchange) : Prop :=
  ∀ request x, e.request = some request → request.value.opcode = .execute →
    e.outcome = .exchange x →
      (short.read "cql" request.value.body).toOption.elim (x.request.text = []) fun id =>
        Attributed (deeds earlier) id (unknown id) x.request.text

abbrev Knows (past : Ledger Frame Prepared Exchange) (prepared : Prepared) : Prop :=
  Recalls id prepared (deeds past)

section
variable {prepared : Prepared} {e : Entry Frame Prepared Exchange}
  {past : Ledger Frame Prepared Exchange}

/-- A step enters the statement that its entry prepares, and does nothing else to the memory. -/
theorem learns_of_replies (step : Pairing.Replies answers exchange prepared e) :
    (deed? e = none ∧ e.after = prepared) ∨
      ∃ id text, deed? e = some (.prepares id text) ∧ e.after = prepared.remember id text := by
  cases step with
  | dropped _ => exact .inl ⟨rfl, rfl⟩
  | unmatched _ => exact .inl ⟨rfl, rfl⟩
  | @matched request response _ _ =>
    -- What is learnt is what the entry says, both read off the same pair.
    have after : (exchange prepared request response).2 =
        learn prepared request.value response.value (renderRequest prepared request.value) := rfl
    simp only [deed?, Option.bind_some, List.head?_cons, after, learn]
    split
    · next prepare =>
      have text : renderRequest prepared request.value = render long request.value.body := by
        rw [renderRequest, prepare]
        rfl
      cases preparedId? response.value with
      | none => exact .inl ⟨rfl, rfl⟩
      | some id => exact .inr ⟨id, _, rfl, congrArg (prepared.remember id) text⟩
    · exact .inl ⟨rfl, rfl⟩

theorem Knows.step (h : Knows past prepared)
    (step : Pairing.Replies answers exchange prepared e) : Knows (past ++ [e]) e.after := by
  unfold Knows deeds
  rw [filterMap_snoc]
  obtain ⟨deed, after⟩ | ⟨id, text, deed, after⟩ := learns_of_replies step
  · rw [deed, after]
    exact (List.append_nil (deeds past)).symm ▸ h
  · rw [deed, after]
    exact h.remember id text

/-- A format of one field and what is made of it. -/
theorem read_map {α β : Type} (field : Field α) (f : α → β) (owner : String) (payload : Bytes) :
    (do return f (← field) : Field β).read owner payload = (field.read owner payload).map f := by
  have run : (do return f (← field) : Field β) (Cursor.start owner payload) =
      (field (Cursor.start owner payload)).map fun read => (f read.1, read.2) := by
    show Except.bind (field (Cursor.start owner payload)) _ = _
    cases field (Cursor.start owner payload) <;> rfl
  unfold Field.read
  rw [run]
  cases field (Cursor.start owner payload) <;> rfl

theorem renderRequest_of_execute {f : Frame} (execute : f.opcode = .execute) :
    renderRequest prepared f = (short.read "cql" f.body).toOption.elim [] fun id =>
      (prepared.value? id).getD (unknown id) := by
  let known (id : Bytes) : Bytes := (prepared.value? id).getD (unknown id)
  have format : requestField prepared f.opcode = (do return known (← short) : Field Bytes) := by
    rw [execute]
    rfl
  rw [renderRequest, format, render, read_map]
  cases short.read "cql" f.body <;> rfl

theorem Knows.shows (h : Knows past prepared)
    (step : Pairing.Replies answers exchange prepared e) : Shows past e := by
  intro asked x asks execute made
  cases step with
  | dropped _ => cases asks
  | unmatched _ => cases asks
  | @matched request response _ _ =>
    cases asks
    cases made
    show (short.read "cql" asked.value.body).toOption.elim
      (renderRequest prepared asked.value = []) fun id =>
        Attributed (deeds past) id (unknown id) (renderRequest prepared asked.value)
    rw [renderRequest_of_execute execute]
    cases short.read "cql" asked.value.body with
    | error fault => rfl
    | ok id =>
      have attributed := h.attributed id (unknown id)
      rwa [Option.map_id] at attributed

theorem remembers : Remembers [] pair ledger List.length Shows :=
  .of_trail Knows (fun _ _ => Pairing.balances_inOrder _ _) (fun _ _ => Pairing.trail_orderly _)
    (.start _) (fun _ _ _ => Knows.step) (fun _ _ h => h.bounded) fun _ _ _ => Knows.shows

end

end Cql

/-- **A text that is shown for a prepared statement is the one that was prepared last**, over every
run of passes from the start of a connection, for PostgreSQL, MySQL and CQL. The ledger of each pass
accounts for it, the memory never holds more than `Memory.limit` statements, and what an entry shows
of a statement follows from the entries before it: the text of the last preparation under the
statement's name or number that succeeded, if nothing has closed or replaced it since, or a text
that says that none is remembered. In PostgreSQL the name is that of the last Bind that succeeded,
and what counts are the entries before that. As long as `Memory.limit` preparations have not been
exceeded, a text that stands is shown. -/
theorem Protocol.statements_attributed :
    Remembers {} Postgres.pair Postgres.clerk.ledger (fun session => session.statements.length)
        Postgres.Shows ∧
      Remembers [] Mysql.pair Mysql.clerk.ledger List.length Mysql.Shows ∧
      Remembers [] Cql.pair Cql.ledger List.length Cql.Shows :=
  ⟨Postgres.remembers, Mysql.remembers, Cql.remembers⟩

end Dialogue
