import Mathlib
import Dialogue.Proofs.Accounting
import Dialogue.Proofs.Passes
import Dialogue.Proofs.Postgres.Result

/-!
A batch of PostgreSQL requests that fails, and the query behind it.

When the server refuses a request of a batch, it says nothing to those behind it and goes on at the
end of the batch. Requests are paired in order and readiness is passed over, so the requests that
got no answer are still there when the result of the next query comes in. Most of them cannot take
any of it and give way. An execution takes it whole, and the description of a statement or portal
takes the columns, since it is what their own reply would look like. `realigned` says that this is
all that can go wrong, in one pass or in several.
-/
namespace Dialogue.Postgres

/-! ## Whole replies -/

section
variable {ms : List (Stamped Message)} {taken : Take}

/-- What is found of a result is found when more messages come in. -/
theorem extent_append {ends : List UInt8} {before : List (Stamped Message)}
    (ready : extent ends before ms ≠ .pending) (more : List (Stamped Message)) :
    extent ends before (ms ++ more) = extent ends before ms := by
  induction ms generalizing before with
  | nil => exact absurd rfl ready
  | cons m rest ih =>
    rw [extent] at ready
    rw [List.cons_append, extent, extent]
    split_ifs at ready ⊢
    · rfl
    · exact ih ready
    · rfl

theorem takeResult_append {columns : List Bytes} {ends : List UInt8}
    (h : takeResult columns ends ms = taken) (ready : taken ≠ .pending)
    (more : List (Stamped Message)) : takeResult columns ends (ms ++ more) = taken := by
  have known : extent ends [] ms ≠ .pending := by
    intro pending
    rw [takeResult, pending] at h
    exact ready h.symm
  rw [← h, takeResult, takeResult, extent_append known]

theorem takeSingle_append {tag : UInt8} (h : takeSingle tag ms = taken) (ready : taken ≠ .pending)
    (more : List (Stamped Message)) : takeSingle tag (ms ++ more) = taken := by
  cases ms with
  | nil => exact absurd h.symm ready
  | cons m rest => exact h

theorem takeDescription_append {before : Nat} (h : takeDescription before ms = taken)
    (ready : taken ≠ .pending) (more : List (Stamped Message)) :
    takeDescription before (ms ++ more) = taken := by
  cases ms with
  | nil => exact absurd h.symm ready
  | cons m rest => exact h

theorem takeDescribe_append (h : takeDescribe ms = taken) (ready : taken ≠ .pending)
    (more : List (Stamped Message)) : takeDescribe (ms ++ more) = taken := by
  cases ms with
  | nil => exact absurd h.symm ready
  | cons m rest =>
    rw [List.cons_append]
    unfold takeDescribe at h ⊢
    dsimp only at h ⊢
    split at h
    · next parameters => exact (if_pos parameters).trans (takeDescription_append h ready more)
    · next other => exact (if_neg other).trans (takeDescription_append h ready more)

/-- Where a reply is there, or something else in its place, more messages make no difference. -/
theorem takeReply_append {session : Session} {tag : UInt8}
    (h : takeReply session tag ms = some taken) (ready : taken ≠ .pending)
    (more : List (Stamped Message)) : takeReply session tag (ms ++ more) = some taken := by
  unfold takeReply at h ⊢
  split_ifs at h ⊢
  · exact congrArg some (takeResult_append (Option.some.inj h) ready more)
  · exact congrArg some (takeResult_append (Option.some.inj h) ready more)
  · exact congrArg some (takeSingle_append (Option.some.inj h) ready more)
  · exact congrArg some (takeSingle_append (Option.some.inj h) ready more)
  · exact congrArg some (takeSingle_append (Option.some.inj h) ready more)
  · exact congrArg some (takeSingle_append (Option.some.inj h) ready more)
  · exact congrArg some (takeDescribe_append (Option.some.inj h) ready more)

end

theorem settlement_taken (session : Session) (count : Nat)
    (completed : Except DecodeError Completion) :
    (settlement session count completed).taken = count := by
  cases completed <;> rfl

/-- What becomes of a request stays the same when more messages come in. -/
theorem steadfast : clerk.Steadfast where
  heeds _ := rfl
  lasts := by
    intro time later m le old
    change stale time m = true at old
    show stale later m = true
    simp only [stale, decide_eq_true_eq] at old ⊢
    exact old.imp_right fun early => early.trans_le le
  taken_le := by
    intro session request ms s settled
    change settle session request ms = some s at settled
    unfold settle at settled
    split at settled
    · cases settled
      exact Nat.zero_le _
    · cases settled
    · cases settled
      exact Nat.zero_le _
    · next taken =>
      cases settled
      exact (take_takeReply taken rfl).1
    · next taken =>
      cases settled
      rw [settlement_taken]
      exact (take_takeReply taken rfl).1
  settles := by
    intro session request ms s settled more
    change settle session request ms = some s at settled
    show settle session request (ms ++ more) = some s
    unfold settle at settled ⊢
    cases taken : takeReply session request.value.tag ms with
    | none =>
      rw [taken] at settled
      rw [takeReply_eq_none.2 (takeReply_eq_none.1 taken)]
      exact settled
    | some found =>
      rw [taken] at settled
      have ready : found ≠ .pending := by
        rintro rfl
        cases settled
      rw [takeReply_append taken ready more]
      exact settled

/-! ## Replies of a server -/

/-- The tags of the requests of a batch. -/
def batchTags : List UInt8 := [Tag.parse, Tag.bind, Tag.describe, Tag.execute]

/-- How the server answers a request of a batch that it carries out. -/
inductive Reply : UInt8 → List (Stamped Message) → Prop where
  | parsed {m : Stamped Message} (tag : m.value.tag = Tag.parseComplete) : Reply Tag.parse [m]
  | bound {m : Stamped Message} (tag : m.value.tag = Tag.bindComplete) : Reply Tag.bind [m]
  | described {m : Stamped Message} (tag : m.value.tag ∈ [Tag.rowDescription, Tag.noData]) :
      Reply Tag.describe [m]
  | parameters {p m : Stamped Message} (first : p.value.tag = Tag.parameters)
      (tag : m.value.tag ∈ [Tag.rowDescription, Tag.noData]) : Reply Tag.describe [p, m]
  | executed {body : List (Stamped Message)} {terminal : Stamped Message}
      (inside : ∀ m ∈ body, m.value.tag ∈ Tag.inResult)
      (tag : terminal.value.tag ∈ [Tag.commandComplete, Tag.emptyQuery, Tag.suspended]) :
      Reply Tag.execute (body ++ [terminal])

section
variable {request m : Stamped Message} {reply : List (Stamped Message)}

/-- A request is served by a reply that begins when it is there and ends no earlier than it is
whole. -/
theorem serves_of_takes
    (begins : ∃ m rest, reply = m :: rest ∧ request.time ≤ m.time ∧ m.value.tag ∉ Tag.unasked)
    (waits : ∀ session part, part <+: reply → part ≠ reply →
      takeReply session request.value.tag part = some .pending)
    (whole : ∀ session, ∃ taken, takeReply session request.value.tag reply = some taken ∧
      taken.count? = some reply.length) :
    clerk.Serves request reply where
  fresh := by
    obtain ⟨m, rest, rfl, time, asked⟩ := begins
    refine ⟨m, rest, rfl, ?_⟩
    show stale request.time m = false
    simp [stale, asked, time]
  waits session part part_of ne := by
    show settle session request part = none
    rw [settle, waits session part part_of ne]
  takes session later := by
    obtain ⟨taken, is, counts⟩ := whole session
    have ready : taken ≠ .pending := by
      rintro rfl
      cases counts
    show ∃ s, settle session request (reply ++ later) = some s ∧ _
    rw [settle, takeReply_append is ready later]
    cases taken with
    | done reply count =>
      refine ⟨_, rfl, ?_⟩
      rw [settlement_taken]
      exact Option.some.inj counts
    | malformed count => exact ⟨_, rfl, Option.some.inj counts⟩
    | pending => cases counts
    | mismatch => cases counts

/-- Of a single message, nothing or everything is there. -/
theorem eq_nil_of_part {part : List (Stamped Message)} (part_of : part <+: [m]) (ne : part ≠ [m]) :
    part = [] := by
  rcases List.prefix_cons_iff.1 part_of with rfl | ⟨rest, rfl, rest_of⟩
  · rfl
  · rw [List.prefix_nil.1 rest_of] at ne
    exact absurd rfl ne

theorem serves_single {expected : UInt8}
    (takes : ∀ session ms,
      takeReply session request.value.tag ms = some (takeSingle expected ms))
    (time : request.time ≤ m.time) (tag : m.value.tag = expected ∨ m.value.tag = Tag.error)
    (asked : m.value.tag ∉ Tag.unasked) : clerk.Serves request [m] := by
  refine serves_of_takes ⟨m, [], rfl, time, asked⟩ ?_ ?_
  · intro session part part_of ne
    rw [eq_nil_of_part part_of ne, takes]
    rfl
  · intro session
    refine ⟨_, (takes session [m]).trans (congrArg some (if_pos tag)), rfl⟩

theorem serves_description (describe : request.value.tag = Tag.describe)
    (time : request.time ≤ m.time) (tag : m.value.tag ∈ describeEnds) :
    clerk.Serves request [m] := by
  have apart : ∀ t ∈ describeEnds, t ∉ Tag.unasked ∧ t ≠ Tag.parameters := by
    decide +kernel
  obtain ⟨asked, other⟩ := apart m.value.tag tag
  refine serves_of_takes ⟨m, [], rfl, time, asked⟩ ?_ ?_
  · intro session part part_of ne
    rw [eq_nil_of_part part_of ne, describe]
    rfl
  · intro session
    rw [describe]
    refine ⟨.done (Side.ofMessage m) 1, congrArg some ?_, rfl⟩
    rw [takeDescribe, if_neg other]
    exact if_pos (by simpa using tag)

theorem serves_parameters {p : Stamped Message} (describe : request.value.tag = Tag.describe)
    (time : request.time ≤ p.time) (first : p.value.tag = Tag.parameters)
    (tag : m.value.tag ∈ describeEnds) : clerk.Serves request [p, m] := by
  have asked : Tag.parameters ∉ Tag.unasked := by decide
  refine serves_of_takes ⟨p, [m], rfl, time, by rwa [first]⟩ ?_ ?_
  · intro session part part_of ne
    rw [describe]
    rcases List.prefix_cons_iff.1 part_of with rfl | ⟨rest, rfl, rest_of⟩
    · rfl
    · obtain rfl : rest = [] := eq_nil_of_part rest_of fun same => ne (congrArg (p :: ·) same)
      show some (if p.value.tag = Tag.parameters then _ else _) = _
      rw [if_pos first]
      rfl
  · intro session
    rw [describe]
    refine ⟨.done (Side.ofMessage m) 2, congrArg some ?_, rfl⟩
    rw [takeDescribe, if_pos first]
    exact if_pos (by simpa using tag)

/-- A beginning of a result is unfinished. -/
theorem extent_of_part {ends : List UInt8} {part : List (Stamped Message)}
    (inside : ∀ m ∈ part, Inside ends m.value) (before : List (Stamped Message)) :
    extent ends before part = .pending := by
  induction part generalizing before with
  | nil => rfl
  | cons m part ih =>
    obtain ⟨goes, stays⟩ := inside m List.mem_cons_self
    rw [extent, if_neg (by simpa using goes), if_pos (by simpa using stays)]
    exact ih (fun m' h => inside m' (List.mem_cons_of_mem m h)) _

theorem serves_result {ends : List UInt8} {body : List (Stamped Message)}
    {terminal : Stamped Message} (takes : ∀ session, ∃ columns, ∀ ms,
      takeReply session request.value.tag ms = some (takeResult columns ends ms))
    (inside : ∀ m ∈ body, Inside ends m.value) (ended : terminal.value.tag ∈ ends)
    (first : ∀ m ∈ body ++ [terminal], request.time ≤ m.time ∧ m.value.tag ∉ Tag.unasked) :
    clerk.Serves request (body ++ [terminal]) := by
  refine serves_of_takes ?_ ?_ ?_
  · cases body with
    | nil => exact ⟨terminal, [], rfl, first terminal (by simp)⟩
    | cons m body => exact ⟨m, body ++ [terminal], rfl, first m (by simp)⟩
  · intro session part part_of ne
    obtain ⟨columns, is⟩ := takes session
    have before : part <+: body := (List.prefix_concat_iff.1 part_of).resolve_left ne
    have pending : extent ends [] part = .pending :=
      extent_of_part (fun m h => inside m (before.subset h)) []
    rw [is, takeResult, pending]
  · intro session
    obtain ⟨columns, is⟩ := takes session
    have found : extent ends [] (body ++ [terminal]) = .found body terminal :=
      extent_of_inside inside ended [] []
    rw [is, takeResult, found]
    dsimp only
    cases resultText columns (body.map (·.value)) terminal.value with
    | ok text => exact ⟨_, rfl, by simp [Take.count?]⟩
    | error e => exact ⟨_, rfl, by simp [Take.count?]⟩

theorem serves_execution {body : List (Stamped Message)} {terminal : Stamped Message}
    (execute : request.value.tag = Tag.execute) (inside : ∀ m ∈ body, m.value.tag ∈ Tag.inResult)
    (ended : terminal.value.tag ∈ executeEnds)
    (time : ∀ m ∈ body ++ [terminal], request.time ≤ m.time) :
    clerk.Serves request (body ++ [terminal]) := by
  have within : ∀ t ∈ Tag.inResult, t ∉ executeEnds ∧ t ∉ Tag.unasked := by decide +kernel
  have ends : ∀ t ∈ executeEnds, t ∉ Tag.unasked := by decide +kernel
  refine serves_result (fun session => ⟨_, fun ms => by rw [execute]; rfl⟩)
    (fun m mem => ⟨(within _ (inside m mem)).1, .inl (inside m mem)⟩) ended ?_
  intro m mem
  refine ⟨time m mem, ?_⟩
  rcases List.mem_append.1 mem with mem | mem
  · exact (within _ (inside m mem)).2
  · rw [List.mem_singleton.1 mem]
    exact ends _ ended

end

/-- A request that the server carries out takes the answer. -/
theorem Reply.serves {request : Stamped Message} {reply : List (Stamped Message)}
    (h : Reply request.value.tag reply) (time : ∀ m ∈ reply, request.time ≤ m.time) :
    clerk.Serves request reply := by
  generalize tag : request.value.tag = t at h
  cases h with
  | parsed is =>
    refine serves_single (fun session ms => by rw [tag]; rfl) (time _ (by simp)) (.inl is) ?_
    rw [is]
    decide
  | bound is =>
    refine serves_single (fun session ms => by rw [tag]; rfl) (time _ (by simp)) (.inl is) ?_
    rw [is]
    decide
  | described is =>
    exact serves_description tag (time _ (by simp)) (List.mem_append_left [Tag.error] is)
  | parameters first is =>
    exact serves_parameters tag (time _ (by simp)) first (List.mem_append_left [Tag.error] is)
  | executed inside is =>
    have known : [Tag.commandComplete, Tag.emptyQuery, Tag.suspended] ⊆ executeEnds := by
      simp [executeEnds, queryEnds]
    exact serves_execution tag inside (known is) time

/-- A request of a batch that the server refuses takes the error, and what it has got before. -/
theorem serves_refused {request error : Stamped Message} {begun : List (Stamped Message)}
    (batch : request.value.tag ∈ batchTags)
    (time : ∀ m ∈ begun ++ [error], request.time ≤ m.time)
    (inside : ∀ m ∈ begun, m.value.tag ∈ Tag.inResult)
    (execute : begun ≠ [] → request.value.tag = Tag.execute)
    (failed : error.value.tag = Tag.error) :
    clerk.Serves request (begun ++ [error]) := by
  by_cases executed : request.value.tag = Tag.execute
  · refine serves_execution executed inside ?_ time
    rw [failed]
    decide
  · obtain rfl : begun = [] := by
      by_contra some
      exact executed (execute some)
    have asked : error.value.tag ∉ Tag.unasked := by
      rw [failed]
      decide
    have late : request.time ≤ error.time := time error (by simp)
    simp only [batchTags, List.mem_cons, List.not_mem_nil, or_false] at batch
    rcases batch with tag | tag | tag | tag
    · exact serves_single (fun session ms => by rw [tag]; rfl) late (.inr failed) asked
    · exact serves_single (fun session ms => by rw [tag]; rfl) late (.inr failed) asked
    · refine serves_description tag late ?_
      rw [failed]
      decide
    · exact absurd tag executed

/-! ## A batch that fails -/

/-- A batch of requests that the server gives up, and the query that comes next. -/
structure Lapse where
  /-- The requests that are carried out, with the answers. -/
  answered : List (Stamped Message × List (Stamped Message))
  failing : Stamped Message
  /-- What an execution has given before it fails. -/
  begun : List (Stamped Message)
  error : Stamped Message
  /-- The requests behind the one that fails, to which the server says nothing. -/
  skipped : List (Stamped Message)
  sync : Stamped Message
  ready : Stamped Message
  query : Stamped Message
  description : Option (Stamped Message)
  rows : List (Stamped Message)
  completion : Stamped Message

namespace Lapse

variable (x : Lapse)

/-- The result of the query up to its end. -/
def body : List (Stamped Message) := x.description.toList ++ x.rows

/-- The result of the query. -/
def result : List (Stamped Message) := x.body ++ [x.completion]

/-- The requests up to the one that fails, with what the server says to each. -/
def opening : List (Stamped Message × List (Stamped Message)) :=
  x.answered ++ [(x.failing, x.begun ++ [x.error])]

/-- The requests up to the end of the batch, with what the server says to each. -/
def silence : List (Stamped Message × List (Stamped Message)) :=
  x.skipped.map (·, []) ++ [(x.sync, [x.ready])]

/-- All requests with what the server says to each. -/
def script : List (Stamped Message × List (Stamped Message)) :=
  x.opening ++ (x.silence ++ [(x.query, x.result)])

/-- Whether client and server behave as the protocol has it. -/
structure WellFormed : Prop where
  answered : ∀ turn ∈ x.answered, Reply turn.1.value.tag turn.2
  failing : x.failing.value.tag ∈ batchTags
  begun : ∀ m ∈ x.begun, m.value.tag ∈ Tag.inResult
  execute : x.begun ≠ [] → x.failing.value.tag = Tag.execute
  error : x.error.value.tag = Tag.error
  skipped : ∀ q ∈ x.skipped, q.value.tag ∈ batchTags
  sync : x.sync.value.tag = byte 'S'
  ready : x.ready.value.tag = byte 'Z'
  query : x.query.value.tag = Tag.query
  description : ∀ m ∈ x.description, m.value.tag = Tag.rowDescription
  rows : ∀ m ∈ x.rows, m.value.tag = Tag.dataRow
  completion : x.completion.value.tag = Tag.commandComplete
  /-- Requests are in the order of their times. -/
  sorted : (x.script.map (·.1)).Pairwise (·.time ≤ ·.time)
  /-- Nothing is answered before it is asked. -/
  causal : ∀ turn ∈ x.script, ∀ m ∈ turn.2, turn.1.time ≤ m.time

/-- Whether the result looks like a reply to a request, or begins with one. -/
def Suits (q : Stamped Message) : Prop :=
  q.value.tag = Tag.execute ∨ q.value.tag = Tag.describe ∧ x.description.isSome

instance (q : Stamped Message) : Decidable (x.Suits q) :=
  inferInstanceAs (Decidable (q.value.tag = Tag.execute ∨
    q.value.tag = Tag.describe ∧ x.description.isSome))

/-- What of the result looks like a reply to a request. -/
def share (q : Stamped Message) : List (Stamped Message) :=
  if q.value.tag = Tag.describe then x.description.toList else x.result

/-- All frames in one batch. -/
def parcel : Lane Message := ⟨x.script.map (·.1), x.script.flatMap (·.2)⟩

/-- The frames of a run of batches are those of the script, and no message comes before the request
that it answers; a pass would drop it. -/
structure Delivers (batches : List (Lane Message)) : Prop where
  whole : Lane.concat batches = x.parcel
  causal : ∀ earlier, earlier <+: batches → (Lane.concat earlier).Cut x.script

section
variable {x : Lapse} {q m : Stamped Message} (wf : x.WellFormed)

theorem share_of_execute (execute : q.value.tag = Tag.execute) : x.share q = x.result := by
  have other : Tag.execute ≠ Tag.describe := by decide
  rw [share, if_neg (by rwa [execute])]

theorem share_of_describe (describe : q.value.tag = Tag.describe) :
    x.share q = x.description.toList := if_pos describe

/-- What looks like a reply to a request stands at the start of the result. -/
theorem share_prefix (x : Lapse) (q : Stamped Message) : x.share q <+: x.result := by
  unfold share
  split
  · exact ⟨x.rows ++ [x.completion], (List.append_assoc ..).symm⟩
  · exact List.prefix_rfl

theorem map_silence (x : Lapse) : x.silence.map (·.1) = x.skipped ++ [x.sync] := by
  simp [silence, Function.comp_def]

theorem flatMap_silence (x : Lapse) : x.silence.flatMap (·.2) = [x.ready] := by
  simp [silence, List.flatMap_map]

theorem map_script (x : Lapse) :
    x.script.map (·.1) = x.opening.map (·.1) ++ ((x.skipped ++ [x.sync]) ++ [x.query]) := by
  rw [script, List.map_append, List.map_append, map_silence]
  rfl

theorem flatMap_script (x : Lapse) :
    x.script.flatMap (·.2) = x.opening.flatMap (·.2) ++ ([x.ready] ++ x.result) := by
  rw [script, List.flatMap_append, List.flatMap_append, flatMap_silence, List.flatMap_singleton]

include wf

theorem tag_of_body (mem : m ∈ x.body) :
    m.value.tag = Tag.rowDescription ∨ m.value.tag = Tag.dataRow := by
  rcases List.mem_append.1 mem with named | row
  · exact .inl (wf.description m (Option.mem_toList.1 named))
  · exact .inr (wf.rows m row)

theorem tag_of_result (mem : m ∈ x.result) :
    m.value.tag ∈ [Tag.rowDescription, Tag.dataRow, Tag.commandComplete] := by
  rcases List.mem_append.1 mem with within | last
  · rcases tag_of_body wf within with tag | tag <;> simp [tag]
  · rw [List.mem_singleton.1 last, wf.completion]
    simp

/-- The result comes after every request. -/
theorem late_result (asked : q ∈ x.script.map (·.1)) (mem : m ∈ x.result) : q.time ≤ m.time := by
  have answer : x.query.time ≤ m.time := wf.causal (x.query, x.result) (by simp [script]) m mem
  have sorted := wf.sorted
  rw [map_script, ← List.append_assoc] at sorted asked
  obtain ⟨-, -, before⟩ := List.pairwise_append.1 sorted
  rcases List.mem_append.1 asked with earlier | query
  · exact (before q earlier x.query (by simp)).trans answer
  · rwa [List.mem_singleton.1 query]

/-- Readiness is passed over. -/
theorem stale_ready (time : Nat) : clerk.stale time x.ready = true := by
  have tag : byte 'Z' ∈ Tag.unasked := by decide
  show stale time x.ready = true
  simp [stale, wf.ready, tag]

/-- What is sent in a result is not passed over. -/
theorem asked_of_result (mem : m ∈ x.result) : m.value.tag ∉ Tag.unasked := by
  have apart : ∀ t ∈ [Tag.rowDescription, Tag.dataRow, Tag.commandComplete],
      t ∉ Tag.unasked := by decide +kernel
  exact apart _ (tag_of_result wf mem)

theorem inside_body (mem : m ∈ x.body) : m.value.tag ∈ Tag.inResult ∧ Inside queryEnds m.value := by
  have within : ∀ t ∈ [Tag.rowDescription, Tag.dataRow], t ∉ queryEnds ∧ t ∈ Tag.inResult := by
    decide +kernel
  obtain ⟨goes, stays⟩ := within m.value.tag (by simpa using tag_of_body wf mem)
  exact ⟨stays, goes, .inl stays⟩

/-- What looks like a reply to a request is one. -/
theorem reply_of_suits (suits : x.Suits q) : Reply q.value.tag (x.share q) := by
  rcases suits with execute | ⟨describe, named⟩
  · rw [share_of_execute execute, execute]
    exact .executed (fun m mem => (inside_body wf mem).1) (by rw [wf.completion]; decide)
  · obtain ⟨d, some⟩ := Option.isSome_iff_exists.1 named
    rw [share_of_describe describe, describe, some]
    exact .described (by rw [wf.description d some]; decide)

theorem ended_completion : x.completion.value.tag ∈ queryEnds := by
  rw [wf.completion]
  decide

theorem takeReply_query (session : Session) (ms : List (Stamped Message)) :
    takeReply session x.query.value.tag ms = some (takeResult [] queryEnds ms) := by
  rw [wf.query]
  rfl

/-- The query takes its result. -/
theorem serves_query : clerk.Serves x.query x.result := by
  refine serves_result (fun session => ⟨[], takeReply_query wf session⟩)
    (fun m mem => (inside_body wf mem).2) (ended_completion wf) fun m mem => ?_
  exact ⟨late_result wf (by simp [script]) mem, asked_of_result wf mem⟩

/-- A request that has got no answer takes nothing of a result that does not look like one. -/
theorem settle_of_unsuited {rest : List (Stamped Message)}
    (other : q.value.tag ∈ batchTags ∧ ¬ x.Suits q ∨ q.value.tag = byte 'S')
    (starts : x.result = m :: rest) (session : Session) :
    ∃ outcome, clerk.settle session q (m :: rest) = some ⟨0, outcome, session⟩ := by
  have tag : m.value.tag ∈ [Tag.rowDescription, Tag.dataRow, Tag.commandComplete] :=
    tag_of_result wf (by rw [starts]; exact List.mem_cons_self)
  have unlike : ∀ t ∈ [Tag.rowDescription, Tag.dataRow, Tag.commandComplete],
      t ≠ Tag.parseComplete ∧ t ≠ Tag.bindComplete ∧ t ≠ Tag.parameters ∧ t ≠ Tag.error := by
    decide +kernel
  obtain ⟨parsed, bound, parameters, failed⟩ := unlike m.value.tag tag
  have mismatch : takeReply session q.value.tag (m :: rest) = some .mismatch →
      ∃ outcome, settle session q (m :: rest) = some ⟨0, outcome, session⟩ := by
    intro taken
    rw [settle, taken]
    exact ⟨.error, rfl⟩
  rcases other with ⟨batch, unsuited⟩ | sync
  · simp only [batchTags, List.mem_cons, List.not_mem_nil, or_false] at batch
    rcases batch with parse | bind | describe | execute
    · apply mismatch
      rw [parse]
      exact congrArg some (if_neg (not_or.2 ⟨parsed, failed⟩))
    · apply mismatch
      rw [bind]
      exact congrArg some (if_neg (not_or.2 ⟨bound, failed⟩))
    · -- The columns are not named, so a row or the end comes first.
      have unnamed : x.description = none := by
        by_contra named
        exact unsuited (.inr ⟨describe, Option.isSome_iff_ne_none.2 named⟩)
      have first : m ∈ x.rows ++ [x.completion] := by
        have starts' : x.rows ++ [x.completion] = m :: rest := by
          simpa [result, body, unnamed] using starts
        rw [starts']
        exact List.mem_cons_self
      have ends : ∀ t ∈ [Tag.dataRow, Tag.commandComplete], t ∉ describeEnds := by decide +kernel
      have plain : m.value.tag ∉ describeEnds := by
        refine ends _ ?_
        rcases List.mem_append.1 first with row | last
        · simp [wf.rows m row]
        · simp [List.mem_singleton.1 last, wf.completion]
      apply mismatch
      rw [describe]
      refine congrArg some ?_
      rw [takeDescribe, if_neg parameters]
      exact if_neg (by simpa using plain)
    · exact absurd (.inl execute) unsuited
  · have unanswered : takeReply session q.value.tag (m :: rest) = none := by
      rw [sync]
      rfl
    show ∃ outcome, settle session q (m :: rest) = _
    rw [settle, unanswered]
    exact ⟨_, rfl⟩

/-- The requests up to the one that fails take the replies to them. -/
theorem serves_opening : ∀ turn ∈ x.opening, clerk.Serves turn.1 turn.2 := by
  intro turn mem
  have causal := wf.causal turn (List.mem_append_left _ mem)
  rcases List.mem_append.1 mem with carried | refused
  · exact (wf.answered turn carried).serves causal
  · obtain rfl := List.mem_singleton.1 refused
    exact serves_refused wf.failing causal wf.begun wf.execute wf.error

/-- The first request behind the failing one that takes something of the result takes its share
right behind what the earlier ones have taken. -/
theorem exists_served {passed later taken rest : List (Stamped Message)}
    (split : (x.skipped ++ [x.sync]) ++ [x.query] = passed ++ q :: later)
    (passes : ∀ p ∈ passed, p.value.tag ∈ batchTags ∧ ¬ x.Suits p ∨ p.value.tag = byte 'S')
    (serves : clerk.Serves q taken) (parts : x.result = taken ++ rest) (session : Session) :
    let once := clerk.serve session (x.script.map (·.1)) (x.script.flatMap (·.2))
    ∃ (before : Ledger Message Session Exchange) (τ : Session)
        (s : Settlement Session Exchange),
      before.takings = x.opening ++ passed.map (·, []) ∧
      clerk.settle τ q x.result = some s ∧
      once.1 = before ++ ⟨some q, taken, s.outcome, s.after⟩ :: (clerk.serve s.after later rest).1 ∧
      once.2.drained = (clerk.serve s.after later rest).2.drained := by
  intro once
  obtain ⟨answers, turns, turned⟩ := Clerk.serve_turns (serves_opening wf) session
    ((x.skipped ++ [x.sync]) ++ [x.query]) ([x.ready] ++ x.result)
  rw [← map_script, ← flatMap_script] at turned
  have unasked : ∀ m ∈ [x.ready], ∀ p ∈ (x.skipped ++ [x.sync]) ++ [x.query],
      clerk.stale p.time m = true := by
    intro m mem p _
    rw [List.mem_singleton.1 mem]
    exact stale_ready wf p.time
  obtain ⟨same, left⟩ := @Clerk.serve_append_old _ _ _ clerk (answers.leaves session) _ x.result _
    unasked
  obtain ⟨m, tail, starts⟩ : ∃ m tail, x.result = m :: tail :=
    List.exists_cons_of_ne_nil (by simp [result])
  have first : m ∈ x.result := by
    rw [starts]
    exact List.mem_cons_self
  have fresh : ∀ p ∈ passed, clerk.stale p.time m = false := by
    intro p mem
    have asked : p ∈ x.script.map (·.1) := by
      rw [map_script, split]
      simp [mem]
    show stale p.time m = false
    simp [stale, asked_of_result wf first, late_result wf asked first]
  obtain ⟨gaps, nothing, kept, went⟩ := Clerk.serve_passed fresh
    (fun p mem => settle_of_unsuited wf (passes p mem) starts) (answers.leaves session) (q :: later)
  rw [← split, ← starts, parts] at went
  obtain ⟨s, settled, served⟩ := serves.serve_eq (answers.leaves session) later rest
  rw [← parts] at settled
  refine ⟨answers ++ gaps, answers.leaves session, s, ?_, settled, ?_, ?_⟩
  · simp [turns, nothing]
  · show once.1 = _
    have entries := congrArg Prod.fst turned
    dsimp only at entries
    rw [same, parts, went, served] at entries
    simpa using entries
  · have lane := congrArg (·.2.drained) turned
    dsimp only at lane
    rw [left, parts, went, served] at lane
    exact lane

/-- Where the query is settled with the end of what has come, nothing is left. -/
theorem drop_of_settle_query {τ : Session} {part fresh : List (Stamped Message)}
    {s : Settlement Session Exchange} (part_of : part <+: [x.ready] ++ x.result)
    (behind : fresh <:+ part) (settled : clerk.settle τ x.query fresh = some s) :
    fresh.drop s.taken = [] := by
  have within : ∀ m ∈ x.ready :: x.body, Inside queryEnds m.value := by
    have ready : Inside queryEnds x.ready.value := by
      rw [Inside, wf.ready]
      decide
    exact List.forall_mem_cons.2 ⟨ready, fun m mem => (inside_body wf mem).2⟩
  change settle τ x.query fresh = some s at settled
  rw [settle, takeReply_query wf, takeResult] at settled
  have unfinished : extent queryEnds [] fresh ≠ .pending := by
    intro pending
    rw [pending] at settled
    cases settled
  have whole : part <+: (x.ready :: x.body) ++ [x.completion] := part_of
  rcases List.prefix_concat_iff.1 whole with rfl | early
  · rcases List.suffix_concat_iff.1 behind with rfl | ⟨more, rfl, more_of⟩
    · exact absurd rfl unfinished
    · have found : extent queryEnds [] (more ++ [x.completion]) = .found more x.completion :=
        extent_of_inside (fun m mem => within m (more_of.subset mem)) (ended_completion wf) [] []
      rw [found] at settled
      dsimp only at settled
      have taken : s.taken = more.length + 1 := by
        cases shown : resultText [] (more.map (·.value)) x.completion.value with
        | ok text =>
          rw [shown] at settled
          cases settled
          exact settlement_taken ..
        | error e =>
          rw [shown] at settled
          cases settled
          rfl
      exact List.drop_of_length_le (by simp [taken])
  · exact absurd (extent_of_part (fun m mem => within m (early.subset (behind.subset mem))) [])
      unfinished

/-- What no request takes of the messages that have come is readiness at most. -/
theorem clean_script : clerk.Clean x.script := by
  refine .turns (serves_opening wf) ?_
  rintro session ⟨requests, responses⟩ ⟨come, begins, rfl, come_of⟩ served all m mem time
  rcases List.prefix_concat_iff.1 begins with rfl | early
  · have last : (x.silence ++ [(x.query, x.result)]).map (·.1) =
        (x.skipped ++ [x.sync]) ++ [x.query] := by
      rw [List.map_append, map_silence]
      rfl
    dsimp only [served] at all mem
    rw [last] at all mem
    obtain ⟨τ, fresh, s, behind, settled, left⟩ := Clerk.exists_last all
    rw [List.flatMap_append, flatMap_silence, List.flatMap_singleton] at come_of
    rw [left, drop_of_settle_query wf come_of behind settled] at mem
    cases mem
  · -- The query has not come, so readiness is all that no request has taken.
    have few : responses <+: [x.ready] := by
      obtain ⟨others, parts⟩ := early
      rw [← flatMap_silence, ← parts, List.flatMap_append]
      exact come_of.trans (List.prefix_append _ _)
    have left := (Clerk.left_serve_suffix session (come.map (·.1)) responses).subset mem
    rw [List.mem_singleton.1 (few.subset left)]
    exact stale_ready wf time

/-- Where the result decodes, the query makes an exchange with the text of it. -/
theorem outcome_of_query {τ : Session} {s : Settlement Session Exchange} {sheet : Sheet}
    (settled : clerk.settle τ x.query x.result = some s)
    (decodes : Decodes [] (x.body.map (·.value)) x.completion.value sheet) :
    s.outcome = .exchange
      ⟨{ Side.ofMessage x.query with text := x.query.value.text },
        ⟨(x.body.headD x.completion).time, Tag.commandComplete, x.completion.value.length,
          joinLines sheet.arrival⟩⟩ := by
  have found : extent queryEnds [] x.result = .found x.body x.completion :=
    extent_of_inside (fun m mem => (inside_body wf mem).2) (ended_completion wf) [] []
  have taken : takeReply τ x.query.value.tag x.result =
      some (.done ⟨(x.body.headD x.completion).time, Tag.commandComplete,
        x.completion.value.length, joinLines sheet.arrival⟩ (x.body.length + 1)) := by
    rw [takeReply_query wf, takeResult, found]
    dsimp only
    rw [resultText_of_decodes decodes, wf.completion]
  change settle τ x.query x.result = some s at settled
  rw [settle, taken] at settled
  cases settled
  have exchanged (reply : Side) : complete τ x.query reply = .ok ⟨τ,
      some ⟨{ Side.ofMessage x.query with text := x.query.value.text }, reply⟩⟩ := by
    rw [complete, if_pos wf.query]
  rw [exchanged]
  rfl

end

section
variable {x : Lapse} (wf : x.WellFormed) {batches : List (Lane Message)}
  (delivered : x.Delivers batches) (session : Session)
include wf delivered

/-- The requests of any number of passes fare as in a single one. -/
theorem asked_passes :
    let run := clerk.passes session batches
    let once := clerk.serve session (x.script.map (·.1)) (x.script.flatMap (·.2))
    run.1.asked = once.1 ∧ run.2 = once.2.drained := by
  have sorted : (Lane.concat batches).requests.Pairwise (·.time ≤ ·.time) := by
    rw [delivered.whole]
    exact wf.sorted
  obtain ⟨entries, lane, -⟩ := @Clerk.serve_of_passes _ _ _ clerk session steadfast _ sorted
    fun earlier begins => clean_script wf session _ (delivered.causal earlier begins)
  rw [delivered.whole] at entries lane
  exact ⟨entries, lane⟩

/-- Where nothing that was skipped suits the result, the query takes it. -/
theorem takings_of_unsuited (unsuited : ∀ q ∈ x.skipped, ¬ x.Suits q) :
    let run := clerk.passes session batches
    run.1.takings = x.opening ++ x.skipped.map (·, []) ++ [(x.sync, []), (x.query, x.result)] ∧
      run.2 = {} ∧
      ∃ e ∈ run.1, ∃ τ s, clerk.settle τ x.query x.result = some s ∧ e.outcome = s.outcome := by
  intro run
  obtain ⟨entries, lane⟩ := asked_passes wf delivered session
  have passes : ∀ p ∈ x.skipped ++ [x.sync],
      p.value.tag ∈ batchTags ∧ ¬ x.Suits p ∨ p.value.tag = byte 'S' := by
    intro p mem
    rcases List.mem_append.1 mem with skipped | sync
    · exact .inl ⟨wf.skipped p skipped, unsuited p skipped⟩
    · exact .inr (by rw [List.mem_singleton.1 sync, wf.sync])
  obtain ⟨before, τ, s, takings, settled, served, left⟩ := exists_served wf rfl passes
    (serves_query wf) (List.append_nil _).symm session
  refine ⟨?_, lane.trans left, ⟨some x.query, x.result, s.outcome, s.after⟩, ?_, τ, s, settled, rfl⟩
  · rw [← Ledger.takings_asked, entries, served, Ledger.takings_append, takings]
    simp [Ledger.takings, Clerk.serve]
  · have mem : ⟨some x.query, x.result, s.outcome, s.after⟩ ∈ run.1.asked := by
      rw [entries, served]
      simp
    exact (List.mem_filter.1 mem).1

/-- Otherwise the first request that suits the result takes its share of it. -/
theorem takings_of_suited (suited : ∃ q ∈ x.skipped, x.Suits q) :
    ∃ passed q later others, x.skipped = passed ++ q :: later ∧ (∀ p ∈ passed, ¬ x.Suits p) ∧
      x.Suits q ∧ x.share q ≠ [] ∧
      (clerk.passes session batches).1.takings =
        x.opening ++ passed.map (·, []) ++ (q, x.share q) :: others := by
  obtain ⟨entries, -⟩ := asked_passes wf delivered session
  obtain ⟨q, found⟩ : ∃ q, x.skipped.find? (x.Suits ·) = some q := by
    rw [← Option.isSome_iff_exists, List.find?_isSome]
    simpa using suited
  obtain ⟨suits, passed, later, parts, unsuited⟩ := List.find?_eq_some_iff_append.1 found
  simp only [decide_eq_true_eq, Bool.not_eq_true', decide_eq_false_iff_not] at suits unsuited
  have mem : q ∈ x.skipped := by simp [parts]
  have split : (x.skipped ++ [x.sync]) ++ [x.query] =
      passed ++ q :: (later ++ [x.sync, x.query]) := by simp [parts]
  have passes : ∀ p ∈ passed, p.value.tag ∈ batchTags ∧ ¬ x.Suits p ∨ p.value.tag = byte 'S' :=
    fun p earlier => .inl ⟨wf.skipped p (by simp [parts, earlier]), unsuited p earlier⟩
  have asked : q ∈ x.script.map (·.1) := by simp [map_script, mem]
  obtain ⟨rest, share⟩ := x.share_prefix q
  have serves : clerk.Serves q (x.share q) :=
    (reply_of_suits wf suits).serves fun m taken =>
      late_result wf asked ((x.share_prefix q).subset taken)
  have some : x.share q ≠ [] := by
    obtain ⟨m, others, is, -⟩ := serves.fresh
    simp [is]
  obtain ⟨before, τ, s, takings, -, served, -⟩ := exists_served wf split passes serves share.symm
    session
  refine ⟨passed, q, later, (clerk.serve s.after (later ++ [x.sync, x.query]) rest).1.takings,
    parts, unsuited, suits, some, ?_⟩
  rw [← Ledger.takings_asked, entries, served, Ledger.takings_append, takings]
  rfl

end

/-- The frames may come in one batch. -/
theorem delivers_parcel (x : Lapse) : x.Delivers [x.parcel] where
  whole := by simp [Lane.concat]
  causal earlier begins := by
    rcases List.prefix_cons_iff.1 begins with rfl | ⟨rest, rfl, rest_of⟩
    · exact ⟨[], List.nil_prefix, rfl, List.nil_prefix⟩
    · obtain rfl : rest = [] := List.prefix_nil.1 rest_of
      refine ⟨x.script, List.prefix_rfl, ?_, ?_⟩ <;> simp [Lane.concat, parcel]

/-- **A query behind a batch that fails gets its own result, unless a skipped request would.** A
batch of requests up to a Sync is answered up to the one that fails, and then left without answers;
a query comes next with its result. The frames are paired in any number of passes, none of which is
given an answer before what it answers, and the ledger accounts for what is found. If no Execute is
among the skipped requests, and no Describe where the columns are named, the requests up to the
failing one are paired with their answers, the other ones of the batch with nothing, and the query
with its result; nothing waits any more, and a result that decodes makes an exchange with the query.
Otherwise the first such Execute is paired with the result of the query, or the first such Describe
with the columns of it. -/
theorem realigned (x : Lapse) (wf : x.WellFormed) {batches : List (Lane Message)}
    (delivered : x.Delivers batches) (session : Session) :
    let run := Pairing.passes pair session batches
    let ledger := (clerk.passes session batches).1
    (Ledger.Balances session ledger (Lane.concat batches) run ∧ Ledger.Trail Fair session ledger) ∧
    ((∀ q ∈ x.skipped, ¬ x.Suits q) →
      ledger.takings = x.opening ++ x.skipped.map (·, []) ++ [(x.sync, []), (x.query, x.result)] ∧
        run.left = {} ∧
        ∀ sheet, Decodes [] (x.body.map (·.value)) x.completion.value sheet →
          ⟨{ Side.ofMessage x.query with text := x.query.value.text },
            ⟨(x.body.headD x.completion).time, Tag.commandComplete, x.completion.value.length,
              joinLines sheet.arrival⟩⟩ ∈ run.exchanges) ∧
    ((∃ q ∈ x.skipped, x.Suits q) →
      ∃ passed q later others, x.skipped = passed ++ q :: later ∧ (∀ p ∈ passed, ¬ x.Suits p) ∧
        x.Suits q ∧ x.share q ≠ [] ∧
        ledger.takings = x.opening ++ passed.map (·, []) ++ (q, x.share q) :: others) := by
  intro run ledger
  obtain ⟨balanced, left⟩ := keeps_pairRequests.balances_passes session batches
  have trail : Ledger.Trail Fair session ledger :=
    (clerk.trail_passes session batches).imp fun _ _ => fair_of_step
  refine ⟨⟨balanced, trail⟩, fun unsuited => ?_, takings_of_suited wf delivered session⟩
  obtain ⟨takings, none, e, mem, τ, s, settled, outcome⟩ :=
    takings_of_unsuited wf delivered session unsuited
  refine ⟨takings, left.trans none, fun sheet decodes => ?_⟩
  have exchanges : run.exchanges = ledger.filterMap (·.outcome.exchange?) := balanced.exchanges
  rw [exchanges, List.mem_filterMap]
  refine ⟨e, mem, ?_⟩
  rw [outcome, outcome_of_query wf settled decodes]
  rfl

/-- A statement that the server cannot prepare, what was to be done with it, and another query. -/
def misspelt (skipped : List (Stamped Message)) : Lapse where
  answered := []
  failing := ⟨1, Tag.parse, [0] ++ ascii "select x" ++ [0, 0, 0]⟩
  begun := []
  error := ⟨2, Tag.error, ascii "SERROR" ++ [0] ++ ascii "Mno x" ++ [0, 0]⟩
  skipped := skipped
  sync := ⟨1, byte 'S', []⟩
  ready := ⟨3, byte 'Z', ascii "I"⟩
  query := ⟨4, Tag.query, ascii "select 1" ++ [0]⟩
  description := some ⟨5, Tag.rowDescription, [0, 1] ++ ascii "a" ++ List.replicate 19 0⟩
  rows := [⟨5, Tag.dataRow, [0, 1, 0, 0, 0, 1] ++ ascii "1"⟩]
  completion := ⟨5, Tag.commandComplete, ascii "SELECT 1" ++ [0]⟩

/-- The statement was to be bound. -/
def unbound : Lapse := misspelt [⟨1, Tag.bind, List.replicate 8 0⟩]

/-- The statement was to be bound and carried out. -/
def unexecuted : Lapse :=
  misspelt [⟨1, Tag.bind, List.replicate 8 0⟩, ⟨1, Tag.execute, List.replicate 5 0⟩]

theorem wellFormed_misspelt {skipped : List (Stamped Message)}
    (batch : ∀ q ∈ skipped, q.value.tag ∈ batchTags)
    (sorted : ((misspelt skipped).script.map (·.1)).Pairwise (·.time ≤ ·.time))
    (causal : ∀ turn ∈ (misspelt skipped).script, ∀ m ∈ turn.2, turn.1.time ≤ m.time) :
    (misspelt skipped).WellFormed where
  answered := by simp [misspelt]
  failing := by
    show Tag.parse ∈ batchTags
    decide
  begun := by simp [misspelt]
  execute some := absurd rfl some
  error := rfl
  skipped := batch
  sync := rfl
  ready := rfl
  query := rfl
  description := by simp [misspelt]
  rows := by simp [misspelt]
  completion := rfl
  sorted := sorted
  causal := causal

theorem wellFormed_unbound : unbound.WellFormed :=
  wellFormed_misspelt (by decide) (by decide) (by decide)

theorem wellFormed_unexecuted : unexecuted.WellFormed :=
  wellFormed_misspelt (by decide) (by decide) (by decide)

/-- The batch comes first, then the query with the columns and the row, and then the end. -/
def parcels : List (Lane Message) :=
  [⟨unbound.script.map (·.1) |>.take 3, [unbound.error]⟩,
    ⟨[unbound.query], unbound.ready :: unbound.body⟩, ⟨[], [unbound.completion]⟩]

theorem delivers_parcels : unbound.Delivers parcels where
  whole := by decide
  causal earlier begins := by
    have cut (n : Nat) (lane : Lane Message)
        (requests : lane.requests = (unbound.script.take n).map (·.1))
        (responses : lane.responses <+: (unbound.script.take n).flatMap (·.2)) :
        lane.Cut unbound.script := ⟨_, List.take_prefix n _, requests, responses⟩
    simp only [parcels, List.prefix_cons_iff, List.prefix_nil] at begins
    obtain rfl | ⟨_, rfl, rfl | ⟨_, rfl, rfl | ⟨_, rfl, rfl⟩⟩⟩ := begins
    · exact cut 0 _ (by decide) (by decide)
    · exact cut 3 _ (by decide) (by decide)
    · exact cut 4 _ (by decide) (by decide)
    · exact cut 4 _ (by decide) (by decide)

def unboundSheet : Sheet :=
  { columns := some [ascii "a"], rows := [[some (ascii "1")]], ending := [ascii "SELECT 1"] }

theorem decodes_unbound :
    Decodes [] (unbound.body.map (·.value)) unbound.completion.value unboundSheet where
  early := .nil
  columns := by decide +kernel
  rows := .cons rfl .nil
  failed failed := absurd failed (by decide)
  completed _ := by decide

/-- Readiness and the result come while the bound statement waits, which gives way to the query. -/
theorem realigned_unbound :
    unbound.WellFormed ∧ unbound.Delivers parcels ∧ (∀ q ∈ unbound.skipped, ¬ unbound.Suits q) ∧
      (clerk.passes {} parcels).1.takings =
        [(unbound.failing, [unbound.error]), (⟨1, Tag.bind, List.replicate 8 0⟩, []),
          (unbound.sync, []), (unbound.query, unbound.result)] ∧
      (Pairing.passes pair {} parcels).left = {} ∧
      ⟨⟨4, Tag.query, 13, ascii "select 1"⟩,
        ⟨5, Tag.commandComplete, 13, joined [ascii "a", ascii "1", ascii "SELECT 1"]⟩⟩ ∈
          (Pairing.passes pair {} parcels).exchanges := by
  have unsuited : ∀ q ∈ unbound.skipped, ¬ unbound.Suits q := by decide
  obtain ⟨-, aligned, -⟩ := realigned unbound wellFormed_unbound delivers_parcels {}
  obtain ⟨takings, none, shown⟩ := aligned unsuited
  exact ⟨wellFormed_unbound, delivers_parcels, unsuited, takings, none,
    shown unboundSheet decodes_unbound⟩

/-- The result is shown as that of the execution, and the query waits. -/
theorem result_taken_by_execute :
    unexecuted.WellFormed ∧ unexecuted.Delivers [unexecuted.parcel] ∧
      (clerk.passes {} [unexecuted.parcel]).1.takings =
        [(unexecuted.failing, [unexecuted.error]), (⟨1, Tag.bind, List.replicate 8 0⟩, []),
          (⟨1, Tag.execute, List.replicate 5 0⟩, unexecuted.result), (unexecuted.sync, [])] ∧
      pair {} unexecuted.parcel =
        ⟨[⟨⟨1, Tag.parse, 16, ascii "select x"⟩, ⟨2, Tag.error, 18, ascii "ERROR: no x"⟩⟩,
            ⟨⟨1, Tag.execute, 9, []⟩,
              ⟨5, Tag.commandComplete, 13, joined [ascii "a", ascii "1", ascii "SELECT 1"]⟩⟩],
          1, ⟨[unexecuted.query], []⟩, {}⟩ :=
  ⟨wellFormed_unexecuted, delivers_parcel unexecuted, by decide +kernel, by rfl⟩

end Lapse

end Dialogue.Postgres
