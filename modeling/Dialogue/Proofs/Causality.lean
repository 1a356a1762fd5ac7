import Mathlib
import Dialogue.Proofs.Pairing
import Dialogue.Record

/-!
No exchange is answered before it is asked for.

What a pass has found is kept in `Progress.found`, and `Progress.All` says that all of it has a
property. Each step of a pass that finds an exchange with both sides has made sure of their times,
though each dialect in its own way: by comparing them where it pairs, by passing over the responses
that came before the request at hand, or by making up a request for the response. A description of a
PostgreSQL statement is the one reply that may have come too early, and it enters no exchange.
-/
namespace Dialogue

namespace Summary

/-- If an exchange has both sides, the response came no earlier than the request. -/
def Causal (x : Summary) : Prop :=
  ∀ asked answered, x.requestTime = some asked → x.responseTime = some answered → asked ≤ answered

theorem causal_of_le {asked answered : Nat} (le : asked ≤ answered) (request response : Bytes) :
    Causal ⟨some asked, some answered, request, response⟩ := by
  rintro _ _ ⟨⟩ ⟨⟩
  exact le

theorem causal_of_no_request {x : Summary} (h : x.requestTime = none) : x.Causal := by
  intro asked answered request
  rw [h] at request
  cases request

theorem causal_of_no_response {x : Summary} (h : x.responseTime = none) : x.Causal := by
  intro asked answered _ response
  rw [h] at response
  cases response

/-- The latency that is shown is the whole time between both sides. -/
theorem Causal.latency {x : Summary} (h : x.Causal) {asked answered : Nat}
    (request : x.requestTime = some asked) (response : x.responseTime = some answered)
    (connection : Nat) (p : Protocol) (key : Int) :
    ∃ latency, (x.toRecord connection p key).latency = some latency ∧
      asked + latency = answered := by
  refine ⟨answered - asked, ?_, Nat.add_sub_cancel' (h asked answered request response)⟩
  simp only [toRecord, request, response]

end Summary

namespace Pairing

variable {F S X : Type} {P : X → Prop} {p : Progress F S X}

/-- Whether all that was found so far has a property. -/
def Progress.All (P : X → Prop) (p : Progress F S X) : Prop := ∀ x ∈ p.found, P x

/-- Whether nothing that was found so far was answered before it was asked for. -/
abbrev Progress.Causal (summary : X → Summary) (p : Progress F S X) : Prop :=
  p.All fun x => (summary x).Causal

theorem Progress.All.record (h : p.All P) {x : X} (hx : P x) : (p.record x).All P := by
  intro y hy
  rcases List.mem_cons.1 hy with rfl | before
  · exact hx
  · exact h y before

theorem Progress.All.finish (h : p.All P) : ∀ x ∈ p.finish.exchanges, P x :=
  fun x hx => h x (List.mem_reverse.1 hx)

theorem Progress.all_start (left : Lane F) (σ : S) :
    ({ left := left, state := σ } : Progress F S X).All P :=
  fun _ hx => absurd hx List.not_mem_nil

theorem all_passOver {stale : Stamped F → Bool}
    {pass : Progress F S X → Stamped F → Progress F S X} (h : p.All P)
    (kept : ∀ p m, p.All P → (pass p m).All P) (ms : List (Stamped F)) :
    (passOver stale pass p ms).All P :=
  holds_foldl (P := fun p : Progress F S X => p.All P) h fun p h m _ => kept p m h

section
variable {pair : S → Stamped F → Stamped F → X × S}

theorem all_answer
    (sound : ∀ σ request response, request.time ≤ response.time → P (pair σ request response).1)
    (h : p.All P) (response : Stamped F) : (answer pair p response).All P := by
  unfold answer
  split
  · next request rest _ =>
    split
    · next le => exact Progress.All.record (p := { p with state := _ }) h (sound _ _ _ le)
    · exact h
  · exact h

theorem all_inOrder
    (sound : ∀ σ request response, request.time ≤ response.time → P (pair σ request response).1)
    (σ : S) (lane : Lane F) : ∀ x ∈ (inOrder pair σ lane).exchanges, P x :=
  Progress.All.finish <| holds_foldl (Progress.all_start _ _) fun _ h m _ => all_answer sound h m

end

end Pairing

/-! ## Dialects that pair in order -/

theorem Cql.causal (σ : Cql.Prepared) (lane : Lane Cql.Frame) :
    ∀ x ∈ (Cql.pair σ lane).exchanges, (Cql.summary x).Causal :=
  Pairing.all_inOrder (fun _ _ _ le => Summary.causal_of_le le _ _) σ _

theorem Kafka.causal (seen : Kafka.Seen) (lane : Lane Kafka.Packet) :
    ∀ x ∈ (Kafka.pair seen lane).exchanges, (Kafka.summary x).Causal :=
  Pairing.all_inOrder (fun _ _ _ le => Summary.causal_of_le le _ _) seen lane

theorem Dns.causal (lane : Lane Dns.Message) :
    ∀ x ∈ (Dns.pair lane).exchanges, (Dns.summary x).Causal :=
  Pairing.all_inOrder (fun _ _ _ le => Summary.causal_of_le le _ _) () lane

theorem Http.causal (awaited : Http.Awaited) (lane : Lane Http.Message) :
    ∀ x ∈ (Http.pair awaited lane).exchanges, (Http.summary x).Causal :=
  Pairing.all_inOrder (fun _ _ _ le => Summary.causal_of_le le _ _) awaited _

/-! ## Redis -/

namespace Redis

/-- The request made up for a published message has the time of the message. -/
theorem causal_answer {p : Progress} (h : p.Causal summary) (reply : Stamped Message) :
    (answer p reply).Causal summary := by
  unfold answer
  split
  · exact h.record (Summary.causal_of_le (Nat.le_refl reply.time) _ _)
  · split
    · exact h
    · exact Pairing.all_answer (fun _ _ _ le => Summary.causal_of_le le _ _) h reply

theorem causal (owed : Owed) (lane : Lane Message) :
    ∀ x ∈ (pair owed lane).exchanges, (summary x).Causal :=
  Pairing.Progress.All.finish <|
    Pairing.holds_foldl (Pairing.Progress.all_start _ _) fun _ h m _ => causal_answer h m

end Redis

/-! ## Mux -/

namespace Mux

theorem causal_settle (reply : Stamped Message) {p : Progress} (h : p.Causal summary)
    (requests : List (Stamped Message)) : (settle reply p requests).Causal summary := by
  induction requests generalizing p with
  | nil => exact h
  | cons request rest ih =>
    rw [settle]
    split_ifs with silent early answers
    · exact ih h
    · exact h
    · exact Pairing.Progress.All.record (p := p) h
        (Summary.causal_of_le (Nat.not_lt.1 early) _ _)
    · exact ih (p := p.miss) h

theorem causal (lane : Lane Message) : ∀ x ∈ (pair lane).exchanges, (summary x).Causal := by
  refine Pairing.Progress.All.finish ?_
  refine Pairing.holds_foldl (Pairing.Progress.all_start _ _) fun p h m _ => ?_
  unfold answer
  split
  · exact causal_settle m h _
  · exact h

end Mux

/-! ## NATS -/

namespace Nats

theorem causal_unpaired {p : Progress} (h : p.Causal summary) (m : Stamped Message) :
    (unpaired p m).Causal summary := by
  unfold unpaired
  split
  · exact h.record (Summary.causal_of_no_request rfl)
  · exact h

theorem causal_takeEarlier {p : Progress} (h : p.Causal summary) (time : Nat)
    (ms : List (Stamped Message)) : (takeEarlier time p ms).Causal summary := by
  rw [takeEarlier_eq]
  exact Pairing.all_passOver h (fun _ m h => causal_unpaired h m) ms

theorem causal_pairRequests {p : Progress} (h : p.Causal summary)
    (requests : List (Stamped Message)) : (pairRequests p requests).Causal summary := by
  induction requests generalizing p with
  | nil => exact Pairing.holds_foldl h fun _ h m _ => causal_unpaired h m
  | cons request rest ih =>
    rw [pairRequests]
    have earlier := causal_takeEarlier h request.time p.left.responses
    split
    · exact earlier
    · next response responses fresh =>
      have late := late_takeEarlier fresh
      split
      · exact ih (earlier.record (Summary.causal_of_le late _ _))
      · exact ih (earlier.record (Summary.causal_of_no_response rfl))

theorem causal (lane : Lane Message) : ∀ x ∈ (pair lane).exchanges, (summary x).Causal :=
  (causal_pairRequests (Pairing.Progress.all_start _ _) lane.requests).finish

end Nats

/-! ## MySQL -/

namespace Mysql

theorem causal_takeReply {p : Progress} (h : p.Causal summary)
    {command : Stamped Packet} (packets : Nat) (reply : Reply)
    (late : ∀ first rest, p.left.responses = first :: rest → command.time ≤ first.time) :
    (takeReply p command packets reply).Causal summary := by
  unfold takeReply
  dsimp only
  split
  · exact h
  · next first rest responses =>
    exact Pairing.Progress.All.record (p := { p.withResponses _ with state := _ }) h
      (Summary.causal_of_le (late first rest responses) _ _)

theorem causal_discard {p : Progress} (h : p.Causal summary) (m : Stamped Packet) :
    (discard p m).Causal summary := by
  unfold discard
  split <;> exact h

theorem causal_dropStale {p : Progress} (h : p.Causal summary) (time : Nat)
    (ms : List (Stamped Packet)) : (dropStale time p ms).Causal summary := by
  rw [dropStale_eq]
  exact Pairing.all_passOver h (fun _ m h => causal_discard h m) ms

theorem causal_pairCommands {p : Progress} (h : p.Causal summary)
    (commands : List (Stamped Packet)) : (pairCommands p commands).Causal summary := by
  induction commands generalizing p with
  | nil => exact Pairing.holds_foldl h fun _ h m _ => causal_discard h m
  | cons command rest ih =>
    rw [pairCommands]
    have fresh := causal_dropStale h command.time p.left.responses
    split
    · exact ih h
    · dsimp only
      split
      · exact ih (Pairing.Progress.All.record (p := { dropStale _ _ _ with state := _ }) fresh
          (Summary.causal_of_no_response rfl))
      · split
        · exact fresh
        · exact ih fresh
        · exact ih (causal_takeReply fresh _ _ fun _ _ responses => late_dropStale responses)

theorem causal (prepared : Prepared) (lane : Lane Packet) :
    ∀ x ∈ (pair prepared lane).exchanges, (summary x).Causal :=
  (causal_pairCommands (Pairing.Progress.all_start _ _) lane.requests).finish

end Mysql

/-! ## AMQP -/

namespace Amqp

theorem causal_answer {p : Progress} (h : p.Causal summary) (reply : Message) :
    (answer p reply).Causal summary := by
  unfold answer
  dsimp only
  rw [Pairing.drop_length_takeWhile]
  split
  · exact h
  · next call rest found =>
    have answered := Pairing.not_of_dropWhile_eq found
    rw [Bool.not_eq_false', Call.answeredBy, Bool.and_eq_true, decide_eq_true_eq] at answered
    refine Pairing.Progress.All.record ?_ (Summary.causal_of_le answered.1 _ _)
    -- The calls that were passed over are recorded alone.
    exact Pairing.holds_foldl h fun _ h c _ => h.record (Summary.causal_of_no_response rfl)

theorem causal_takeIn {p : Progress} (h : p.Causal summary) (s : Span) :
    (takeIn p s).Causal summary := by
  unfold takeIn
  split
  · exact h
  · exact h
  · split
    · exact causal_answer h _
    · exact h.record (Summary.causal_of_no_request rfl)

theorem causal_of_alone {s : Span} {x : Exchange} (h : s.alone? = some x) :
    (summary x).Causal := by
  unfold Span.alone? at h
  split at h
  · split at h
    · cases h
    · cases h
      exact Summary.causal_of_no_response rfl
  · cases h

theorem causal (lane : Lane Frame) : ∀ x ∈ (pair lane).exchanges, (summary x).Causal := by
  intro x hx
  refine Pairing.holds_foldl (P := Pairing.Progress.Causal summary) ?_
    (fun _ h s _ => causal_takeIn h s) x (List.mem_reverse.1 (List.mem_mergeSort.1 hx))
  intro y hy
  obtain ⟨s, -, alone⟩ := List.mem_filterMap.1 (List.mem_reverse.1 hy)
  exact causal_of_alone alone

end Amqp

/-! ## PostgreSQL -/

namespace Postgres

/-- The end of a result is looked for from the first message at hand on. -/
theorem head?_of_extent {ends : List UInt8} {body ms before : List (Stamped Message)}
    {terminal : Stamped Message} (h : extent ends body ms = .found before terminal) :
    (before ++ [terminal]).head? = (body.reverse ++ ms).head? := by
  induction ms generalizing body with
  | nil => cases h
  | cons m rest ih =>
    rw [extent] at h
    split_ifs at h
    · obtain ⟨rfl, rfl⟩ := Extent.found.inj h
      rw [List.head?_append, List.head?_append]
      rfl
    · rw [ih h, List.reverse_cons, List.append_assoc]
      rfl

theorem time_of_takeResult {columns : List Bytes} {ends : List UInt8}
    {responses : List (Stamped Message)} {reply : Side} {count : Nat}
    (h : takeResult columns ends responses = .done reply count) :
    ∃ m rest, responses = m :: rest ∧ reply.time = m.time := by
  unfold takeResult at h
  split at h
  · cases h
  · cases h
  · next before terminal found =>
    dsimp only at h
    split at h
    · obtain ⟨rfl, -⟩ := Take.done.inj h
      have head := head?_of_extent found
      rw [List.reverse_nil, List.nil_append, List.head?_append, List.head?_singleton,
        Option.or_some, ← List.headD_eq_head?_getD] at head
      obtain ⟨rest, responses⟩ := List.head?_eq_some_iff.1 head.symm
      exact ⟨_, rest, responses, rfl⟩
    · cases h

theorem time_of_takeSingle {tag : UInt8} {responses : List (Stamped Message)} {reply : Side}
    {count : Nat} (h : takeSingle tag responses = .done reply count) :
    ∃ m rest, responses = m :: rest ∧ reply.time = m.time := by
  unfold takeSingle at h
  split at h
  · cases h
  · next m rest =>
    split_ifs at h
    obtain ⟨rfl, -⟩ := Take.done.inj h
    exact ⟨m, rest, rfl, rfl⟩

/-- A reply has the time of the first message at hand, unless it is a description. -/
theorem time_of_takeReply {session : Session} {tag : UInt8} {responses : List (Stamped Message)}
    {reply : Side} {count : Nat} (h : takeReply session tag responses = some (.done reply count))
    (other : tag ≠ Tag.describe) : ∃ m rest, responses = m :: rest ∧ reply.time = m.time := by
  unfold takeReply at h
  split_ifs at h
  · exact time_of_takeResult (Option.some.inj h)
  · exact time_of_takeResult (Option.some.inj h)
  · exact time_of_takeSingle (Option.some.inj h)
  · exact time_of_takeSingle (Option.some.inj h)
  · exact time_of_takeSingle (Option.some.inj h)
  · exact time_of_takeSingle (Option.some.inj h)

theorem ok_of_bind {α β : Type} {a : Except DecodeError α} {f : α → Except DecodeError β} {y : β}
    (h : a >>= f = .ok y) : ∃ x, a = .ok x ∧ f x = .ok y := by
  cases a with
  | error e => cases h
  | ok x => exact ⟨x, rfl, h⟩

/-- If a completion makes an exchange, then with the times of both sides. -/
def Completion.Shows (request reply : Side) (c : Completion) : Prop :=
  ∀ x, c.exchange = some x → x.request.time = request.time ∧ x.response.time = reply.time

section
variable {session : Session} {request reply : Side} {c : Completion}

theorem shows_of_refusal {query : Bytes} (h : refusal session request query reply = .ok c) :
    c.Shows request reply := by
  obtain ⟨text, -, h⟩ := ok_of_bind h
  cases h
  rintro x ⟨⟩
  exact ⟨rfl, rfl⟩

theorem shows_of_completeParse (h : completeParse session request reply = .ok c) :
    c.Shows request reply := by
  obtain ⟨⟨name, query⟩, -, h⟩ := ok_of_bind h
  dsimp only at h
  split at h
  · exact shows_of_refusal h
  · cases h
    exact nofun

theorem shows_of_completeBind (h : completeBind session request reply = .ok c) :
    c.Shows request reply := by
  obtain ⟨⟨portal, name⟩, -, h⟩ := ok_of_bind h
  dsimp only at h
  split at h
  · exact shows_of_refusal h
  · cases h
    exact nofun

/-- Describing makes no exchange. -/
theorem exchange_of_completeDescribe (h : completeDescribe session request reply = .ok c) :
    c.exchange = none := by
  obtain ⟨⟨target, name⟩, -, h⟩ := ok_of_bind h
  dsimp only at h
  split at h
  · cases h
    rfl
  · obtain ⟨columns, -, h⟩ := ok_of_bind h
    cases target <;> (cases h; rfl)

theorem exchange_of_completeClose (h : completeClose session request reply = .ok c) :
    c.exchange = none := by
  obtain ⟨⟨target, name⟩, -, h⟩ := ok_of_bind h
  dsimp only at h
  split at h <;> (cases h; rfl)

end

/-- An exchange has the times of the request and of the reply, and describing makes none. -/
theorem shows_of_complete {session : Session} {request : Stamped Message} {reply : Side}
    {c : Completion} (h : complete session request reply = .ok c) :
    c.Shows (Side.ofMessage request) reply ∧
      (request.value.tag = Tag.describe → c.exchange = none) := by
  unfold complete at h
  dsimp only at h
  split_ifs at h with query execute parse describe bind close
  · cases h
    refine ⟨?_, fun same => absurd (query.symm.trans same) (by decide)⟩
    rintro x ⟨⟩
    exact ⟨rfl, rfl⟩
  · cases h
    refine ⟨?_, fun same => absurd (execute.symm.trans same) (by decide)⟩
    rintro x ⟨⟩
    exact ⟨rfl, rfl⟩
  · exact ⟨shows_of_completeParse h, fun same => absurd (parse.symm.trans same) (by decide)⟩
  · have none := exchange_of_completeDescribe h
    refine ⟨fun x made => ?_, fun _ => none⟩
    rw [none] at made
    cases made
  · exact ⟨shows_of_completeBind h, fun same => absurd (bind.symm.trans same) (by decide)⟩
  · have none := exchange_of_completeClose h
    refine ⟨fun x made => ?_, fun _ => none⟩
    rw [none] at made
    cases made
  · cases h
    exact ⟨nofun, fun _ => rfl⟩

theorem causal_discard {p : Progress} (h : p.Causal summary) (m : Stamped Message) :
    (discard p m).Causal summary := by
  unfold discard
  split <;> exact h

theorem causal_dropStale {p : Progress} (h : p.Causal summary) (time : Nat)
    (ms : List (Stamped Message)) : (dropStale time p ms).Causal summary := by
  rw [dropStale_eq]
  exact Pairing.all_passOver h (fun _ m h => causal_discard h m) ms

theorem causal_enter {p : Progress} (h : p.Causal summary)
    {request : Stamped Message} {reply : Side}
    (late : request.value.tag ≠ Tag.describe → request.time ≤ reply.time) (session : Session) :
    (enter p (complete session request reply)).Causal summary := by
  unfold enter
  split
  · exact h
  · next c completed =>
    obtain ⟨shows, describing⟩ := shows_of_complete completed
    dsimp only
    split
    · exact h
    · next x made =>
      obtain ⟨asked, answered⟩ := shows x made
      refine Pairing.Progress.All.record (p := { p with state := _ }) h
        (Summary.causal_of_le ?_ _ _)
      rw [asked, answered]
      refine late fun same => ?_
      rw [describing same] at made
      cases made

theorem causal_pairRequests {p : Progress} (h : p.Causal summary)
    (requests : List (Stamped Message)) : (pairRequests p requests).Causal summary := by
  induction requests generalizing p with
  | nil => exact Pairing.holds_foldl h fun _ h m _ => causal_discard h m
  | cons request rest ih =>
    rw [pairRequests]
    have fresh := causal_dropStale h request.time p.left.responses
    split
    · exact ih fresh
    · exact fresh
    · exact ih fresh
    · exact ih fresh
    · next reply count taken =>
      have late : request.value.tag ≠ Tag.describe → request.time ≤ reply.time := by
        intro other
        obtain ⟨m, later, responses, time⟩ := time_of_takeReply taken other
        rw [time]
        exact late_dropStale responses
      refine ih (causal_enter ?_ late _)
      exact fresh

theorem causal (session : Session) (lane : Lane Message) :
    ∀ x ∈ (pair session lane).exchanges, (summary x).Causal :=
  (causal_pairRequests (Pairing.Progress.all_start _ _) lane.requests).finish

end Postgres

/-! ## All of them -/

theorem Protocol.causal {p : Protocol} (h : p ≠ .http2) {libraries : Libraries}
    (σ : (p.dialect libraries).State) (lane : Lane (p.dialect libraries).Frame) :
    ∀ x ∈ ((p.dialect libraries).pair σ lane).exchanges,
      ((p.dialect libraries).summary x).Causal := by
  cases p with
  | pgsql => exact Postgres.causal σ lane
  | cql => exact Cql.causal σ lane
  | amqp => exact Amqp.causal lane
  | nats => exact Nats.causal lane
  | mysql => exact Mysql.causal σ lane
  | kafka => exact Kafka.causal σ lane
  | redis => exact Redis.causal σ lane
  | dns => exact Dns.causal lane
  | http => exact Http.causal σ lane
  | http2 => exact absurd rfl h
  | mux => exact Mux.causal lane

/-- **No exchange is answered before it is asked for**, whatever waits in a lane, in whatever order
and with whatever times, and whatever is remembered: for each protocol but HTTP/2, which pairs the
sides of a stream by their order alone. The latency of a record is therefore the whole time between
its two sides. -/
theorem Protocol.pairing_causal {p : Protocol} (h : p ≠ .http2) (libraries : Libraries)
    (σ : (p.dialect libraries).State) (lane : Lane (p.dialect libraries).Frame) :
    let d := p.dialect libraries
    ∀ x ∈ (d.pair σ lane).exchanges, ∀ asked answered,
      (d.summary x).requestTime = some asked →
        (d.summary x).responseTime = some answered →
          asked ≤ answered ∧ ∀ connection key, ∃ latency,
            ((d.summary x).toRecord connection p key).latency = some latency ∧
              asked + latency = answered := by
  intro d x hx asked answered request response
  have causal := Protocol.causal h σ lane x hx
  exact ⟨causal asked answered request response, fun connection key =>
    causal.latency request response connection p key⟩

/-- Two pings of one tag, and three answers: one from before the pings, and one for each of them. -/
def crossed : Lane Mux.Message :=
  ⟨[⟨5, .tping, 1, []⟩, ⟨6, .tping, 1, []⟩],
    [⟨3, .rping, 1, []⟩, ⟨9, .rping, 1, []⟩, ⟨7, .rping, 1, []⟩]⟩

theorem Protocol.pairing_causal_crossed :
    Protocol.mux ≠ .http2 ∧
      (Mux.pair crossed).exchanges.map (fun x => (x.request.time, x.response.time)) =
        [(5, 9), (6, 7)] ∧
      ∀ x ∈ (Mux.pair crossed).exchanges, x.request.time ≤ x.response.time ∧
        ∃ latency, ((Mux.summary x).toRecord 1 .mux 1).latency = some latency ∧
          x.request.time + latency = x.response.time := by
  refine ⟨by decide, by decide, fun x hx => ?_⟩
  obtain ⟨le, latency⟩ :=
    Protocol.pairing_causal (p := .mux) (by decide) {} () crossed x hx x.request.time
      x.response.time rfl rfl
  exact ⟨le, latency 1 1⟩

end Dialogue
