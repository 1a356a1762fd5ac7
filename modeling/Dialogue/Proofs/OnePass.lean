import Mathlib
import Dialogue.Proofs.Amqp
import Dialogue.Proofs.Pairing

/-!
One pass of pairing leaves nothing for a second one.

What a pass leaves of a lane is at rest: pairing it again finds nothing, counts nothing and leaves
all of it. Where the responses are used up whatever becomes of them, no response is left to begin
with. Where a request waits for the rest of its reply, the reply is still unfinished and nothing
stands before it that could be dropped (`Rests`). The sides of an HTTP/2 stream wait as long as one
of them has no end (`Stuck`), and AMQP keeps frames that are taken apart as before. Each dialect has
a lemma that a pass ends at rest and one that a pass changes nothing there.
-/
namespace Dialogue

/-! ## Dialects that use up the responses -/

theorem Pairing.inOrder_of_none {F S X : Type} {pair : S → Stamped F → Stamped F → X × S}
    {σ : S} {lane : Lane F} (none : lane.responses = []) :
    inOrder pair σ lane = ⟨[], 0, lane, σ⟩ := by
  obtain ⟨requests, responses⟩ := lane
  obtain rfl : responses = [] := none
  rfl

/-- That no response is left is kept by leaving some of them out. -/
theorem Pairing.settles_inOrder {F S X : Type} {pair : S → Stamped F → Stamped F → X × S}
    (keep : Stamped F → Bool) (σ : S) (lane : Lane F) :
    let pass σ (lane : Lane F) :=
      inOrder pair σ { lane with responses := lane.responses.filter keep }
    let once := pass σ lane
    pass once.state once.left = ⟨[], 0, once.left, once.state⟩ := by
  intro pass once
  have none : once.left.responses = [] := responses_inOrder σ _
  have same : { once.left with responses := once.left.responses.filter keep } = once.left := by
    rw [none]
    exact congrArg (Lane.mk once.left.requests) none.symm
  show inOrder pair once.state _ = _
  rw [same, inOrder_of_none none]

theorem Cql.settles (prepared : Cql.Prepared) (lane : Lane Cql.Frame) :
    let once := Cql.pair prepared lane
    Cql.pair once.state once.left = ⟨[], 0, once.left, once.state⟩ :=
  Pairing.settles_inOrder (fun f : Stamped Cql.Frame => f.value.opcode != .event) prepared lane

theorem Http.settles (awaited : Http.Awaited) (lane : Lane Http.Message) :
    let once := Http.pair awaited lane
    Http.pair once.state once.left = ⟨[], 0, once.left, once.state⟩ :=
  Pairing.settles_inOrder (fun m : Stamped Http.Message => !m.value.status?.any Http.isInterim)
    awaited lane

namespace Redis

theorem answer_responses (p : Progress) (reply : Stamped Message) :
    (answer p reply).left.responses = p.left.responses := by
  unfold answer
  split
  · rfl
  · split
    · rfl
    · exact Pairing.answer_responses p reply

theorem settles (owed : Owed) (lane : Lane Message) :
    let once := pair owed lane
    pair once.state once.left = ⟨[], 0, once.left, once.state⟩ := by
  intro once
  have none : once.left.responses = [] :=
    Pairing.kept_foldl (fun p : Progress => p.left.responses) answer_responses lane.responses _
  generalize once = paired at none ⊢
  obtain ⟨_, _, ⟨requests, responses⟩, _⟩ := paired
  obtain rfl : responses = [] := none
  rfl

end Redis

namespace Mux

theorem settle_responses (reply : Stamped Message) (p : Progress)
    (requests : List (Stamped Message)) :
    (settle reply p requests).left.responses = p.left.responses := by
  induction requests generalizing p with
  | nil => rfl
  | cons request rest ih =>
    rw [settle]
    split_ifs
    · exact ih p
    · rfl
    · rfl
    · exact ih p.miss

theorem answer_responses (p : Progress) (m : Stamped Message) :
    (answer p m).left.responses = p.left.responses := by
  unfold answer
  split
  · exact settle_responses m p _
  · rfl

theorem settles (lane : Lane Message) :
    let once := pair lane
    pair once.left = ⟨[], 0, once.left, ()⟩ := by
  intro once
  have none : once.left.responses = [] :=
    Pairing.kept_foldl (fun p : Progress => p.left.responses) answer_responses lane.responses _
  generalize once = paired at none ⊢
  obtain ⟨_, _, ⟨requests, responses⟩, _⟩ := paired
  obtain rfl : responses = [] := none
  rfl

end Mux

namespace Nats

/-- A request waits only where no response is left. -/
theorem responses_pairRequests (p : Progress) (requests : List (Stamped Message)) :
    (pairRequests p requests).left.responses = [] := by
  induction requests generalizing p with
  | nil => rfl
  | cons request rest ih =>
    rw [pairRequests]
    split
    · next none => exact none
    · split
      · exact ih _
      · exact ih _

theorem settles (lane : Lane Message) :
    let once := pair lane
    pair once.left = ⟨[], 0, once.left, ()⟩ := by
  intro once
  have none : once.left.responses = [] := responses_pairRequests _ lane.requests
  generalize once = paired at none ⊢
  obtain ⟨_, _, ⟨requests, responses⟩, _⟩ := paired
  obtain rfl : responses = [] := none
  cases requests <;> rfl

end Nats

/-! ## Dialects whose requests wait for the end of a reply -/

namespace Mysql

/-- What a pass leaves: nothing, or commands the first of which has an unfinished reply. -/
inductive Rests : Lane Packet → Prop where
  | done : Rests {}
  | waits {command : Stamped Packet} {rest responses : List (Stamped Packet)}
      (starts : command.value.sequence = 0)
      (fresh : ∀ m later, responses = m :: later → stale command.time m = false)
      (awaited : isUnanswered (commandOf command.value) = false)
      (pending : group (commandOf command.value) responses = .pending) :
      Rests ⟨command :: rest, responses⟩

theorem requests_takeReply (p : Progress) (command : Stamped Packet) (packets : Nat)
    (reply : Reply) : (takeReply p command packets reply).left.requests = p.left.requests := by
  unfold takeReply
  dsimp only
  split <;> rfl

theorem rests_pairCommands {p : Progress} (none : p.left.requests = [])
    (commands : List (Stamped Packet)) : Rests (pairCommands p commands).left := by
  induction commands generalizing p with
  | nil =>
    have kept : (p.left.responses.foldl discard p).left.requests = [] :=
      (Pairing.kept_foldl (fun p : Progress => p.left.requests) requests_discard _ p).trans none
    have empty : (pairCommands p []).left = {} := congrArg (Lane.mk · []) kept
    exact empty ▸ .done
  | cons command rest ih =>
    rw [pairCommands]
    have kept := (requests_dropStale command.time p p.left.responses).trans none
    split
    · exact ih none
    · next starts =>
      dsimp only
      split
      · exact ih kept
      · next awaited =>
        split
        · next pending =>
          exact .waits (not_not.1 starts) (fun _ _ => fresh_dropStale)
            (Bool.eq_false_of_not_eq_true awaited) pending
        · exact ih kept
        · exact ih ((requests_takeReply ..).trans kept)

theorem pair_of_rests {lane : Lane Packet} (h : Rests lane) (prepared : Prepared) :
    pair prepared lane = ⟨[], 0, lane, prepared⟩ := by
  cases h with
  | done => rfl
  | waits starts fresh awaited pending =>
    unfold pair
    rw [pairCommands, if_neg (not_not_intro starts), dropStale_of_fresh fresh]
    dsimp only [Pairing.Progress.withResponses]
    rw [awaited, pending]
    rfl

theorem settles (prepared : Prepared) (lane : Lane Packet) :
    let once := pair prepared lane
    pair once.state once.left = ⟨[], 0, once.left, once.state⟩ :=
  pair_of_rests (rests_pairCommands rfl lane.requests) _

end Mysql

namespace Postgres

/-- What a pass leaves: nothing, or requests the first of which has an unfinished reply. -/
inductive Rests (session : Session) : Lane Message → Prop where
  | done : Rests session {}
  | waits {request : Stamped Message} {rest responses : List (Stamped Message)}
      (fresh : ∀ m later, responses = m :: later → stale request.time m = false)
      (pending : takeReply session request.value.tag responses = some .pending) :
      Rests session ⟨request :: rest, responses⟩

theorem requests_enter (p : Progress) (c : Except DecodeError Completion) :
    (enter p c).left.requests = p.left.requests := by
  unfold enter
  split
  · rfl
  · dsimp only
    split <;> rfl

theorem rests_pairRequests {p : Progress} (none : p.left.requests = [])
    (requests : List (Stamped Message)) :
    Rests (pairRequests p requests).state (pairRequests p requests).left := by
  induction requests generalizing p with
  | nil =>
    have kept : (p.left.responses.foldl discard p).left.requests = [] :=
      (Pairing.kept_foldl (fun p : Progress => p.left.requests) requests_discard _ p).trans none
    have empty : (pairRequests p []).left = {} := congrArg (Lane.mk · []) kept
    exact empty ▸ .done
  | cons request rest ih =>
    rw [pairRequests]
    have kept := (requests_dropStale request.time p p.left.responses).trans none
    split
    · exact ih kept
    · next pending => exact .waits (fun _ _ => fresh_dropStale) pending
    · exact ih kept
    · exact ih kept
    · exact ih ((requests_enter ..).trans kept)

theorem pair_of_rests {session : Session} {lane : Lane Message} (h : Rests session lane) :
    pair session lane = ⟨[], 0, lane, session⟩ := by
  cases h with
  | done => rfl
  | waits fresh pending =>
    unfold pair
    rw [pairRequests, dropStale_of_fresh fresh]
    dsimp only [Pairing.Progress.withResponses]
    rw [pending]
    rfl

theorem settles (session : Session) (lane : Lane Message) :
    let once := pair session lane
    pair once.state once.left = ⟨[], 0, once.left, once.state⟩ :=
  pair_of_rests (rests_pairRequests rfl lane.requests)

end Postgres

/-! ## HTTP/2 -/

namespace Http2

/-- Whether nothing can be paired of the frames that both sides of a stream have left. -/
def Stuck (requests responses : List (Stamped Frame)) : Prop :=
  splitHalf? responses = none ∨ (requests.isEmpty = false ∧ splitHalf? requests = none)

theorem pairHalves_of_stuck {requests responses : List (Stamped Frame)}
    (h : Stuck requests responses) (stream : Nat) (p : Progress) :
    pairHalves stream p requests responses =
      (p.withRequests requests).withResponses responses := by
  rw [pairHalves]
  split
  · rfl
  · next response later split =>
    rcases h with none | ⟨filled, none⟩
    · rw [none] at split
      cases split
    · rw [filled, if_neg Bool.false_ne_true]
      split
      · rfl
      · next request laterRequests found =>
        rw [none] at found
        cases found

theorem suffix_of_splitHalf? {frames half rest : List (Stamped Frame)}
    (h : splitHalf? frames = some (half, rest)) : rest <:+ frames := by
  unfold splitHalf? at h
  dsimp only at h
  split at h
  · cases h
  · next last later dropped =>
    obtain ⟨-, rfl⟩ := Prod.mk.inj (Option.some.inj h)
    exact (List.suffix_cons last later).trans (dropped ▸ List.drop_suffix _ frames)

/-- What is left is stuck, and is the end of what there was. -/
theorem stuck_pairHalves (stream : Nat) (p : Progress) (requests responses : List (Stamped Frame)) :
    let left := (pairHalves stream p requests responses).left
    Stuck left.requests left.responses ∧ left.requests <:+ requests ∧
      left.responses <:+ responses := by
  fun_induction pairHalves stream p requests responses with
  | case1 p requests responses none =>
    exact ⟨.inl none, List.suffix_refl requests, List.suffix_refl responses⟩
  | case2 p requests responses response later split _ empty ih =>
    exact ⟨ih.1, ih.2.1, ih.2.2.trans (suffix_of_splitHalf? split)⟩
  | case3 p requests responses response later split _ filled none =>
    exact ⟨.inr ⟨Bool.eq_false_of_not_eq_true filled, none⟩, List.suffix_refl requests,
      List.suffix_refl responses⟩
  | case4 p requests responses response later split _ filled request laterRequests found ih =>
    exact ⟨ih.1, ih.2.1.trans (suffix_of_splitHalf? found),
      ih.2.2.trans (suffix_of_splitHalf? split)⟩

/-- The frame by which a lane is told to belong to a stream. -/
def first? (lane : Lane Frame) : Option (Stamped Frame) :=
  lane.requests.head?.or lane.responses.head?

theorem mem_of_first? {lane : Lane Frame} {f : Stamped Frame} (h : first? lane = some f) :
    f ∈ lane.requests ++ lane.responses := by
  rw [first?, Option.or_eq_some_iff] at h
  rcases h with asked | ⟨-, answered⟩
  · exact List.mem_append_left _ (List.mem_of_head? asked)
  · exact List.mem_append_right _ (List.mem_of_head? answered)

theorem pair_of_zero {lane : Lane Frame} (zero : ∀ f, first? lane = some f → f.value.stream = 0) :
    pair lane = ⟨[], 0, {}, ()⟩ := by
  have stream : ((first? lane).map (·.value.stream)).getD 0 = 0 := by
    cases found : first? lane with
    | none => rfl
    | some f => exact zero f found
  exact if_pos stream

theorem pair_of_stream {lane : Lane Frame} {f : Stamped Frame} (first : first? lane = some f)
    (other : f.value.stream ≠ 0) :
    pair lane = (pairHalves f.value.stream { state := () }
      (lane.requests.filter (·.value.contributes))
      (lane.responses.filter (·.value.contributes))).finish := by
  have stream : ((first? lane).map (·.value.stream)).getD 0 = f.value.stream := by
    rw [first]
    rfl
  show (if _ then _ else _) = _
  rw [if_neg (stream ▸ other)]
  exact congrArg (fun stream => (pairHalves stream _ _ _).finish) stream

theorem settles {lane : Lane Frame} {stream : Int}
    (one : ∀ f ∈ lane.requests ++ lane.responses, (f.value.stream : Int) = stream) :
    let once := pair lane
    pair once.left = ⟨[], 0, once.left, ()⟩ := by
  intro once
  by_cases zero : ∀ f, first? lane = some f → f.value.stream = 0
  · have nothing : once = ⟨[], 0, {}, ()⟩ := pair_of_zero zero
    rw [nothing]
    rfl
  · rw [not_forall] at zero
    obtain ⟨f, zero⟩ := zero
    rw [Classical.not_imp] at zero
    obtain ⟨first, other⟩ := zero
    have again := pair_of_stream first other
    obtain ⟨stuck, requests, responses⟩ := stuck_pairHalves f.value.stream { state := () }
      (lane.requests.filter (·.value.contributes)) (lane.responses.filter (·.value.contributes))
    have left : once.left = (pairHalves f.value.stream { state := () }
      (lane.requests.filter (·.value.contributes))
      (lane.responses.filter (·.value.contributes))).left := congrArg Paired.left again
    rw [← left] at stuck requests responses
    generalize once.left = rest at stuck requests responses ⊢
    -- What is left is of the same stream, and has been sifted already.
    have contributes : ∀ g ∈ rest.requests ++ rest.responses,
        g ∈ lane.requests ++ lane.responses ∧ g.value.contributes = true := by
      intro g hg
      rcases List.mem_append.1 hg with asked | answered
      · obtain ⟨mem, kept⟩ := List.mem_filter.1 (requests.subset asked)
        exact ⟨List.mem_append_left _ mem, kept⟩
      · obtain ⟨mem, kept⟩ := List.mem_filter.1 (responses.subset answered)
        exact ⟨List.mem_append_right _ mem, kept⟩
    cases found : first? rest with
    | none =>
      rw [first?, Option.or_eq_none_iff, List.head?_eq_none_iff, List.head?_eq_none_iff] at found
      have empty : rest = {} := congr (congrArg Lane.mk found.1) found.2
      rw [empty]
      rfl
    | some g =>
      have same : (g.value.stream : Int) = f.value.stream :=
        (one g (contributes g (mem_of_first? found)).1).trans (one f (mem_of_first? first)).symm
      have asked : rest.requests.filter (·.value.contributes) = rest.requests :=
        List.filter_eq_self.2 fun h hh => (contributes h (List.mem_append_left _ hh)).2
      have answered : rest.responses.filter (·.value.contributes) = rest.responses :=
        List.filter_eq_self.2 fun h hh => (contributes h (List.mem_append_right _ hh)).2
      rw [pair_of_stream found (by omega), asked, answered, pairHalves_of_stuck stuck]
      rfl

end Http2

/-! ## AMQP -/

namespace Amqp

theorem state_answer (p : Progress) (reply : Message) : (answer p reply).state <:+ p.state := by
  unfold answer
  dsimp only
  split
  · exact List.suffix_refl _
  · next call rest dropped =>
    exact (List.suffix_cons call rest).trans (dropped ▸ List.drop_suffix _ p.state)

/-- Calls are answered from the oldest on. -/
theorem state_takeIn (p : Progress) (s : Span) : (takeIn p s).state <:+ p.state := by
  unfold takeIn
  split
  · exact List.suffix_refl _
  · exact List.suffix_refl _
  · split
    · exact state_answer p _
    · exact List.suffix_refl _

/-- Calls before unfinished frames wait for what is not there. -/
theorem pair_of_calls {calls : List Call} (whole : ∀ c ∈ calls, c.Whole)
    (requests responses : List (Stamped Frame)) :
    let left : Lane Frame := ⟨calls.flatMap (·.frames) ++ unfinished requests, unfinished responses⟩
    pair left = ⟨[], 0, left, ()⟩ := by
  intro left
  obtain ⟨asked, waiting⟩ := spans_calls whole (unfinished requests)
  rw [(spans_unfinished requests).1, List.append_nil] at asked
  rw [(spans_unfinished requests).2] at waiting
  obtain ⟨answered, open_ended⟩ := spans_unfinished responses
  have isCall : ∀ c ∈ calls, c.message.method.isCall = true := by
    intro c hc
    obtain ⟨f, m, -, call, rfl⟩ := whole c hc
    exact call
  have alone : (calls.map Call.span).filterMap Span.alone? = [] := by
    rw [List.filterMap_map, List.filterMap_eq_nil_iff]
    intro c hc
    simp only [Function.comp_apply, Call.span, Span.alone?, isCall c hc, if_true]
  have orphans : (calls.map Call.span).countP (·.item == .orphan) = 0 := by
    rw [List.countP_map, List.countP_eq_zero]
    exact fun c _ => nofun
  have again : (calls.map Call.span).filterMap Span.call? = calls := by
    rw [List.filterMap_map]
    refine (List.filterMap_congr fun c hc => ?_).trans List.filterMap_some
    simp only [Function.comp_apply, Call.span, Span.call?, isCall c hc, if_true]
  unfold pair
  simp only [left, asked, waiting, answered, open_ended, alone, orphans, again, List.foldl_nil,
    List.reverse_nil, List.mergeSort_nil]

theorem settles (lane : Lane Frame) :
    let once := pair lane
    pair once.left = ⟨[], 0, once.left, ()⟩ := by
  refine pair_of_calls ?_ lane.requests lane.responses
  refine Pairing.holds_foldl (P := fun p : Progress => ∀ c ∈ p.state, c.Whole) ?_ ?_
  · intro c hc
    obtain ⟨s, hs, call⟩ := List.mem_filterMap.1 hc
    exact (Assembly.sound_ofQueue lane.requests).calls s (List.mem_reverse.1 hs) c call
  · exact fun p whole s _ c hc => whole c ((state_takeIn p s).subset hc)

end Amqp

/-! ## All of them -/

/-- **One pass settles a lane**: pairing again what a pass has left finds nothing, counts nothing
and leaves all of it, with what is remembered. It does so for every protocol, whatever waits in the
lane, provided that its frames are of one dialogue. -/
theorem Protocol.pairing_settles (p : Protocol) (libraries : Libraries)
    (σ : (p.dialect libraries).State) (lane : Lane (p.dialect libraries).Frame) (key : Int)
    (one : ∀ f ∈ lane.requests ++ lane.responses, (p.dialect libraries).key f.value = key) :
    let d := p.dialect libraries
    let once := d.pair σ lane
    d.pair once.state once.left = ⟨[], 0, once.left, once.state⟩ := by
  cases p with
  | pgsql => exact Postgres.settles σ lane
  | cql => exact Cql.settles σ lane
  | amqp => exact Amqp.settles lane
  | nats => exact Nats.settles lane
  | mysql => exact Mysql.settles σ lane
  | kafka => exact Pairing.inOrder_of_none (Pairing.responses_inOrder σ lane)
  | redis => exact Redis.settles σ lane
  | dns => exact Pairing.inOrder_of_none (Pairing.responses_inOrder () lane)
  | http => exact Http.settles σ lane
  | http2 =>
    have again := Http2.settles one
    exact congrArg (fun paired : Paired _ Unit _ =>
      (⟨paired.exchanges, paired.errors, paired.left, σ⟩ : Paired _ _ _)) again
  | mux => exact Mux.settles lane

/-- A channel with a call that is answered, one that is not, and content to come on either side. -/
def parted : Lane Amqp.Frame :=
  let frame (time : Nat) (kind : Amqp.Kind) : Stamped Amqp.Frame := ⟨time, 1, kind, [], 12⟩
  ⟨[frame 1 (.method ⟨50, 10⟩), frame 2 (.method ⟨60, 10⟩), frame 3 (.method ⟨60, 40⟩),
      frame 4 (.contentHeader 60 9)],
    [frame 5 (.method ⟨50, 11⟩), frame 6 (.method ⟨60, 60⟩)]⟩

theorem Protocol.pairing_settles_parted :
    (∀ f ∈ parted.requests ++ parted.responses, Amqp.dialect.key f.value = 1) ∧
      (Amqp.pair parted).exchanges.length = 1 ∧
      (Amqp.pair parted).left = ⟨parted.requests.drop 1, parted.responses.drop 1⟩ ∧
      Amqp.pair (Amqp.pair parted).left = ⟨[], 0, (Amqp.pair parted).left, ()⟩ := by
  have one : ∀ f ∈ parted.requests ++ parted.responses, Amqp.dialect.key f.value = 1 := by decide
  exact ⟨one, by decide +kernel, by decide +kernel,
    Protocol.pairing_settles .amqp {} () parted 1 one⟩

end Dialogue
