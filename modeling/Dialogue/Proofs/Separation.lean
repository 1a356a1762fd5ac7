import Mathlib
import Dialogue.Proofs.Backlog
import Dialogue.Proofs.OnePass

/-!
The dialogues of a multiplexed connection are kept apart.

Frames are filed by key, so a key's lane has the frames of that key in the order in which they came,
whatever came in between (`Sorted`). For five of the multiplexed protocols pairing neither reads nor
changes what is remembered (`Dialect.Stateless`), and what it leaves of a lane are frames of that
lane (`Dialect.Retains`). A pass over all lanes is then as many passes over one lane each. Cassandra
is not among them: the statements that one stream prepares are known to the others.
-/
namespace Dialogue

/-! ## Filing -/

namespace Conversation

variable {d : Dialect}

/-- A conversation in which frames have been filed, one after the other. -/
def filed (σ : d.State) (frames : List (Direction × Stamped d.Frame)) : Conversation d :=
  frames.foldl (fun c f => c.push f.1 f.2) { state := σ }

end Conversation

/-- The frames of one dialogue by themselves, in the order in which they came. -/
def Dialect.own (d : Dialect) (frames : List (Direction × Stamped d.Frame)) (key : Int) :
    Lane d.Frame :=
  let of (dir : Direction) := (frames.filter fun f => d.key f.2.value = key ∧ f.1 = dir).map (·.2)
  ⟨of .request, of .response⟩

section
variable {d : Dialect} {frames : List (Direction × Stamped d.Frame)}
  {f : Direction × Stamped d.Frame} {key : Int}

theorem Dialect.own_concat_self (same : d.key f.2.value = key) :
    d.own (frames ++ [f]) key = (d.own frames key).push f.1 f.2 := by
  obtain ⟨dir, f⟩ := f
  cases dir <;> simp [own, Lane.push, same]

theorem Dialect.own_concat_other (other : d.key f.2.value ≠ key) :
    d.own (frames ++ [f]) key = d.own frames key := by
  simp [own, other]

/-- What holds of a backlog in which frames were filed: it has the lanes of their keys, each with
the frames of that key. -/
structure Conversation.Sorted (frames : List (Direction × Stamped d.Frame)) (b : Backlog d.Frame) :
    Prop where
  ascending : b.Ascending
  keys : ∀ key, key ∈ b.keys ↔ ∃ f ∈ frames, d.key f.2.value = key
  lane : ∀ key, (b.lane? key).getD {} = d.own frames key

namespace Conversation

theorem filed_concat (σ : d.State) :
    filed σ (frames ++ [f]) = (filed σ frames).push f.1 f.2 := by
  rw [filed, List.foldl_concat]
  rfl

/-- By induction on the frames, the last one last. -/
theorem sorted_filed (σ : d.State) (frames : List (Direction × Stamped d.Frame)) :
    Sorted frames (filed σ frames).backlog := by
  induction frames using List.reverseRecOn with
  | nil => exact ⟨List.Pairwise.nil, by simp [filed, Backlog.keys], fun _ => rfl⟩
  | append_singleton frames f ih =>
    rw [filed_concat]
    refine ⟨ih.ascending.update, fun key => ?_, fun key => ?_⟩
    · rw [push, Backlog.push, Backlog.mem_keys_update ih.ascending, ih.keys]
      simp [or_comm, eq_comm]
    · rw [push, Backlog.push, Backlog.lane?_update ih.ascending]
      split_ifs with same
      · rw [Dialect.own_concat_self same, Option.getD_some, ih.lane, same]
      · rw [Dialect.own_concat_other same, ih.lane]

theorem state_filed (σ : d.State) (frames : List (Direction × Stamped d.Frame)) :
    (filed σ frames).state = σ := by
  induction frames using List.reverseRecOn with
  | nil => rfl
  | append_singleton frames f ih => rw [filed_concat, push, ih]

theorem Sorted.backlog_eq {b : Backlog d.Frame} (h : Sorted frames b) :
    b = b.keys.map fun key => (key, d.own frames key) := by
  have made := h.ascending.eq_map
  simp only [h.lane] at made
  exact made

end Conversation

end

/-! ## Passes over one lane -/

namespace Dialect

/-- Pairing neither reads nor changes what is remembered. -/
def Stateless (d : Dialect) : Prop :=
  ∀ (σ τ : d.State) (lane : Lane d.Frame), d.pair σ lane = { d.pair τ lane with state := σ }

/-- What pairing leaves of a queue are frames of that queue, in their order. -/
def Retains (d : Dialect) : Prop :=
  ∀ (σ : d.State) (lane : Lane d.Frame),
    (d.pair σ lane).left.requests.Sublist lane.requests ∧
      (d.pair σ lane).left.responses.Sublist lane.responses

end Dialect

/-- A pass over all lanes does to each lane what a pass over it alone does. -/
theorem Conversation.pairLanes_map {d : Dialect} (stateless : d.Stateless) (σ τ : d.State)
    (keys : List Int) (own : Int → Lane d.Frame) :
    pairLanes d σ (keys.map fun key => (key, own key)) =
      { exchanges := keys.flatMap fun key => (d.pair τ (own key)).exchanges.map (key, ·)
        errors := total (fun key => (d.pair τ (own key)).errors) keys
        backlog := keys.map fun key => (key, (d.pair τ (own key)).left)
        state := σ } := by
  induction keys with
  | nil => rfl
  | cons key rest ih =>
    rw [List.map_cons, pairLanes, stateless σ τ (own key)]
    dsimp only
    rw [ih]
    rfl

namespace Pairing

variable {F S X : Type} {pair : S → Stamped F → Stamped F → X × S}

/-- Pairing in order does not depend on what is remembered where a pair does not. -/
theorem inOrder_stateless {exchange : Stamped F → Stamped F → X} (σ τ : S) (lane : Lane F) :
    inOrder (fun σ request response => (exchange request response, σ)) σ lane =
      { inOrder (fun σ request response => (exchange request response, σ)) τ lane with
        state := σ } := by
  let step := answer fun (σ : S) request response => (exchange request response, σ)
  have moved (p : Progress F S X) (response : Stamped F) :
      step { p with state := σ } response = { step p response with state := σ } := by
    simp only [step, answer]
    split
    · split <;> rfl
    · rfl
  have run (responses : List (Stamped F)) (p : Progress F S X) :
      responses.foldl step { p with state := σ } =
        { responses.foldl step p with state := σ } := by
    induction responses generalizing p with
    | nil => rfl
    | cons response rest ih => rw [List.foldl_cons, List.foldl_cons, moved, ih]
  exact congrArg Progress.finish
    (run lane.responses { left := { requests := lane.requests }, state := τ })

theorem answer_requests (p : Progress F S X) (response : Stamped F) :
    (answer pair p response).left.requests <:+ p.left.requests := by
  unfold answer
  split
  · next request rest requests =>
    split
    · exact requests ▸ List.suffix_cons request rest
    · exact List.suffix_refl _
  · exact List.suffix_refl _

theorem requests_inOrder (σ : S) (lane : Lane F) :
    (inOrder pair σ lane).left.requests <:+ lane.requests :=
  holds_foldl (P := fun p : Progress F S X => p.left.requests <:+ lane.requests)
    (List.suffix_refl _) fun p h response _ => (answer_requests p response).trans h

end Pairing

theorem Kafka.stateless : Kafka.dialect.Stateless := fun σ τ lane =>
  Pairing.inOrder_stateless σ τ lane

theorem Kafka.retains : Kafka.dialect.Retains := fun σ lane =>
  ⟨(Pairing.requests_inOrder σ lane).sublist,
    (Pairing.responses_inOrder σ lane).symm ▸ List.nil_sublist _⟩

theorem Dns.retains : Dns.dialect.Retains := fun _ lane =>
  ⟨(Pairing.requests_inOrder () lane).sublist,
    (Pairing.responses_inOrder () lane).symm ▸ List.nil_sublist _⟩

namespace Mux

theorem settle_requests (reply : Stamped Message) (p : Progress)
    (requests : List (Stamped Message)) :
    (settle reply p requests).left.requests <:+ requests := by
  induction requests generalizing p with
  | nil => exact List.suffix_refl _
  | cons request rest ih =>
    rw [settle]
    split_ifs
    · exact (ih p).trans (List.suffix_cons request rest)
    · exact List.suffix_refl _
    · exact List.suffix_cons request rest
    · exact (ih p.miss).trans (List.suffix_cons request rest)

theorem answer_requests (p : Progress) (m : Stamped Message) :
    (answer p m).left.requests <:+ p.left.requests := by
  unfold answer
  split
  · exact settle_requests m p _
  · exact List.suffix_refl _

theorem retains : dialect.Retains := by
  intro _ lane
  constructor
  · refine List.IsSuffix.sublist ?_
    refine Pairing.holds_foldl (P := fun p : Progress => p.left.requests <:+ lane.requests)
      (List.suffix_refl _) fun p h m _ => ?_
    exact (answer_requests p m).trans h
  · have none : (pair lane).left.responses = [] :=
      Pairing.kept_foldl (fun p : Progress => p.left.responses) answer_responses lane.responses _
    exact none.symm ▸ List.nil_sublist _

end Mux

theorem Http2.retains (d : Http2.Decompressor) : (Http2.dialect d).Retains := by
  intro _ lane
  show (pair lane).left.requests.Sublist _ ∧ (pair lane).left.responses.Sublist _
  by_cases zero : ∀ f, first? lane = some f → f.value.stream = 0
  · rw [pair_of_zero zero]
    exact ⟨List.nil_sublist _, List.nil_sublist _⟩
  · simp only [not_forall] at zero
    obtain ⟨f, first, other⟩ := zero
    rw [pair_of_stream first other]
    obtain ⟨-, requests, responses⟩ := stuck_pairHalves f.value.stream { state := () }
      (lane.requests.filter (·.value.contributes)) (lane.responses.filter (·.value.contributes))
    exact ⟨requests.sublist.trans List.filter_sublist,
      responses.sublist.trans List.filter_sublist⟩

namespace Amqp

/-- The calls of a queue are frames of it. -/
theorem frames_calls (ss : List Span) :
    ((ss.filterMap Span.call?).flatMap (·.frames)).Sublist (ss.flatMap (·.frames)) := by
  induction ss with
  | nil => exact List.Sublist.refl _
  | cons s rest ih =>
    cases call : s.call? with
    | none =>
      rw [List.filterMap_cons_none call, List.flatMap_cons]
      exact ih.trans (List.sublist_append_right _ _)
    | some c =>
      have same : c.frames = s.frames := Span.frames_of_call? call
      rw [List.filterMap_cons_some call, List.flatMap_cons, List.flatMap_cons, same]
      exact ih.append_left s.frames

theorem retains : dialect.Retains := by
  intro _ lane
  let waiting (p : Progress) : Prop := p.state <:+ (spans lane.requests).filterMap Span.call?
  have calls : waiting ((spans lane.responses).foldl takeIn
      { found := ((spans lane.requests).filterMap Span.alone?).reverse
        errors := (spans lane.requests).countP (·.item == .orphan)
        state := (spans lane.requests).filterMap Span.call? }) :=
    Pairing.holds_foldl (List.suffix_refl _) fun p h s _ => (state_takeIn p s).trans h
  obtain ⟨answered, split⟩ := calls
  have frames := (List.sublist_append_right (answered.flatMap (·.frames)) _).trans
    (List.flatMap_append ▸ split ▸ frames_calls (spans lane.requests))
  constructor
  · rw [← spans_append_unfinished lane.requests]
    exact frames.append_right _
  · rw [← spans_append_unfinished lane.responses]
    exact List.sublist_append_right _ _

end Amqp

/-! ## Passes over all lanes -/

namespace Protocol

/-- The protocols whose dialogues have nothing but the connection in common. -/
def separate : List Protocol := [kafka, dns, mux, amqp, http2]

theorem stateless {p : Protocol} (h : p ∈ separate) (libraries : Libraries) :
    (p.dialect libraries).Stateless := by
  simp only [separate, List.mem_cons, List.not_mem_nil, or_false] at h
  obtain rfl | rfl | rfl | rfl | rfl := h
  · exact Kafka.stateless
  · exact fun _ _ _ => rfl
  · exact fun _ _ _ => rfl
  · exact fun _ _ _ => rfl
  · exact fun _ _ _ => rfl

theorem retains {p : Protocol} (h : p ∈ separate) (libraries : Libraries) :
    (p.dialect libraries).Retains := by
  simp only [separate, List.mem_cons, List.not_mem_nil, or_false] at h
  obtain rfl | rfl | rfl | rfl | rfl := h
  · exact Kafka.retains
  · exact Dns.retains
  · exact Mux.retains
  · exact Amqp.retains
  · exact Http2.retains libraries.headers

end Protocol

namespace Conversation

variable {d : Dialect}

theorem exists_iff_own (frames : List (Direction × Stamped d.Frame)) (key : Int) :
    (∃ f ∈ frames, d.key f.2.value = key) ↔ (d.own frames key).isEmpty = false := by
  have empty : (d.own frames key).isEmpty = true ↔ ∀ f ∈ frames, d.key f.2.value ≠ key := by
    simp only [Lane.isEmpty, Dialect.own, Bool.and_eq_true, List.isEmpty_iff, List.map_eq_nil_iff,
      List.filter_eq_nil_iff, decide_eq_true_eq]
    constructor
    · rintro ⟨asked, answered⟩ ⟨dir, f⟩ hf same
      cases dir with
      | request => exact asked _ hf ⟨same, rfl⟩
      | response => exact answered _ hf ⟨same, rfl⟩
    · exact fun other => ⟨fun f hf both => other f hf both.1, fun f hf both => other f hf both.1⟩
  rw [← Bool.not_eq_true, empty]
  push Not
  rfl

/-- It makes no difference in which order the frames of different dialogues or directions come. -/
theorem filed_eq_of_own {frames others : List (Direction × Stamped d.Frame)}
    (same : ∀ key, d.own others key = d.own frames key) (σ : d.State) :
    filed σ others = filed σ frames := by
  have there := sorted_filed σ frames
  have here := sorted_filed σ others
  have keys : (filed σ others).backlog.keys = (filed σ frames).backlog.keys := by
    apply here.ascending.pairwise_keys.eq_of_mem_iff there.ascending.pairwise_keys
    intro key
    rw [here.keys, there.keys, exists_iff_own, exists_iff_own, same]
  have backlog : (filed σ others).backlog = (filed σ frames).backlog := by
    rw [here.backlog_eq, there.backlog_eq, keys]
    simp only [same]
  have state : (filed σ others).state = (filed σ frames).state := by
    rw [state_filed, state_filed]
  calc filed σ others = ⟨(filed σ others).backlog, (filed σ others).state⟩ := rfl
    _ = ⟨(filed σ frames).backlog, (filed σ frames).state⟩ := by rw [backlog, state]
    _ = filed σ frames := rfl

/-- A pass over sorted lanes, in the terms of passes over the frames of one key each. -/
theorem Sorted.pairAll_eq {frames : List (Direction × Stamped d.Frame)} {c : Conversation d}
    (h : Sorted frames c.backlog) (stateless : d.Stateless) (τ : d.State) :
    let alone key := d.pair τ (d.own frames key)
    c.pairAll =
      { exchanges := c.backlog.keys.flatMap fun key => (alone key).exchanges.map (key, ·)
        errors := total (fun key => (alone key).errors) c.backlog.keys
        backlog := (c.backlog.keys.map fun key => (key, (alone key).left)).filter (!·.2.isEmpty)
        state := c.state } := by
  have lanes := (congrArg (pairLanes d c.state) h.backlog_eq).trans
    (pairLanes_map stateless c.state τ c.backlog.keys (d.own frames))
  simp only [pairAll, lanes, Backlog.dropEmpty]

end Conversation

/-- **The dialogues of a connection are kept apart**, for Kafka, DNS, mux, AMQP and HTTP/2, whatever
frames are filed in whatever order and whatever is remembered. What waits is filed under ascending
keys, each with its own frames. A pass over all of it finds for each key what a pass over the
key's own frames finds, counts what these passes count together, and leaves what they leave but for
empty lanes; none of it has moved to another key. So any other order in which the frames of each key
and direction keep theirs has the same result. -/
theorem Protocol.dialogues_apart {p : Protocol} (h : p ∈ separate) (libraries : Libraries)
    (σ τ : (p.dialect libraries).State)
    (frames : List (Direction × Stamped (p.dialect libraries).Frame)) :
    let d := p.dialect libraries
    let own := d.own frames
    let alone key := d.pair τ (own key)
    let waiting := Conversation.filed σ frames
    let round := waiting.pairAll
    ∃ keys : List Int, keys.Pairwise (· < ·) ∧
      (∀ key, key ∈ keys ↔ ∃ f ∈ frames, d.key f.2.value = key) ∧
      waiting.backlog = keys.map (fun key => (key, own key)) ∧
      round.exchanges = keys.flatMap (fun key => (alone key).exchanges.map (key, ·)) ∧
      round.errors = total (fun key => (alone key).errors) keys ∧
      round.backlog =
        (keys.map fun key => (key, (alone key).left)).filter (fun e => !e.2.isEmpty) ∧
      round.state = σ ∧
      (∀ e ∈ round.backlog, e.2.isEmpty = false ∧
        e.2.requests.Sublist (own e.1).requests ∧ e.2.responses.Sublist (own e.1).responses) ∧
      ∀ others, (∀ key, d.own others key = own key) →
        (Conversation.filed σ others).pairAll = round := by
  intro d own alone waiting round
  have sorted := Conversation.sorted_filed σ frames
  have passed := sorted.pairAll_eq (stateless h libraries) τ
  have left : round.backlog =
      (waiting.backlog.keys.map fun key => (key, (alone key).left)).filter (!·.2.isEmpty) :=
    congrArg Round.backlog passed
  refine ⟨waiting.backlog.keys, sorted.ascending.pairwise_keys, sorted.keys, sorted.backlog_eq,
    congrArg Round.exchanges passed, congrArg Round.errors passed, left, ?_, ?_, ?_⟩
  · exact (congrArg Round.state passed).trans (Conversation.state_filed σ frames)
  · intro e he
    rw [left, List.mem_filter, Bool.not_eq_true'] at he
    obtain ⟨lane, filled⟩ := he
    obtain ⟨key, -, rfl⟩ := List.mem_map.1 lane
    exact ⟨filled, retains h libraries τ (own key)⟩
  · intro others same
    exact congrArg Conversation.pairAll (Conversation.filed_eq_of_own same σ)

/-- Messages of two tags, of which one is answered, and the same messages in another order. -/
def braided : List (Direction × Stamped Mux.Message) × List (Direction × Stamped Mux.Message) :=
  let ping : Direction × Stamped Mux.Message := (.request, ⟨1, .tping, 1, []⟩)
  let call : Direction × Stamped Mux.Message := (.request, ⟨2, .tdispatch, 2, []⟩)
  let pong : Direction × Stamped Mux.Message := (.response, ⟨3, .rping, 1, []⟩)
  ([call, ping, pong], [pong, call, ping])

theorem Protocol.dialogues_apart_braided :
    Protocol.mux ∈ separate ∧
      (∀ key, Mux.dialect.own braided.2 key = Mux.dialect.own braided.1 key) ∧
      let round := (Conversation.filed (d := Mux.dialect) () braided.1).pairAll
      round.exchanges.map (fun x => (x.1, x.2.request.time, x.2.response.time)) = [(1, 1, 3)] ∧
        round.backlog.map (fun e => (e.1, e.2.count)) = [(2, 1)] ∧
        (∀ e ∈ round.backlog, e.2.isEmpty = false) ∧
        (Conversation.filed (d := Mux.dialect) () braided.2).pairAll = round := by
  have same : ∀ key, Mux.dialect.own braided.2 key = Mux.dialect.own braided.1 key := by
    intro key
    simp [Dialect.own, braided, Mux.dialect, List.filter_cons]
  obtain ⟨keys, -, -, -, -, -, -, -, filled, others⟩ :=
    Protocol.dialogues_apart (p := .mux) (by decide) {} () () braided.1
  exact ⟨by decide, same, by decide +kernel, by decide +kernel, fun e he => (filled e he).1,
    others braided.2 same⟩

end Dialogue
