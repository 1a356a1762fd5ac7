import Mathlib
import Dialogue.Proofs.Passes
import Dialogue.Proofs.Separation

/-!
Passes over all lanes of a connection, time after time.

Frames come in batches, each batch is filed, and a pass is made over all lanes (`rounds`). The
ledgers of the lanes make up the journal of a pass, with the key of its lane beside each entry, in
the order in which the lanes are gone through (`journal`); what is remembered is handed on along the
journal of a pass and from there to the next (`trail_journals`).

Of a dialect whose passes leave no response waiting, a journal says when frames have come
(`Waits`): the responses of its entries are those of the batch just filed, and the requests have
come with this batch or an earlier one, those of each key in the order of the journal. So it is
known which of two entries comes first, where the response of one was captured before the request
of the other (`journals_order`).
-/
namespace Dialogue

/-- A list of lists in front of one of them, that list, and the rest behind it. -/
theorem flatten_split {α : Type} {ls : List (List α)} {l : List α} {i : Nat}
    (there : ls[i]? = some l) :
    ls.flatten = (ls.take i).flatten ++ l ++ (ls.drop (i + 1)).flatten := by
  obtain ⟨lt, rfl⟩ := List.getElem?_eq_some_iff.1 there
  calc ls.flatten = (ls.take i ++ ls[i] :: ls.drop (i + 1)).flatten := by
        rw [← List.drop_eq_getElem_cons lt, List.take_append_drop]
    _ = (ls.take i).flatten ++ ls[i] ++ (ls.drop (i + 1)).flatten := by
        rw [List.flatten_append, List.flatten_cons, List.append_assoc]

variable {d : Dialect}

/-- Frames that come together, each with its direction. -/
abbrev Dialect.Batch (d : Dialect) := List (Direction × Stamped d.Frame)

/-- The entries of a pass over all lanes, each with the key of its lane. -/
abbrev Dialect.Journal (d : Dialect) := List (Int × Entry d.Frame d.State d.Exchange)

theorem Dialect.own_append (first second : d.Batch) (key : Int) :
    d.own (first ++ second) key = (d.own first key).append (d.own second key) := by
  simp [own, Lane.append]

theorem Dialect.own_sublist {some all : d.Batch}
    (h : some.Sublist all) (key : Int) :
    (d.own some key).requests.Sublist (d.own all key).requests := (h.filter _).map _

/-- The frames of a key that are requests. -/
theorem Dialect.mem_requests_own {frames : d.Batch} {key : Int}
    {f : Stamped d.Frame} (h : f ∈ (d.own frames key).requests) : (.request, f) ∈ frames := by
  obtain ⟨⟨dir, f⟩, kept, rfl⟩ := List.mem_map.1 h
  obtain ⟨mem, tests⟩ := List.mem_filter.1 kept
  have request : dir = .request := (of_decide_eq_true tests).2
  exact request ▸ mem

/-- The frames of a key that are responses. -/
theorem Dialect.mem_responses_own {frames : d.Batch} {key : Int}
    {f : Stamped d.Frame} (h : f ∈ (d.own frames key).responses) : (.response, f) ∈ frames := by
  obtain ⟨⟨dir, f⟩, kept, rfl⟩ := List.mem_map.1 h
  obtain ⟨mem, tests⟩ := List.mem_filter.1 kept
  have response : dir = .response := (of_decide_eq_true tests).2
  exact response ▸ mem

namespace Backlog

variable {F : Type}

/-- The lane of a key, which is empty where there is none. -/
def lane (b : Backlog F) (key : Int) : Lane F := (b.lane? key).getD {}

theorem lane_cons {rest : Backlog F} {key k : Int} {lane : Lane F} :
    Backlog.lane ((key, lane) :: rest) k = if key = k then lane else rest.lane k := by
  rw [Backlog.lane, lane?_cons]
  split <;> rfl

theorem lane_of_lt {b : Backlog F} {key : Int} (low : ∀ e ∈ b, key < e.1) : b.lane key = {} := by
  rw [lane, lane?_of_lt low]
  rfl

/-- A lane in which nothing waits is as good as none. -/
theorem lane_dropEmpty {b : Backlog F} (h : b.Ascending) (key : Int) :
    b.dropEmpty.lane key = b.lane key := by
  induction b with
  | nil => rfl
  | cons e rest ih =>
    obtain ⟨k, lane⟩ := e
    obtain ⟨first, later⟩ := List.pairwise_cons.1 h
    rw [lane_cons, dropEmpty, List.filter_cons]
    split
    · rw [lane_cons]
      exact congrArg (ite (k = key) lane) (ih later)
    · next empty =>
      rw [show Backlog.lane (rest.filter _) key = Backlog.lane rest key from ih later]
      split
      · next same =>
        obtain ⟨requests, responses⟩ := lane
        have none : requests = [] ∧ responses = [] := by simpa [Lane.isEmpty] using empty
        rw [lane_of_lt (same ▸ first), none.1, none.2]
      · rfl

end Backlog

namespace Conversation

/-- Files the frames of a batch, one after the other. -/
def receive (c : Conversation d) (batch : d.Batch) : Conversation d :=
  batch.foldl (fun c f => c.push f.1 f.2) c

/-- What a pass leaves. -/
def after (c : Conversation d) : Conversation d := ⟨c.pairAll.backlog, c.pairAll.state⟩

/-- The passes that are made, one behind each batch. -/
def rounds (c : Conversation d) : List d.Batch → List (Round d)
  | [] => []
  | batch :: later => (c.receive batch).pairAll :: (c.receive batch).after.rounds later

section
variable (book : d.State → Lane d.Frame → Ledger d.Frame d.State d.Exchange)

/-- The ledgers of a pass over all lanes, with the key of its lane beside each entry. -/
def journal (σ : d.State) : Backlog d.Frame → d.Journal
  | [] => []
  | (key, lane) :: rest =>
    (book σ lane).map (key, ·) ++ journal ((book σ lane).leaves σ) rest

/-- The journals of the passes, one behind each batch. -/
def journals (c : Conversation d) : List d.Batch → List d.Journal
  | [] => []
  | batch :: later =>
    journal book (c.receive batch).state (c.receive batch).backlog ::
      (c.receive batch).after.journals later

end

/-- The exchanges of a journal, each with its key. -/
def found (entries : d.Journal) : List (Int × d.Exchange) :=
  entries.filterMap fun e => e.2.outcome.exchange?.map (e.1, ·)

/-! ## What a journal accounts for -/

section
variable {book : d.State → Lane d.Frame → Ledger d.Frame d.State d.Exchange}
  {Step : d.State → Entry d.Frame d.State d.Exchange → Prop}

theorem found_ledger (key : Int) (ledger : Ledger d.Frame d.State d.Exchange) :
    found (ledger.map (key, ·)) = (ledger.filterMap (·.outcome.exchange?)).map (key, ·) := by
  rw [found, List.filterMap_map, List.map_filterMap]
  rfl

/-- The passes find what their journals say, and remember what stands at the end of them. -/
theorem pairLanes_eq (balances : ∀ σ lane, Ledger.Balances σ (book σ lane) lane (d.pair σ lane))
    (σ : d.State) (b : Backlog d.Frame) :
    (pairLanes d σ b).exchanges = found (journal book σ b) ∧
      (pairLanes d σ b).state = Ledger.leaves σ ((journal book σ b).map (·.2)) := by
  induction b generalizing σ with
  | nil => exact ⟨rfl, rfl⟩
  | cons e rest ih =>
    obtain ⟨key, lane⟩ := e
    have balanced := balances σ lane
    obtain ⟨exchanges, state⟩ := ih ((book σ lane).leaves σ)
    rw [pairLanes, journal, balanced.state]
    dsimp only
    rw [exchanges, state, balanced.exchanges, List.map_append, List.map_map, Ledger.leaves_append]
    refine ⟨?_, ?_⟩
    · rw [← found_ledger]
      exact List.filterMap_append.symm
    · exact congrArg (Ledger.leaves · _) (congrArg _ (List.map_id _).symm)

/-- What the rounds find stands in the journals. -/
theorem exchanges_rounds
    (balances : ∀ σ lane, Ledger.Balances σ (book σ lane) lane (d.pair σ lane))
    (c : Conversation d) (batches : List d.Batch) :
    (c.rounds batches).map (·.exchanges) = (c.journals book batches).map found := by
  induction batches generalizing c with
  | nil => rfl
  | cons batch later ih =>
    rw [rounds, journals, List.map_cons, List.map_cons, ih]
    exact congrArg (· :: _) (pairLanes_eq balances _ _).1

theorem trail_journal (trail : ∀ σ lane, Ledger.Trail Step σ (book σ lane)) (σ : d.State)
    (b : Backlog d.Frame) : Ledger.Trail Step σ ((journal book σ b).map (·.2)) := by
  induction b generalizing σ with
  | nil => exact Ledger.trail_nil
  | cons e rest ih =>
    obtain ⟨key, lane⟩ := e
    rw [journal, List.map_append, List.map_map]
    have first : (book σ lane).map ((·.2) ∘ (key, ·)) = book σ lane := List.map_id _
    rw [first]
    exact Ledger.trail_append.2 ⟨trail σ lane, ih _⟩

theorem state_receive (c : Conversation d) (batch : d.Batch) :
    (c.receive batch).state = c.state := by
  induction batch generalizing c with
  | nil => rfl
  | cons f batch ih => exact ih (c.push f.1 f.2)

/-- What is remembered is handed on along the journals. -/
theorem trail_journals (trail : ∀ σ lane, Ledger.Trail Step σ (book σ lane))
    (balances : ∀ σ lane, Ledger.Balances σ (book σ lane) lane (d.pair σ lane))
    (c : Conversation d) (batches : List d.Batch) :
    Ledger.Trail Step c.state ((c.journals book batches).flatten.map (·.2)) := by
  induction batches generalizing c with
  | nil => exact Ledger.trail_nil
  | cons batch later ih =>
    rw [← state_receive c batch, journals, List.flatten_cons, List.map_append]
    have left := ih (c.receive batch).after
    have state : (c.receive batch).after.state = _ := (pairLanes_eq balances _ _).2
    rw [state] at left
    exact Ledger.trail_append.2 ⟨trail_journal trail _ _, left⟩

end

/-! ## When frames have come -/

/-- What waits when a batch has been filed behind what was left: requests that have come so far, in
their order, and no responses but those of the batch. -/
structure Waits (past batch : d.Batch) (c : Conversation d) : Prop where
  ascending : c.backlog.Ascending
  requests : ∀ key,
    (c.backlog.lane key).requests.Sublist (d.own (past ++ batch) key).requests
  responses : ∀ key, (c.backlog.lane key).responses = (d.own batch key).responses

/-- A batch is filed behind what waits. -/
theorem lane_receive {c : Conversation d} (h : c.backlog.Ascending) (batch : d.Batch) :
    (c.receive batch).backlog.Ascending ∧
      ∀ key, (c.receive batch).backlog.lane key =
        (c.backlog.lane key).append (d.own batch key) := by
  induction batch using List.reverseRecOn with
  | nil => exact ⟨h, fun key => by simp [receive, Lane.append, Dialect.own]⟩
  | append_singleton batch f ih =>
    obtain ⟨ascending, lanes⟩ := ih
    have filed : (c.receive (batch ++ [f])) = (c.receive batch).push f.1 f.2 :=
      List.foldl_concat ..
    rw [filed]
    refine ⟨ascending.update, fun key => ?_⟩
    rw [Backlog.lane, push, Backlog.push, Backlog.lane?_update ascending]
    split
    · next same =>
      rw [Dialect.own_concat_self same, Option.getD_some, ← Backlog.lane, lanes, same]
      obtain ⟨dir, f⟩ := f
      cases dir <;> simp [Lane.append, Lane.push]
    · next other => rw [Dialect.own_concat_other other, ← Backlog.lane, lanes]

theorem keys_pairLanes (σ : d.State) (b : Backlog d.Frame) :
    (pairLanes d σ b).backlog.keys = b.keys := by
  induction b generalizing σ with
  | nil => rfl
  | cons e rest ih =>
    obtain ⟨key, lane⟩ := e
    exact congrArg (key :: ·) (ih _)

/-- What a pass leaves of a lane. -/
theorem lane_pairLanes (σ : d.State) (b : Backlog d.Frame) (key : Int) :
    (pairLanes d σ b).backlog.lane key = {} ∨
      ∃ τ, (pairLanes d σ b).backlog.lane key = (d.pair τ (b.lane key)).left := by
  induction b generalizing σ with
  | nil => exact .inl rfl
  | cons e rest ih =>
    obtain ⟨k, lane⟩ := e
    rw [pairLanes, Backlog.lane_cons, Backlog.lane_cons]
    split
    · exact .inr ⟨σ, rfl⟩
    · exact ih _

namespace Waits

variable {past batch : d.Batch} {c : Conversation d}

theorem start (σ : d.State) : Waits [] [] ({ state := σ } : Conversation d) :=
  ⟨List.Pairwise.nil, fun _ => List.Sublist.refl _, fun _ => rfl⟩

theorem receive (h : Waits past [] c) (batch : d.Batch) :
    Waits past batch (c.receive batch) := by
  obtain ⟨ascending, lanes⟩ := lane_receive h.ascending batch
  refine ⟨ascending, fun key => ?_, fun key => ?_⟩
  · have waited := h.requests key
    rw [List.append_nil] at waited
    rw [lanes, Dialect.own_append]
    exact waited.append_right _
  · rw [lanes]
    exact congrArg (· ++ _) (h.responses key)

/-- A pass that leaves no response waiting leaves what has come before the next batch. -/
theorem after (retains : d.Retains) (prompt : ∀ σ lane, (d.pair σ lane).left.responses = [])
    (h : Waits past batch c) : Waits (past ++ batch) [] c.after := by
  let left := (pairLanes d c.state c.backlog).backlog
  have ascending : left.Ascending := by
    refine List.pairwise_map.1 ?_
    show left.keys.Pairwise _
    rw [keys_pairLanes]
    exact h.ascending.pairwise_keys
  have lanes (key : Int) : c.after.backlog.lane key = left.lane key :=
    Backlog.lane_dropEmpty ascending key
  refine ⟨ascending.filter _, fun key => ?_, fun key => ?_⟩
  · rw [lanes, List.append_nil]
    obtain none | ⟨τ, some⟩ := lane_pairLanes c.state c.backlog key
    · rw [none]
      exact List.nil_sublist _
    · rw [some]
      exact (retains τ _).1.trans (h.requests key)
  · rw [lanes]
    obtain none | ⟨τ, some⟩ := lane_pairLanes c.state c.backlog key
    · rw [none]
      rfl
    · rw [some, prompt]
      rfl

end Waits

section
variable {book : d.State → Lane d.Frame → Ledger d.Frame d.State d.Exchange}

/-- Each journal is that of a pass over what waits when its batch has been filed. -/
theorem Waits.journals (retains : d.Retains)
    (prompt : ∀ σ lane, (d.pair σ lane).left.responses = [])
    {past : d.Batch} {c : Conversation d} (h : Waits past [] c)
    {batches : List d.Batch} {q : Nat} {entries : d.Journal}
    (made : (c.journals book batches)[q]? = some entries) :
    ∃ batch now, batches[q]? = some batch ∧
      entries = journal book now.state now.backlog ∧
      Waits (past ++ (batches.take q).flatten) batch now := by
  induction batches generalizing c past q with
  | nil => cases made
  | cons batch later ih =>
    have filed := h.receive batch
    cases q with
    | zero =>
      obtain rfl := Option.some.inj made
      refine ⟨batch, c.receive batch, rfl, rfl, ?_⟩
      rwa [List.take_zero, List.flatten_nil, List.append_nil]
    | succ q =>
      obtain ⟨fresh, now, there, eq, waits⟩ := ih (filed.after retains prompt) made
      refine ⟨fresh, now, there, eq, ?_⟩
      rwa [List.take_succ_cons, List.flatten_cons, ← List.append_assoc]

theorem mem_keys_of_journal {σ : d.State} {b : Backlog d.Frame} {key : Int}
    {e : Entry d.Frame d.State d.Exchange} (h : (key, e) ∈ journal book σ b) : key ∈ b.keys := by
  induction b generalizing σ with
  | nil => cases h
  | cons lane rest ih =>
    obtain ⟨k, lane⟩ := lane
    rcases List.mem_append.1 h with first | later
    · obtain ⟨_, -, same⟩ := List.mem_map.1 first
      cases same
      exact List.mem_cons_self
    · exact List.mem_cons_of_mem _ (ih later)

/-- The lanes are gone through by ascending key. -/
theorem sorted_journal {σ : d.State} {b : Backlog d.Frame} (h : b.Ascending) :
    (journal book σ b).Pairwise (·.1 ≤ ·.1) := by
  induction b generalizing σ with
  | nil => exact List.Pairwise.nil
  | cons lane rest ih =>
    obtain ⟨k, lane⟩ := lane
    obtain ⟨first, later⟩ := List.pairwise_cons.1 h
    refine List.pairwise_append.2 ⟨?_, ih later, ?_⟩
    · exact List.pairwise_map.2 (List.pairwise_of_forall fun _ _ => Int.le_refl k)
    · intro x hx y hy
      obtain ⟨_, -, rfl⟩ := List.mem_map.1 hx
      obtain ⟨lane, mem, same⟩ := List.mem_map.1 (mem_keys_of_journal hy)
      exact same ▸ Int.le_of_lt (first lane mem)

/-- The entries of a key are those of a pass over its lane. -/
theorem filter_journal {σ : d.State} {b : Backlog d.Frame} (h : b.Ascending) (key : Int) :
    ∃ τ, (((journal book σ b).filter (·.1 = key)).map (·.2)).Sublist (book τ (b.lane key)) := by
  induction b generalizing σ with
  | nil => exact ⟨σ, List.nil_sublist _⟩
  | cons lane rest ih =>
    obtain ⟨k, lane⟩ := lane
    obtain ⟨first, later⟩ := List.pairwise_cons.1 h
    rw [journal, List.filter_append, List.map_append, Backlog.lane_cons]
    by_cases same : k = key
    · -- No later lane has the key.
      have none : (journal book ((book σ lane).leaves σ) rest).filter (·.1 = key) = [] := by
        refine List.filter_eq_nil_iff.2 fun x hx => ?_
        obtain ⟨e, he, eq⟩ := List.mem_map.1 (mem_keys_of_journal hx)
        have := first e he
        simp only [decide_eq_true_eq]
        omega
      have all : ((book σ lane).map (k, ·)).filter (·.1 = key) = (book σ lane).map (k, ·) := by
        refine List.filter_eq_self.2 fun x hx => ?_
        obtain ⟨_, -, rfl⟩ := List.mem_map.1 hx
        exact decide_eq_true same
      refine ⟨σ, ?_⟩
      rw [none, all, if_pos same, List.map_nil, List.append_nil, List.map_map]
      exact (List.map_id _).symm ▸ List.Sublist.refl _
    · have none : ((book σ lane).map (k, ·)).filter (·.1 = key) = [] := by
        refine List.filter_eq_nil_iff.2 fun x hx => ?_
        obtain ⟨_, -, rfl⟩ := List.mem_map.1 hx
        simpa using same
      rw [none, if_neg same]
      exact ih later

end

/-! ## Which entry comes first -/

/-- Frames in the order of their capture: no batch has a frame that is later than one of the next,
and the requests of each key are in order. -/
structure Captured (batches : List d.Batch) : Prop where
  passes : batches.Pairwise fun earlier later =>
    ∀ f ∈ earlier, ∀ g ∈ later, f.2.time ≤ g.2.time
  queues : ∀ key, (d.own batches.flatten key).requests.Pairwise (·.time ≤ ·.time)

/-- It is enough that all frames come in the order of their capture. -/
theorem Captured.of_sorted {batches : List d.Batch}
    (h : batches.flatten.Pairwise fun f g => f.2.time ≤ g.2.time) : Captured batches where
  passes := (List.pairwise_flatten.1 h).2
  queues _ := List.pairwise_map.2 (h.filter _)

/-- What has been filed before a pass is at the beginning of all that is filed. -/
theorem filed_before {batches : List d.Batch} {q : Nat} {batch : d.Batch}
    (there : batches[q]? = some batch) :
    (batches.take q).flatten ++ batch <+: batches.flatten :=
  ⟨_, (flatten_split there).symm⟩

/-- A frame that is filed before one pass is no later than one that is filed for a later pass. -/
theorem Captured.le {batches : List d.Batch} (h : Captured batches) {p q : Nat} (lt : q < p)
    {batch fresh : d.Batch} (there : batches[q]? = some batch) (here : batches[p]? = some fresh)
    {f g : Direction × Stamped d.Frame} (filed : f ∈ (batches.take q).flatten ++ batch)
    (mem : g ∈ fresh) : f.2.time ≤ g.2.time := by
  have early : ∃ earlier ∈ batches.take (q + 1), f ∈ earlier := by
    obtain ⟨lt, rfl⟩ := List.getElem?_eq_some_iff.1 there
    refine List.mem_flatten.1 ?_
    rwa [List.take_succ_eq_append_getElem lt, List.flatten_append, List.flatten_singleton]
  have late : fresh ∈ batches.drop (q + 1) := by
    refine List.mem_of_getElem? (i := p - (q + 1)) ?_
    rw [List.getElem?_drop, Nat.add_sub_cancel' lt, here]
  obtain ⟨earlier, before, mem'⟩ := early
  have split := h.passes
  rw [← List.take_append_drop (q + 1) batches] at split
  exact (List.pairwise_append.1 split).2.2 earlier before fresh late f mem' g mem

section
variable {book : d.State → Lane d.Frame → Ledger d.Frame d.State d.Exchange}
  {past batch : d.Batch} {now : Conversation d} {σ : d.State} {key : Int}
  {e : Entry d.Frame d.State d.Exchange}

theorem mem_book_of_journal {b : Backlog d.Frame} (h : b.Ascending)
    (mem : (key, e) ∈ journal book σ b) : ∃ τ, e ∈ book τ (b.lane key) := by
  obtain ⟨τ, entries⟩ := @filter_journal d book σ b h key
  refine ⟨τ, entries.subset (List.mem_map.2 ⟨(key, e), ?_, rfl⟩)⟩
  exact List.mem_filter.2 ⟨mem, decide_eq_true rfl⟩

variable (balances : ∀ σ lane, Ledger.Balances σ (book σ lane) lane (d.pair σ lane))
  (waits : Waits past batch now)
include balances waits

/-- The request of an entry has come with this batch or an earlier one. -/
theorem request_of_journal (mem : (key, e) ∈ journal book σ now.backlog)
    {request : Stamped d.Frame} (asks : e.request = some request) :
    (.request, request) ∈ past ++ batch := by
  obtain ⟨τ, there⟩ := mem_book_of_journal waits.ascending mem
  have waited : request ∈ (now.backlog.lane key).requests := by
    rw [(balances τ _).requests]
    exact List.mem_append_left _ (List.mem_filterMap.2 ⟨e, there, asks⟩)
  exact Dialect.mem_requests_own ((waits.requests key).subset waited)

/-- The responses of an entry have come with this batch. -/
theorem response_of_journal (mem : (key, e) ∈ journal book σ now.backlog)
    {m : Stamped d.Frame} (takes : m ∈ e.responses) : (.response, m) ∈ batch := by
  obtain ⟨τ, there⟩ := mem_book_of_journal waits.ascending mem
  have own : m ∈ (d.own batch key).responses := by
    rw [← waits.responses key, (balances τ _).responses]
    exact List.mem_append_left _ (List.mem_flatMap.2 ⟨e, there, takes⟩)
  exact Dialect.mem_responses_own own

/-- Of two entries of one key, the first has the earlier request. -/
theorem le_of_journal
    (queued : (d.own (past ++ batch) key).requests.Pairwise (·.time ≤ ·.time))
    {before behind : d.Journal}
    (split : journal book σ now.backlog = before ++ (key, e) :: behind)
    {e' : Entry d.Frame d.State d.Exchange} (mem : (key, e') ∈ behind)
    {request request' : Stamped d.Frame} (asks : e.request = some request)
    (asks' : e'.request = some request') : request.time ≤ request'.time := by
  obtain ⟨τ, entries⟩ := @filter_journal d book σ _ waits.ascending key
  have both : [(key, e), (key, e')].Sublist (journal book σ now.backlog) := by
    rw [split]
    exact ((List.singleton_sublist.2 mem).cons_cons _).trans (List.sublist_append_right _ _)
  have own : [e, e'].Sublist (book τ (now.backlog.lane key)) := by
    refine List.Sublist.trans ?_ entries
    have kept := (both.filter (·.1 = key)).map (·.2)
    simpa using kept
  have requests : [request, request'].Sublist (d.own (past ++ batch) key).requests := by
    have asked := own.filterMap (·.request)
    simp only [List.filterMap_cons, asks, asks', List.filterMap_nil] at asked
    refine asked.trans (List.Sublist.trans ?_ (waits.requests key))
    rw [(balances τ _).requests]
    exact List.sublist_append_left _ _
  exact List.rel_of_pairwise_cons (queued.sublist requests) List.mem_cons_self

end

/-- An entry whose response was captured before the request of another comes before it, but for the
passes in which the lane of the other comes first. -/
theorem journals_order {book : d.State → Lane d.Frame → Ledger d.Frame d.State d.Exchange}
    (balances : ∀ σ lane, Ledger.Balances σ (book σ lane) lane (d.pair σ lane))
    (retains : d.Retains) (prompt : ∀ σ lane, (d.pair σ lane).left.responses = [])
    {c : Conversation d} (start : Waits [] [] c) {batches : List d.Batch}
    (captured : Captured batches) {p q : Nat} {first before behind : d.Journal} {a b : Int}
    {e e' : Entry d.Frame d.State d.Exchange}
    (made : (c.journals book batches)[p]? = some first)
    (made' : (c.journals book batches)[q]? = some (before ++ (b, e') :: behind))
    (mem : (a, e) ∈ first) {request request' response : Stamped d.Frame}
    (asks : e.request = some request) (takes : response ∈ e.responses)
    (asks' : e'.request = some request') (le : request.time ≤ response.time)
    (lt : response.time < request'.time) :
    if p = q ∧ b < a then (a, e) ∈ behind
    else (a, e) ∈ ((c.journals book batches).take q).flatten ++ before := by
  obtain ⟨fresh, now, here, rfl, waits⟩ := start.journals retains prompt made
  obtain ⟨fresh', now', there, split, waits'⟩ := start.journals retains prompt made'
  have mem' : (b, e') ∈ journal book now'.state now'.backlog := by
    rw [← split]
    exact List.mem_append_right _ List.mem_cons_self
  rcases Nat.lt_trichotomy p q with earlier | rfl | later
  · rw [if_neg fun both => Nat.ne_of_lt earlier both.1]
    refine List.mem_append_left _ (List.mem_flatten.2 ⟨_, ?_, mem⟩)
    exact List.mem_of_getElem? ((List.getElem?_take_of_lt earlier).trans made)
  · rw [Option.some.inj (made.symm.trans made')] at mem
    have sorted := @sorted_journal d book now'.state _ waits'.ascending
    rw [← split] at sorted
    obtain ⟨-, later, across⟩ := List.pairwise_append.1 sorted
    rcases List.mem_append.1 mem with mem | mem
    · have le : a ≤ b := across _ mem _ List.mem_cons_self
      rw [if_neg fun both => Int.not_lt.2 le both.2]
      exact List.mem_append_right _ mem
    rcases List.mem_cons.1 mem with same | mem
    · -- An entry does not come before itself.
      cases same
      obtain rfl := Option.some.inj (asks.symm.trans asks')
      omega
    · have ge : b ≤ a := (List.pairwise_cons.1 later).1 _ mem
      rcases Int.lt_or_eq_of_le ge with lt | rfl
      · rwa [if_pos ⟨rfl, lt⟩]
      · have queued := (captured.queues b).sublist
          (Dialect.own_sublist (filed_before there).sublist b)
        have := le_of_journal balances waits' queued split.symm mem asks' asks
        omega
  · -- What the later pass has taken in would have come before the response.
    have request := request_of_journal balances waits' mem' asks'
    have response := response_of_journal balances waits mem takes
    rw [List.nil_append] at request
    have := captured.le later there here request response
    dsimp only at this
    omega

end Conversation

end Dialogue
