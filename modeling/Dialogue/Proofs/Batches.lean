import Mathlib
import Dialogue.Proofs.Passes

/-!
Pairing in order, in one batch or in several.

For the dialects that pair in order, a pass over two batches does what a pass over the first and one
over what it leaves with the second do, entry by entry (`orderly_append`): a response of the first
batch sees no request of the second, since all of these are later than it. `pairs_in_order` says
what pairing in order comes to altogether.
-/
namespace Dialogue

namespace Pairing

variable {F S X : Type} {keep : Stamped F → Bool} {pair : S → Stamped F → Stamped F → X × S}
  {σ : S} {requests responses : List (Stamped F)}

/-! ## What a response comes to -/

/-- A response is an error on its own, or makes an exchange with a request that is no later. -/
inductive Answers (pair : S → Stamped F → Stamped F → X × S) (σ : S) : Entry F S X → Prop where
  | unmatched (m : Stamped F) : Answers pair σ ⟨none, [m], .error, σ⟩
  | matched {request m : Stamped F} (le : request.time ≤ m.time) :
      Answers pair σ ⟨some request, [m], .exchange (pair σ request m).1, (pair σ request m).2⟩

theorem answers_of_replies {e : Entry F S X} (h : Replies (fun _ => true) pair σ e) :
    Answers pair σ e := by
  cases h with
  | dropped out => cases out
  | unmatched _ => exact .unmatched _
  | matched _ le => exact .matched le

/-- A pass pairs what its ledger says, and leaves no response. -/
theorem inOrder_eq_orderly (σ : S) (lane : Lane F) :
    let pass := orderly (fun _ => true) pair σ lane.requests lane.responses
    inOrder pair σ lane =
      ⟨pass.1.filterMap (·.outcome.exchange?), total (·.outcome.errors) pass.1, ⟨pass.2, []⟩,
        pass.1.leaves σ⟩ := by
  intro pass
  have all : lane.responses.filter (fun _ => true) = lane.responses := List.filter_true _
  unfold inOrder
  rw [← all, foldl_answer]
  simp [Progress.finish, Progress.close, pass]

theorem map_responses_orderly (responses : List (Stamped F)) :
    (orderly keep pair σ requests responses).1.map (·.responses) = responses.map ([·]) := by
  induction responses generalizing σ requests with
  | nil => rfl
  | cons m rest ih => rw [orderly, List.map_cons, responses_reply, ih, List.map_cons]

/-! ## The oldest request -/

/-- Of requests in the order of their times, the first is no later than a response if any is. -/
theorem find?_eq_head? (sorted : requests.Pairwise (·.time ≤ ·.time)) (m : Stamped F) :
    requests.find? (·.time ≤ m.time) = requests.head?.filter (·.time ≤ m.time) := by
  cases requests with
  | nil => rfl
  | cons request rest =>
    rw [List.head?_cons, Option.filter_some, List.find?_cons]
    obtain ⟨oldest, -⟩ := List.pairwise_cons.1 sorted
    by_cases le : request.time ≤ m.time
    · simp [le]
    · have late : rest.find? (·.time ≤ m.time) = none := by
        refine List.find?_eq_none.2 fun later mem => ?_
        have := oldest later mem
        simp only [decide_eq_true_eq]
        omega
      simp [le, late]

/-- An entry takes the first request that is left and no later than its response, if any. -/
theorem request_orderly (sorted : requests.Pairwise (·.time ≤ ·.time))
    {earlier later : Ledger F S X} {e : Entry F S X} {unused : List (Stamped F)} {m : Stamped F}
    (split : (orderly (fun _ => true) pair σ requests responses).1 = earlier ++ e :: later)
    (answers : e.responses = [m]) (used : requests = earlier.filterMap (·.request) ++ unused) :
    e.request = unused.find? (·.time ≤ m.time) := by
  induction responses generalizing σ requests earlier with
  | nil => simp [orderly] at split
  | cons first rest ih =>
    rw [orderly] at split
    have taken : (reply (fun _ => true) pair σ requests first).request.toList ++
        requests.drop (reply (fun _ => true) pair σ requests first).request.toList.length =
          requests := requests_reply first
    cases earlier with
    | nil =>
      obtain ⟨rfl, -⟩ := List.cons.inj split
      obtain rfl : requests = unused := used
      obtain rfl : first = m := by simpa [responses_reply] using answers
      rw [find?_eq_head? sorted]
      unfold reply
      rw [if_pos rfl]
      cases requests.head?.filter (·.time ≤ first.time) <;> rfl
    | cons d earlier =>
      obtain ⟨rfl, behind⟩ := List.cons.inj split
      refine ih (sorted.sublist (List.drop_sublist _ _)) behind ?_
      -- What the first entry takes stands before the requests that are left to the others.
      generalize reply (fun _ => true) pair σ requests first = e at taken used ⊢
      cases asked : e.request with
      | none => simpa [asked] using used
      | some request =>
        rw [asked] at taken
        rw [List.filterMap_cons_some asked, ← taken] at used
        simpa using used

/-! ## Matching queues -/

/-- Where each response is no earlier than the request at its place, they are paired place by
place. -/
theorem orderly_of_forall₂ (aligned : List.Forall₂ (·.time ≤ ·.time) requests responses) :
    let pass := orderly (fun _ => true) pair σ requests responses
    pass.1.map (fun e => (e.request, e.responses)) =
        List.zipWith (fun request m => (some request, [m])) requests responses ∧
      (pass.1.filterMap (·.outcome.exchange?)).length = responses.length ∧
      total (·.outcome.errors) pass.1 = 0 ∧ pass.2 = [] := by
  induction aligned generalizing σ with
  | nil => exact ⟨rfl, rfl, rfl, rfl⟩
  | @cons request m requests responses le _ ih =>
    intro pass
    have entry : reply (fun _ => true) pair σ (request :: requests) m =
        ⟨some request, [m], .exchange (pair σ request m).1, (pair σ request m).2⟩ := by
      rw [reply_cons rfl, if_pos le]
    obtain ⟨pairs, records, errors, left⟩ := @ih (pair σ request m).2
    have walked : pass = (⟨some request, [m], .exchange (pair σ request m).1,
        (pair σ request m).2⟩ :: (orderly (fun _ => true) pair (pair σ request m).2 requests
          responses).1,
        (orderly (fun _ => true) pair (pair σ request m).2 requests responses).2) := by
      show orderly _ _ _ _ _ = _
      rw [orderly, entry]
      rfl
    rw [walked]
    simp [pairs, records, errors, left]

/-! ## Batches -/

/-- A response sees no request that comes later. -/
theorem reply_append {m : Stamped F} {later : List (Stamped F)}
    (after : ∀ q ∈ later, m.time < q.time) :
    reply keep pair σ (requests ++ later) m = reply keep pair σ requests m := by
  cases requests with
  | cons request rest => rfl
  | nil =>
    have unseen : later.head?.filter (·.time ≤ m.time) = none := by
      cases later with
      | nil => rfl
      | cons q rest => simpa using after q List.mem_cons_self
    unfold reply
    rw [List.nil_append, unseen]
    rfl

/-- What a response takes stands among the requests that wait. -/
theorem length_reply_le (m : Stamped F) :
    (reply keep pair σ requests m).request.toList.length ≤ requests.length := by
  have taken : (reply keep pair σ requests m).request.toList.length + _ = requests.length :=
    List.length_append.symm.trans (congrArg List.length (requests_reply m))
  omega

/-- The ledger of a pass over two batches is that of a pass over the first and of one over what it
leaves with the second. -/
theorem orderly_append {later more : List (Stamped F)}
    (after : ∀ m ∈ responses, ∀ q ∈ later, m.time < q.time) :
    let first := orderly keep pair σ requests responses
    let second := orderly keep pair (first.1.leaves σ) (first.2 ++ later) more
    orderly keep pair σ (requests ++ later) (responses ++ more) =
      (first.1 ++ second.1, second.2) := by
  induction responses generalizing σ requests with
  | nil => rfl
  | cons m rest ih =>
    intro first second
    obtain ⟨unseen, others⟩ := List.forall_mem_cons.1 after
    rw [List.cons_append, orderly, reply_append unseen,
      List.drop_append_of_le_length (length_reply_le m), ih others]
    rfl

/-- **Responses are paired in order, in one pass or in several.** Every response is in exactly one
exchange or one error; the exchanges use up the requests from the front, in order, and the others
stay. Where the requests are in the order of their times, a response takes the oldest unused request
captured no later than it, and is an error exactly where there is none. Where each of as many
requests is no later than the response at its place, they are paired place by place. Two batches may
be paired one after the other: where every request of the second is later than every response of the
first, the exchanges, errors and requests left are those of a single pass. -/
theorem pairs_in_order (pair : S → Stamped F → Stamped F → X × S) (σ : S) (lane more : Lane F) :
    let ledger := (orderly (fun _ => true) pair σ lane.requests lane.responses).1
    let paired := inOrder pair σ lane
    (Ledger.Balances σ ledger lane paired ∧ Ledger.Trail (Answers pair) σ ledger ∧
      ledger.map (·.responses) = lane.responses.map ([·]) ∧ paired.left.responses = []) ∧
    (lane.requests.Pairwise (·.time ≤ ·.time) →
      ∀ earlier e later unused m, ledger = earlier ++ e :: later → e.responses = [m] →
        lane.requests = earlier.filterMap (·.request) ++ unused →
        e.request = unused.find? (·.time ≤ m.time) ∧ (e.outcome.errors = 1 ↔ e.request = none)) ∧
    (List.Forall₂ (·.time ≤ ·.time) lane.requests lane.responses →
      ledger.map (fun e => (e.request, e.responses)) =
          List.zipWith (fun request m => (some request, [m])) lane.requests lane.responses ∧
        paired.exchanges.length = lane.responses.length ∧ paired.errors = 0 ∧
        paired.left = {}) ∧
    ((∀ m ∈ lane.responses, ∀ q ∈ more.requests, m.time < q.time) →
      let second := inOrder pair paired.state (paired.left.append more)
      inOrder pair σ (lane.append more) =
        ⟨paired.exchanges ++ second.exchanges, paired.errors + second.errors, second.left,
          second.state⟩) := by
  intro ledger paired
  have pass : paired = ⟨ledger.filterMap (·.outcome.exchange?), total (·.outcome.errors) ledger,
      ⟨(orderly (fun _ => true) pair σ lane.requests lane.responses).2, []⟩, ledger.leaves σ⟩ :=
    inOrder_eq_orderly σ lane
  have trail : Ledger.Trail (Answers pair) σ ledger :=
    (trail_orderly lane.responses).imp fun _ _ => answers_of_replies
  refine ⟨⟨?_, trail, map_responses_orderly lane.responses, by rw [pass]⟩, ?_, ?_, ?_⟩
  · have balanced : Ledger.Balances σ ledger lane
        (inOrder pair σ { lane with responses := lane.responses.filter fun _ => true }) :=
      balances_inOrder σ lane
    rwa [List.filter_true] at balanced
  · intro sorted earlier e later unused m split answers used
    refine ⟨request_orderly sorted split answers used, ?_⟩
    rw [split] at trail
    obtain ⟨step, -⟩ := (Ledger.trail_append.1 trail).2
    cases step with
    | unmatched m => simp
    | matched le => simp
  · intro aligned
    obtain ⟨pairs, records, errors, left⟩ := @orderly_of_forall₂ _ _ _ pair σ _ _ aligned
    rw [pass]
    exact ⟨pairs, records, errors, congrArg (Lane.mk · []) left⟩
  · intro after second
    rw [inOrder_eq_orderly]
    have joined : orderly (fun _ => true) pair σ (lane.requests ++ more.requests)
        (lane.responses ++ more.responses) = _ := orderly_append after
    have rest : second = _ := inOrder_eq_orderly paired.state (paired.left.append more)
    rw [rest]
    simp only [pass, Lane.append, List.nil_append, joined]
    simp [ledger]

/-- Two requests with their responses. -/
def morning : Lane Nat := ⟨[⟨1, 10⟩, ⟨5, 11⟩], [⟨2, 20⟩, ⟨6, 21⟩]⟩

/-- A later request with its response, and a response that precedes it. -/
def evening : Lane Nat := ⟨[⟨9, 12⟩], [⟨8, 22⟩, ⟨10, 23⟩]⟩

/-- Shows the two values and remembers nothing. -/
def together (_ : Unit) (request response : Stamped Nat) : (Nat × Nat) × Unit :=
  ((request.value, response.value), ())

theorem pairs_in_order_day :
    morning.requests.Pairwise (·.time ≤ ·.time) ∧
      List.Forall₂ (·.time ≤ ·.time) morning.requests morning.responses ∧
      (∀ m ∈ morning.responses, ∀ q ∈ evening.requests, m.time < q.time) ∧
      (reply (fun _ => true) together () morning.requests ⟨2, 20⟩).request =
        morning.requests.find? (·.time ≤ 2) ∧
      (inOrder together () morning).exchanges.length = 2 ∧
      inOrder together () (morning.append evening) =
        ⟨[(10, 20), (11, 21), (12, 23)], 1, {}, ()⟩ := by
  have sorted : morning.requests.Pairwise (·.time ≤ ·.time) := by decide
  have aligned : List.Forall₂ (·.time ≤ ·.time) morning.requests morning.responses := by decide
  have after : ∀ m ∈ morning.responses, ∀ q ∈ evening.requests, m.time < q.time := by decide
  obtain ⟨-, oldest, matching, batches⟩ := pairs_in_order together () morning evening
  obtain ⟨first, -⟩ := oldest sorted [] _ _ morning.requests ⟨2, 20⟩ rfl rfl rfl
  refine ⟨sorted, aligned, after, first, (matching aligned).2.1, ?_⟩
  rw [batches after]
  rfl

end Pairing

end Dialogue
