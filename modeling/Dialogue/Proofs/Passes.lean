import Mathlib
import Dialogue.Proofs.Ledger

/-!
Pairing in several passes.

Frames come in batches, and what a pass leaves waits for the next. Where the verdicts of a clerk
stand when more responses come in (`Steadfast`), the requests of any number of passes fare as in a
single one (`serve_of_passes`), as long as no pass drops a response that a later request would have
taken. What a single pass comes to can be said request by request: some take a reply of their own,
whatever follows it (`Serves`), and others take nothing of what is there.
-/
namespace Dialogue

namespace Lane

variable {F : Type}

/-- The frames of one lane with those of another behind them. -/
def append (first second : Lane F) : Lane F :=
  ⟨first.requests ++ second.requests, first.responses ++ second.responses⟩

/-- The frames of some lanes, one behind the other. -/
def concat (lanes : List (Lane F)) : Lane F :=
  ⟨lanes.flatMap (·.requests), lanes.flatMap (·.responses)⟩

@[simp] theorem concat_snoc (lanes : List (Lane F)) (lane : Lane F) :
    concat (lanes ++ [lane]) = (concat lanes).append lane := by
  simp [concat, append]

/-- What a pass leaves waiting: responses wait for a request only. -/
def drained (lane : Lane F) : Lane F := if lane.requests.isEmpty then {} else lane

@[simp] theorem drained_nil (responses : List (Stamped F)) :
    drained ⟨[], responses⟩ = {} := rfl

@[simp] theorem drained_cons (request : Stamped F) (rest responses : List (Stamped F)) :
    drained ⟨request :: rest, responses⟩ = ⟨request :: rest, responses⟩ := rfl

/-- What has come of a script of requests with the replies to them: requests from its beginning, and
a beginning of the replies to these. -/
def Cut (script : List (Stamped F × List (Stamped F))) (lane : Lane F) : Prop :=
  ∃ come, come <+: script ∧ lane.requests = come.map (·.1) ∧
    lane.responses <+: come.flatMap (·.2)

end Lane

/-! ## Several passes -/

namespace Pairing

variable {F S X : Type}

/-- What passes over batches come to, each with what the one before it has left. -/
def passes (pair : S → Lane F → Paired F S X) (σ : S) (batches : List (Lane F)) : Paired F S X :=
  batches.foldl
    (fun past more =>
      let next := pair past.state (past.left.append more)
      ⟨past.exchanges ++ next.exchanges, past.errors + next.errors, next.left, next.state⟩)
    ⟨[], 0, {}, σ⟩

theorem passes_snoc (pair : S → Lane F → Paired F S X) (σ : S) (batches : List (Lane F))
    (more : Lane F) :
    passes pair σ (batches ++ [more]) =
      let past := passes pair σ batches
      let next := pair past.state (past.left.append more)
      ⟨past.exchanges ++ next.exchanges, past.errors + next.errors, next.left, next.state⟩ :=
  List.foldl_concat ..

end Pairing

namespace Ledger

variable {F S X : Type}

/-- The entries of requests. -/
def asked (ledger : Ledger F S X) : Ledger F S X := ledger.filter (·.request.isSome)

@[simp] theorem asked_append (first second : Ledger F S X) :
    asked (first ++ second) = asked first ++ asked second := List.filter_append ..

/-- Each request with the responses that it takes. -/
def takings (ledger : Ledger F S X) : List (Stamped F × List (Stamped F)) :=
  ledger.filterMap fun e => e.request.map (·, e.responses)

@[simp] theorem takings_append (first second : Ledger F S X) :
    takings (first ++ second) = takings first ++ takings second := List.filterMap_append

theorem takings_asked (ledger : Ledger F S X) : takings (asked ledger) = takings ledger := by
  unfold takings asked
  rw [List.filterMap_filter]
  refine List.filterMap_congr fun e _ => ?_
  cases e.request <;> rfl

/-- Two ledgers account for two passes, the second of which starts with what the first has left. -/
theorem Balances.append {σ : S} {first second : Ledger F S X} {lane more : Lane F}
    {past next : Paired F S X} (h : Balances σ first lane past)
    (h' : Balances (leaves σ first) second (past.left.append more) next) :
    Balances σ (first ++ second) (lane.append more)
      ⟨past.exchanges ++ next.exchanges, past.errors + next.errors, next.left, next.state⟩ where
  requests :=
    calc lane.requests ++ more.requests
        = first.filterMap (·.request) ++ (past.left.append more).requests := by
          rw [h.requests, List.append_assoc]
          rfl
      _ = (first ++ second).filterMap (·.request) ++ next.left.requests := by
          rw [h'.requests, List.filterMap_append, List.append_assoc]
  responses :=
    calc lane.responses ++ more.responses
        = first.flatMap (·.responses) ++ (past.left.append more).responses := by
          rw [h.responses, List.append_assoc]
          rfl
      _ = (first ++ second).flatMap (·.responses) ++ next.left.responses := by
          rw [h'.responses, List.flatMap_append, List.append_assoc]
  exchanges := by rw [h.exchanges, h'.exchanges, List.filterMap_append]
  errors := by rw [h.errors, h'.errors, total_append]
  state := by rw [h'.state, leaves_append]

end Ledger

namespace Clerk

open Pairing

variable {F S X : Type} (c : Clerk F S X)

theorem asked_asides {c : Clerk F S X} {σ : S} (ms : List (Stamped F)) :
    Ledger.asked (ms.map (c.aside σ)) = [] := by
  unfold Ledger.asked
  rw [List.filter_map]
  exact congrArg _ (List.filter_eq_nil_iff.2 fun m _ => by simp [aside])

/-- The ledger of passes over batches, and what they leave. -/
def passes (σ : S) (batches : List (Lane F)) : Ledger F S X × Lane F :=
  batches.foldl
    (fun past more =>
      let lane := past.2.append more
      let next := c.walk (past.1.leaves σ) lane.requests lane.responses
      (past.1 ++ next.1, next.2))
    ([], {})

theorem passes_snoc (σ : S) (batches : List (Lane F)) (more : Lane F) :
    c.passes σ (batches ++ [more]) =
      let past := c.passes σ batches
      let lane := past.2.append more
      let next := c.walk (past.1.leaves σ) lane.requests lane.responses
      (past.1 ++ next.1, next.2) := List.foldl_concat ..

/-- The ledger of any number of passes is a trail. -/
theorem trail_passes (σ : S) (batches : List (Lane F)) :
    Ledger.Trail c.Step σ (c.passes σ batches).1 := by
  induction batches using List.reverseRecOn with
  | nil => exact Ledger.trail_nil
  | append_singleton batches more ih =>
    rw [passes_snoc]
    exact Ledger.trail_append.2 ⟨ih, c.trail_walk _ _ _⟩

variable {c} in
/-- What a clerk writes down accounts for any number of passes. -/
theorem Keeps.balances_passes {pass : Progress F S X → List (Stamped F) → Progress F S X}
    (h : c.Keeps pass) (σ : S) (batches : List (Lane F)) :
    let pair σ (lane : Lane F) :=
      (pass { left := { responses := lane.responses }, state := σ } lane.requests).finish
    Ledger.Balances σ (c.passes σ batches).1 (Lane.concat batches)
        (Pairing.passes pair σ batches) ∧
      (Pairing.passes pair σ batches).left = (c.passes σ batches).2 := by
  intro pair
  induction batches using List.reverseRecOn with
  | nil => exact ⟨⟨rfl, rfl, rfl, rfl, rfl⟩, rfl⟩
  | append_singleton batches more ih =>
    obtain ⟨past, waiting⟩ := ih
    rw [Pairing.passes_snoc, passes_snoc, Lane.concat_snoc]
    dsimp only
    have next := h.balances ((c.passes σ batches).1.leaves σ) ((c.passes σ batches).2.append more)
    have left : (pair ((c.passes σ batches).1.leaves σ) ((c.passes σ batches).2.append more)).left =
        _ := congrArg (fun p : Progress F S X => p.finish.left) (h.eq_close rfl _)
    rw [← past.state, ← waiting] at next left ⊢
    exact ⟨past.append (past.state ▸ next), left⟩

/-- Whether what becomes of a request stays the same when more responses come in. -/
structure Steadfast : Prop where
  /-- Every request takes part. -/
  heeds : ∀ request, c.ignores request = false
  /-- What is too old for a request is too old for a later one. -/
  lasts : ∀ {time later m}, time ≤ later → c.stale time m = true → c.stale later m = true
  taken_le : ∀ {σ request ms s}, c.settle σ request ms = some s → s.taken ≤ ms.length
  settles : ∀ {σ request ms s}, c.settle σ request ms = some s →
    ∀ more, c.settle σ request (ms ++ more) = some s

/-- The entries of the requests of a pass, and what they leave. -/
def serve (σ : S) : List (Stamped F) → List (Stamped F) → Ledger F S X × Lane F
  | [], responses => ([], ⟨[], responses⟩)
  | request :: rest, responses =>
    let fresh := responses.dropWhile (c.stale request.time)
    (c.settle σ request fresh).elim ([], ⟨request :: rest, fresh⟩) fun s =>
      let later := serve s.after rest (fresh.drop s.taken)
      (s.entry request fresh :: later.1, later.2)

section
variable {c} {σ : S} {request : Stamped F} {rest requests responses : List (Stamped F)}
  {s : Settlement S X}

/-- The responses that are passed over, and those that are left from the first that is not. -/
theorem exists_fresh (c : Clerk F S X) (time : Nat) (responses : List (Stamped F)) :
    ∃ old fresh, responses = old ++ fresh ∧ (∀ m ∈ old, c.stale time m = true) ∧
      ∀ m rest, fresh = m :: rest → c.stale time m = false :=
  ⟨responses.takeWhile (c.stale time), responses.dropWhile (c.stale time),
    List.takeWhile_append_dropWhile.symm, fun _ mem => List.mem_takeWhile_imp mem,
    fun _ _ => not_of_dropWhile_eq⟩

theorem dropWhile_of_fresh {old fresh : List (Stamped F)} {time : Nat}
    (stale : ∀ m ∈ old, c.stale time m = true)
    (first : ∀ m rest, fresh = m :: rest → c.stale time m = false) :
    (old ++ fresh).dropWhile (c.stale time) = fresh := by
  rw [List.dropWhile_append_of_pos stale]
  cases fresh with
  | nil => rfl
  | cons m rest => exact List.dropWhile_cons_of_neg (by simp [first m rest rfl])

section
variable {old fresh : List (Stamped F)} (stale : ∀ m ∈ old, c.stale request.time m = true)
  (first : ∀ m rest, fresh = m :: rest → c.stale request.time m = false)
include stale first

theorem serve_of_none (waits : c.settle σ request fresh = none) :
    c.serve σ (request :: rest) (old ++ fresh) = ([], ⟨request :: rest, fresh⟩) := by
  rw [serve, dropWhile_of_fresh stale first, waits]
  rfl

theorem serve_of_some (settled : c.settle σ request fresh = some s) :
    c.serve σ (request :: rest) (old ++ fresh) =
      (s.entry request fresh :: (c.serve s.after rest (fresh.drop s.taken)).1,
        (c.serve s.after rest (fresh.drop s.taken)).2) := by
  rw [serve, dropWhile_of_fresh stale first, settled]
  rfl

end

/-- Responses that are too old for every request make no difference. -/
theorem serve_append_old {old : List (Stamped F)}
    (stale : ∀ m ∈ old, ∀ q ∈ requests, c.stale q.time m = true) :
    (c.serve σ requests (old ++ responses)).1 = (c.serve σ requests responses).1 ∧
      (c.serve σ requests (old ++ responses)).2.drained =
        (c.serve σ requests responses).2.drained := by
  cases requests with
  | nil => exact ⟨rfl, rfl⟩
  | cons request rest =>
    have first : ∀ m ∈ old, c.stale request.time m = true :=
      fun m mem => stale m mem request List.mem_cons_self
    rw [serve, serve, List.dropWhile_append_of_pos first]
    exact ⟨rfl, rfl⟩

/-- What is left of the responses stands at their end. -/
theorem left_serve_suffix (σ : S) (requests responses : List (Stamped F)) :
    (c.serve σ requests responses).2.responses <:+ responses := by
  induction requests generalizing σ responses with
  | nil => exact List.suffix_rfl
  | cons request rest ih =>
    obtain ⟨old, fresh, rfl, stale, first⟩ := c.exists_fresh request.time responses
    have behind : fresh <:+ old ++ fresh := List.suffix_append old fresh
    cases settled : c.settle σ request fresh with
    | none =>
      rw [serve_of_none stale first settled]
      exact behind
    | some s =>
      rw [serve_of_some stale first settled]
      exact (ih _ _).trans ((List.drop_suffix _ _).trans behind)

/-- The entries of a pass are those of its requests and those of the responses put aside. -/
theorem serve_of_walk (heeds : ∀ request, c.ignores request = false) (σ : S)
    (requests responses : List (Stamped F)) :
    let pass := c.walk σ requests responses
    let served := c.serve σ requests responses
    pass.1.asked = served.1 ∧ pass.2 = served.2.drained ∧ pass.1.leaves σ = served.1.leaves σ := by
  induction requests generalizing σ responses with
  | nil => exact ⟨asked_asides responses, rfl, leaves_asides responses⟩
  | cons request rest ih =>
    rw [walk, if_neg (by simp [heeds request]), serve]
    dsimp only
    generalize responses.dropWhile (c.stale request.time) = fresh
    cases c.settle σ request fresh with
    | none => exact ⟨asked_asides _, rfl, leaves_asides _⟩
    | some s =>
      obtain ⟨entries, lane, after⟩ := ih s.after (fresh.drop s.taken)
      refine ⟨?_, lane, ?_⟩
      · dsimp only
        rw [Ledger.asked_append, asked_asides]
        exact congrArg (s.entry request fresh :: ·) entries
      · dsimp only
        rw [Ledger.leaves_append, leaves_asides]
        exact after

variable (steadfast : c.Steadfast)
include steadfast

/-- Serving the requests of two batches is serving those of the first, and then those of the second
behind what the first has left, as long as the responses that the first has left over are too old
for the second. -/
theorem serve_append {later more : List (Stamped F)}
    (sorted : (requests ++ later).Pairwise (·.time ≤ ·.time))
    (clean : (c.serve σ requests responses).2.requests = [] →
      ∀ m ∈ (c.serve σ requests responses).2.responses, ∀ q ∈ later, c.stale q.time m = true) :
    let first := c.serve σ requests responses
    let waiting := first.2.drained.append ⟨later, more⟩
    let second := c.serve (first.1.leaves σ) waiting.requests waiting.responses
    let joint := c.serve σ (requests ++ later) (responses ++ more)
    joint.1 = first.1 ++ second.1 ∧ joint.2.drained = second.2.drained := by
  induction requests generalizing σ responses with
  | nil => exact serve_append_old (clean rfl)
  | cons request rest ih =>
    obtain ⟨early, others⟩ := List.pairwise_cons.1 sorted
    obtain ⟨old, fresh, rfl, stale, first⟩ := c.exists_fresh request.time responses
    have older : ∀ {ms : List (Stamped F)}, (∀ m ∈ ms, c.stale request.time m = true) →
        ∀ m ∈ ms, ∀ q ∈ rest ++ later, c.stale q.time m = true :=
      fun h m mem q waits => steadfast.lasts (early q waits) (h m mem)
    cases settled : c.settle σ request fresh with
    | none =>
      rw [serve_of_none stale first settled, List.append_assoc]
      refine serve_append_old fun m mem q waits => ?_
      rcases List.mem_cons.1 waits with rfl | waits
      · exact stale m mem
      · exact older stale m mem q waits
    | some s =>
      have le : s.taken ≤ fresh.length := steadfast.taken_le settled
      rw [serve_of_some stale first settled] at clean ⊢
      cases fresh with
      | nil =>
        -- The request takes nothing, and passes over what is too old in the second batch.
        obtain ⟨old', fresh', rfl, stale', first'⟩ := c.exists_fresh request.time more
        have still : c.settle σ request fresh' = some s := steadfast.settles settled fresh'
        have gone : ∀ m ∈ old ++ old', c.stale request.time m = true :=
          List.forall_mem_append.2 ⟨stale, stale'⟩
        have joined : (old ++ []) ++ (old' ++ fresh') = (old ++ old') ++ fresh' := by simp
        have nothing : s.taken = 0 := Nat.le_zero.1 le
        rw [nothing, List.drop_nil] at clean ⊢
        rw [joined, List.cons_append, serve_of_some gone first' still, nothing, List.drop_zero]
        obtain ⟨entries, lane⟩ := ih others clean
        obtain ⟨same, left⟩ := @serve_append_old _ _ _ c s.after _ fresh' _ (older stale')
        have entry : s.entry request fresh' = s.entry request [] := by
          simp [Settlement.entry, nothing]
        dsimp only
        rw [entry, ← same, ← left]
        exact ⟨congrArg (s.entry request [] :: ·) entries, lane⟩
      | cons m fresh =>
        have known : ∀ m' rest', m :: fresh ++ more = m' :: rest' →
            c.stale request.time m' = false := by
          rintro m' rest' ⟨⟩
          exact first m fresh rfl
        rw [List.append_assoc, List.cons_append,
          serve_of_some stale known (steadfast.settles settled more),
          List.drop_append_of_le_length le]
        obtain ⟨entries, lane⟩ := ih others clean
        have entry : s.entry request (m :: fresh ++ more) = s.entry request (m :: fresh) :=
          congrArg (Entry.mk (some request) · s.outcome s.after) (List.take_append_of_le_length le)
        dsimp only
        rw [entry]
        exact ⟨congrArg (s.entry request (m :: fresh) :: ·) entries, lane⟩

/-- The entries of the requests in any number of passes are those in a single one, as long as what
no request takes would be too old for any. -/
theorem serve_of_passes {batches : List (Lane F)}
    (sorted : (Lane.concat batches).requests.Pairwise (·.time ≤ ·.time))
    (clean : ∀ earlier, earlier <+: batches →
      let served := c.serve σ (Lane.concat earlier).requests (Lane.concat earlier).responses
      served.2.requests = [] → ∀ m ∈ served.2.responses, ∀ time, c.stale time m = true) :
    let run := c.passes σ batches
    let once := c.serve σ (Lane.concat batches).requests (Lane.concat batches).responses
    run.1.asked = once.1 ∧ run.2 = once.2.drained ∧ run.1.leaves σ = once.1.leaves σ := by
  induction batches using List.reverseRecOn with
  | nil => exact ⟨rfl, rfl, rfl⟩
  | append_singleton batches more ih =>
    rw [Lane.concat_snoc] at sorted ⊢
    obtain ⟨entries, lane, after⟩ := ih (List.pairwise_append.1 sorted).1
      fun earlier h => clean earlier (h.trans (List.prefix_append _ _))
    obtain ⟨joined, left⟩ := @serve_append _ _ _ c σ _ _ steadfast _ more.responses sorted
      fun none m mem q _ => clean batches (List.prefix_append _ _) none m mem q.time
    rw [passes_snoc]
    dsimp only [Lane.append] at joined left ⊢
    rw [lane, after]
    obtain ⟨others, rest, known⟩ := @serve_of_walk _ _ _ c steadfast.heeds
      ((c.serve σ (Lane.concat batches).requests (Lane.concat batches).responses).1.leaves σ)
      _ _
    refine ⟨?_, rest.trans left.symm, ?_⟩
    · rw [Ledger.asked_append, entries, others, joined]
    · rw [Ledger.leaves_append, after, known, joined, Ledger.leaves_append]

end

/-! ## Replies -/

/-- Whether a request takes these responses, whatever is remembered and whatever follows them, and
waits until they are all there. -/
structure Serves (request : Stamped F) (reply : List (Stamped F)) : Prop where
  fresh : ∃ m rest, reply = m :: rest ∧ c.stale request.time m = false
  waits : ∀ σ part, part <+: reply → part ≠ reply → c.settle σ request part = none
  takes : ∀ σ later, ∃ s, c.settle σ request (reply ++ later) = some s ∧ s.taken = reply.length

/-- Whether of anything that has come of a script, no request leaves a response that a later one
would take. -/
def Clean (script : List (Stamped F × List (Stamped F))) : Prop :=
  ∀ σ (lane : Lane F), lane.Cut script →
    let served := c.serve σ lane.requests lane.responses
    served.2.requests = [] → ∀ m ∈ served.2.responses, ∀ time, c.stale time m = true

section
variable {c} {σ : S} {request : Stamped F} {rest reply : List (Stamped F)}
  {script : List (Stamped F × List (Stamped F))}

theorem Serves.first (h : c.Serves request reply) {part : List (Stamped F)}
    (part_of : part <+: reply) (later : List (Stamped F)) (some : part = [] → later = []) :
    ∀ m rest, part ++ later = m :: rest → c.stale request.time m = false := by
  intro m rest split
  obtain ⟨m', others, rfl, fresh⟩ := h.fresh
  cases part with
  | nil => cases (some rfl).symm.trans split
  | cons m'' part =>
    obtain ⟨rfl, -⟩ := List.cons_prefix_cons.1 part_of
    cases split
    exact fresh

/-- A request that has its reply takes it, and leaves the others what follows. -/
theorem Serves.serve_eq (h : c.Serves request reply) (σ : S) (rest later : List (Stamped F)) :
    ∃ s, c.settle σ request (reply ++ later) = some s ∧
      c.serve σ (request :: rest) (reply ++ later) =
        (⟨some request, reply, s.outcome, s.after⟩ :: (c.serve s.after rest later).1,
          (c.serve s.after rest later).2) := by
  obtain ⟨s, settled, taken⟩ := h.takes σ later
  have first := h.first List.prefix_rfl later fun none => by
    obtain ⟨m, others, some, -⟩ := h.fresh
    cases none.symm.trans some
  have entry : s.entry request (reply ++ later) = ⟨some request, reply, s.outcome, s.after⟩ := by
    rw [Settlement.entry, taken, List.take_left]
  have served : c.serve σ (request :: rest) ([] ++ (reply ++ later)) = _ :=
    serve_of_some (by simp) first settled
  rw [entry, taken, List.drop_left] at served
  exact ⟨s, settled, served⟩

/-- A request that has not its whole reply waits. -/
theorem Serves.serve_part (h : c.Serves request reply) (σ : S) (rest : List (Stamped F))
    {part : List (Stamped F)} (part_of : part <+: reply) (ne : part ≠ reply) :
    c.serve σ (request :: rest) part = ([], ⟨request :: rest, part⟩) := by
  have first := h.first part_of [] fun _ => rfl
  rw [List.append_nil] at first
  have waits : c.serve σ (request :: rest) ([] ++ part) = _ :=
    serve_of_none (by simp) first (h.waits σ part part_of ne)
  exact waits

/-- Requests that have their replies take them, one after the other. -/
theorem serve_turns (turns : ∀ x ∈ script, c.Serves x.1 x.2) (σ : S)
    (requests responses : List (Stamped F)) :
    ∃ ledger : Ledger F S X, ledger.takings = script ∧
      c.serve σ (script.map (·.1) ++ requests) (script.flatMap (·.2) ++ responses) =
        (ledger ++ (c.serve (ledger.leaves σ) requests responses).1,
          (c.serve (ledger.leaves σ) requests responses).2) := by
  induction script generalizing σ with
  | nil => exact ⟨[], rfl, rfl⟩
  | cons x script ih =>
    obtain ⟨serves, others⟩ := List.forall_mem_cons.1 turns
    obtain ⟨s, -, served⟩ := serves.serve_eq σ (script.map (·.1) ++ requests)
      (script.flatMap (·.2) ++ responses)
    obtain ⟨ledger, takings, rest⟩ := ih others s.after
    refine ⟨⟨some x.1, x.2, s.outcome, s.after⟩ :: ledger, ?_, ?_⟩
    · exact congrArg (x :: ·) takings
    · rw [List.map_cons, List.flatMap_cons, List.append_assoc, List.cons_append, served, rest]
      rfl

/-- Requests that take nothing of what is there leave it to those behind them. -/
theorem serve_passed {passed later : List (Stamped F)} {m : Stamped F}
    (fresh : ∀ q ∈ passed, c.stale q.time m = false)
    (passes : ∀ q ∈ passed, ∀ σ, ∃ outcome, c.settle σ q (m :: later) = some ⟨0, outcome, σ⟩)
    (σ : S) (requests : List (Stamped F)) :
    ∃ ledger : Ledger F S X, ledger.takings = passed.map (·, []) ∧ ledger.leaves σ = σ ∧
      c.serve σ (passed ++ requests) (m :: later) =
        (ledger ++ (c.serve σ requests (m :: later)).1, (c.serve σ requests (m :: later)).2) := by
  induction passed with
  | nil => exact ⟨[], rfl, rfl, rfl⟩
  | cons q passed ih =>
    obtain ⟨known, others⟩ := List.forall_mem_cons.1 fresh
    obtain ⟨free, behind⟩ := List.forall_mem_cons.1 passes
    obtain ⟨outcome, settled⟩ := free σ
    obtain ⟨ledger, takings, after, rest⟩ := ih others behind
    have first : ∀ m' rest', m :: later = m' :: rest' → c.stale q.time m' = false := by
      rintro m' rest' ⟨⟩
      exact known
    have served : c.serve σ (q :: (passed ++ requests)) ([] ++ m :: later) = _ :=
      serve_of_some (by simp) first settled
    refine ⟨⟨some q, [], outcome, σ⟩ :: ledger, congrArg ((q, []) :: ·) takings, after, ?_⟩
    refine served.trans ?_
    rw [List.drop_zero, rest]
    rfl

/-- Where all requests are settled, the last was settled with responses from the end, and left those
behind what it took. -/
theorem exists_last {requests responses : List (Stamped F)}
    (all : (c.serve σ (requests ++ [request]) responses).2.requests = []) :
    ∃ τ fresh s, fresh <:+ responses ∧ c.settle τ request fresh = some s ∧
      (c.serve σ (requests ++ [request]) responses).2.responses = fresh.drop s.taken := by
  induction requests generalizing σ responses with
  | nil =>
    obtain ⟨old, fresh, rfl, stale, first⟩ := c.exists_fresh request.time responses
    rw [List.nil_append] at all ⊢
    cases settled : c.settle σ request fresh with
    | none =>
      rw [serve_of_none stale first settled] at all
      cases all
    | some s =>
      rw [serve_of_some stale first settled]
      exact ⟨σ, fresh, s, List.suffix_append old fresh, settled, rfl⟩
  | cons q requests ih =>
    obtain ⟨old, fresh, rfl, stale, first⟩ := c.exists_fresh q.time responses
    rw [List.cons_append] at all ⊢
    cases settled : c.settle σ q fresh with
    | none =>
      rw [serve_of_none stale first settled] at all
      cases all
    | some s =>
      rw [serve_of_some stale first settled] at all ⊢
      obtain ⟨τ, last, s', suffix, closed, left⟩ := ih all
      exact ⟨τ, last, s',
        suffix.trans ((List.drop_suffix _ _).trans (List.suffix_append old fresh)), closed, left⟩

/-- A request with a reply of its own leaves nothing of it. -/
theorem Clean.cons (serves : c.Serves request reply) (h : c.Clean script) :
    c.Clean ((request, reply) :: script) := by
  rintro σ ⟨requests, responses⟩ ⟨come, begins, rfl, come_of⟩ served all m mem
  cases come with
  | nil =>
    obtain rfl : responses = [] := List.prefix_nil.1 come_of
    cases mem
  | cons x come =>
    obtain ⟨rfl, others⟩ := List.cons_prefix_cons.1 begins
    rw [List.flatMap_cons] at come_of
    by_cases whole : reply <+: responses
    · obtain ⟨later, rfl⟩ := whole
      obtain ⟨s, -, eq⟩ := serves.serve_eq σ (come.map (·.1)) later
      have cut : Lane.Cut script ⟨come.map (·.1), later⟩ :=
        ⟨come, others, rfl, (List.prefix_append_right_inj reply).1 come_of⟩
      refine h s.after _ cut ?_ m ?_
      · exact (congrArg (·.2.requests) eq).symm.trans all
      · exact (congrArg (·.2.responses) eq) ▸ mem
    · -- The reply is not all there, so the request waits.
      have part : responses <+: reply :=
        (List.prefix_or_prefix_of_prefix come_of (List.prefix_append _ _)).resolve_right whole
      have waits := serves.serve_part σ (come.map (·.1)) part fun same =>
        whole (same ▸ List.prefix_rfl)
      cases (congrArg (·.2.requests) waits).symm.trans all

theorem Clean.turns {later : List (Stamped F × List (Stamped F))}
    (turns : ∀ x ∈ script, c.Serves x.1 x.2) (h : c.Clean later) : c.Clean (script ++ later) := by
  induction script with
  | nil => exact h
  | cons x script ih =>
    obtain ⟨serves, others⟩ := List.forall_mem_cons.1 turns
    exact (ih others).cons serves

end

end Clerk

end Dialogue
