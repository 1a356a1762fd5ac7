import Mathlib
import Dialogue.Proofs.Pairing

/-!
The ledger of a pass of pairing: one entry for each thing that the pass does with frames, in order.

An entry names the request that leaves its queue, the responses that leave theirs, and what becomes
of them: an exchange, an error or nothing. A ledger balances if nothing else leaves the queues, is
found or is counted (`Balances`), and its entries form a trail if each is a step that the pass can
take from the state that the one before it left (`Trail`). What is then true of every step is true
of every entry, and what every step keeps up holds along the ledger (`Trail.keeps`).

A `Clerk` keeps the ledger of the dialects that go through the requests and first pass over the
responses that are too old. `orderly` keeps that of the dialects that pair in order.
-/
namespace Dialogue

/-- What becomes of the frames of an entry. -/
inductive Outcome (X : Type) where
  | exchange (x : X)
  | error
  | nothing

namespace Outcome

variable {X : Type}

/-- The exchange that is found. -/
def exchange? : Outcome X → Option X
  | exchange x => some x
  | _ => none

/-- The errors that are counted. -/
def errors : Outcome X → Nat
  | error => 1
  | _ => 0

@[simp] theorem exchange?_exchange (x : X) : (exchange x).exchange? = some x := rfl

@[simp] theorem exchange?_error : (error : Outcome X).exchange? = none := rfl

@[simp] theorem exchange?_nothing : (nothing : Outcome X).exchange? = none := rfl

@[simp] theorem errors_exchange (x : X) : (exchange x).errors = 0 := rfl

@[simp] theorem errors_error : (error : Outcome X).errors = 1 := rfl

@[simp] theorem errors_nothing : (nothing : Outcome X).errors = 0 := rfl

end Outcome

/-- A step of a pass: the request and the responses that leave the queues, what becomes of them and
what is remembered afterwards. -/
structure Entry (F S X : Type) where
  request : Option (Stamped F) := none
  responses : List (Stamped F) := []
  outcome : Outcome X
  after : S

abbrev Ledger (F S X : Type) := List (Entry F S X)

namespace Ledger

variable {F S X : Type}

/-- What is remembered at the end of a ledger that starts with `σ`. -/
def leaves (σ : S) (ledger : Ledger F S X) : S := ledger.foldl (fun _ e => e.after) σ

@[simp] theorem leaves_nil (σ : S) : leaves σ ([] : Ledger F S X) = σ := rfl

@[simp] theorem leaves_cons (σ : S) (e : Entry F S X) (ledger : Ledger F S X) :
    leaves σ (e :: ledger) = leaves e.after ledger := rfl

@[simp] theorem leaves_append (σ : S) (first second : Ledger F S X) :
    leaves σ (first ++ second) = leaves (leaves σ first) second := List.foldl_append

/-- A ledger accounts for a pass over a lane: the requests and the responses that are gone are those
of the entries, in order, and so are the exchanges and the errors. -/
structure Balances (σ : S) (ledger : Ledger F S X) (lane : Lane F) (paired : Paired F S X) :
    Prop where
  requests : lane.requests = ledger.filterMap (·.request) ++ paired.left.requests
  responses : lane.responses = ledger.flatMap (·.responses) ++ paired.left.responses
  exchanges : paired.exchanges = ledger.filterMap (·.outcome.exchange?)
  errors : paired.errors = total (·.outcome.errors) ledger
  state : paired.state = leaves σ ledger

/-- Whether each entry is a step from what the one before it left. -/
def Trail (Step : S → Entry F S X → Prop) : S → Ledger F S X → Prop
  | _, [] => True
  | σ, e :: later => Step σ e ∧ Trail Step e.after later

section
variable {Step : S → Entry F S X → Prop} {σ : S}

@[simp] theorem trail_nil : Trail Step σ [] := trivial

@[simp] theorem trail_cons {e : Entry F S X} {later : Ledger F S X} :
    Trail Step σ (e :: later) ↔ Step σ e ∧ Trail Step e.after later := Iff.rfl

theorem trail_append {first second : Ledger F S X} :
    Trail Step σ (first ++ second) ↔ Trail Step σ first ∧ Trail Step (leaves σ first) second := by
  induction first generalizing σ with
  | nil => simp
  | cons e first ih => simp [ih, and_assoc]

/-- What is true of every step is true along a trail. -/
theorem Trail.imp {P : S → Entry F S X → Prop} {ledger : Ledger F S X}
    (h : Trail Step σ ledger) (sound : ∀ σ e, Step σ e → P σ e) : Trail P σ ledger := by
  induction ledger generalizing σ with
  | nil => exact trail_nil
  | cons e later ih => exact ⟨sound σ e h.1, ih h.2⟩

/-- What is true of each step of a trail is true of each of its entries. -/
theorem Trail.of_mem {P : Entry F S X → Prop} {ledger : Ledger F S X}
    (trail : Trail (fun _ e => P e) σ ledger) : ∀ e ∈ ledger, P e := by
  intro e mem
  obtain ⟨earlier, later, rfl⟩ := List.append_of_mem mem
  exact (trail_append.1 trail).2.1

/-- What holds of the entries so far and the state, and is kept up by every step, holds before each
entry of a trail and behind the last. -/
theorem Trail.keeps {Inv : Ledger F S X → S → Prop} {past ledger : Ledger F S X}
    (h : Trail Step σ ledger) (start : Inv past σ)
    (kept : ∀ past σ e, Inv past σ → Step σ e → Inv (past ++ [e]) e.after) :
    Inv (past ++ ledger) (leaves σ ledger) ∧
      ∀ earlier e later, ledger = earlier ++ e :: later →
        ∃ τ, Inv (past ++ earlier) τ ∧ Step τ e := by
  induction ledger generalizing σ past with
  | nil => simpa using start
  | cons d rest ih =>
    -- The first entry belongs to the past of the others.
    obtain ⟨final, before⟩ := ih h.2 (kept past σ d start h.1)
    refine ⟨by simpa using final, ?_⟩
    intro earlier e later split
    cases earlier with
    | nil =>
      obtain ⟨rfl, -⟩ := List.cons.inj split
      exact ⟨σ, by simpa using start, h.1⟩
    | cons c earlier =>
      obtain ⟨rfl, behind⟩ := List.cons.inj split
      obtain ⟨τ, inv, step⟩ := before earlier e later behind
      exact ⟨τ, by simpa using inv, step⟩

end

/-! ## Runs of passes -/

section
variable (ledger : S → Lane F → Ledger F S X)

/-- The ledgers of passes over these lanes, each with what the one before it left. -/
def history (σ : S) : List (Lane F) → Ledger F S X
  | [] => []
  | lane :: later => ledger σ lane ++ history (leaves σ (ledger σ lane)) later

variable {ledger}

theorem trail_history {Step : S → Entry F S X → Prop}
    (trail : ∀ σ lane, Trail Step σ (ledger σ lane)) (σ : S) (lanes : List (Lane F)) :
    Trail Step σ (history ledger σ lanes) := by
  induction lanes generalizing σ with
  | nil => exact trail_nil
  | cons lane later ih => exact trail_append.2 ⟨trail σ lane, ih _⟩

/-- What is remembered after a run of passes stands at the end of its ledgers. -/
theorem leaves_history {pair : S → Lane F → Paired F S X}
    (balanced : ∀ σ lane, Balances σ (ledger σ lane) lane (pair σ lane)) (σ : S)
    (lanes : List (Lane F)) :
    leaves σ (history ledger σ lanes) = lanes.foldl (fun σ lane => (pair σ lane).state) σ := by
  induction lanes generalizing σ with
  | nil => rfl
  | cons lane later ih =>
    rw [history, leaves_append, ih, List.foldl_cons, (balanced σ lane).state]

end

end Ledger

/-! ## Keeping the ledger while requests are paired -/

namespace Pairing.Progress

variable {F S X : Type}

/-- Takes an entry in; the queues stay as they are. -/
def note (p : Progress F S X) (e : Entry F S X) : Progress F S X :=
  { p with
    found := e.outcome.exchange?.toList ++ p.found
    errors := p.errors + e.outcome.errors
    state := e.after }

/-- Takes a ledger in, which leaves these frames. -/
def close (p : Progress F S X) (ledger : Ledger F S X) (left : Lane F) : Progress F S X where
  found := (ledger.filterMap (·.outcome.exchange?)).reverse ++ p.found
  errors := p.errors + total (·.outcome.errors) ledger
  left := left
  state := ledger.leaves p.state

variable {p : Progress F S X} {left : Lane F}

@[simp] theorem close_state (ledger : Ledger F S X) :
    (p.close ledger left).state = ledger.leaves p.state := rfl

theorem close_cons (e : Entry F S X) (ledger : Ledger F S X) :
    p.close (e :: ledger) left = (p.note e).close ledger left := by
  unfold close note
  rw [List.filterMap_cons, total_cons, Nat.add_assoc]
  cases e.outcome.exchange? <;> simp

theorem close_append (first second : Ledger F S X) (between : Lane F) :
    p.close (first ++ second) left = (p.close first between).close second left := by
  simp [close, Nat.add_assoc]

end Pairing.Progress

/-- What becomes of a request: the number of responses that it takes, the outcome and what is
remembered afterwards. -/
structure Settlement (S X : Type) where
  taken : Nat
  outcome : Outcome X
  after : S

/-- The entry of a request that is settled with these responses at hand. -/
def Settlement.entry {F S X : Type} (s : Settlement S X) (request : Stamped F)
    (responses : List (Stamped F)) : Entry F S X :=
  ⟨some request, responses.take s.taken, s.outcome, s.after⟩

/-- How a dialect goes through the requests of a lane. -/
structure Clerk (F S X : Type) where
  /-- Whether a request takes no part in the pairing. -/
  ignores : Stamped F → Bool
  /-- Whether a response is passed over before a request of the given time. -/
  stale : Nat → Stamped F → Bool
  /-- What becomes of a response that is passed over, or left when no request waits. -/
  stray : Stamped F → Outcome X
  /-- What becomes of a request with these responses at hand; none if it has to wait. -/
  settle : S → Stamped F → List (Stamped F) → Option (Settlement S X)

namespace Clerk

open Pairing

variable {F S X : Type} (c : Clerk F S X)

/-- The entry of a response that no request takes. -/
def aside (σ : S) (m : Stamped F) : Entry F S X := ⟨none, [m], c.stray m, σ⟩

/-- The entry of a request that takes no part. -/
def passed (σ : S) (request : Stamped F) : Entry F S X := ⟨some request, [], .nothing, σ⟩

/-- The ledger of a pass, and what it leaves. -/
def walk (σ : S) : List (Stamped F) → List (Stamped F) → Ledger F S X × Lane F
  | [], responses => (responses.map (c.aside σ), {})
  | request :: rest, responses =>
    if c.ignores request then
      let later := walk σ rest responses
      (passed σ request :: later.1, later.2)
    else
      let strays := (responses.takeWhile (c.stale request.time)).map (c.aside σ)
      let fresh := responses.dropWhile (c.stale request.time)
      match c.settle σ request fresh with
      | none => (strays, ⟨request :: rest, fresh⟩)
      | some s =>
        let later := walk s.after rest (fresh.drop s.taken)
        (strays ++ s.entry request fresh :: later.1, later.2)

/-- The ledger of a pass over a lane. -/
def ledger (σ : S) (lane : Lane F) : Ledger F S X := (c.walk σ lane.requests lane.responses).1

/-- What one step of a pass does. -/
inductive Step (σ : S) : Entry F S X → Prop where
  | aside (m : Stamped F) : Step σ (c.aside σ m)
  | passed {request : Stamped F} (ignored : c.ignores request = true) :
      Step σ (passed σ request)
  | settled {request : Stamped F} {responses : List (Stamped F)} {s : Settlement S X}
      (counts : c.ignores request = false)
      (fresh : ∀ m rest, responses = m :: rest → c.stale request.time m = false)
      (settled : c.settle σ request responses = some s) :
      Step σ (s.entry request responses)

/-! What the entries of responses that no request takes come to. -/

section
variable {c} {σ : S} (ms : List (Stamped F))

theorem requests_asides : (ms.map (c.aside σ)).filterMap (·.request) = [] := by
  rw [List.filterMap_map]
  exact List.filterMap_eq_nil_iff.2 fun _ _ => rfl

theorem responses_asides : (ms.map (c.aside σ)).flatMap (·.responses) = ms := by
  rw [List.flatMap_map]
  exact List.flatMap_singleton' ms

theorem leaves_asides : Ledger.leaves σ (ms.map (c.aside σ)) = σ := by
  induction ms with
  | nil => rfl
  | cons m ms ih => exact ih

theorem trail_asides : Ledger.Trail c.Step σ (ms.map (c.aside σ)) := by
  induction ms with
  | nil => exact Ledger.trail_nil
  | cons m ms ih => exact ⟨.aside m, ih⟩

theorem foldl_aside (p : Progress F S X) :
    ms.foldl (fun p m => p.note (c.aside p.state m)) p =
      p.close (ms.map (c.aside p.state)) p.left := by
  induction ms generalizing p with
  | nil => rfl
  | cons m ms ih => rw [List.foldl_cons, ih, List.map_cons, Progress.close_cons]; rfl

theorem passOver_aside (stale : Stamped F → Bool) (p : Progress F S X) :
    passOver stale (fun p m => p.note (c.aside p.state m)) p ms =
      p.close ((ms.takeWhile stale).map (c.aside p.state))
        { p.left with responses := ms.dropWhile stale } := by
  rw [passOver, foldl_aside]
  rfl

end

/-- The ledger of a pass is a trail. -/
theorem trail_walk (σ : S) (requests responses : List (Stamped F)) :
    Ledger.Trail c.Step σ (c.walk σ requests responses).1 := by
  induction requests generalizing σ responses with
  | nil => exact trail_asides responses
  | cons request rest ih =>
    rw [walk]
    split
    · next ignored => exact ⟨.passed ignored, ih σ responses⟩
    · next counts =>
      dsimp only
      split
      · exact trail_asides _
      · next s settled =>
        refine Ledger.trail_append.2 ⟨trail_asides _, ?_, ih _ _⟩
        rw [leaves_asides]
        exact .settled (Bool.eq_false_of_not_eq_true counts) (fun _ _ => not_of_dropWhile_eq)
          settled

/-- The requests of the entries and those that are left are all of them, in order. -/
theorem requests_walk (σ : S) (requests responses : List (Stamped F)) :
    (c.walk σ requests responses).1.filterMap (·.request) ++
      (c.walk σ requests responses).2.requests = requests := by
  induction requests generalizing σ responses with
  | nil =>
    rw [walk, requests_asides]
    rfl
  | cons request rest ih =>
    rw [walk]
    split
    · exact congrArg (request :: ·) (ih σ responses)
    · dsimp only
      split
      · rw [requests_asides]
        rfl
      · rw [List.filterMap_append, requests_asides]
        exact congrArg (request :: ·) (ih _ _)

/-- The responses of the entries and those that are left are all of them, in order. -/
theorem responses_walk (σ : S) (requests responses : List (Stamped F)) :
    (c.walk σ requests responses).1.flatMap (·.responses) ++
      (c.walk σ requests responses).2.responses = responses := by
  induction requests generalizing σ responses with
  | nil =>
    rw [walk, responses_asides]
    exact List.append_nil responses
  | cons request rest ih =>
    rw [walk]
    split
    · exact ih σ responses
    · dsimp only
      split
      · rw [responses_asides, List.takeWhile_append_dropWhile]
      · next s _ =>
        rw [List.flatMap_append, responses_asides, List.flatMap_cons, Settlement.entry,
          List.append_assoc, List.append_assoc, ih, List.take_append_drop,
          List.takeWhile_append_dropWhile]

/-- A pass over the requests does what the clerk writes down. -/
structure Keeps (pass : Progress F S X → List (Stamped F) → Progress F S X) : Prop where
  nil : ∀ p, pass p [] =
    (p.left.responses.foldl (fun p m => p.note (c.aside p.state m)) p).withResponses []
  ignored : ∀ p request rest, c.ignores request = true → pass p (request :: rest) = pass p rest
  settled : ∀ p request rest, c.ignores request = false →
    let q := passOver (c.stale request.time) (fun p m => p.note (c.aside p.state m)) p
      p.left.responses
    pass p (request :: rest) =
      (c.settle q.state request q.left.responses).elim (q.withRequests (request :: rest)) fun s =>
        pass ((q.note (s.entry request q.left.responses)).withResponses
          (q.left.responses.drop s.taken)) rest

section
variable {c} {pass : Progress F S X → List (Stamped F) → Progress F S X}

theorem Keeps.eq_close (h : c.Keeps pass) {p : Progress F S X} (none : p.left.requests = [])
    (requests : List (Stamped F)) :
    pass p requests =
      p.close (c.walk p.state requests p.left.responses).1
        (c.walk p.state requests p.left.responses).2 := by
  induction requests generalizing p with
  | nil =>
    rw [h.nil, foldl_aside]
    exact congrArg (fun left => p.close _ (Lane.mk left [])) none
  | cons request rest ih =>
    rw [walk]
    split
    · next ignored => rw [h.ignored p request rest ignored, ih none, Progress.close_cons]; rfl
    · next counts =>
      rw [h.settled p request rest (Bool.eq_false_of_not_eq_true counts), passOver_aside]
      dsimp only
      -- Passing over responses leaves what is remembered, so the request is settled from there.
      rw [Progress.close_state, leaves_asides]
      show (c.settle p.state request (p.left.responses.dropWhile _)).elim _ _ = _
      split
      · next waits =>
        rw [waits]
        rfl
      · next s settled =>
        rw [settled, Option.elim_some, Progress.close_append _ _ p.left, Progress.close_cons]
        exact ih none

/-- What a clerk writes down accounts for the pass. -/
theorem Keeps.balances (h : c.Keeps pass) (σ : S) (lane : Lane F) :
    Ledger.Balances σ (c.ledger σ lane) lane
      (pass { left := { responses := lane.responses }, state := σ } lane.requests).finish := by
  rw [h.eq_close rfl]
  exact
    { requests := (c.requests_walk σ lane.requests lane.responses).symm
      responses := (c.responses_walk σ lane.requests lane.responses).symm
      exchanges := by simp [Progress.finish, Progress.close, ledger]
      errors := by simp [Progress.finish, Progress.close, ledger]
      state := rfl }

variable {σ : S} {request : Stamped F} {responses : List (Stamped F)}

/-- The start of a pass over the requests of a lane. -/
def opening (σ : S) (responses : List (Stamped F)) : Progress F S X :=
  { left := { responses := responses }, state := σ }

/-- What a pass has found before makes no difference to what it finds. -/
theorem Keeps.finish_eq (h : c.Keeps pass) {p : Progress F S X} (none : p.left.requests = [])
    (requests : List (Stamped F)) :
    let later := (pass (opening p.state p.left.responses) requests).finish
    (pass p requests).finish =
      ⟨p.found.reverse ++ later.exchanges, p.errors + later.errors, later.left, later.state⟩ := by
  intro later
  have walked : later = (Progress.close _ _ _).finish :=
    congrArg Progress.finish (h.eq_close rfl requests)
  rw [h.eq_close none, walked]
  simp [Progress.finish, Progress.close, opening]

section
variable (h : c.Keeps pass) (counts : c.ignores request = false)
  (fresh : ∀ m rest, responses = m :: rest → c.stale request.time m = false)
  (requests : List (Stamped F))
include h counts fresh

/-- Where the first response is fresh, the request is settled from there. -/
theorem Keeps.pass_of_fresh :
    pass (opening σ responses) (request :: requests) =
      (c.settle σ request responses).elim
        ((opening σ responses).withRequests (request :: requests)) fun s =>
          pass (((opening σ responses).note (s.entry request responses)).withResponses
            (responses.drop s.taken)) requests := by
  have goes := h.settled (opening σ responses) request requests counts
  have passed : passOver (c.stale request.time) (fun p m => p.note (c.aside p.state m))
      (opening σ responses : Progress F S X) responses = opening σ responses :=
    passOver_of_fresh fresh
  dsimp only [opening] at goes passed
  rw [passed] at goes
  exact goes

/-- A request that is settled with the first responses is paired with them, and the pass goes on
with the requests and responses behind. -/
theorem Keeps.pair_of_settled {s : Settlement S X}
    (settled : c.settle σ request responses = some s) :
    let later := (pass (opening s.after (responses.drop s.taken)) requests).finish
    (pass (opening σ responses) (request :: requests)).finish =
      ⟨s.outcome.exchange?.toList ++ later.exchanges, s.outcome.errors + later.errors, later.left,
        later.state⟩ := by
  rw [h.pass_of_fresh counts fresh, settled, Option.elim_some]
  refine (h.finish_eq rfl requests).trans ?_
  have alone : s.outcome.exchange?.toList.reverse = s.outcome.exchange?.toList := by
    cases s.outcome.exchange? <;> rfl
  simp [Progress.note, Progress.withResponses, opening, Settlement.entry, alone]

/-- A request that cannot be settled yet holds up the pass. -/
theorem Keeps.pair_of_waiting (waits : c.settle σ request responses = none) :
    (pass (opening σ responses) (request :: requests)).finish =
      ⟨[], 0, ⟨request :: requests, responses⟩, σ⟩ := by
  rw [h.pass_of_fresh counts fresh, waits]
  rfl

end

end

end Clerk

/-! ## Keeping the ledger while responses are paired in order -/

namespace Pairing

variable {F S X : Type} (keep : Stamped F → Bool) (pair : S → Stamped F → Stamped F → X × S)

/-- The entry of a response with these requests waiting. -/
def reply (σ : S) (requests : List (Stamped F)) (m : Stamped F) : Entry F S X :=
  if keep m then
    (requests.head?.filter (·.time ≤ m.time)).elim ⟨none, [m], .error, σ⟩ fun request =>
      ⟨some request, [m], .exchange (pair σ request m).1, (pair σ request m).2⟩
  else ⟨none, [m], .nothing, σ⟩

/-- The ledger of a pass over the responses, and the requests that it leaves. -/
def orderly (σ : S) (requests : List (Stamped F)) :
    List (Stamped F) → Ledger F S X × List (Stamped F)
  | [] => ([], requests)
  | m :: rest =>
    let e := reply keep pair σ requests m
    let later := orderly e.after (requests.drop e.request.toList.length) rest
    (e :: later.1, later.2)

/-- What one step of a pass does. -/
inductive Replies (σ : S) : Entry F S X → Prop where
  | dropped {m : Stamped F} (out : keep m = false) : Replies σ ⟨none, [m], .nothing, σ⟩
  | unmatched {m : Stamped F} (kept : keep m = true) : Replies σ ⟨none, [m], .error, σ⟩
  | matched {request m : Stamped F} (kept : keep m = true) (le : request.time ≤ m.time) :
      Replies σ ⟨some request, [m], .exchange (pair σ request m).1, (pair σ request m).2⟩

variable {keep pair} {σ : S} {requests : List (Stamped F)}

theorem reply_of_out {m : Stamped F} (out : keep m = false) :
    reply keep pair σ requests m = ⟨none, [m], .nothing, σ⟩ := if_neg (by simp [out])

theorem reply_nil {m : Stamped F} (kept : keep m = true) :
    reply keep pair σ [] m = ⟨none, [m], .error, σ⟩ := if_pos kept

theorem reply_cons {m : Stamped F} (kept : keep m = true) (request : Stamped F) :
    reply keep pair σ (request :: requests) m =
      if request.time ≤ m.time then
        ⟨some request, [m], .exchange (pair σ request m).1, (pair σ request m).2⟩
      else ⟨none, [m], .error, σ⟩ := by
  rw [reply, if_pos kept, List.head?_cons, Option.filter_some]
  by_cases le : request.time ≤ m.time <;> simp [le]

theorem responses_reply (m : Stamped F) : (reply keep pair σ requests m).responses = [m] := by
  unfold reply
  split
  · cases requests.head?.filter (·.time ≤ m.time) <;> rfl
  · rfl

/-- A response takes the first request or none. -/
theorem requests_reply (m : Stamped F) :
    (reply keep pair σ requests m).request.toList ++
      requests.drop (reply keep pair σ requests m).request.toList.length = requests := by
  cases kept : keep m with
  | false => rw [reply_of_out kept]; rfl
  | true =>
    cases requests with
    | nil => rw [reply_nil kept]; rfl
    | cons request rest => rw [reply_cons kept]; split <;> rfl

theorem replies_reply (m : Stamped F) : Replies keep pair σ (reply keep pair σ requests m) := by
  cases kept : keep m with
  | false => rw [reply_of_out kept]; exact .dropped kept
  | true =>
    cases requests with
    | nil => rw [reply_nil kept]; exact .unmatched kept
    | cons request rest =>
      rw [reply_cons kept]
      split
      · next le => exact .matched kept le
      · exact .unmatched kept

theorem trail_orderly (responses : List (Stamped F)) :
    Ledger.Trail (Replies keep pair) σ (orderly keep pair σ requests responses).1 := by
  induction responses generalizing σ requests with
  | nil => exact Ledger.trail_nil
  | cons m rest ih => exact ⟨replies_reply m, ih⟩

theorem requests_orderly (responses : List (Stamped F)) :
    (orderly keep pair σ requests responses).1.filterMap (·.request) ++
      (orderly keep pair σ requests responses).2 = requests := by
  induction responses generalizing σ requests with
  | nil => rfl
  | cons m rest ih =>
    have first : (reply keep pair σ requests m).request.toList ++
        requests.drop (reply keep pair σ requests m).request.toList.length = requests :=
      requests_reply m
    rw [orderly, List.filterMap_cons]
    -- The entry takes the first request or leaves all of them to the later ones.
    cases taken : (reply keep pair σ requests m).request <;> rw [taken] at first
    · exact ih.trans first
    · exact (congrArg _ ih).trans first

theorem responses_orderly (responses : List (Stamped F)) :
    (orderly keep pair σ requests responses).1.flatMap (·.responses) = responses := by
  induction responses generalizing σ requests with
  | nil => rfl
  | cons m rest ih => rw [orderly, List.flatMap_cons, responses_reply, ih]; rfl

/-- A response that is kept is paired as its entry says. -/
theorem answer_eq_note {m : Stamped F} (kept : keep m = true) (p : Progress F S X) :
    answer pair p m =
      (p.note (reply keep pair p.state p.left.requests m)).withRequests
        (p.left.requests.drop
          (reply keep pair p.state p.left.requests m).request.toList.length) := by
  unfold answer
  split
  · next request rest waiting =>
    rw [waiting, reply_cons kept]
    split
    · rfl
    · exact congrArg p.miss.withRequests waiting
  · next none =>
    rw [none, reply_nil kept]
    exact congrArg p.miss.withRequests none

theorem foldl_answer (responses : List (Stamped F)) (p : Progress F S X) :
    (responses.filter keep).foldl (answer pair) p =
      p.close (orderly keep pair p.state p.left.requests responses).1
        { p.left with requests := (orderly keep pair p.state p.left.requests responses).2 } := by
  induction responses generalizing p with
  | nil => rfl
  | cons m rest ih =>
    rw [orderly]
    cases kept : keep m with
    | true =>
      rw [List.filter_cons_of_pos kept, List.foldl_cons, answer_eq_note kept, ih,
        Progress.close_cons]
      rfl
    | false =>
      rw [List.filter_cons_of_neg (by simp [kept]), ih, reply_of_out kept, Progress.close_cons]
      rfl

/-- What is written down accounts for the pass. -/
theorem balances_inOrder (σ : S) (lane : Lane F) :
    Ledger.Balances σ (orderly keep pair σ lane.requests lane.responses).1 lane
      (inOrder pair σ { lane with responses := lane.responses.filter keep }) := by
  unfold inOrder
  rw [foldl_answer]
  exact
    { requests := (requests_orderly lane.responses).symm
      responses := by
        rw [responses_orderly]
        exact (List.append_nil _).symm
      exchanges := by simp [Progress.finish, Progress.close]
      errors := by simp [Progress.finish, Progress.close]
      state := rfl }

end Pairing

end Dialogue
