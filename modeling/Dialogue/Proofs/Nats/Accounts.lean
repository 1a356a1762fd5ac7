import Mathlib
import Dialogue.Proofs.Ledger
import Dialogue.Proofs.OnePass

/-!
A pass over a NATS connection accounts for every frame.

The pass goes through the requests as a clerk does: it first takes in the responses that are older
than the request at hand, each on its own, and then looks at the next one only to see whether it
acknowledges the request. What is shown:
  1. `keeps_pairRequests`: the clerk's ledger is that of the pass;
  2. `fair_of_step`: each step of it deals with one request, with one response, or with a request
     and the response that acknowledges it, and says so in the exchange that it makes;
  3. `frames_accounted`: so the exchanges and the errors account for all that has left the queues.
-/
namespace Dialogue.Nats

open Pairing

/-! ## The ledger of a NATS connection -/

/-- What becomes of a request with these responses at hand. -/
def settle (request : Stamped Message) (responses : List (Stamped Message)) :
    Option (Settlement Unit Exchange) :=
  responses.head?.map fun response =>
    if acknowledges response.value request.value then
      ⟨1, .exchange ⟨some request, some response⟩, ()⟩
    else ⟨0, .exchange { request := some request }, ()⟩

/-- How the requests of a connection are gone through. -/
def clerk : Clerk Message Unit Exchange where
  ignores _ := false
  stale := stale
  stray m := if isPush m.value then .exchange { response := some m } else .error
  settle _ := settle

theorem unpaired_eq (p : Progress) (m : Stamped Message) :
    unpaired p m = p.note (clerk.aside p.state m) := by
  unfold unpaired Clerk.aside clerk
  dsimp only
  split <;> rfl

/-- The pass does what the clerk writes down. -/
theorem keeps_pairRequests : clerk.Keeps pairRequests where
  nil p := congrArg (fun step => (p.left.responses.foldl step p).withResponses [])
    (funext₂ unpaired_eq)
  ignored _ _ _ out := by cases out
  settled p request rest _ := by
    intro q
    have taken : takeEarlier request.time p p.left.responses = q := by
      rw [takeEarlier_eq, funext₂ unpaired_eq]
      rfl
    rw [pairRequests, taken]
    show _ = (settle request q.left.responses).elim _ _
    cases responses : q.left.responses with
    | nil => rfl
    | cons response later =>
      simp only [settle, List.head?_cons, Option.map_some, Option.elim_some]
      split
      · rfl
      · -- The response stays for the next request.
        have kept : q = q.withResponses (response :: later) := by rw [← responses]; rfl
        conv_lhs => rw [kept]
        rfl

/-! ## What an entry says -/

/-- What the server sends of its own accord. -/
def pushes : List Command := [.msg, .hmsg, .info, .ping]

/-- What acknowledges a request. -/
def acknowledgements : Command → List Command
  | .ping => [.pong]
  | _ => [.ok, .err]

/-- What may become of frames. -/
inductive Fair : Entry Message Unit Exchange → Prop where
  /-- A request and a response that acknowledges it and is no earlier make one exchange. -/
  | paired {request response : Stamped Message}
      (acknowledged : response.value.command ∈ acknowledgements request.value.command)
      (le : request.time ≤ response.time) :
      Fair ⟨some request, [response], .exchange ⟨some request, some response⟩, ()⟩
  /-- A request makes an exchange of its own. -/
  | alone (request : Stamped Message) :
      Fair ⟨some request, [], .exchange ⟨some request, none⟩, ()⟩
  /-- A push makes an exchange of its own. -/
  | pushed {response : Stamped Message} (push : response.value.command ∈ pushes) :
      Fair ⟨none, [response], .exchange ⟨none, some response⟩, ()⟩
  /-- Any other response is an error. Of those that a server may send, these acknowledge. -/
  | counted {response : Stamped Message} (other : response.value.command ∉ pushes)
      (acknowledges : response.value.command.validFor .response = true →
        response.value.command ∈ [.ok, .err, .pong]) :
      Fair ⟨none, [response], .error, ()⟩

theorem isPush_iff (m : Message) : isPush m = true ↔ m.command ∈ pushes := by
  unfold isPush
  cases m.command <;> decide

theorem acknowledges_iff (response request : Message) :
    acknowledges response request = true ↔
      response.command ∈ acknowledgements request.command := by
  unfold acknowledges
  cases request.command <;> cases response.command <;> decide

/-- What a server may send is a push or an acknowledgement. -/
theorem acknowledges_of_not_push {c : Command} (other : c ∉ pushes)
    (sent : c.validFor .response = true) : c ∈ [Command.ok, .err, .pong] := by
  revert other sent
  cases c <;> decide

theorem fair_of_step {σ : Unit} {e : Entry Message Unit Exchange} (h : clerk.Step σ e) :
    Fair e := by
  cases h with
  | aside m =>
    unfold Clerk.aside clerk
    dsimp only
    split
    · next push => exact .pushed ((isPush_iff m.value).1 push)
    · next other =>
      have other : m.value.command ∉ pushes := fun push => other ((isPush_iff m.value).2 push)
      exact .counted other (acknowledges_of_not_push other)
  | passed ignored => cases ignored
  | @settled request responses s counts fresh settled =>
    cases responses with
    | nil => cases settled
    | cons response later =>
      obtain rfl := Option.some.inj settled
      have le : request.time ≤ response.time := by
        have late : stale request.time response = false := fresh response later rfl
        rwa [stale, decide_eq_false_iff_not, Nat.not_lt] at late
      dsimp only
      split
      · next acks => exact .paired ((acknowledges_iff _ _).1 acks) le
      · exact .alone request

/-! ## What the exchanges say of the queues -/

section
variable {ledger : Ledger Message Unit Exchange}

/-- Every request of a fair ledger is that of one exchange, and no exchange has another. -/
theorem requests_of_fair (fair : ∀ e ∈ ledger, Fair e) :
    (ledger.filterMap (·.outcome.exchange?)).filterMap (·.request) =
      ledger.filterMap (·.request) := by
  rw [List.filterMap_filterMap]
  refine List.filterMap_congr fun e mem => ?_
  cases fair e mem <;> rfl

/-- Every response of a fair ledger is in one exchange or one error. -/
theorem responses_of_fair (fair : ∀ e ∈ ledger, Fair e) :
    let shown := (ledger.filterMap (·.outcome.exchange?)).filterMap (·.response)
    shown.Sublist (ledger.flatMap (·.responses)) ∧
      (ledger.flatMap (·.responses)).length = shown.length + total (·.outcome.errors) ledger := by
  induction ledger with
  | nil => exact ⟨List.Sublist.slnil, rfl⟩
  | cons e later ih =>
    obtain ⟨sub, count⟩ := ih fun e mem => fair e (List.mem_cons_of_mem _ mem)
    cases fair e List.mem_cons_self with
    | paired => exact ⟨sub.cons_cons _, by simp [count]; omega⟩
    | alone => exact ⟨sub, by simpa using count⟩
    | pushed => exact ⟨sub.cons_cons _, by simp [count]; omega⟩
    | counted => exact ⟨sub.cons _, by simp [List.filterMap_cons, count]; omega⟩

end

/-- **A pass accounts for every frame**, whatever waits and under whatever times. No response is
left to wait. What has left the queues stands in a ledger, in order: a request, alone or with a
response that acknowledges it and was captured no earlier, makes one exchange; a response without a
request makes one exchange if it is a push, and otherwise is one error; and these are all exchanges
and errors of the pass. So the exchanges hold every request that is gone exactly once and in order,
and every response that is gone and was not counted, in order of arrival. -/
theorem frames_accounted (lane : Lane Message) :
    (pair lane).left.responses = [] ∧
    (∃ ledger : Ledger Message Unit Exchange,
      Ledger.Balances () ledger lane (pair lane) ∧ ∀ e ∈ ledger, Fair e) ∧
    (pair lane).exchanges.filterMap (·.request) ++ (pair lane).left.requests = lane.requests ∧
    ((pair lane).exchanges.filterMap (·.response)).Sublist lane.responses ∧
    ((pair lane).exchanges.filterMap (·.response)).length + (pair lane).errors =
      lane.responses.length := by
  have none : (pair lane).left.responses = [] := responses_pairRequests _ lane.requests
  have balances : Ledger.Balances () (clerk.ledger () lane) lane (pair lane) :=
    keeps_pairRequests.balances () lane
  have fair : ∀ e ∈ clerk.ledger () lane, Fair e :=
    ((clerk.trail_walk () lane.requests lane.responses).imp fun _ _ => fair_of_step).of_mem
  have gone : lane.responses = (clerk.ledger () lane).flatMap (·.responses) := by
    rw [balances.responses, none, List.append_nil]
  obtain ⟨sub, count⟩ := responses_of_fair fair
  refine ⟨none, ⟨_, balances, fair⟩, ?_, ?_, ?_⟩
  · rw [balances.exchanges, requests_of_fair fair, ← balances.requests]
  · rw [balances.exchanges, gone]
    exact sub
  · rw [balances.exchanges, balances.errors, gone, count]

/-- A ping that is answered, a subscription that is not, and what the server sends in between. -/
def busy : Lane Message :=
  let sent (c : Command) (time : Nat) : Stamped Message := ⟨time, c, "", [], 0⟩
  ⟨[sent .ping 3, sent .sub 4, sent .pub 5],
    [sent .ok 1, sent .msg 2, sent .pong 3, sent .info 6, sent .ok 4]⟩

/-- The times of the two sides of each exchange, and the errors. -/
example :
    (pair busy).exchanges.map (fun x => (x.request.map (·.time), x.response.map (·.time))) =
        [(none, some 2), (some 3, some 3), (some 4, none), (some 5, none), (none, some 6)] ∧
      (pair busy).errors = 2 := by
  decide +kernel

end Dialogue.Nats
