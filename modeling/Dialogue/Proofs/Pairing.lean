import Mathlib
import Dialogue.Dialects

/-!
What one pass of pairing does with the queues of a lane.

Most dialects take one message after the other off the responses, so what each message leaves alone
is left alone by the pass (`kept_foldl`). Three of them first pass over the responses that cannot
belong to the request at hand, each by a recursion of its own that is a `passOver`.
-/
namespace Dialogue

namespace Pairing

variable {F S X : Type} {pair : S → Stamped F → Stamped F → X × S}

/-- What no step changes is the same after all of them. -/
theorem kept_foldl {A B C : Type} {step : A → B → A} (view : A → C)
    (kept : ∀ a b, view (step a b) = view a) (bs : List B) (a : A) :
    view (bs.foldl step a) = view a := by
  induction bs generalizing a with
  | nil => rfl
  | cons b bs ih => exact (ih (step a b)).trans (kept a b)

/-- What every step keeps up holds after all of them. -/
theorem holds_foldl {A B : Type} {step : A → B → A} {P : A → Prop} {bs : List B} {a : A}
    (h : P a) (kept : ∀ a, P a → ∀ b ∈ bs, P (step a b)) : P (bs.foldl step a) := by
  induction bs generalizing a with
  | nil => exact h
  | cons b bs ih =>
    have first := kept a h b List.mem_cons_self
    exact ih first fun a ha c hc => kept a ha c (List.mem_cons_of_mem b hc)

/-! ## In order -/

theorem answer_state (kept : ∀ σ request response, (pair σ request response).2 = σ)
    (p : Progress F S X) (response : Stamped F) : (answer pair p response).state = p.state := by
  unfold answer
  split
  · split
    · exact kept ..
    · rfl
  · rfl

theorem answer_responses (p : Progress F S X) (response : Stamped F) :
    (answer pair p response).left.responses = p.left.responses := by
  unfold answer
  split
  · split <;> rfl
  · rfl

theorem state_inOrder (kept : ∀ σ request response, (pair σ request response).2 = σ) (σ : S)
    (lane : Lane F) : (inOrder pair σ lane).state = σ :=
  kept_foldl Progress.state (answer_state kept) lane.responses _

/-- No response waits. -/
theorem responses_inOrder (σ : S) (lane : Lane F) : (inOrder pair σ lane).left.responses = [] :=
  kept_foldl (fun p : Progress F S X => p.left.responses) answer_responses lane.responses _

/-- Where each response is no earlier than the request at its place, every response is answered by
that request, and the requests behind stay. -/
theorem foldl_answer_of_forall₂ {make : Stamped F → Stamped F → X}
    {requests responses waiting : List (Stamped F)}
    (aligned : List.Forall₂ (·.time ≤ ·.time) requests responses) (p : Progress F S X)
    (before : p.left.requests = requests ++ waiting) :
    responses.foldl (answer fun σ request response => (make request response, σ)) p =
      { p with found := (List.zipWith make requests responses).reverse ++ p.found }.withRequests
        waiting := by
  induction aligned generalizing p with
  | nil =>
    obtain rfl : p.left.requests = waiting := before
    rfl
  | @cons request response requests responses le _ ih =>
    have first : answer (fun σ request response => (make request response, σ)) p response =
        (p.record (make request response)).withRequests (requests ++ waiting) := by
      unfold answer
      rw [before]
      dsimp only [List.cons_append]
      rw [if_pos le]
    rw [List.foldl_cons, first, ih _ rfl]
    simp [Progress.record, Progress.withRequests]

theorem inOrder_of_forall₂ {make : Stamped F → Stamped F → X}
    {requests responses waiting : List (Stamped F)}
    (aligned : List.Forall₂ (·.time ≤ ·.time) requests responses) (σ : S) :
    inOrder (fun σ request response => (make request response, σ)) σ
        ⟨requests ++ waiting, responses⟩ =
      ⟨List.zipWith make requests responses, 0, ⟨waiting, []⟩, σ⟩ := by
  unfold inOrder
  rw [foldl_answer_of_forall₂ aligned _ rfl]
  simp [Progress.finish, Progress.withRequests]

/-! ## Passing over responses -/

theorem drop_length_takeWhile {α : Type} (stale : α → Bool) (ms : List α) :
    ms.drop (ms.takeWhile stale).length = ms.dropWhile stale :=
  calc ms.drop (ms.takeWhile stale).length
      = (ms.takeWhile stale ++ ms.dropWhile stale).drop (ms.takeWhile stale).length := by
        rw [List.takeWhile_append_dropWhile]
    _ = ms.dropWhile stale := List.drop_left

theorem not_of_dropWhile_eq {α : Type} {stale : α → Bool} {ms rest : List α} {m : α}
    (h : ms.dropWhile stale = m :: rest) : stale m = false := by
  have first := List.head?_dropWhile_not stale ms
  rw [h] at first
  simpa using first

/-- Passes over the responses up to the first that is not `stale`. -/
def passOver (stale : Stamped F → Bool) (pass : Progress F S X → Stamped F → Progress F S X)
    (p : Progress F S X) (ms : List (Stamped F)) : Progress F S X :=
  ((ms.takeWhile stale).foldl pass p).withResponses (ms.dropWhile stale)

theorem eq_passOver (skip : Progress F S X → List (Stamped F) → Progress F S X)
    (stale : Stamped F → Bool) (pass : Progress F S X → Stamped F → Progress F S X)
    (nil : ∀ p, skip p [] = p.withResponses [])
    (cons : ∀ p m rest, skip p (m :: rest) =
      if stale m then skip (pass p m) rest else p.withResponses (m :: rest))
    (p : Progress F S X) (ms : List (Stamped F)) : skip p ms = passOver stale pass p ms := by
  unfold passOver
  induction ms generalizing p with
  | nil => exact nil p
  | cons m rest ih =>
    rw [cons, List.takeWhile_cons, List.dropWhile_cons]
    cases stale m with
    | true => exact ih (pass p m)
    | false => rfl

section
variable {stale : Stamped F → Bool} {pass : Progress F S X → Stamped F → Progress F S X}
  {p : Progress F S X} {ms rest : List (Stamped F)} {m : Stamped F}

/-- What is left begins with nothing that is passed over. -/
theorem fresh_passOver (h : (passOver stale pass p ms).left.responses = m :: rest) :
    stale m = false := not_of_dropWhile_eq h

theorem requests_passOver (kept : ∀ p m, (pass p m).left.requests = p.left.requests) :
    (passOver stale pass p ms).left.requests = p.left.requests :=
  kept_foldl (fun p : Progress F S X => p.left.requests) kept _ p

/-- Where the first response is not stale, there is nothing to pass over. -/
theorem passOver_of_fresh (fresh : ∀ m rest, ms = m :: rest → stale m = false) :
    passOver stale pass p ms = p.withResponses ms := by
  cases ms with
  | nil => rfl
  | cons m rest =>
    rw [passOver, List.takeWhile_cons, List.dropWhile_cons, fresh m rest rfl]
    rfl

end

end Pairing

namespace Postgres

/-- Whether a message cannot belong to the reply to a request captured at `time`. -/
def stale (time : Nat) (m : Stamped Message) : Bool :=
  decide (Tag.unasked.contains m.value.tag ∨ m.time < time)

theorem dropStale_eq (time : Nat) (p : Progress) (ms : List (Stamped Message)) :
    dropStale time p ms = Pairing.passOver (stale time) discard p ms := by
  refine Pairing.eq_passOver (dropStale time) (stale time) discard (fun _ => rfl) ?_ p ms
  intro p m rest
  simp only [dropStale, stale, decide_eq_true_eq]

theorem requests_discard (p : Progress) (m : Stamped Message) :
    (discard p m).left.requests = p.left.requests := by
  unfold discard
  split <;> rfl

section
variable {time : Nat} {p : Progress} {ms rest : List (Stamped Message)} {m : Stamped Message}

theorem requests_dropStale (time : Nat) (p : Progress) (ms : List (Stamped Message)) :
    (dropStale time p ms).left.requests = p.left.requests := by
  rw [dropStale_eq]
  exact Pairing.requests_passOver requests_discard

theorem fresh_dropStale (h : (dropStale time p ms).left.responses = m :: rest) :
    stale time m = false := by
  rw [dropStale_eq] at h
  exact Pairing.fresh_passOver h

/-- Where the first response is not stale, nothing is dropped. -/
theorem dropStale_of_fresh (fresh : ∀ m rest, ms = m :: rest → stale time m = false) :
    dropStale time p ms = p.withResponses ms := by
  rw [dropStale_eq, Pairing.passOver_of_fresh fresh]

theorem late_dropStale (h : (dropStale time p ms).left.responses = m :: rest) :
    time ≤ m.time := by
  have fresh := fresh_dropStale h
  rw [stale, decide_eq_false_iff_not, not_or, Nat.not_lt] at fresh
  exact fresh.2

end

end Postgres

namespace Mysql

/-- Whether a packet cannot start the reply to a command captured at `time`. -/
def stale (time : Nat) (m : Stamped Packet) : Bool :=
  decide (m.time < time ∨ m.value.sequence ≠ 1)

theorem dropStale_eq (time : Nat) (p : Progress) (ms : List (Stamped Packet)) :
    dropStale time p ms = Pairing.passOver (stale time) discard p ms := by
  refine Pairing.eq_passOver (dropStale time) (stale time) discard (fun _ => rfl) ?_ p ms
  intro p m rest
  simp only [dropStale, stale, decide_eq_true_eq]

theorem requests_discard (p : Progress) (m : Stamped Packet) :
    (discard p m).left.requests = p.left.requests := by
  unfold discard
  split <;> rfl

section
variable {time : Nat} {p : Progress} {ms rest : List (Stamped Packet)} {m : Stamped Packet}

theorem requests_dropStale (time : Nat) (p : Progress) (ms : List (Stamped Packet)) :
    (dropStale time p ms).left.requests = p.left.requests := by
  rw [dropStale_eq]
  exact Pairing.requests_passOver requests_discard

theorem fresh_dropStale (h : (dropStale time p ms).left.responses = m :: rest) :
    stale time m = false := by
  rw [dropStale_eq] at h
  exact Pairing.fresh_passOver h

/-- Where the first response is not stale, nothing is dropped. -/
theorem dropStale_of_fresh (fresh : ∀ m rest, ms = m :: rest → stale time m = false) :
    dropStale time p ms = p.withResponses ms := by
  rw [dropStale_eq, Pairing.passOver_of_fresh fresh]

theorem late_dropStale (h : (dropStale time p ms).left.responses = m :: rest) :
    time ≤ m.time := by
  have fresh := fresh_dropStale h
  rw [stale, decide_eq_false_iff_not, not_or, Nat.not_lt] at fresh
  exact fresh.1

end

end Mysql

namespace Nats

/-- Whether a message was captured before `time`. -/
def stale (time : Nat) (m : Stamped Message) : Bool := decide (m.time < time)

theorem takeEarlier_eq (time : Nat) (p : Progress) (ms : List (Stamped Message)) :
    takeEarlier time p ms = Pairing.passOver (stale time) unpaired p ms := by
  refine Pairing.eq_passOver (takeEarlier time) (stale time) unpaired (fun _ => rfl) ?_ p ms
  intro p m rest
  simp only [takeEarlier, stale, decide_eq_true_eq]

theorem late_takeEarlier {time : Nat} {p : Progress} {ms rest : List (Stamped Message)}
    {m : Stamped Message} (h : (takeEarlier time p ms).left.responses = m :: rest) :
    time ≤ m.time := by
  rw [takeEarlier_eq] at h
  have fresh := Pairing.fresh_passOver h
  rwa [stale, decide_eq_false_iff_not, Nat.not_lt] at fresh

end Nats

end Dialogue
