import Mathlib
import Dialogue.Mux
import Dialogue.Proofs.Ledger

/-!
A pass over the mux messages of one tag accounts for every message.

Each message of the server has its turn: some requests are dropped for it, and it may answer the
next one. A turn is fair if that is what the types and the times of the messages call for
(`Turn.Fair`), and fair turns, each with the requests that the one before it left, make a run
(`Run`). What is shown:
  1. `exists_turn`: a message is taken in as some fair turn says, step by step through the requests;
  2. `exists_run`: so a pass is a run, and its ledger is that of the turns;
  3. `messages_accounted`: the exchanges, the errors and the requests that are left are read off the
     turns, one for each message of the server.
-/
namespace Dialogue.Mux

open Pairing

/-! ## Types -/

/-- What reports an error. -/
def errorReplies : List Kind := [.rerr, .oldRerr]

/-- What answers another message: the opposites of requests, and errors. -/
def replies : List Kind := [.rreq, .rdispatch, .rdrain, .rping, .rdiscarded, .rinit] ++ errorReplies

/-- What the client sends and waits for no reply to. -/
def silent : List Kind := .tlease :: replies

/-- Whether a type answers another: as its opposite, or as an error. -/
def Answers (k asked : Kind) : Prop := k ∈ errorReplies ∨ k.code = -asked.code

theorem isReply_iff (k : Kind) : k.isReply = true ↔ k ∈ replies := by cases k <;> decide

theorem isSilent_iff (m : Message) : isSilent m = true ↔ m.kind ∈ silent := by
  unfold isSilent
  cases m.kind <;> decide

theorem answers_iff (k asked : Kind) : k.answers asked = true ↔ Answers k asked := by
  have error : k.isError = true ↔ k ∈ errorReplies := by cases k <;> decide
  simp [Kind.answers, Answers, error]

/-! ## Turns -/

/-- What a message of the server does to the requests that wait: the first ones are dropped for it,
and it may answer the next. -/
structure Turn where
  message : Stamped Message
  dropped : List (Stamped Message) := []
  request : Option (Stamped Message) := none

namespace Turn

/-- The requests that leave the queue. -/
def gone (t : Turn) : List (Stamped Message) := t.dropped ++ t.request.toList

/-- The requests that have lost their reply: they are dropped, and were waiting for one. -/
def lost (t : Turn) : List (Stamped Message) := t.dropped.filter (·.value.kind ∉ silent)

/-- Whether the message is a reply without a request. -/
def unmatched (t : Turn) : Bool := t.request.isNone && t.message.value.kind ∈ replies

/-- The exchange that is found. -/
def exchange? (t : Turn) : Option (Matched Message) := t.request.map (⟨·, t.message⟩)

/-- Whether a turn is what types and times call for, where it leaves these requests waiting. -/
structure Fair (t : Turn) (waiting : List (Stamped Message)) : Prop where
  /-- A message that is no reply leaves the requests alone. -/
  idle : t.message.value.kind ∉ replies → t.gone = []
  /-- A request that is dropped waits for no reply, or was captured no later than this one, which
  answers another type. -/
  dropped : ∀ q ∈ t.dropped, q.value.kind ∈ silent ∨
    q.time ≤ t.message.time ∧ ¬Answers t.message.value.kind q.value.kind
  /-- A request that is answered was waiting for a reply of this type, and captured no later. -/
  answered : ∀ q ∈ t.request, q.value.kind ∉ silent ∧ q.time ≤ t.message.time ∧
    Answers t.message.value.kind q.value.kind
  /-- A reply finds no request only where the next to wait for one was captured later. -/
  unmatched : t.unmatched = true → ∀ q ∈ waiting.head?,
    q.value.kind ∉ silent ∧ t.message.time < q.time

variable {t : Turn} {waiting : List (Stamped Message)}

/-- A request that waits for a reply does not leave for one that was captured before it. -/
theorem Fair.le (fair : t.Fair waiting) {q : Stamped Message} (gone : q ∈ t.gone)
    (waits : q.value.kind ∉ silent) : q.time ≤ t.message.time := by
  rcases List.mem_append.1 gone with dropped | answered
  · exact ((fair.dropped q dropped).resolve_left waits).1
  · exact (fair.answered q (Option.mem_toList.1 answered)).2.1

/-- The exchange of a fair turn is of a type with what answers it. -/
theorem Fair.answers (fair : t.Fair waiting) {x : Matched Message} (made : t.exchange? = some x) :
    Answers x.response.value.kind x.request.value.kind := by
  obtain ⟨q, asked, rfl⟩ := Option.map_eq_some_iff.1 made
  exact (fair.answered q asked).2.2

/-- A message that takes no request. -/
theorem fair_bare {m : Stamped Message}
    (later : m.value.kind ∈ replies →
      ∀ q ∈ waiting.head?, q.value.kind ∉ silent ∧ m.time < q.time) :
    Fair ⟨m, [], none⟩ waiting where
  idle _ := rfl
  dropped _ none := absurd none List.not_mem_nil
  answered _ none := absurd none (Option.not_mem_none _)
  unmatched yes := later (of_decide_eq_true yes)

/-- A reply that answers the first request. -/
theorem fair_paired {m q : Stamped Message} (reply : m.value.kind ∈ replies)
    (waits : q.value.kind ∉ silent) (le : q.time ≤ m.time)
    (answers : Answers m.value.kind q.value.kind) : Fair ⟨m, [], some q⟩ waiting where
  idle other := absurd reply other
  dropped _ none := absurd none List.not_mem_nil
  answered _ same := Option.mem_some.1 same ▸ ⟨waits, le, answers⟩
  unmatched none := absurd none Bool.false_ne_true

/-- One more request is dropped first. -/
def drop (q : Stamped Message) (t : Turn) : Turn := { t with dropped := q :: t.dropped }

theorem Fair.drop (fair : t.Fair waiting) (reply : t.message.value.kind ∈ replies)
    {q : Stamped Message} (out : q.value.kind ∈ silent ∨
      q.time ≤ t.message.time ∧ ¬Answers t.message.value.kind q.value.kind) :
    (t.drop q).Fair waiting where
  idle other := absurd reply other
  dropped := List.forall_mem_cons.2 ⟨out, fair.dropped⟩
  answered := fair.answered
  unmatched := fair.unmatched

/-! ## The ledger of a turn -/

/-- The entry of a request that is dropped. -/
def dropEntry (q : Stamped Message) : Entry Message Unit (Matched Message) :=
  ⟨some q, [], if q.value.kind ∈ silent then .nothing else .error, ()⟩

theorem exchange?_dropEntry (q : Stamped Message) : (dropEntry q).outcome.exchange? = none := by
  unfold dropEntry
  dsimp only
  split <;> rfl

/-- What becomes of the message. -/
def outcome (t : Turn) : Outcome (Matched Message) :=
  t.exchange?.elim (if t.message.value.kind ∈ replies then .error else .nothing) .exchange

/-- The entries of a turn: one for each request that is dropped, and one for the message. -/
def ledger (t : Turn) : Ledger Message Unit (Matched Message) :=
  t.dropped.map dropEntry ++ [⟨t.request, [t.message], t.outcome, ()⟩]

theorem exchanges_ledger (t : Turn) :
    t.ledger.filterMap (·.outcome.exchange?) = t.exchange?.toList := by
  have dropped : (t.dropped.map dropEntry).filterMap (·.outcome.exchange?) = [] := by
    rw [List.filterMap_map]
    exact List.filterMap_eq_nil_iff.2 fun q _ => exchange?_dropEntry q
  rw [ledger, List.filterMap_append, dropped]
  unfold outcome
  cases t.exchange? with
  | some x => rfl
  | none =>
    dsimp only [Option.elim]
    split <;> rfl

theorem errors_ledger (t : Turn) :
    total (·.outcome.errors) t.ledger = t.unmatched.toNat + t.lost.length := by
  have dropped : total (·.outcome.errors) (t.dropped.map dropEntry) = t.lost.length := by
    unfold lost
    induction t.dropped with
    | nil => rfl
    | cons q rest ih =>
      rw [List.map_cons, total_cons, ih, dropEntry]
      by_cases out : q.value.kind ∈ silent
      · simp [out]
      · simp [out, Nat.add_comm]
  have last : t.outcome.errors = t.unmatched.toNat := by
    unfold outcome exchange? unmatched
    cases t.request with
    | some q => rfl
    | none => by_cases reply : t.message.value.kind ∈ replies <;> simp [reply]
  rw [ledger, total_append, dropped, total_cons, last, total_nil]
  omega

/-! ## A message -/

/-- Whether a pass takes in a message by a turn, which leaves of the requests those that wait. -/
structure Takes (t : Turn) (p : Progress) (m : Stamped Message)
    (requests waiting : List (Stamped Message)) (after : Progress) : Prop where
  message : t.message = m
  parts : t.gone ++ waiting = requests
  fair : t.Fair waiting
  closed : after = p.close t.ledger { p.left with requests := waiting }

section
variable {p : Progress} {m q : Stamped Message}

theorem note_dropEntry_of_silent (out : q.value.kind ∈ silent) : p.note (dropEntry q) = p := by
  rw [dropEntry, if_pos out]
  rfl

theorem note_dropEntry_of_waiting (waits : q.value.kind ∉ silent) :
    p.note (dropEntry q) = p.miss := by
  rw [dropEntry, if_neg waits]
  rfl

/-- A request is dropped, and the others have their turn as they would without it. -/
theorem Takes.drop {t : Turn} {requests waiting : List (Stamped Message)} {after : Progress}
    (h : t.Takes (p.note (dropEntry q)) m requests waiting after) (reply : m.value.kind ∈ replies)
    (out : q.value.kind ∈ silent ∨ q.time ≤ m.time ∧ ¬Answers m.value.kind q.value.kind) :
    (t.drop q).Takes p m (q :: requests) waiting after := by
  obtain ⟨rfl, rfl, fair, closed⟩ := h
  refine ⟨rfl, rfl, fair.drop reply out, ?_⟩
  rw [closed]
  exact (Progress.close_cons (dropEntry q) t.ledger).symm

/-- A message that leaves all requests alone. -/
theorem takes_bare (requests : List (Stamped Message))
    (later : m.value.kind ∈ replies →
      ∀ q ∈ requests.head?, q.value.kind ∉ silent ∧ m.time < q.time) :
    Takes ⟨m, [], none⟩ p m requests requests
      (p.close [⟨none, [m], if m.value.kind ∈ replies then .error else .nothing, ()⟩]
        { p.left with requests := requests }) :=
  ⟨rfl, rfl, fair_bare later, rfl⟩

end

end Turn

/-- A reply goes through the requests as a fair turn says. -/
theorem exists_turn_of_reply {m : Stamped Message} (reply : m.value.kind ∈ replies) (p : Progress)
    (requests : List (Stamped Message)) :
    ∃ (t : Turn) (waiting : List (Stamped Message)),
      t.Takes p m requests waiting (settle m p requests) := by
  induction requests generalizing p with
  | nil =>
    have bare := Turn.takes_bare (p := p) (m := m) [] fun _ _ none =>
      absurd none (Option.not_mem_none _)
    rw [if_pos reply] at bare
    exact ⟨_, _, bare⟩
  | cons q rest ih =>
    rw [settle]
    by_cases out : q.value.kind ∈ silent
    · rw [if_pos ((isSilent_iff q.value).2 out)]
      obtain ⟨t, waiting, taken⟩ := ih (p.note (Turn.dropEntry q))
      have dropped := taken.drop reply (.inl out)
      rw [Turn.note_dropEntry_of_silent out] at dropped
      exact ⟨_, _, dropped⟩
    rw [if_neg fun yes => out ((isSilent_iff q.value).1 yes)]
    split_ifs with later answers
    · have bare := Turn.takes_bare (p := p) (m := m) (q :: rest) fun _ r first =>
        Option.some.inj first ▸ ⟨out, later⟩
      rw [if_pos reply] at bare
      exact ⟨_, _, bare⟩
    · have paired : Turn.Fair ⟨m, [], some q⟩ rest :=
        Turn.fair_paired reply out (Nat.not_lt.1 later) ((answers_iff _ _).1 answers)
      exact ⟨_, rest, rfl, rfl, paired, rfl⟩
    · obtain ⟨t, waiting, taken⟩ := ih (p.note (Turn.dropEntry q))
      have dropped := taken.drop reply
        (.inr ⟨Nat.not_lt.1 later, fun yes => answers ((answers_iff _ _).2 yes)⟩)
      rw [Turn.note_dropEntry_of_waiting out] at dropped
      exact ⟨_, _, dropped⟩

/-- A message is taken in as a fair turn says. -/
theorem exists_turn (m : Stamped Message) (p : Progress) :
    ∃ (t : Turn) (waiting : List (Stamped Message)),
      t.Takes p m p.left.requests waiting (answer p m) := by
  by_cases reply : m.value.kind ∈ replies
  · rw [answer, if_pos ((isReply_iff _).2 reply)]
    exact exists_turn_of_reply reply p p.left.requests
  · rw [answer, if_neg fun yes => reply ((isReply_iff _).1 yes)]
    have bare := Turn.takes_bare (p := p) p.left.requests fun yes => absurd yes reply
    rw [if_neg reply] at bare
    exact ⟨_, _, bare⟩

/-! ## A pass -/

/-- Fair turns one after the other, from the requests that wait at first to those that are left. -/
inductive Run : List (Stamped Message) → List Turn → List (Stamped Message) → Prop where
  | nil (requests : List (Stamped Message)) : Run requests [] requests
  | cons {t : Turn} {waiting left : List (Stamped Message)} {turns : List Turn}
      (fair : t.Fair waiting) (later : Run waiting turns left) :
      Run (t.gone ++ waiting) (t :: turns) left

namespace Run

variable {requests left : List (Stamped Message)} {turns : List Turn}

/-- What is left stands behind what has gone. -/
theorem requests_eq (run : Run requests turns left) :
    turns.flatMap Turn.gone ++ left = requests := by
  induction run with
  | nil requests => rfl
  | cons fair later ih => rw [List.flatMap_cons, List.append_assoc, ih]

theorem fair (run : Run requests turns left) : ∀ t ∈ turns, ∃ waiting, t.Fair waiting := by
  induction run with
  | nil requests => exact fun _ none => (List.not_mem_nil none).elim
  | cons fair later ih => exact List.forall_mem_cons.2 ⟨⟨_, fair⟩, ih⟩

end Run

/-- The messages of the server are taken in as a run says. -/
theorem exists_run (responses : List (Stamped Message)) (p : Progress) :
    ∃ (turns : List Turn) (left : List (Stamped Message)), turns.map (·.message) = responses ∧
      Run p.left.requests turns left ∧
      responses.foldl answer p =
        p.close (turns.flatMap Turn.ledger) { p.left with requests := left } := by
  induction responses generalizing p with
  | nil => exact ⟨[], p.left.requests, rfl, .nil _, rfl⟩
  | cons m rest ih =>
    obtain ⟨t, waiting, taken⟩ := exists_turn m p
    obtain ⟨turns, left, messages, run, passed⟩ := ih (answer p m)
    rw [taken.closed] at run passed
    refine ⟨t :: turns, left, by rw [List.map_cons, taken.message, messages],
      taken.parts ▸ .cons taken.fair run, ?_⟩
    rw [List.foldl_cons, taken.closed, passed, List.flatMap_cons, ← Progress.close_append]
    rfl

/-! ## What the turns come to -/

section
variable (turns : List Turn)

theorem exchanges_turns :
    (turns.flatMap Turn.ledger).filterMap (·.outcome.exchange?) =
      turns.filterMap Turn.exchange? := by
  induction turns with
  | nil => rfl
  | cons t turns ih =>
    rw [List.flatMap_cons, List.filterMap_append, t.exchanges_ledger, ih, List.filterMap_cons]
    cases t.exchange? <;> rfl

theorem errors_turns :
    total (·.outcome.errors) (turns.flatMap Turn.ledger) =
      turns.countP Turn.unmatched + (turns.flatMap Turn.lost).length := by
  induction turns with
  | nil => rfl
  | cons t turns ih =>
    rw [List.flatMap_cons, total_append, t.errors_ledger, ih, List.countP_cons, List.flatMap_cons,
      List.length_append]
    cases t.unmatched <;> simp <;> omega

end

/-- **A pass accounts for every message**, whatever waits and under whatever times. No message of
the server is left. Each of them has one turn: some requests are dropped for it, and it may answer
the next; the requests that are left stand behind all that have gone. The turns are fair, so none is
dropped or answered for a message captured before it, but for what waits for no reply. The exchanges
are those of the turns that have a request, each of a type with its opposite or with an error, and
the errors are the replies without a request and the requests that were dropped while they
waited. -/
theorem messages_accounted (lane : Lane Message) :
    let paired := pair lane
    paired.left.responses = [] ∧
      ∃ turns : List Turn, turns.map (·.message) = lane.responses ∧
        Run lane.requests turns paired.left.requests ∧
        turns.flatMap Turn.gone ++ paired.left.requests = lane.requests ∧
        paired.exchanges = turns.filterMap Turn.exchange? ∧
        (∀ x ∈ paired.exchanges, Answers x.response.value.kind x.request.value.kind) ∧
        paired.errors = turns.countP Turn.unmatched + (turns.flatMap Turn.lost).length ∧
        ∀ t ∈ turns, ∀ q ∈ t.gone, q.value.kind ∉ silent → q.time ≤ t.message.time := by
  intro paired
  obtain ⟨turns, left, messages, run, passed⟩ :=
    exists_run lane.responses { left := { requests := lane.requests }, state := () }
  have closed : paired = (Progress.close _ _ _).finish := congrArg Progress.finish passed
  have requests : paired.left.requests = left := by
    rw [closed]
    rfl
  have exchanges : paired.exchanges = turns.filterMap Turn.exchange? := by
    rw [closed, ← exchanges_turns]
    simp [Progress.finish, Progress.close]
  have errors : paired.errors = turns.countP Turn.unmatched + (turns.flatMap Turn.lost).length := by
    rw [closed, ← errors_turns]
    simp [Progress.finish, Progress.close]
  refine ⟨by rw [closed]; rfl, turns, messages, requests ▸ run, requests ▸ run.requests_eq,
    exchanges, fun x found => ?_, errors, fun t mem q gone waits => ?_⟩
  · rw [exchanges] at found
    obtain ⟨t, mem, made⟩ := List.mem_filterMap.1 found
    obtain ⟨_, fair⟩ := run.fair t mem
    exact fair.answers made
  · obtain ⟨_, fair⟩ := run.fair t mem
    exact fair.le gone waits

/-- A call whose reply is lost, a lease, two calls that are answered and one that comes too late. -/
def busy : Lane Message :=
  let sent (kind : Kind) (time : Nat) : Stamped Message := ⟨time, kind, 1, []⟩
  ⟨[sent .tping 1, sent .tlease 2, sent .tdispatch 3, sent .tinit 4, sent .rdrain 9, sent .treq 8],
    [sent .tdrain 3, sent .rdispatch 5, sent .oldRerr 6, sent .rreq 7]⟩

/-- The times of the two sides of each exchange, the errors and the request that is left. -/
example :
    (pair busy).exchanges.map (fun x => (x.request.time, x.response.time)) = [(3, 5), (4, 6)] ∧
      (pair busy).errors = 2 ∧ (pair busy).left.requests.map (·.time) = [8] := by
  decide +kernel

end Dialogue.Mux
