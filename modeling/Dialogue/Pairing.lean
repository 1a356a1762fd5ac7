import Dialogue.Frame

/-!
Pairing in order: each response answers the oldest request captured no later than it.

A response that precedes every waiting request, or finds none, is dropped and counted. Pairing is a
fold over the responses, so that pairing in several batches is pairing from where the last batch
stopped. What a pair teaches is known to the pairs behind it.
-/
namespace Dialogue.Pairing

/-- How far the pairing of a lane has come; the exchanges are held last first. -/
structure Progress (F S X : Type) where
  found : List X := []
  errors : Nat := 0
  left : Lane F := {}
  state : S

namespace Progress

variable {F S X : Type}

/-- Adds an exchange. -/
def record (p : Progress F S X) (x : X) : Progress F S X := { p with found := x :: p.found }

/-- Counts an anomaly. -/
def miss (p : Progress F S X) : Progress F S X := { p with errors := p.errors + 1 }

/-- Leaves these requests waiting. -/
def withRequests (p : Progress F S X) (requests : List (Stamped F)) : Progress F S X :=
  { p with left := { p.left with requests := requests } }

/-- Leaves these responses waiting. -/
def withResponses (p : Progress F S X) (responses : List (Stamped F)) : Progress F S X :=
  { p with left := { p.left with responses := responses } }

/-- The result of the pairing. -/
def finish (p : Progress F S X) : Paired F S X := ⟨p.found.reverse, p.errors, p.left, p.state⟩

end Progress

/-- Pairs one response, or counts it. -/
def answer {F S X : Type} (pair : S → Stamped F → Stamped F → X × S) (p : Progress F S X)
    (response : Stamped F) : Progress F S X :=
  match p.left.requests with
  | request :: rest =>
    if request.time ≤ response.time then
      let (x, state) := pair p.state request response
      ({ p with state := state }.record x).withRequests rest
    else p.miss
  | [] => p.miss

/-- Pairs every response of a lane; requests without an answer stay. -/
def inOrder {F S X : Type} (pair : S → Stamped F → Stamped F → X × S) (state : S)
    (lane : Lane F) : Paired F S X :=
  (lane.responses.foldl (answer pair)
    { left := { requests := lane.requests }, state := state }).finish

end Dialogue.Pairing
