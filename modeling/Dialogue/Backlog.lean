import Dialogue.Frame
import Dialogue.Total

/-!
Frames waiting for a counterpart, by the key of the dialogue they belong to.

A backlog is a list of lanes in ascending order of key, so that everything done for each key is
done in that order.
-/
namespace Dialogue

/-- The lanes of a connection by ascending key. -/
abbrev Backlog (F : Type) := List (Int × Lane F)

namespace Backlog

/-- Changes the lane of a key, which is empty where there was none. -/
def update {F : Type} (key : Int) (change : Lane F → Lane F) : Backlog F → Backlog F
  | [] => [(key, change {})]
  | (k, lane) :: rest =>
    if key < k then (key, change {}) :: (k, lane) :: rest
    else if key = k then (k, change lane) :: rest
    else (k, lane) :: update key change rest

/-- Appends a frame to the queue of its key and direction. -/
def push {F : Type} (b : Backlog F) (key : Int) (d : Direction) (f : Stamped F) : Backlog F :=
  update key (·.push d f) b

/-- The lane of a key. -/
def lane? {F : Type} (b : Backlog F) (key : Int) : Option (Lane F) := List.lookup key b

def keys {F : Type} (b : Backlog F) : List Int := List.map Prod.fst b

/-- The number of frames that wait under any key. -/
def frameCount {F : Type} (b : Backlog F) : Nat := total (fun e => e.2.count) b

/-- The backlog without the lanes in which nothing waits. -/
def dropEmpty {F : Type} (b : Backlog F) : Backlog F := List.filter (fun e => !e.2.isEmpty) b

/-- Takes the oldest frame of a key and direction. -/
def pop {F : Type} (b : Backlog F) (key : Int) (d : Direction) :
    Option (Stamped F) × Backlog F :=
  match b.lane? key with
  | none => (none, b)
  | some lane =>
    let (f, lane) := lane.pop d
    (f, update key (fun _ => lane) b)

end Backlog

end Dialogue
