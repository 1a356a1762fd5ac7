/-!
A memory of bounded size, such as the statements that a server has prepared.

Each key stands once, with the value entered last. Where `limit` keys are held, all of them are
forgotten before another value is entered: `remember` does so for any key, `renew` only for a key
that is not held yet.
-/
namespace Dialogue

/-- Values by key, the one entered last first. -/
abbrev Memory (K V : Type) := List (K × V)

namespace Memory

variable {K V : Type} [BEq K]

/-- The number of keys that may be held. -/
def limit : Nat := 1024

/-- The value of a key. -/
def value? (m : Memory K V) (key : K) : Option V := List.lookup key m

/-- The memory without a key. -/
def forget (m : Memory K V) (key : K) : Memory K V := List.filter (fun e => !(e.1 == key)) m

/-- Enters a value in place of the key's earlier one. -/
def put (m : Memory K V) (key : K) (value : V) : Memory K V := (key, value) :: m.forget key

/-- Enters a value; a memory that is full is emptied first. -/
def remember (m : Memory K V) (key : K) (value : V) : Memory K V :=
  if limit ≤ m.length then [(key, value)] else m.put key value

/-- Enters a value; a memory that is full is emptied first, unless it holds the key. -/
def renew (m : Memory K V) (key : K) (value : V) : Memory K V :=
  if (m.value? key).isSome then m.put key value else m.remember key value

/-- Changes the value of a key that is held. -/
def modify (m : Memory K V) (key : K) (change : V → V) : Memory K V :=
  List.map (fun e => if e.1 == key then (e.1, change e.2) else e) m

end Memory

end Dialogue
