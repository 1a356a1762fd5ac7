import Dialogue.Bytes

/-!
The search for the next credible frame in bytes that could not be read.
-/
namespace Dialogue.Boundary

/-- The position of the first non-empty suffix that is accepted, counting from `position`. -/
def findFrom (accept : Bytes → Bool) (position : Nat) : Bytes → Option Nat
  | [] => none
  | b :: rest =>
    if accept (b :: rest) then some position else findFrom accept (position + 1) rest

/-- The earliest position from `start` on whose suffix is accepted. -/
def find (accept : Bytes → Bool) (start : Nat) (bs : Bytes) : Option Nat :=
  findFrom accept start (bs.drop start)

theorem findFrom_bounds {accept : Bytes → Bool} {position p : Nat} {bs : Bytes}
    (h : findFrom accept position bs = some p) : position ≤ p ∧ p < position + bs.length := by
  induction bs generalizing position with
  | nil => exact absurd h (by simp [findFrom])
  | cons b rest ih =>
    rw [findFrom] at h
    rw [List.length_cons]
    split at h
    · obtain rfl := Option.some.inj h
      omega
    · have := ih h
      omega

/-- A position that is found lies within the bytes, not before the start. -/
theorem find_bounds {accept : Bytes → Bool} {start p : Nat} {bs : Bytes}
    (h : find accept start bs = some p) : start ≤ p ∧ p < bs.length := by
  have bounds := findFrom_bounds h
  rw [List.length_drop] at bounds
  omega

end Dialogue.Boundary
