import Dialogue.Bytes

/-!
Lines that end with carriage return and line feed.
-/
namespace Dialogue.Line

/-- The bytes that end a line. -/
def ending : Bytes := [13, 10]

/-- Splits behind the first line ending; `found` holds the bytes before, last first. -/
def splitFrom (found : Bytes) : Bytes → Option (Bytes × Bytes)
  | [] => none
  | b :: rest =>
    if b = 13 ∧ rest.head? = some 10 then some (found.reverse, rest.tail)
    else splitFrom (b :: found) rest

/-- The first line without its ending, and the bytes behind the ending. -/
def split? (bs : Bytes) : Option (Bytes × Bytes) := splitFrom [] bs

theorem length_splitFrom_lt {found bs line rest : Bytes}
    (h : splitFrom found bs = some (line, rest)) : rest.length < bs.length := by
  induction bs generalizing found with
  | nil => simp [splitFrom] at h
  | cons b bs ih =>
    rw [splitFrom] at h
    split at h
    · obtain ⟨-, rfl⟩ := Prod.mk.inj (Option.some.inj h)
      simp only [List.length_tail, List.length_cons]
      omega
    · exact Nat.lt_succ_of_lt (ih h)

theorem length_split_lt {bs line rest : Bytes} (h : split? bs = some (line, rest)) :
    rest.length < bs.length := length_splitFrom_lt h

/-- The first line, and the bytes behind its ending, where the line has at most `limit` bytes. -/
def splitWithin? (limit : Nat) (bs : Bytes) : Option (Bytes × Bytes) :=
  match split? (bs.take (limit + ending.length)) with
  | some (line, _) => some (line, bs.drop (line.length + ending.length))
  | none => none

end Dialogue.Line
