import Mathlib
import Dialogue.Dialect

/-!
What a connection relies on when it reads frames.

A reader keeps the `Contract` if a frame takes up as many bytes as it says, bytes that are no frame
teach nothing, and a minimum that is asked for is neither there already nor too large. For a reader
that remembers nothing this is `Frames`, and `Contract.of_frames` brings in what is remembered.
-/
namespace Dialogue

/-- The longest byte string that memory can hold. -/
def maxBytes : Nat := 0x7FFFFFFFFFFFFFFF

/-- A reader whose frames take up `size` bytes, and which asks for no more than a frame takes up. -/
structure Frames {F : Type} (size : F → Nat) (read : Bytes → Parsed F) : Prop where
  whole : ∀ {bs : Bytes} {frame : F} {n : Nat},
    read bs = .complete frame n → 0 < n ∧ n ≤ bs.length ∧ size frame = n
  /-- More bytes are asked for than there are. -/
  ahead : ∀ {bs : Bytes} {m : Nat},
    bs.length ≤ maxBytes → read bs = .needMore (some m) → bs.length < m
  /-- No frame takes up fewer bytes than are asked for. -/
  least : ∀ {bs tail : Bytes} {m n : Nat} {frame : F},
    read bs = .needMore (some m) → read (bs ++ tail) = .complete frame n → m ≤ n

/-- What a connection relies on when it reads frames, whatever is remembered of it. -/
structure Contract {S F : Type} (size : F → Nat)
    (parse : Direction → S → Bytes → Parsed F × S) : Prop where
  /-- A frame takes up some of the bytes that are there, as many as it says. -/
  whole : ∀ {dir : Direction} {σ : S} {bs : Bytes} {frame : F} {n : Nat},
    (parse dir σ bs).1 = .complete frame n → 1 ≤ n ∧ n ≤ bs.length ∧ size frame = n
  /-- Bytes that are no frame teach nothing. -/
  idle : ∀ {dir : Direction} {σ : S} {bs : Bytes},
    (∀ frame n, (parse dir σ bs).1 ≠ .complete frame n) → (parse dir σ bs).2 = σ
  /-- More bytes are asked for than there are. -/
  ahead : ∀ {dir : Direction} {σ : S} {bs : Bytes} {m : Nat}, bs.length ≤ maxBytes →
    (parse dir σ bs).1 = .needMore (some m) → bs.length < m
  /-- Fewer bytes than are asked for do not make a frame. -/
  short : ∀ {dir : Direction} {σ : S} {bs tail : Bytes} {m : Nat},
    (parse dir σ bs).1 = .needMore (some m) → (bs ++ tail).length < m →
      ∀ frame n, (parse dir σ (bs ++ tail)).1 ≠ .complete frame n

/-- A frame takes up as many of the bytes as it says, and the search for one ends within them. -/
structure Dialect.Measured (d : Dialect) (dir : Direction) : Prop where
  whole : ∀ {σ : d.State} {bs : Bytes} {frame : d.Frame} {n : Nat},
    (d.parse dir σ bs).1 = .complete frame n → 0 < n ∧ n ≤ bs.length ∧ d.size frame = n
  within : ∀ {σ : d.State} {bs : Bytes} {p : Nat},
    d.boundary dir σ bs 1 = some p → 0 < p ∧ p < bs.length

/-- Bytes that are no frame teach nothing. -/
def Dialect.Idle (d : Dialect) (dir : Direction) : Prop :=
  ∀ (σ : d.State) (bs : Bytes), (∀ frame n, (d.parse dir σ bs).1 ≠ .complete frame n) →
    (d.parse dir σ bs).2 = σ

section
variable {F S : Type} {size : F → Nat} {read : Bytes → Parsed F}
  {parse : Direction → S → Bytes → Parsed F × S}

theorem Contract.of_frames (frames : ∀ dir σ, Frames size fun bs => (parse dir σ bs).1)
    (idle : ∀ {dir σ bs}, (∀ frame n, (parse dir σ bs).1 ≠ .complete frame n) →
      (parse dir σ bs).2 = σ) : Contract size parse where
  whole := fun {dir σ _ _ _} h => (frames dir σ).whole h
  idle := idle
  ahead := fun {dir σ _ _} fits h => (frames dir σ).ahead fits h
  short := by
    intro dir σ bs tail m h short frame n complete
    have asked := (frames dir σ).least h complete
    have there := ((frames dir σ).whole complete).2.1
    exact Nat.lt_irrefl _ (Nat.lt_of_lt_of_le short (Nat.le_trans asked there))

/-- A reader that neither uses nor changes what is remembered. -/
theorem Contract.of_reader {read : Direction → Bytes → Parsed F}
    (frames : ∀ dir, Frames size (read dir)) :
    Contract (S := S) size fun dir σ bs => (read dir bs, σ) :=
  .of_frames (fun dir _ => frames dir) fun _ => rfl

end

end Dialogue
