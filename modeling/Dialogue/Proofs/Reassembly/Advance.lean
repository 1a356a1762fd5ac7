import Mathlib
import Dialogue.Proofs.Reassembly.Moves

/-!
The head only moves on.

Before bytes have left it, the head can move back to an earlier fragment. Once they have, no call
moves it back (`Past.apply`); consuming brings it behind the bytes consumed (`past_consume`).
-/
namespace Dialogue.Reassembly

/-- Bytes have left the head, which stands at `p` or behind it. -/
structure Past (p : Nat) (r : Reassembly) : Prop where
  advanced : r.advanced = true
  le : p ≤ r.position

variable {p : Nat} {r r' : Reassembly} {g : Fragment}

theorem Past.consume (h : Past p r) (ordered : r.Ordered) (n : Nat) : Past p (r.consume n) := by
  rcases r.consume_cases n with ⟨hr, -⟩ | ⟨-, hr⟩
  · rwa [hr]
  · have on : r.position + min n r.run.length ≤ _ := ordered.inOrder.le_dropHeld
    have := h.le
    rw [hr]
    refine ⟨rfl, ?_⟩
    show p ≤ (dropHeld n r.position r.run r.islands).1
    omega

theorem Past.crossGaps (h : Past p r) (ordered : r.Ordered) : Past p r.crossGaps := by
  rcases r.crossGaps_cases with ⟨hr, -⟩ | ⟨-, hr⟩
  · rwa [hr]
  · rw [hr]
    exact ⟨rfl, Nat.le_trans h.le ordered.inOrder.le_firstRun⟩

theorem Past.move (h : Past p r) (ordered : r.Ordered) (m : Move g r r') : Past p r' := by
  cases m with
  | count _ _ _ | append _ _ _ | hold _ _ | flush _ _ _ | skip _ _ | declare _ _ _ =>
    exact ⟨h.advanced, h.le⟩
  | place unset =>
    have := (ordered.unset unset).1
    simp [h.advanced] at this
  | back _ _ _ unmoved _ => simp [h.advanced] at unmoved
  | cross => exact h.crossGaps ordered
  | drop _ => exact h.consume ordered _

theorem Past.apply (h : Past p r) (wf : r.WellFormed) (call : Call) : Past p (r.apply call) := by
  cases call with
  | add f => exact wf.add_induction (fun _ _ ordered m hs => hs.move ordered m) h
  | consume n => exact h.consume wf.toOrdered n

/-- Bytes consumed from the head are behind it. -/
theorem past_consume (ordered : r.Ordered) {n : Nat} (pos : 0 < n) (le : n ≤ r.run.length) :
    Past (r.position + n) (r.consume n) := by
  rcases r.consume_cases n with ⟨-, zero | none⟩ | ⟨-, hr⟩
  · omega
  · have := congrArg List.length none
    rw [length_held, size, List.length_nil] at this
    omega
  · have on : r.position + min n r.run.length ≤ _ := ordered.inOrder.le_dropHeld
    rw [hr]
    refine ⟨rfl, ?_⟩
    show r.position + n ≤ (dropHeld n r.position r.run r.islands).1
    omega

end Dialogue.Reassembly
