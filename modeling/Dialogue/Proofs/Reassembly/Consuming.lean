import Mathlib
import Dialogue.Proofs.Reassembly.Arithmetic

/-!
Consuming in parts.

Bytes may be consumed all at once or in parts, and where a part ends does not matter: before a lost
gap, right at it or behind it. For what is held this is `dropHeld_dropHeld`. The stamps are pruned
at every part, which forgets no stamp that a later part would keep (`Stamp.prune_prune`), because
the head only moves on.
-/
namespace Dialogue

/-- Forgetting what lies before a head forgets what lies before an earlier one. -/
theorem Stamp.prune_prune {p q : Nat} (le : p ≤ q) (stamps : List Stamp) :
    prune q (prune p stamps) = prune q stamps := by
  fun_induction prune p stamps with
  | case1 s t rest before ih =>
    rw [ih, eq_comm]
    exact if_pos (Nat.le_trans before le)
  | case2 => rfl
  | case3 => rfl

namespace Reassembly

variable {r : Reassembly}

theorem dropHeld_dropHeld (a b position : Nat) (run : Bytes) (islands : List Island) :
    dropHeld b (dropHeld a position run islands).1 (dropHeld a position run islands).2.1
        (dropHeld a position run islands).2.2 =
      dropHeld (a + b) position run islands := by
  induction islands generalizing a position run with
  | nil =>
    simp only [dropHeld, atLeast_iff, List.drop_drop, List.length_drop, Prod.mk.injEq, and_true]
    split_ifs <;> omega
  | cons i rest ih =>
    by_cases left : a + 1 ≤ run.length
    · -- The first part ends within the run, and the second one starts there.
      rw [dropHeld, if_pos (atLeast_iff.2 left)]
      simp only [dropHeld, atLeast_iff, List.drop_drop, List.length_drop]
      by_cases within : a + b + 1 ≤ run.length
      · rw [if_pos within, if_pos (by omega), Nat.add_assoc]
      · rw [if_neg within, if_neg (by omega)]
        congr 1
        omega
    · -- The first part crosses the gap.
      have beyond : ¬ a + b + 1 ≤ run.length := by omega
      have rest_eq : a + b - run.length = a - run.length + b := by omega
      rw [dropHeld, if_neg (by rwa [atLeast_iff]), ih, dropHeld, if_neg (by rwa [atLeast_iff]),
        rest_eq]

theorem consume_zero (r : Reassembly) : r.consume 0 = r := by simp [consume]

/-- To consume more than is held is to consume all of it. -/
theorem consume_of_size_le {m n : Nat} (hm : r.size ≤ m) (hn : r.size ≤ n) :
    r.consume m = r.consume n := by
  by_cases empty : r.size = 0
  · rw [consume_of_empty empty, consume_of_empty empty]
  · have all {k : Nat} (hk : r.size ≤ k) :
        dropHeld k r.position r.run r.islands = dropHeld r.size r.position r.run r.islands := by
      rw [← dropHeld_min]
      exact congrArg (dropHeld · _ _ _) (Nat.min_eq_right hk)
    rw [consume_of_filled (by omega) empty, consume_of_filled (by omega) empty, all hm, all hn]

theorem consume_consume (inOrder : r.InOrder) (a b : Nat) :
    (r.consume a).consume b = r.consume (a + b) := by
  rcases Nat.eq_zero_or_pos a with rfl | apos
  · rw [Nat.zero_add, consume_zero]
  rcases Nat.eq_zero_or_pos b with rfl | bpos
  · rw [Nat.add_zero, consume_zero]
  by_cases filled : r.size - a = 0
  · rw [consume_of_empty (by rwa [size_consume])]
    exact consume_of_size_le (by omega) (by omega)
  · have moved := consume_of_filled (n := a) (r := r) (by omega) (by omega)
    have chained : Chained r.frontier _ _ _ := inOrder.dropHeld (n := a)
    have on := chained.le_dropHeld (n := b)
    rw [dropHeld_dropHeld] at on
    rw [consume_of_filled (r := r.consume a) (by omega) (by rwa [size_consume]),
      consume_of_filled (r := r) (n := a + b) (by omega) (by omega), moved]
    simp only [moveHead, position, Option.getD_some] at on ⊢
    rw [dropHeld_dropHeld, Stamp.prune_prune (by omega)]

/-- **Consuming is additive.** After any calls, to consume `a` bytes and then `b` is to consume `a +
b` at once: the same bytes are left at the same positions, with the same gaps ahead, stamps and
counters, wherever the parts end, be it before, at or behind lost gaps. As long as positions fit
into their word, so it is for the layout in memory, where no arithmetic fails on either way. -/
theorem consume_additive (limits : Limits) (calls : List Call) (a b : Nat) :
    let r := replay limits calls
    (r.consume a).consume b = r.consume (a + b) ∧
      ((∀ f, .add f ∈ calls → f.stop ≤ maxPosition) →
        Window.replay? limits calls = some r.window ∧
          (r.window.consume? a).bind (·.consume? b) = some (r.consume (a + b)).window ∧
          r.window.consume? (a + b) = some (r.consume (a + b)).window) := by
  intro r
  have ordered : r.Ordered := (wellFormed_replay limits calls).toOrdered
  refine ⟨consume_consume ordered.inOrder a b, fun small => ?_⟩
  have fits : r.Small := small_replay small
  refine ⟨replay?_eq small, ?_, consume?_window ordered fits (a + b)⟩
  rw [consume?_window ordered fits a, Option.bind_some,
    consume?_window (ordered.consume a) (fits.consume a) b, consume_consume ordered.inOrder]

/-- Two gaps are declared lost, the first behind three bytes and the second two bytes further on. -/
def gapped : List Call := [.add ⟨0, 1, [1, 2, 3]⟩, .add ⟨10, 2, [11, 12]⟩, .add ⟨20, 3, [21, 22]⟩]

/-- The first part ends right at one gap and the second behind the other. -/
theorem consume_additive_gapped :
    let r := replay { maxGap := 4 } gapped
    r.gaps = [⟨3, 10⟩, ⟨12, 20⟩] ∧ (∀ f, .add f ∈ gapped → f.stop ≤ maxPosition) ∧
      (r.consume 3).position = 10 ∧ (r.consume 6).position = 21 ∧
      (r.consume 3).consume 3 = r.consume 6 ∧
      Window.replay? { maxGap := 4 } gapped = some r.window ∧
      (r.window.consume? 3).bind (·.consume? 3) = some (r.consume 6).window := by
  intro r
  have small : ∀ f, .add f ∈ gapped → f.stop ≤ maxPosition := by
    simp [gapped, Fragment.stop, maxPosition]
  obtain ⟨additive, layout⟩ := consume_additive { maxGap := 4 } gapped 3 3
  exact ⟨by decide +kernel, small, by decide +kernel, by decide +kernel, additive,
    (layout small).1, (layout small).2.1⟩

end Reassembly

end Dialogue
