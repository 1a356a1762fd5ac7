import Mathlib
import Dialogue.Proofs.Reassembly.Footprint
import Dialogue.Proofs.Reassembly.Layout

/-!
A reassembly that has lost nothing between its head and its frontier.

It `Offers` one run of bytes. Consuming takes from the front of the run and moves the head on by as
much, and the capture time at the head is one that is allowed for the first byte of the run.
-/
namespace Dialogue.Reassembly

/-- One run of bytes is held in order, with no lost gap behind it. -/
structure Offers (limits : Limits) (run : Bytes) (r : Reassembly) : Prop where
  limits : r.limits = limits
  run : r.run = run
  whole : r.islands = []
  ordered : r.Ordered

variable {limits : Limits} {run : Bytes} {r : Reassembly} {n : Nat} {P : UInt8 → Nat → Nat → Prop}

theorem Offers.size (h : Offers limits run r) : r.size = run.length := by
  rw [Reassembly.size, h.whole, h.run, total_nil, Nat.add_zero]

theorem Offers.consume (h : Offers limits run r) (n : Nat) :
    Offers limits (run.drop n) (r.consume n) := by
  have ordered := h.ordered.consume n
  rcases Nat.eq_zero_or_pos n with rfl | pos
  · have same : r.consume 0 = r := by simp [Reassembly.consume]
    rwa [same, List.drop_zero]
  by_cases empty : r.size = 0
  · have none : run = [] := List.eq_nil_of_length_eq_zero (h.size ▸ empty)
    rw [consume_of_empty empty, none, List.drop_nil, ← none]
    exact h
  · rw [consume_of_filled (Nat.ne_of_gt pos) empty] at ordered ⊢
    refine ⟨h.limits, ?_, ?_, ordered⟩
    · simp [moveHead, h.whole, h.run, dropHeld]
    · simp [moveHead, h.whole, dropHeld]

/-- The head byte is one that is allowed under the time at the head. -/
theorem Offers.headTime (h : Offers limits run r) (traced : Traced P r) {b : UInt8} {rest : Bytes}
    (first : run = b :: rest) : P b r.position r.headTime := by
  have held : (b, r.position) ∈ r.held := by
    have byte : r.run[0]? = some b := by rw [h.run, first]; rfl
    simpa using mem_held_of_getElem? byte
  obtain ⟨time, ht, allowed⟩ := traced.held b _ held
  obtain ⟨head, set⟩ := Option.ne_none_iff_exists'.1 fun unset => by
    have := (h.ordered.unset unset).2.2.1
    rw [h.run, first] at this
    cases this
  rw [position_of_head set] at ht allowed ⊢
  rwa [Reassembly.headTime, set, Option.bind_some, ht, Option.getD_some]

/-! ## In-order delivery -/

/-- A fragment that starts at the frontier, behind which nothing waits, is put behind the run. -/
theorem add_at_frontier {f : Fragment} (ordered : r.Ordered) (whole : r.islands = [])
    (settled : r.pending = []) (filled : f.bytes ≠ [])
    (at_frontier : r.head ≠ none → r.frontier = f.position)
    (fits : r.size + f.bytes.length ≤ r.limits.capacity) :
    ∃ tally : Tally, r.add f = { r with
      head := some (r.head.getD f.position), frontier := f.stop, run := r.run ++ f.bytes
      islands := [], pending := [], stamps := Stamp.insert ⟨f.position, f.time⟩ r.stamps
      tally := tally } := by
  rcases r.add_cases f with ⟨none, -⟩ | ⟨-, tally, -, -, hadd⟩
  · exact absurd none filled
  refine ⟨tally, ?_⟩
  rw [hadd, Fragment.lastBytes_of_le (by omega)]
  have anchored : anchor { r with tally := tally } f.position =
      { r with head := some (r.head.getD f.position), frontier := f.position, tally := tally } := by
    cases set : r.head with
    | none => simp only [anchor, Option.getD_none]
    | some head =>
      have hfrontier := ordered.frontier_eq set whole
      rw [at_frontier (by simp [set])] at hfrontier
      simp only [anchor]
      rw [if_neg (by simp only [Bool.and_eq_true, decide_eq_true_eq]; omega), Option.getD_some,
        ← set, ← at_frontier (by simp [set])]
  rw [anchored, file, if_neg (by simp)]
  simp only [Fragment.startingAt_of_le (Nat.le_refl f.position), if_true, append, whole, flush,
    settled, flushFrom, List.getLast?_nil]
  rw [declareGaps_of_near, crossGaps_of_whole, enforceCapacity_of_le]
  · simp only [size, whole, total_nil, List.length_append] at fits ⊢
    omega
  · rfl
  · exact Nat.zero_le _

/-- One run is held, up to `next`, and under the capture times that `T` gives; nothing waits. -/
structure Holding (limits : Limits) (T : Nat → Option Nat) (next : Nat) (run : Bytes)
    (r : Reassembly) : Prop extends Offers limits run r where
  wellFormed : r.WellFormed
  settled : r.pending = []
  frontier : r.head ≠ none → r.frontier = next
  traced : Traced (fun _ p time => T p = some time) r

namespace Holding

variable {T : Nat → Option Nat} {next : Nat}

theorem fresh (limits : Limits) (T : Nat → Option Nat) (next : Nat) :
    Holding limits T next [] { limits := limits } where
  limits := rfl
  run := rfl
  whole := rfl
  ordered := (wellFormed_fresh limits).toOrdered
  wellFormed := wellFormed_fresh limits
  settled := rfl
  frontier := fun set => absurd rfl set
  traced := ⟨nofun, nofun⟩

theorem position (h : Holding limits T next run r) (filled : run ≠ []) :
    r.position + run.length = next := by
  have set : r.head ≠ none := fun unset => filled (h.run.symm.trans (h.ordered.unset unset).2.2.1)
  obtain ⟨head, hhead⟩ := Option.ne_none_iff_exists'.1 set
  rw [← h.frontier set, h.ordered.frontier_eq hhead h.whole, position_of_head hhead, h.run]

/-- The byte at the head came in at the time that the head gives for it. -/
theorem stamped (h : Holding limits T next run r) (filled : run ≠ []) :
    T r.position = some r.headTime := by
  obtain ⟨b, rest, first⟩ := List.exists_cons_of_ne_nil filled
  exact h.headTime h.traced first

theorem consume (h : Holding limits T next run r) (n : Nat) :
    Holding limits T next (run.drop n) (r.consume n) where
  toOffers := h.toOffers.consume n
  wellFormed := h.wellFormed.consume n
  settled := by rw [consume_pending, h.settled]
  frontier := by
    intro set
    rw [consume_frontier]
    refine h.frontier fun unset => set ?_
    have empty : r.size = 0 := by
      rw [h.size, ← h.run, (h.ordered.unset unset).2.2.1, List.length_nil]
    rwa [consume_of_empty empty]
  traced := h.traced.consume h.ordered n

theorem add (h : Holding limits T next run r) (bs : Bytes) (time : Nat)
    (fits : run.length + bs.length ≤ limits.capacity)
    (timed : ∀ p, next ≤ p → p < next + bs.length → T p = some time) :
    Holding limits T (next + bs.length) (run ++ bs) (r.add ⟨next, time, bs⟩) := by
  by_cases filled : bs = []
  · have same : r.add ⟨next, time, bs⟩ = r := by simp [Reassembly.add, filled]
    rwa [same, filled, List.append_nil, List.length_nil, Nat.add_zero]
  have wf := h.wellFormed.add ⟨next, time, bs⟩
  have traced : Traced (fun _ p time => T p = some time) (r.add ⟨next, time, bs⟩) := by
    refine h.wellFormed.add_induction (fun s t ordered m hs => hs.move ordered ?_ m) h.traced
    intro b p hp
    obtain ⟨from_le, lt⟩ := Fragment.bounds_of_mem_placed (Fragment.mem_placed_of_lastBytes hp)
    rw [Fragment.time_lastBytes]
    exact timed p from_le lt
  have room : r.size + bs.length ≤ r.limits.capacity := by rwa [h.size, h.limits]
  obtain ⟨tally, hadd⟩ := add_at_frontier (f := ⟨next, time, bs⟩) h.ordered h.whole h.settled filled
    h.frontier room
  rw [hadd] at wf traced ⊢
  exact ⟨⟨h.limits, congrArg (· ++ bs) h.run, rfl, wf.toOrdered⟩, wf, rfl, fun _ => rfl, traced⟩

end Holding

end Dialogue.Reassembly
