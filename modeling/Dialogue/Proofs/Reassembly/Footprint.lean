import Mathlib
import Dialogue.Proofs.Reassembly.Provenance

/-!
How much a reassembly holds.

In order each position is held at most once, and no more bytes than the capacity allows. The waiting
fragments lie in the allowed gap behind the frontier and start at different positions, but two of
them may overlap, and then a position is held twice. Counting each position once, what is held fits
into the capacity and the allowed gap (`card_positions_le`); counting bytes, what waits is bounded
by one fragment for each position of the gap, as long as the capacity and the rest of the gap allow
(`memory_le`), and a run of calls reaches this bound (`memory_flood`).
-/
namespace Dialogue

namespace Fragment

/-- Two fragments have a position in common. -/
def Overlaps (f g : Fragment) : Prop := ∃ p, f.Covers p ∧ g.Covers p

/-- The positions of a fragment's bytes. -/
def positions (f : Fragment) : List Nat := f.placed.map (·.2)

theorem mem_positions {f : Fragment} {p : Nat} : p ∈ f.positions ↔ f.Covers p := by
  rw [covers_iff_exists_mem_placed]
  simp [positions]

theorem mem_flatMap_positions {fs : List Fragment} {p : Nat} :
    p ∈ fs.flatMap positions ↔ Covered fs p := by
  simp only [List.mem_flatMap, mem_positions]
  rfl

theorem length_flatMap_positions (fs : List Fragment) :
    (fs.flatMap positions).length = total (·.bytes.length) fs := by
  induction fs with
  | nil => rfl
  | cons f rest ih =>
    rw [List.flatMap_cons, List.length_append, ih, total_cons, positions, List.length_map, placed,
      List.length_zipIdx]

end Fragment

namespace Reassembly

variable {limits : Limits} {r r' : Reassembly} {g : Fragment}

/-- The positions of all bytes held, in order and waiting. -/
def positions (r : Reassembly) : List Nat :=
  r.held.map (·.2) ++ r.pending.flatMap Fragment.positions

theorem length_positions (r : Reassembly) : r.positions.length = r.memory := by
  rw [positions, List.length_append, List.length_map, length_held,
    Fragment.length_flatMap_positions]
  rfl

/-! ## Positions held twice -/

theorem WellFormed.covered_pending (h : r.WellFormed) {f : Fragment} {p : Nat} (hf : f ∈ r.pending)
    (hp : f.Covers p) : r.frontier < p ∧ p < r.frontier + r.limits.maxGap := by
  have := h.ahead f hf
  have := h.reach f hf
  have := hp.1
  have := hp.2
  omega

/-- A position is held twice just where waiting fragments overlap. -/
theorem WellFormed.nodup_positions (h : r.WellFormed) :
    r.positions.Nodup ↔ r.pending.Pairwise fun f g => ¬ f.Overlaps g := by
  have inOrder : (r.held.map (·.2)).Nodup :=
    List.pairwise_map.2 (h.inOrder.pairwise.imp Nat.ne_of_lt)
  have each : ∀ f : Fragment, f.positions.Nodup := fun f =>
    List.pairwise_map.2 ((pairwise_zipIdx f.bytes f.position).imp Nat.ne_of_lt)
  have apart : ∀ p ∈ r.held.map (·.2), p ∉ r.pending.flatMap Fragment.positions := by
    intro p hp hq
    obtain ⟨⟨b, _⟩, hb, rfl⟩ := List.mem_map.1 hp
    obtain ⟨f, hf, hc⟩ := Fragment.mem_flatMap_positions.1 hq
    have := (h.inOrder.bounds hb).2
    have := (h.covered_pending hf hc).1
    simp only at this
    omega
  have disjoint : ∀ f g : Fragment,
      List.Disjoint f.positions g.positions ↔ ¬ f.Overlaps g := by
    intro f g
    simp only [List.Disjoint, Fragment.mem_positions, Fragment.Overlaps, not_exists, not_and]
  rw [positions, List.nodup_append', List.nodup_flatMap]
  constructor
  · rintro ⟨-, ⟨-, pairwise⟩, -⟩
    exact pairwise.imp (disjoint _ _).1
  · intro pairwise
    exact ⟨inOrder, ⟨fun f _ => each f, pairwise.imp (disjoint _ _).2⟩,
      fun p hp hq => apart p hp hq⟩

/-- Each position counted once, the bytes held fit into the capacity and the allowed gap. -/
theorem WellFormed.card_positions_le (h : r.WellFormed) :
    r.positions.toFinset.card ≤ r.limits.capacity + (r.limits.maxGap - 1) := by
  have waiting : (r.pending.flatMap Fragment.positions).toFinset ⊆
      Finset.Ioo r.frontier (r.frontier + r.limits.maxGap) := by
    intro p hp
    obtain ⟨f, hf, hc⟩ := Fragment.mem_flatMap_positions.1 (List.mem_toFinset.1 hp)
    exact Finset.mem_Ioo.2 (h.covered_pending hf hc)
  calc r.positions.toFinset.card
      ≤ (r.held.map (·.2)).toFinset.card +
          (r.pending.flatMap Fragment.positions).toFinset.card := by
        rw [positions, List.toFinset_append]
        exact Finset.card_union_le _ _
    _ ≤ r.size + (Finset.Ioo r.frontier (r.frontier + r.limits.maxGap)).card := by
        refine Nat.add_le_add ?_ (Finset.card_le_card waiting)
        refine (List.toFinset_card_le _).trans (Nat.le_of_eq ?_)
        rw [List.length_map, length_held]
    _ ≤ r.limits.capacity + (r.limits.maxGap - 1) := by
        rw [Nat.card_Ioo]
        have := h.size_le
        omega

theorem WellFormed.memory_le_of_nodup (h : r.WellFormed) (nodup : r.positions.Nodup) :
    r.memory ≤ r.limits.capacity + (r.limits.maxGap - 1) := by
  rw [← length_positions, ← List.toFinset_card_of_nodup nodup]
  exact h.card_positions_le

/-! ## Fragments no longer than the capacity -/

/-- No waiting fragment is longer than the capacity. -/
def Short (r : Reassembly) : Prop := ∀ f ∈ r.pending, f.bytes.length ≤ r.limits.capacity

theorem Short.move (h : r.Short) (hg : g.bytes.length ≤ r.limits.capacity) (m : Move g r r') :
    r'.Short := by
  have rest : ∀ f fs, r.pending = f :: fs → ∀ k ∈ fs, k.bytes.length ≤ r.limits.capacity :=
    fun f fs first k hk => h k (first ▸ List.mem_cons_of_mem f hk)
  cases m with
  | count _ _ _ | place _ | append _ _ _ | declare _ _ _ => exact h
  | back wf set _ _ whole =>
    intro f hf
    rcases List.mem_append.1 hf with hf | hf
    · have hstop := wf.frontier_eq set whole
      obtain ⟨h1, -, h3, -⟩ := bounds_of_mem_pieces hstop wf.stamps wf.stamped hf
      have hsize := wf.size_le
      simp only [Fragment.stop] at h3
      simp only [size, whole, total_nil] at hsize
      show f.bytes.length ≤ r.limits.capacity
      omega
    · exact h f hf
  | hold _ _ =>
    intro f hf
    rcases mem_enter hf with rfl | hf
    · exact hg
    · exact h f hf
  | flush first _ _ => exact rest _ _ first
  | skip first _ => exact rest _ _ first
  | cross => simpa [Short] using h
  | drop _ => simpa [Short] using h

theorem short_replay (limits : Limits) (calls : List Call) : (replay limits calls).Short := by
  induction calls using List.reverseRecOn with
  | nil => exact nofun
  | append_singleton calls call ih =>
    rw [replay_concat]
    cases call with
    | add f =>
      have wf := wellFormed_replay limits calls
      have kept := wf.add_induction (f := f)
        (motive := fun s => s.Short ∧ s.limits = (replay limits calls).limits)
        (fun s t _ m hs => ⟨hs.1.move (hs.2 ▸ f.length_lastBytes_le _) m, m.limits.trans hs.2⟩)
        ⟨ih, rfl⟩
      exact kept.1
    | consume n => simpa [apply, Short] using ih

/-- Fragments that start at different positions, all less than `n` before `stop`, and end there. -/
theorem total_length_le {fs : List Fragment} {stop c n : Nat} (sorted : Fragment.Ascending fs)
    (short : ∀ f ∈ fs, f.bytes.length ≤ c) (ends : ∀ f ∈ fs, f.stop ≤ stop)
    (starts : ∀ f ∈ fs, stop < f.position + n) :
    total (·.bytes.length) fs ≤ ∑ k ∈ Finset.range n, min c k := by
  induction fs generalizing n with
  | nil => exact Nat.zero_le _
  | cons f rest ih =>
    obtain ⟨first, later⟩ := List.pairwise_cons.1 sorted
    obtain ⟨short_f, short⟩ := List.forall_mem_cons.1 short
    obtain ⟨ends_f, ends⟩ := List.forall_mem_cons.1 ends
    have starts_f := starts f List.mem_cons_self
    simp only [Fragment.stop] at ends_f
    -- The others start behind the first one, and so closer to `stop` than that one.
    have behind : total (·.bytes.length) rest ≤
        ∑ k ∈ Finset.range (stop - f.position), min c k := by
      refine ih later short ends fun g hg => ?_
      have := first g hg
      omega
    calc total (·.bytes.length) (f :: rest)
        ≤ min c (stop - f.position) + ∑ k ∈ Finset.range (stop - f.position), min c k := by
          rw [total_cons]
          omega
      _ = ∑ k ∈ Finset.range (stop - f.position + 1), min c k := by
          rw [Finset.sum_range_succ, Nat.add_comm]
      _ ≤ ∑ k ∈ Finset.range n, min c k :=
          Finset.sum_le_sum_of_subset (Finset.range_mono (by omega))

/-- The most that can be held: the capacity, and a fragment for each position of the allowed gap. -/
def worst (limits : Limits) : Nat :=
  limits.capacity + ∑ k ∈ Finset.range limits.maxGap, min limits.capacity k

theorem memory_le (limits : Limits) (calls : List Call) :
    (replay limits calls).memory ≤ worst limits := by
  have h := wellFormed_replay limits calls
  have short := short_replay limits calls
  have reach := h.reach
  have size_le := h.size_le
  simp only [Short, replay_limits] at short reach size_le
  refine Nat.add_le_add size_le (total_length_le h.pending short reach fun f hf => ?_)
  have := h.ahead f hf
  omega

/-! ## A run that holds as much as it can -/

theorem declareGaps_of_near (near : furthest r.pending ≤ r.frontier + r.limits.maxGap) :
    r.declareGaps = r := by
  fun_cases declareGaps r with
  | case1 => rfl
  | case2 => rfl
  | case3 => omega

theorem enforceCapacity_of_le (le : r.size ≤ r.limits.capacity) : r.enforceCapacity = r := by
  rcases r.enforceCapacity_cases with ⟨hr, -⟩ | ⟨full, -⟩
  · exact hr
  · omega

/-- A fragment that starts ahead of the frontier and ends within the allowed gap only waits. -/
theorem WellFormed.add_ahead (h : r.WellFormed) {f : Fragment} {head : Nat}
    (set : r.head = some head) (whole : r.islands = []) (filled : f.bytes ≠ [])
    (short : f.bytes.length ≤ r.limits.capacity) (ahead : r.frontier < f.position)
    (near : f.stop ≤ r.frontier + r.limits.maxGap) :
    ∃ tally, r.add f = { r with pending := (enter f r.pending).2, tally := tally } := by
  have hfrontier := h.frontier_eq set whole
  rcases r.add_cases f with ⟨hn, -⟩ | ⟨-, tally, -, -, hr⟩
  · exact absurd hn filled
  rw [Fragment.lastBytes_of_le short] at hr
  have anchored : anchor { r with tally := tally } f.position = { r with tally := tally } := by
    simp only [anchor, set]
    rw [if_neg]
    simp only [Bool.and_eq_true, decide_eq_true_eq]
    omega
  obtain ⟨tally', -, -, hold⟩ := hold_eq { r with tally := tally } f
  rw [anchored, file, if_neg (by simp only [Bool.and_eq_true, decide_eq_true_eq]; omega)] at hr
  simp only [Fragment.startingAt_of_le (Nat.le_of_lt ahead), if_neg (Nat.ne_of_gt ahead),
    hold] at hr
  rw [declareGaps_of_near, crossGaps_of_whole, enforceCapacity_of_le] at hr
  · exact ⟨tally', hr⟩
  · exact h.size_le
  · exact whole
  · refine furthest_le.2 fun k hk => ?_
    rcases mem_enter hk with rfl | hk
    · exact near
    · exact h.reach k hk

theorem add_fresh {f : Fragment} (filled : f.bytes ≠ [])
    (short : f.bytes.length ≤ limits.capacity) :
    ∃ stamps tally, add { limits := limits } f =
      { limits := limits, head := f.position, frontier := f.stop, run := f.bytes, stamps := stamps,
        tally := tally } := by
  rcases add_cases { limits := limits } f with ⟨hn, -⟩ | ⟨-, tally, -, -, hr⟩
  · exact absurd hn filled
  refine ⟨[⟨f.position, f.time⟩], tally, ?_⟩
  rw [hr, Fragment.lastBytes_of_le short]
  simp only [anchor, file, Fragment.startingAt_of_le (Nat.le_refl f.position), Nat.lt_irrefl,
    decide_false, Bool.false_and, Bool.false_eq_true, if_false, if_true]
  rw [declareGaps_of_near, crossGaps_of_whole, enforceCapacity_of_le]
  · rfl
  · simpa [size, flush, flushFrom, append] using short
  · rfl
  · exact Nat.zero_le _

/-- The fragment that starts `k` positions before the end of the allowed gap behind a full head, as
long as the capacity and the gap permit. -/
def late (limits : Limits) (k : Nat) : Fragment :=
  ⟨limits.capacity + limits.maxGap - k, 0, List.replicate (min limits.capacity k) 0⟩

theorem position_late (limits : Limits) (k : Nat) :
    (late limits k).position = limits.capacity + limits.maxGap - k := rfl

theorem length_late (limits : Limits) (k : Nat) :
    (late limits k).bytes.length = min limits.capacity k :=
  List.length_replicate

/-- A full head, and then `n` fragments that wait, each starting a position before the last one. -/
def flood (limits : Limits) (n : Nat) : List Call :=
  .add ⟨0, 0, List.replicate limits.capacity 0⟩ ::
    (List.range n).map fun k => .add (late limits (k + 1))

theorem flood_succ (limits : Limits) (n : Nat) :
    flood limits (n + 1) = flood limits n ++ [.add (late limits (n + 1))] := by
  simp [flood, List.range_succ]

/-- What the first `n` late fragments leave behind. -/
structure Flooded (limits : Limits) (n : Nat) (r : Reassembly) : Prop where
  head : r.head = some 0
  whole : r.islands = []
  frontier : r.frontier = limits.capacity
  run : r.run.length = limits.capacity
  starts : ∀ f ∈ r.pending, limits.capacity + limits.maxGap ≤ f.position + n
  waiting : r.pendingSize = ∑ k ∈ Finset.range (n + 1), min limits.capacity k

theorem enter_of_lt {f : Fragment} {fs : List Fragment} (lt : ∀ k ∈ fs, f.position < k.position) :
    enter f fs = (true, f :: fs) := by
  cases fs with
  | nil => rfl
  | cons k rest => rw [enter, if_pos (lt k List.mem_cons_self)]

theorem flooded_flood (room : 0 < limits.capacity) {n : Nat} (le : n ≤ limits.maxGap - 1) :
    Flooded limits n (replay limits (flood limits n)) := by
  induction n with
  | zero =>
    obtain ⟨stamps, tally, hr⟩ := @add_fresh limits ⟨0, 0, List.replicate limits.capacity 0⟩
      (by simp; omega) (by simp)
    have first : replay limits (flood limits 0) = _ := hr
    rw [first]
    exact ⟨rfl, rfl, by simp [Fragment.stop], by simp, nofun, by simp [pendingSize]⟩
  | succ n ih =>
    obtain ⟨head, whole, frontier, run, starts, waiting⟩ := ih (by omega)
    rw [flood_succ, replay_concat, apply]
    have wf := wellFormed_replay limits (flood limits n)
    have same := replay_limits limits (flood limits n)
    generalize replay limits (flood limits n) = r at *
    have filled : (late limits (n + 1)).bytes ≠ [] := by
      refine List.ne_nil_of_length_pos ?_
      rw [length_late]
      omega
    have short : (late limits (n + 1)).bytes.length ≤ r.limits.capacity := by
      rw [length_late, same]
      exact Nat.min_le_left ..
    have ahead : r.frontier < (late limits (n + 1)).position := by
      rw [position_late]
      omega
    have near : (late limits (n + 1)).stop ≤ r.frontier + r.limits.maxGap := by
      rw [Fragment.stop, length_late, position_late, same]
      omega
    obtain ⟨tally, hr⟩ := wf.add_ahead head whole filled short ahead near
    -- The next fragment starts before all that wait, and so is entered in front of them.
    have entered : enter (late limits (n + 1)) r.pending =
        (true, late limits (n + 1) :: r.pending) := by
      refine enter_of_lt fun k hk => ?_
      have := starts k hk
      rw [position_late]
      omega
    rw [hr, entered]
    refine ⟨head, whole, frontier, run, ?_, ?_⟩
    · intro f hf
      rcases List.mem_cons.1 hf with rfl | hf
      · rw [position_late]
        omega
      · have := starts f hf
        omega
    · rw [pendingSize, total_cons, length_late, Finset.sum_range_succ, ← waiting, pendingSize,
        Nat.add_comm]

/-- The bound is reached. -/
theorem memory_flood (limits : Limits) :
    (replay limits (flood limits (limits.maxGap - 1))).memory = worst limits := by
  by_cases room : 0 < limits.capacity
  · have h := flooded_flood room (Nat.le_refl _)
    rw [memory, size, h.whole, total_nil, h.run, h.waiting, worst]
    cases limits.maxGap with
    | zero => simp
    | succ n => rfl
  · have none : limits.capacity = 0 := by omega
    have zero : worst limits = 0 := by simp [worst, none]
    rw [zero]
    exact Nat.le_zero.1 (zero ▸ memory_le limits _)

/-! ## Which limits keep positions from being held twice -/

theorem sum_min_le (c n : Nat) : c ≤ 1 ∨ n ≤ 3 → ∑ k ∈ Finset.range n, min c k ≤ n := by
  rintro (one | small)
  · calc ∑ k ∈ Finset.range n, min c k
        ≤ ∑ _k ∈ Finset.range n, 1 := Finset.sum_le_sum fun k _ => by omega
      _ = n := by simp
  · interval_cases n
    · simp
    · simp
    · simp [Finset.sum_range_succ]
    · simp only [Finset.sum_range_succ, Finset.sum_range_zero]
      omega

theorem le_sum_min {c n : Nat} (two : 2 ≤ c) (three : 3 ≤ n) :
    2 * n ≤ ∑ k ∈ Finset.range n, min c k + 3 := by
  induction n, three using Nat.le_induction with
  | base =>
    simp only [Finset.sum_range_succ, Finset.sum_range_zero]
    omega
  | succ n three ih =>
    rw [Finset.sum_range_succ]
    omega

theorem nodup_of_small (h : r.WellFormed) (short : r.Short)
    (small : r.limits.capacity ≤ 1 ∨ r.limits.maxGap ≤ 2) : r.positions.Nodup := by
  -- Fragments so short, or in so small a gap, cover the position where they start and no other.
  have single : ∀ f ∈ r.pending, ∀ p, f.Covers p → p = f.position := by
    intro f hf p ⟨h1, h2⟩
    have := short f hf
    have := h.ahead f hf
    have := h.reach f hf
    simp only [Fragment.stop] at *
    omega
  refine h.nodup_positions.2 (h.pending.imp_of_mem ?_)
  rintro f g hf hg lt ⟨p, hfp, hgp⟩
  have := single f hf p hfp
  have := single g hg p hgp
  omega

/-- No position is ever held twice just if the capacity is at most one byte or the allowed gap at
most two. -/
theorem nodup_iff_small (limits : Limits) :
    (∀ calls, (replay limits calls).positions.Nodup) ↔
      limits.capacity ≤ 1 ∨ limits.maxGap ≤ 2 := by
  constructor
  · intro all
    by_contra large
    have distinct := (wellFormed_replay limits _).memory_le_of_nodup
      (all (flood limits (limits.maxGap - 1)))
    rw [memory_flood, worst, replay_limits] at distinct
    have := @le_sum_min limits.capacity limits.maxGap (by omega) (by omega)
    omega
  · intro small calls
    refine nodup_of_small (wellFormed_replay limits calls) (short_replay limits calls) ?_
    rwa [replay_limits]

/-- The bytes held always fit into the capacity and the allowed gap just if the capacity is at most
one byte or the allowed gap at most three. -/
theorem memory_le_iff_small (limits : Limits) :
    (∀ calls, (replay limits calls).memory ≤ limits.capacity + limits.maxGap) ↔
      limits.capacity ≤ 1 ∨ limits.maxGap ≤ 3 := by
  constructor
  · intro all
    by_contra large
    have fits := all (flood limits (limits.maxGap - 1))
    rw [memory_flood, worst] at fits
    have := @le_sum_min limits.capacity limits.maxGap (by omega) (by omega)
    omega
  · intro small calls
    calc (replay limits calls).memory
        ≤ worst limits := memory_le limits calls
      _ ≤ limits.capacity + limits.maxGap := Nat.add_le_add_left (sum_min_le _ _ small) _

/-- **How much a reassembly can hold.** After any calls the positions held fit into the capacity and
the allowed gap, but a position is held twice as soon as two waiting fragments overlap, and so the
bytes need not fit. They always do, just if the capacity is at most one byte or the allowed gap at
most three; otherwise the most that can be held is `worst`. -/
theorem footprint (limits : Limits) :
    (∀ calls, (replay limits calls).positions.toFinset.card ≤ limits.capacity + limits.maxGap ∧
      ((replay limits calls).positions.Nodup ↔
        (replay limits calls).pending.Pairwise fun f g => ¬ f.Overlaps g) ∧
      ((replay limits calls).positions.Nodup →
        (replay limits calls).memory ≤ limits.capacity + limits.maxGap)) ∧
    ((∀ calls, (replay limits calls).positions.Nodup) ↔ limits.capacity ≤ 1 ∨ limits.maxGap ≤ 2) ∧
    ((∀ calls, (replay limits calls).memory ≤ limits.capacity + limits.maxGap) ↔
      limits.capacity ≤ 1 ∨ limits.maxGap ≤ 3) ∧
    (∀ calls, (replay limits calls).memory ≤ worst limits) ∧
    ∃ calls, (replay limits calls).memory = worst limits := by
  refine ⟨fun calls => ?_, nodup_iff_small limits, memory_le_iff_small limits, memory_le limits,
    _, memory_flood limits⟩
  have wf := wellFormed_replay limits calls
  have distinct := wf.card_positions_le
  have fits := wf.memory_le_of_nodup
  rw [replay_limits] at distinct fits
  refine ⟨by omega, wf.nodup_positions, fun nodup => ?_⟩
  have := fits nodup
  omega

/-- Three fragments that overlap while they wait. -/
def overlapping : List Call :=
  [.add ⟨0, 10, [1, 2]⟩, .add ⟨5, 20, [6]⟩, .add ⟨4, 30, [5, 6]⟩, .add ⟨3, 40, [4, 5]⟩]

theorem overlapping_held_twice :
    (replay ⟨2, 4, 0⟩ overlapping).memory = 7 ∧
      ¬ (replay ⟨2, 4, 0⟩ overlapping).memory ≤ 2 + 4 ∧
      ¬ (replay ⟨2, 4, 0⟩ overlapping).positions.Nodup := by
  decide +kernel

end Reassembly

end Dialogue
