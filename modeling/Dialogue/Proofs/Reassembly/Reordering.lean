import Mathlib
import Dialogue.Proofs.Reassembly.Provenance

/-!
Fragments that come in any order.

As long as all fragments fit into a window no wider than the capacity and the allowed gap, nothing
is dropped and no gap is declared: a reassembly stays `Intact` and keeps every position that a
fragment has covered (`Keeps`), before the frontier or waiting. What it offers then depends only on
the positions covered (`Assembled`), not on how they were cut into fragments or in which order these
came (`Assembled.unique`).
-/
namespace Dialogue.Reassembly

/-- The state after taking in some fragments, the first one on a fresh reassembly. -/
def gather (limits : Limits) (fs : List Fragment) : Reassembly := fs.foldl add { limits := limits }

theorem gather_eq_replay (limits : Limits) (fs : List Fragment) :
    gather limits fs = replay limits (fs.map .add) := by
  rw [replay, List.foldl_map]
  rfl

theorem wellFormed_gather (limits : Limits) (fs : List Fragment) :
    (gather limits fs).WellFormed := by
  rw [gather_eq_replay]
  exact wellFormed_replay limits _

@[simp] theorem gather_limits (limits : Limits) (fs : List Fragment) :
    (gather limits fs).limits = limits := by
  rw [gather_eq_replay, replay_limits]

/-- The fragments end before `stop`, which is not too far behind the start of any of them. -/
structure Fits (limits : Limits) (fs : List Fragment) (stop : Nat) : Prop where
  stop_le : ∀ f ∈ fs, f.stop ≤ stop
  capacity : ∀ f ∈ fs, stop ≤ f.position + limits.capacity
  maxGap : ∀ f ∈ fs, stop ≤ f.position + limits.maxGap

/-- Nothing has left the head, nothing is lost, and all that is held lies in the window. -/
structure Intact (fs : List Fragment) (stop : Nat) (r : Reassembly) : Prop where
  unmoved : r.advanced = false
  whole : r.islands = []
  gaps : r.gaps = []
  noGaps : r.tally.gaps = 0
  noGapBytes : r.tally.gapBytes = 0
  first : ∀ head, r.head = some head → ∃ f ∈ fs, f.position = head
  frontier_le : r.frontier ≤ stop
  pending_le : ∀ k ∈ r.pending, k.stop ≤ stop

/-- Every position covered is behind the head, and either before the frontier or waited for. -/
def Keeps (fs : List Fragment) (r : Reassembly) : Prop :=
  ∀ p, Fragment.Covered fs p →
    r.position ≤ p ∧ (p < r.frontier ∨ Fragment.Covered r.pending p)

variable {fs : List Fragment} {stop : Nat} {g : Fragment} {r r' : Reassembly}

/-! ## Nothing is dropped or declared lost -/

/-- Where the head has its place, it stands at the start of a fragment. -/
theorem Intact.head (h : Intact fs stop r) (ordered : r.Ordered) (set : r.head ≠ none) :
    ∃ f ∈ fs, f.position = r.position ∧ r.frontier = f.position + r.run.length := by
  obtain ⟨head, hhead⟩ := Option.ne_none_iff_exists'.1 set
  obtain ⟨f, hf, hp⟩ := h.first head hhead
  refine ⟨f, hf, hp.trans (position_of_head hhead).symm, ?_⟩
  rw [hp]
  exact ordered.frontier_eq hhead h.whole

theorem Intact.not_full (h : Intact fs stop r) (ordered : r.Ordered)
    (fits : Fits r.limits fs stop) : ¬ r.limits.capacity < r.size := by
  have hsize : r.size = r.run.length := by simp [size, h.whole]
  by_cases set : r.head = none
  · simp [hsize, (ordered.unset set).2.2.1]
  · obtain ⟨f, hf, -, hr⟩ := h.head ordered set
    have := fits.capacity f hf
    have := h.frontier_le
    omega

theorem Intact.not_far (h : Intact fs stop r) (ordered : r.Ordered) (fits : Fits r.limits fs stop)
    (set : r.head ≠ none) : ¬ r.limits.maxGap < furthest r.pending - r.frontier := by
  obtain ⟨f, hf, -, hr⟩ := h.head ordered set
  have := fits.maxGap f hf
  have := furthest_le.2 h.pending_le
  omega

theorem Intact.append (h : Intact fs stop r) {f : Fragment} (le : f.stop ≤ stop) :
    Intact fs stop (r.append f) := by
  rcases r.append_cases f with ⟨-, hr⟩ | ⟨islands, i, hn, -⟩
  · rw [hr]
    exact ⟨h.unmoved, rfl, h.gaps, h.noGaps, h.noGapBytes, h.first, le, h.pending_le⟩
  · rw [h.whole] at hn
    simp at hn

theorem Intact.withPending (h : Intact fs stop r) {ks : List Fragment}
    (le : ∀ k ∈ ks, k.stop ≤ stop) : Intact fs stop { r with pending := ks } :=
  ⟨h.unmoved, h.whole, h.gaps, h.noGaps, h.noGapBytes, h.first, h.frontier_le, le⟩

theorem Intact.move (h : Intact fs stop r) (ordered : r.Ordered) (fits : Fits r.limits fs stop)
    (hg : g ∈ fs) (m : Move g r r') : Intact fs stop r' := by
  have hstop := fits.stop_le g hg
  have hle : g.position ≤ g.stop := Nat.le_add_right ..
  cases m with
  | count tally gaps gapBytes =>
    exact ⟨h.unmoved, h.whole, h.gaps, gaps.trans h.noGaps, gapBytes.trans h.noGapBytes, h.first,
      h.frontier_le, h.pending_le⟩
  | place _ =>
    refine ⟨h.unmoved, h.whole, h.gaps, h.noGaps, h.noGapBytes, ?_, by simp only; omega,
      h.pending_le⟩
    rintro head ⟨⟩
    exact ⟨g, hg, rfl⟩
  | back _ set _ _ whole =>
    have hfrontier := ordered.frontier_eq set whole
    have pieces_le := fun k hk => bounds_of_mem_pieces hfrontier ordered.stamps ordered.stamped
      (f := k) hk
    refine ⟨h.unmoved, h.whole, h.gaps, h.noGaps, h.noGapBytes, ?_, ?_, ?_⟩
    · rintro head ⟨⟩
      exact ⟨g, hg, rfl⟩
    · show g.position ≤ stop
      omega
    · intro k hk
      have := h.frontier_le
      rcases List.mem_append.1 hk with hk | hk
      · have := pieces_le k hk
        omega
      · exact h.pending_le k hk
  | append _ _ le => exact h.append (by rwa [Fragment.stop_startingAt le])
  | hold _ _ =>
    refine h.withPending fun k hk => ?_
    rcases mem_enter hk with rfl | hk
    · exact hstop
    · exact h.pending_le k hk
  | @flush f rest first _ lt =>
    have hf : f.stop ≤ stop := h.pending_le f (first ▸ List.mem_cons_self)
    have appended : Intact fs stop (r.append (f.startingAt r.frontier)) :=
      h.append (by rwa [Fragment.stop_startingAt (Nat.le_of_lt lt)])
    exact appended.withPending fun k hk => h.pending_le k (first ▸ List.mem_cons_of_mem f hk)
  | @skip f rest first _ =>
    exact h.withPending fun k hk => h.pending_le k (first ▸ List.mem_cons_of_mem f hk)
  | declare first _ far => exact absurd far (h.not_far ordered fits (ordered.set_of_pending first))
  | cross => rwa [crossGaps_of_whole h.whole]
  | drop full => exact absurd full (h.not_full ordered fits)

/-! ## Every covered position is kept -/

/-- Every byte of a run that moves back waits again. -/
theorem covered_pieces {head p : Nat} (ordered : r.Ordered) (stamped : Traced (fun _ _ _ => True) r)
    (set : r.head = some head) (whole : r.islands = []) (le : head ≤ p) (lt : p < r.frontier) :
    Fragment.Covered (pieces head r.frontier r.run r.stamps) p := by
  have hfrontier := ordered.frontier_eq set whole
  have hi : p - head < r.run.length := by omega
  have hmem : (r.run[p - head], p) ∈ r.run.zipIdx head :=
    List.mk_mem_zipIdx_iff_le_and_getElem?_sub.2 ⟨le, List.getElem?_eq_getElem hi⟩
  obtain ⟨time, ht, -⟩ := stamped.held _ p (by
    rw [held_eq_zipIdx whole, position_of_head set]
    exact hmem)
  obtain ⟨s, hs, -⟩ := Option.map_eq_some_iff.1 ht
  obtain ⟨k, hk, hb⟩ := exists_mem_pieces hfrontier hmem hs
  exact ⟨k, hk, Fragment.bounds_of_mem_placed hb⟩

theorem Keeps.move (h : Keeps fs r) {all : List Fragment} (intact : Intact all stop r)
    (ordered : r.Ordered) (stamped : Traced (fun _ _ _ => True) r) (fits : Fits r.limits all stop)
    (m : Move g r r') : Keeps fs r' := by
  intro p hp
  obtain ⟨hle, hkept⟩ := h p hp
  cases m with
  | count _ _ _ => exact ⟨hle, hkept⟩
  | place unset =>
    obtain ⟨-, hfrontier, -, -, hpending, -⟩ := ordered.unset unset
    rcases hkept with lt | ⟨k, hk, -⟩
    · omega
    · simp [hpending] at hk
  | back _ set lt _ whole =>
    rw [position_of_head set] at hle
    refine ⟨Nat.le_trans (Nat.le_of_lt lt) hle, .inr ?_⟩
    rcases hkept with hlt | ⟨k, hk, hc⟩
    · obtain ⟨k, hk, hc⟩ := covered_pieces ordered stamped set whole hle hlt
      exact ⟨k, List.mem_append_left _ hk, hc⟩
    · exact ⟨k, List.mem_append_right _ hk, hc⟩
  | append _ _ le =>
    refine ⟨hle, hkept.imp_left fun lt => ?_⟩
    rw [append_frontier, Fragment.stop_startingAt le]
    exact Nat.lt_of_lt_of_le lt le
  | hold _ _ =>
    refine ⟨hle, hkept.imp_right ?_⟩
    rintro ⟨k, hk, hc⟩
    exact covered_enter (.inr hk) hc
  | @flush f rest first _ lt =>
    refine ⟨hle, ?_⟩
    show p < (f.startingAt r.frontier).stop ∨ Fragment.Covered rest p
    rw [Fragment.stop_startingAt (Nat.le_of_lt lt)]
    rcases hkept with hlt | ⟨k, hk, hc⟩
    · exact .inl (Nat.lt_trans hlt lt)
    · rcases List.mem_cons.1 (first ▸ hk) with rfl | hk
      · exact .inl hc.2
      · exact .inr ⟨k, hk, hc⟩
  | @skip f rest first covered =>
    refine ⟨hle, ?_⟩
    rcases hkept with hlt | ⟨k, hk, hc⟩
    · exact .inl hlt
    · rcases List.mem_cons.1 (first ▸ hk) with rfl | hk
      · exact .inl (Nat.lt_of_lt_of_le hc.2 covered)
      · exact .inr ⟨k, hk, hc⟩
  | declare first _ far =>
    exact absurd far (intact.not_far ordered fits (ordered.set_of_pending first))
  | cross =>
    rw [crossGaps_of_whole intact.whole]
    exact ⟨hle, hkept⟩
  | drop full => exact absurd full (intact.not_full ordered fits)

/-- What holds of a reassembly that has taken in `fs`, where `all` are to come. -/
structure Gathered (all fs : List Fragment) (stop : Nat) (r : Reassembly) : Prop where
  ordered : r.Ordered
  intact : Intact all stop r
  stamped : Traced (fun _ _ _ => True) r
  keeps : Keeps fs r

theorem Gathered.moves {all : List Fragment} (h : Gathered all fs stop r)
    (fits : Fits r.limits all stop) (hg : g ∈ all) (m : Moves g r r') :
    Gathered all fs stop r' ∧ r'.limits = r.limits := by
  induction m with
  | refl => exact ⟨h, rfl⟩
  | tail _ last ih =>
    obtain ⟨⟨ordered, intact, stamped, keeps⟩, same⟩ := ih
    rw [← same] at fits
    refine ⟨⟨ordered.move last, intact.move ordered fits hg last, ?_, ?_⟩, last.limits.trans same⟩
    · exact stamped.move ordered (fun _ _ _ => trivial) last
    · exact keeps.move intact ordered stamped fits last

/-- A fragment that is filed is kept like the earlier ones. -/
theorem Gathered.filed {all : List Fragment} (h : Gathered all fs stop r) (filed : r.Filed g) :
    Gathered all (fs ++ [g]) stop r where
  ordered := h.ordered
  intact := h.intact
  stamped := h.stamped
  keeps := by
    rintro p ⟨f, hf, hp⟩
    rcases List.mem_append.1 hf with hf | hf
    · exact h.keeps p ⟨f, hf, hp⟩
    · obtain rfl : f = g := by simpa using hf
      have hle := filed.head_le h.intact.unmoved h.intact.whole
      exact ⟨Nat.le_trans hle hp.1, filed.kept p hp⟩

theorem gathered_fresh (all : List Fragment) (stop : Nat) (limits : Limits) :
    Gathered all [] stop { limits := limits } where
  ordered := (wellFormed_fresh limits).toOrdered
  intact := ⟨rfl, rfl, rfl, rfl, rfl, nofun, Nat.zero_le stop, nofun⟩
  stamped := ⟨nofun, nofun⟩
  keeps := fun _ ⟨_, hf, _⟩ => nomatch hf

theorem gathered_gather {limits : Limits} {all : List Fragment} (fits : Fits limits all stop)
    (nonempty : ∀ f ∈ all, f.bytes ≠ []) (sub : fs ⊆ all) :
    Gathered all fs stop (gather limits fs) := by
  -- The fragments taken in so far grow; the window in which all of them fit stays.
  induction fs using List.reverseRecOn with
  | nil => exact gathered_fresh all stop limits
  | append_singleton done f ih =>
    have before := ih fun k hk => sub (List.mem_append_left _ hk)
    have hf : f ∈ all := sub (by simp)
    have short : f.bytes.length ≤ (gather limits done).limits.capacity := by
      have h1 := fits.stop_le f hf
      have h2 := fits.capacity f hf
      rw [gather_limits]
      simp only [Fragment.stop] at h1
      omega
    obtain ⟨⟨s, filing, filed, settling⟩, -⟩ :=
      add_spec (wellFormed_gather limits done) (nonempty f hf)
    -- The whole fragment is filed, since it is no longer than the capacity.
    rw [Fragment.lastBytes_of_le short] at filing filed settling
    rw [← gather_limits limits done] at fits
    obtain ⟨filing, same⟩ := before.moves fits hf filing
    rw [← same] at fits
    have step : gather limits (done ++ [f]) = (gather limits done).add f := by simp [gather]
    rw [step]
    exact ((filing.filed filed).moves fits hf settling).1

/-! ## The order does not matter -/

/-- The fragments are put together: the head starts where the first one of them starts, and holds
the stream up to the first position that none of them covers. -/
structure Assembled (stream : Bytes) (fs : List Fragment) (r : Reassembly) : Prop where
  first : ∃ f ∈ fs, f.position = r.position
  least : ∀ f ∈ fs, r.position ≤ f.position
  frontier : r.frontier = r.position + r.run.length
  run : r.run = slice stream r.position r.run.length
  covered : ∀ p, r.position ≤ p → p < r.frontier → Fragment.Covered fs p
  uncovered : ¬ Fragment.Covered fs r.frontier

/-- Only the positions covered matter for what is put together. -/
theorem Assembled.unique {stream : Bytes} {gs : List Fragment} (h : Assembled stream fs r)
    (h' : Assembled stream gs r') (nonempty : ∀ f ∈ fs, f.bytes ≠ [])
    (nonempty' : ∀ f ∈ gs, f.bytes ≠ [])
    (same : ∀ p, Fragment.Covered fs p ↔ Fragment.Covered gs p) :
    r.position = r'.position ∧ r.frontier = r'.frontier ∧ r.run = r'.run := by
  have position : r.position = r'.position := by
    obtain ⟨f, hf, hp⟩ := h.first
    obtain ⟨g, hg, hq⟩ := h'.first
    obtain ⟨k, hk, hkc⟩ := (same f.position).1 ⟨f, hf, Fragment.covers_position (nonempty f hf)⟩
    obtain ⟨l, hl, hlc⟩ := (same g.position).2 ⟨g, hg, Fragment.covers_position (nonempty' g hg)⟩
    have := h'.least k hk
    have := h.least l hl
    have := hkc.1
    have := hlc.1
    omega
  have frontier : r.frontier = r'.frontier := by
    -- If one frontier were before the other, it would be covered after all.
    rcases Nat.lt_trichotomy r.frontier r'.frontier with lt | eq | lt
    · have hp : r'.position ≤ r.frontier := by
        rw [← position, h.frontier]
        exact Nat.le_add_right ..
      exact absurd ((same _).2 (h'.covered _ hp lt)) h.uncovered
    · exact eq
    · have hp : r.position ≤ r'.frontier := by
        rw [position, h'.frontier]
        exact Nat.le_add_right ..
      exact absurd ((same _).1 (h.covered _ hp lt)) h'.uncovered
  refine ⟨position, frontier, ?_⟩
  have length : r.run.length = r'.run.length := by
    have := h.frontier
    have := h'.frontier
    omega
  rw [h.run, h'.run, position, length]

theorem fits_of_extent {limits : Limits}
    (extent : ∀ f ∈ fs, ∀ g ∈ fs, g.stop ≤ f.position + min limits.capacity limits.maxGap) :
    Fits limits fs (furthest fs) where
  stop_le := furthest_le.1 (Nat.le_refl _)
  capacity := fun f hf => furthest_le.2 fun g hg => by
    have := extent f hf g hg
    omega
  maxGap := fun f hf => furthest_le.2 fun g hg => by
    have := extent f hf g hg
    omega

/-- What is held comes from the fragments. -/
theorem traced_gather (limits : Limits) (fs : List Fragment) :
    Traced (fun b p _ => ∃ f ∈ fs, f.byteAt? p = some b) (gather limits fs) := by
  rw [gather_eq_replay]
  refine (traced_replay limits (fs.map .add)).mono ?_
  rintro b p _ ⟨f, hf, hb, -⟩
  exact ⟨f, by simpa using hf, hb⟩

theorem covered_of_byteAt? {b : UInt8} {p : Nat} (h : ∃ f ∈ fs, f.byteAt? p = some b) :
    Fragment.Covered fs p := by
  obtain ⟨f, hf, hb⟩ := h
  exact ⟨f, hf, Fragment.covers_iff_exists_mem_placed.2 ⟨b, Fragment.mem_placed_iff_byteAt?.2 hb⟩⟩

theorem Gathered.set {all : List Fragment} (h : Gathered all fs stop r) (given : fs ≠ [])
    (nonempty : ∀ f ∈ fs, f.bytes ≠ []) : r.head ≠ none := by
  intro unset
  obtain ⟨-, frontier, -, -, pending, -⟩ := h.ordered.unset unset
  obtain ⟨f, hf⟩ := List.exists_mem_of_ne_nil fs given
  obtain ⟨-, lt | ⟨k, hk, -⟩⟩ := h.keeps _ ⟨f, hf, Fragment.covers_position (nonempty f hf)⟩
  · omega
  · simp [pending] at hk

theorem assembled_gather {limits : Limits} {stream : Bytes} (fits : Fits limits fs stop)
    (given : fs ≠ []) (nonempty : ∀ f ∈ fs, f.bytes ≠ []) (sliced : ∀ f ∈ fs, f.IsSliceOf stream) :
    Assembled stream fs (gather limits fs) := by
  have h := gathered_gather fits nonempty (List.Subset.refl fs)
  obtain ⟨first, hfirst, hp, hfrontier⟩ := h.intact.head h.ordered (h.set given nonempty)
  refine ⟨⟨first, hfirst, hp⟩, ?_, hp ▸ hfrontier, ?_, ?_, ?_⟩
  · intro f hf
    exact (h.keeps _ ⟨f, hf, Fragment.covers_position (nonempty f hf)⟩).1
  · rw [gather_eq_replay]
    exact run_eq_slice fun f hf => sliced f (by simpa using hf)
  · intro p hle hlt
    have hi : p - (gather limits fs).position < (gather limits fs).run.length := by omega
    have hb := mem_held_of_getElem? (List.getElem?_eq_getElem hi)
    obtain ⟨_, -, hf⟩ := (traced_gather limits fs).held _ _ hb
    rw [Nat.add_sub_cancel' hle] at hf
    exact covered_of_byteAt? hf
  · intro hc
    obtain ⟨-, lt | ⟨k, hk, hkc⟩⟩ := h.keeps _ hc
    · exact Nat.lt_irrefl _ lt
    · exact absurd hkc.1 (Nat.not_le.2 ((wellFormed_gather limits fs).ahead k hk))

/-- Nothing waits where the fragments leave no hole between them. -/
theorem Assembled.pendingSize_eq_zero {limits : Limits} {stream : Bytes} {a b : Nat}
    (h : Assembled stream fs (gather limits fs)) (nonempty : ∀ f ∈ fs, f.bytes ≠ [])
    (interval : ∀ p, Fragment.Covered fs p ↔ a ≤ p ∧ p < b) :
    (gather limits fs).pendingSize = 0 := by
  refine total_eq_zero fun k hk => ?_
  by_contra hne
  have hk0 : k.bytes ≠ [] := fun hn => hne (by simp [hn])
  obtain ⟨c, hc⟩ := Fragment.covers_iff_exists_mem_placed.1 (Fragment.covers_position hk0)
  have inside := (interval _).1 (covered_of_byteAt? ((traced_gather limits fs).waiting k hk c _ hc))
  have beyond := (wellFormed_gather limits fs).ahead k hk
  -- Then the frontier lies between two positions that are covered, but is not covered itself.
  obtain ⟨f, hf, hp⟩ := h.first
  have start := (interval _).1 ⟨f, hf, Fragment.covers_position (nonempty f hf)⟩
  have outside := fun hle hlt => h.uncovered ((interval _).2 ⟨hle, hlt⟩)
  have := h.frontier
  exact outside (by omega) (by omega)

/-- **The order in which fragments come does not matter**, if they lie no further apart than the
capacity and the allowed gap: the head starts where the first of them starts and holds the stream up
to the first position that none of them covers, no gap is declared, and nothing waits if the
fragments leave no hole. Every other order gives the same. -/
theorem gather_any_order {limits : Limits} {stream : Bytes} {fs : List Fragment} (given : fs ≠ [])
    (nonempty : ∀ f ∈ fs, f.bytes ≠ []) (sliced : ∀ f ∈ fs, f.IsSliceOf stream)
    (extent : ∀ f ∈ fs, ∀ g ∈ fs, g.stop ≤ f.position + min limits.capacity limits.maxGap) :
    Assembled stream fs (gather limits fs) ∧
    ((gather limits fs).gaps = [] ∧ (gather limits fs).tally.gaps = 0 ∧
      (gather limits fs).tally.gapBytes = 0) ∧
    (∀ a b, (∀ p, Fragment.Covered fs p ↔ a ≤ p ∧ p < b) → (gather limits fs).pendingSize = 0) ∧
    ∀ gs, gs.Perm fs → (gather limits gs).position = (gather limits fs).position ∧
      (gather limits gs).frontier = (gather limits fs).frontier ∧
      (gather limits gs).run = (gather limits fs).run := by
  have fits := fits_of_extent extent
  have intact := (gathered_gather fits nonempty (List.Subset.refl fs)).intact
  have assembled := assembled_gather fits given nonempty sliced
  refine ⟨assembled, ⟨intact.gaps, intact.noGaps, intact.noGapBytes⟩,
    fun a b => assembled.pendingSize_eq_zero nonempty, fun gs perm => ?_⟩
  have mem : ∀ f, f ∈ gs ↔ f ∈ fs := fun f => perm.mem_iff
  have fits' : Fits limits gs (furthest fs) :=
    ⟨fun f hf => fits.stop_le f ((mem f).1 hf), fun f hf => fits.capacity f ((mem f).1 hf),
      fun f hf => fits.maxGap f ((mem f).1 hf)⟩
  have nonempty' : ∀ f ∈ gs, f.bytes ≠ [] := fun f hf => nonempty f ((mem f).1 hf)
  have assembled' : Assembled stream gs (gather limits gs) := by
    refine assembled_gather fits' ?_ nonempty' fun f hf => sliced f ((mem f).1 hf)
    rintro rfl
    exact given perm.nil_eq.symm
  refine assembled'.unique assembled nonempty' nonempty fun p => ?_
  simp only [Fragment.Covered, mem]

/-- Pieces of one stream that overlap, the last one first. -/
def scattered : List Fragment := [⟨14, 30, [5, 6]⟩, ⟨10, 10, [1, 2, 3]⟩, ⟨12, 20, [3, 4, 5]⟩]

theorem gather_any_order_scattered :
    (gather ⟨6, 6, 0⟩ scattered).run = [1, 2, 3, 4, 5, 6] ∧
    (gather ⟨6, 6, 0⟩ scattered).frontier = 16 ∧ (gather ⟨6, 6, 0⟩ scattered).pendingSize = 0 ∧
    (gather ⟨6, 6, 0⟩ scattered.reverse).run = [1, 2, 3, 4, 5, 6] := by
  have sliced : ∀ f ∈ scattered, f.IsSliceOf (List.replicate 10 0 ++ [1, 2, 3, 4, 5, 6]) := by
    decide
  have extent : ∀ f ∈ scattered, ∀ g ∈ scattered, g.stop ≤ f.position + min 6 6 := by decide
  obtain ⟨assembled, -, pending, order⟩ :=
    @gather_any_order ⟨6, 6, 0⟩ _ scattered (by decide) (by decide) sliced extent
  have interval : ∀ p, Fragment.Covered scattered p ↔ 10 ≤ p ∧ p < 16 := by
    intro p
    simp only [Fragment.Covered, scattered, Fragment.Covers, Fragment.stop, List.mem_cons,
      List.not_mem_nil, or_false, exists_eq_or_imp, exists_eq_left, List.length_cons,
      List.length_nil]
    omega
  have run : (gather ⟨6, 6, 0⟩ scattered).run = [1, 2, 3, 4, 5, 6] := by decide +kernel
  refine ⟨run, ?_, pending 10 16 interval, ?_⟩
  · have := assembled.frontier
    rw [this, run]
    decide +kernel
  · rw [(order scattered.reverse scattered.reverse_perm).2.2, run]

end Dialogue.Reassembly
