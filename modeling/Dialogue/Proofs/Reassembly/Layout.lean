import Mathlib
import Dialogue.Proofs.Reassembly.Window

/-!
The layout of a reassembly in memory, and that no operation on it fails.

`Reassembly.window` lays a reassembly out. Where positions fit into their word (`Small`), each
operation on the layout has a result, which is the layout of what the operation on the reassembly
yields. So the results of a whole run agree, and what the layout keeps between calls, such as the
place of the frontier behind the bytes and gaps (`Window.Consistent`), follows from the order in
which a reassembly holds its bytes.
-/
namespace Dialogue

namespace Marker

variable {n offset : Nat} {islands : List Island}

theorem ofIslands_concat (i : Island) :
    ofIslands offset (islands ++ [i]) =
      ofIslands offset islands ++ [⟨offset + total (·.bytes.length) islands, i.gap⟩] := by
  induction islands generalizing offset with
  | nil => rfl
  | cons j rest ih => simp [ofIslands, ih, Nat.add_assoc]

theorem shift_ofIslands :
    (ofIslands (n + offset) islands).mapM (shift? n) = some (ofIslands offset islands) := by
  induction islands generalizing offset with
  | nil => rfl
  | cons i rest ih =>
    simp only [ofIslands, List.mapM_cons, shift?, sub?_of_le (Nat.le_add_right n offset),
      Nat.add_sub_cancel_left, Nat.add_assoc, ih]
    rfl

theorem total_gap_ofIslands :
    total (·.gap.length) (ofIslands offset islands) = total (·.gap.length) islands := by
  induction islands generalizing offset with
  | nil => rfl
  | cons i rest ih => simp only [ofIslands, total_cons, ih]

end Marker

namespace Fragment

/-- Positions of the fragment are small enough for the word that holds them. -/
theorem stop?_of_le {f : Fragment} (small : f.stop ≤ maxPosition) : f.stop? = some f.stop :=
  add?_of_le small

theorem behind?_eq {f : Fragment} {p : Nat} (from_le : f.position ≤ p) (le : p ≤ f.stop)
    (small : f.stop ≤ maxPosition) : f.behind? (p - f.position) = some (f.startingAt p) := by
  have within : p - f.position ≤ f.bytes.length := by
    simp only [stop] at le
    omega
  have sum : f.position + (p - f.position) = p := by omega
  simp only [behind?, add?_of_le (show f.position + (p - f.position) ≤ maxPosition by omega),
    part?_to_end within, sum]
  unfold startingAt
  split
  · rfl
  · have same : p = f.position := by omega
    simp [same]

theorem furthest?_eq {fs : List Fragment} {far : Nat} (small : ∀ f ∈ fs, f.stop ≤ maxPosition) :
    furthest? far fs = some ((fs.map stop).foldl max far) := by
  induction fs generalizing far with
  | nil => rfl
  | cons f rest ih =>
    obtain ⟨first, later⟩ := List.forall_mem_cons.1 small
    simp only [furthest?, stop?_of_le first, Option.bind_eq_bind, Option.bind_some, ih later,
      List.map_cons, List.foldl_cons]

/-- What is put is entered, if it is not shorter than what stands at its position. -/
theorem put_eq_enter {f : Fragment} {fs : List Fragment}
    (entered : (Reassembly.enter f fs).1 = true) : (Reassembly.enter f fs).2 = f.put fs := by
  induction fs with
  | nil => rfl
  | cons g rest ih =>
    simp only [Reassembly.enter, put] at entered ⊢
    split
    · rfl
    · next ge =>
      rw [if_neg ge] at entered
      split
      · next eq =>
        rw [if_pos eq] at entered
        split
        · next le => simp [le] at entered
        · rfl
      · next ne =>
        rw [if_neg ne] at entered
        simp only
        rw [ih entered]

theorem put_between {f : Fragment} {before behind : List Fragment}
    (lt : ∀ k ∈ before, k.position < f.position) (gt : ∀ k ∈ behind, f.position < k.position) :
    f.put (before ++ behind) = before ++ f :: behind := by
  induction before with
  | nil =>
    cases behind with
    | nil => rfl
    | cons k rest => simp only [List.nil_append, put, if_pos (gt k List.mem_cons_self)]
  | cons k rest ih =>
    obtain ⟨first, later⟩ := List.forall_mem_cons.1 lt
    simp only [List.cons_append, put, if_neg (Nat.not_lt.2 (Nat.le_of_lt first)),
      if_neg (Nat.ne_of_gt first), ih later]

theorem foldl_put {fs before behind : List Fragment} (sorted : Ascending (before ++ fs))
    (gt : ∀ f ∈ fs, ∀ k ∈ behind, f.position < k.position) :
    fs.foldl (fun ps f => f.put ps) (before ++ behind) = before ++ fs ++ behind := by
  induction fs generalizing before with
  | nil => simp
  | cons f rest ih =>
    have first := (List.pairwise_append.1 sorted).2.2
    rw [List.foldl_cons, put_between (fun k hk => first k hk f List.mem_cons_self)
      (gt f List.mem_cons_self)]
    have moved : Ascending (before ++ [f] ++ rest) := by simpa using sorted
    have := ih moved fun g hg => gt g (List.mem_cons_of_mem f hg)
    simpa using this

theorem pieces?_eq {head stop : Nat} {run : Bytes} {stamps : List Stamp}
    (hstop : stop = head + run.length) (le : ∀ s ∈ stamps, s.position ≤ stop) :
    pieces? head stop run stamps = some (Reassembly.pieces head stop run stamps) := by
  induction stamps with
  | nil => rfl
  | cons s rest ih =>
    have le' : ∀ t ∈ rest, t.position ≤ stop := fun t ht => le t (List.mem_cons_of_mem s ht)
    rw [pieces?, Reassembly.pieces_cons, ih le']
    simp only [Option.bind_eq_bind, Option.bind_some]
    split
    · next lt =>
      have reach := Reassembly.pieceStop_le le'
      rw [sub?_of_le (Nat.le_max_right ..), sub?_of_le (by omega), Option.bind_some,
        Option.bind_some, part?_of_le (by omega) (by omega), Option.bind_some]
      congr 4
      omega
    · rfl

end Fragment

namespace Reassembly

variable {limits : Limits} {r r' : Reassembly} {f : Fragment}

/-- The layout of a reassembly in memory, with a counter of the waiting bytes that stands at `n`. -/
def layout (r : Reassembly) (n : Nat) : Window where
  limits := r.limits
  head := r.head
  advanced := r.advanced
  frontier := r.frontier
  data := r.run ++ r.islands.flatMap (·.bytes)
  markers := Marker.ofIslands r.run.length r.islands
  pending := r.pending
  pendingBytes := n
  stamps := r.stamps
  gaps := r.gaps
  tally := r.tally

/-- The layout of a reassembly in memory. -/
def window (r : Reassembly) : Window := r.layout r.pendingSize

theorem map_fst_placedRuns (position : Nat) (run : Bytes) (islands : List Island) :
    (placedRuns position run islands).map (·.1) = run ++ islands.flatMap (·.bytes) := by
  simp [placedRuns, List.map_flatMap]

theorem data_window (r : Reassembly) : r.window.data = r.held.map (·.1) :=
  (map_fst_placedRuns _ _ _).symm

theorem length_data_window (r : Reassembly) : r.window.data.length = r.size := by
  rw [data_window, List.length_map, length_held]

@[simp] theorem limits_layout (r : Reassembly) (n : Nat) : (r.layout n).limits = r.limits := rfl

@[simp] theorem frontier_layout (r : Reassembly) (n : Nat) : (r.layout n).frontier = r.frontier :=
  rfl

@[simp] theorem pendingBytes_layout (r : Reassembly) (n : Nat) :
    (r.layout n).pendingBytes = n := rfl

@[simp] theorem limits_window (r : Reassembly) : r.window.limits = r.limits := rfl

@[simp] theorem frontier_window (r : Reassembly) : r.window.frontier = r.frontier := rfl

/-- The positions that are held or waited for fit into their word. -/
structure Small (r : Reassembly) : Prop where
  frontier : r.frontier ≤ maxPosition
  pending : ∀ f ∈ r.pending, f.stop ≤ maxPosition

theorem Small.consume (h : r.Small) (n : Nat) : (r.consume n).Small := by
  refine ⟨?_, ?_⟩
  · rw [consume_frontier]
    exact h.frontier
  · rw [consume_pending]
    exact h.pending

theorem Small.move {g : Fragment} (h : r.Small) (hg : g.stop ≤ maxPosition) (m : Move g r r') :
    r'.Small := by
  have rest : ∀ f fs, r.pending = f :: fs → ∀ k ∈ fs, k.stop ≤ maxPosition :=
    fun f fs first k hk => h.pending k (first ▸ List.mem_cons_of_mem f hk)
  have bounds : g.position ≤ g.stop := Nat.le_add_right ..
  cases m with
  | count _ _ _ => exact ⟨h.frontier, h.pending⟩
  | place _ => exact ⟨Nat.le_trans bounds hg, h.pending⟩
  | back wf set _ _ whole =>
    refine ⟨Nat.le_trans bounds hg, fun f hf => ?_⟩
    rcases List.mem_append.1 hf with hf | hf
    · have := bounds_of_mem_pieces (wf.frontier_eq set whole) wf.stamps wf.stamped hf
      have := h.frontier
      omega
    · exact h.pending f hf
  | append _ _ le =>
    refine ⟨?_, h.pending⟩
    rw [append_frontier, Fragment.stop_startingAt le]
    exact hg
  | hold _ _ =>
    refine ⟨h.frontier, fun f hf => ?_⟩
    rcases mem_enter hf with rfl | hf
    · exact hg
    · exact h.pending f hf
  | @flush f fs first _ lt =>
    refine ⟨?_, rest f fs first⟩
    show (f.startingAt r.frontier).stop ≤ maxPosition
    rw [Fragment.stop_startingAt (Nat.le_of_lt lt)]
    exact h.pending f (first ▸ List.mem_cons_self)
  | @skip f fs first _ => exact ⟨h.frontier, rest f fs first⟩
  | @declare f fs first _ _ =>
    have := h.pending f (first ▸ List.mem_cons_self)
    exact ⟨Nat.le_trans (Nat.le_add_right ..) this, h.pending⟩
  | cross =>
    refine ⟨?_, ?_⟩
    · rw [crossGaps_frontier]
      exact h.frontier
    · rw [crossGaps_pending]
      exact h.pending
  | drop _ => exact h.consume _

theorem Small.moves {g : Fragment} (h : r.Small) (hg : g.stop ≤ maxPosition) (m : Moves g r r') :
    r'.Small := by
  induction m with
  | refl => exact h
  | tail _ last ih => exact ih.move hg last

/-! ## Consuming -/

theorem Chained.size_le {stop position : Nat} {run : Bytes} {islands : List Island}
    (h : Chained stop position run islands) :
    position + run.length + total (·.bytes.length) islands ≤ stop := by
  induction islands generalizing position run with
  | nil => exact Nat.le_of_eq h
  | cons i rest ih =>
    obtain ⟨h1, h2, h3⟩ := h
    have := ih h3
    rw [total_cons]
    omega

/-- Crossing markers goes as dropping what is held does. The markers tell offsets in a buffer that
starts `base` bytes before the run. -/
theorem cross?_ofIslands (base : Nat) {stop n position : Nat} {run : Bytes} {islands : List Island}
    (chained : Chained stop position run islands) (small : stop ≤ maxPosition) (le : base ≤ n)
    (within : n - base ≤ run.length + total (·.bytes.length) islands) :
    Marker.cross? n (position + (n - base)) (Marker.ofIslands (base + run.length) islands) =
      some ((dropHeld (n - base) position run islands).1,
        Marker.ofIslands (n + (dropHeld (n - base) position run islands).2.1.length)
          (dropHeld (n - base) position run islands).2.2) := by
  induction islands generalizing base position run with
  | nil =>
    have all : atLeast (n - base) run = true := atLeast_iff.2 (by simpa using within)
    simp [Marker.ofIslands, Marker.cross?, dropHeld, all]
  | cons i rest ih =>
    have fits := chained.2.2.size_le
    rw [total_cons] at within
    simp only [Marker.ofIslands, Marker.cross?, dropHeld]
    by_cases lt : n < base + run.length
    · have left : atLeast (n - base + 1) run = true := atLeast_iff.2 (by omega)
      rw [if_pos lt, if_pos left]
      simp only [Marker.ofIslands, List.length_drop, Option.some.injEq, Prod.mk.injEq, true_and,
        List.cons.injEq, Marker.mk.injEq, and_true]
      constructor
      · omega
      · congr 1
        omega
    · have gone : ¬ atLeast (n - base + 1) run = true := fun h => by
        rw [atLeast_iff] at h
        omega
      rw [if_neg lt, if_neg gone, sub?_of_le (Nat.not_lt.1 lt)]
      simp only [Option.bind_eq_bind, Option.bind_some]
      rw [add?_of_le (by omega), Option.bind_some, ih _ chained.2.2 (Nat.not_lt.1 lt) (by omega),
        Nat.sub_sub]

theorem dropHeld_min (n position : Nat) (run : Bytes) (islands : List Island) :
    dropHeld (min n (run.length + total (·.bytes.length) islands)) position run islands =
      dropHeld n position run islands := by
  induction islands generalizing n position run with
  | nil =>
    rcases Nat.le_total n run.length with le | le
    · simp [Nat.min_eq_left le]
    · have all : atLeast run.length run = true := atLeast_iff.2 (Nat.le_refl _)
      simp only [total_nil, Nat.add_zero, Nat.min_eq_right le, dropHeld, all, if_true,
        List.drop_length, List.drop_eq_nil_of_le le]
      split
      · next h => rw [atLeast_iff] at h; congr 1; omega
      · rfl
  | cons i rest ih =>
    rw [total_cons]
    by_cases lt : n < run.length
    · rw [Nat.min_eq_left (by omega)]
    · have gone : ∀ m, run.length ≤ m →
          dropHeld m position run (i :: rest) =
            dropHeld (m - run.length) i.gap.stop i.bytes rest := by
        intro m hm
        rw [dropHeld, if_neg]
        rw [atLeast_iff]
        omega
      rw [gone _ (by omega), gone _ (by omega), ← ih (n - run.length)]
      congr 1
      omega

theorem consume_of_empty (empty : r.size = 0) (n : Nat) : r.consume n = r := by
  have none : r.held = [] := List.eq_nil_of_length_eq_zero (r.length_held.trans empty)
  simp only [held, placedRuns, List.append_eq_nil_iff, List.flatMap_eq_nil_iff,
    List.zipIdx_eq_nil_iff] at none
  rw [consume, if_pos]
  simp only [none.1, List.isEmpty_nil, Bool.true_and, Bool.or_eq_true, List.all_eq_true]
  exact .inr fun i hi => List.isEmpty_iff.2 (none.2 i hi)

theorem consume_of_filled {n : Nat} (pos : n ≠ 0) (filled : r.size ≠ 0) :
    r.consume n = r.moveHead (dropHeld n r.position r.run r.islands).1
      (dropHeld n r.position r.run r.islands).2.1 (dropHeld n r.position r.run r.islands).2.2 := by
  rcases r.consume_cases n with ⟨-, hn | none⟩ | ⟨-, hr⟩
  · exact absurd hn pos
  · have := r.length_held
    rw [none] at this
    exact absurd this.symm filled
  · exact hr

theorem consume?_window (ordered : r.Ordered) (small : r.Small) (n : Nat) :
    r.window.consume? n = some (r.consume n).window := by
  rw [Window.consume?, length_data_window]
  simp only
  by_cases nothing : min n r.size = 0
  · rw [if_pos nothing]
    rcases Nat.eq_zero_or_pos n with rfl | pos
    · simp [consume]
    · rw [consume_of_empty (by omega)]
  have same : dropHeld n r.position r.run r.islands =
      dropHeld (min n r.size) r.position r.run r.islands := (dropHeld_min ..).symm
  rw [if_neg nothing, consume_of_filled (by omega) (by omega), same]
  have le : min n r.size ≤ r.size := Nat.min_le_right ..
  generalize min n r.size = m at nothing le
  cases set : r.head with
  | none =>
    obtain ⟨-, -, run, islands, -⟩ := ordered.unset set
    simp [size, run, islands] at le
    exact absurd le nothing
  | some head =>
    have position : r.position = head := position_of_head set
    have fits := ordered.inOrder.size_le
    have crossed := cross?_ofIslands 0 (n := m) ordered.inOrder small.frontier
      (Nat.zero_le _) le
    have bytes : r.window.data.drop m = (dropHeld m r.position r.run r.islands).2.1 ++
        (dropHeld m r.position r.run r.islands).2.2.flatMap (·.bytes) := by
      rw [data_window, ← List.map_drop, held, ← placedRuns_dropHeld, map_fst_placedRuns]
    have within := r.length_data_window
    have reach : head + m ≤ maxPosition := by
      have := small.frontier
      simp only [size] at le
      omega
    simp only [Nat.sub_zero, Nat.zero_add, position] at crossed
    simp only [show r.window.head = some head from set]
    rw [show r.window.markers = Marker.ofIslands r.run.length r.islands from rfl, add?_of_le reach]
    have rest : part? r.window.data m r.size = some (r.window.data.drop m) := by
      rw [← within] at le ⊢
      exact part?_to_end le
    rw [bytes, position] at rest
    simp only [Option.bind_eq_bind, Option.bind_some, crossed, rest, Marker.shift_ofIslands,
      position]
    rfl

/-! ## Appending -/

theorem append?_layout (f_small : f.stop ≤ maxPosition) (n : Nat) :
    (r.layout n).append? f = some ((r.append f).layout n) := by
  simp only [Window.append?, Fragment.stop?_of_le f_small, Option.bind_eq_bind, Option.bind_some,
    Option.some.injEq]
  rcases r.append_cases f with ⟨whole, hr⟩ | ⟨islands, i, cut, hr⟩
  · rw [hr]
    simp [layout, whole, Marker.ofIslands]
  · rw [hr]
    simp [layout, cut, Marker.ofIslands_concat]

theorem flushFrom?_layout {fs : List Fragment} (small : ∀ f ∈ fs, f.stop ≤ maxPosition) :
    (r.layout (total (·.bytes.length) fs)).flushFrom? fs = some (r.flushFrom fs).window := by
  induction fs generalizing r with
  | nil => rfl
  | cons f rest ih =>
    obtain ⟨first, later⟩ := List.forall_mem_cons.1 small
    simp only [Window.flushFrom?, flushFrom]
    by_cases ahead : r.frontier < f.position
    · rw [if_pos ahead]
      exact if_pos ahead
    have counted : sub? (total (·.bytes.length) (f :: rest)) f.bytes.length =
        some (total (·.bytes.length) rest) := by
      rw [total_cons, sub?_of_le (Nat.le_add_right ..), Nat.add_sub_cancel_left]
    rw [if_neg ahead]
    refine (if_neg ahead).trans ?_
    simp only [pendingBytes_layout, counted, Fragment.stop?_of_le first, Option.bind_eq_bind,
      Option.bind_some]
    change (if f.stop ≤ r.frontier then (r.layout (total (·.bytes.length) rest)).flushFrom? rest
      else _) = _
    by_cases covered : f.stop ≤ r.frontier
    · rw [if_pos covered, if_pos covered]
      exact ih later
    · rw [if_neg covered, if_neg covered]
      have cut : (f.startingAt r.frontier).stop ≤ maxPosition := by
        rw [Fragment.stop_startingAt (by omega)]
        exact first
      rw [frontier_layout, sub?_of_le (Nat.not_lt.1 ahead), Option.bind_some,
        Fragment.behind?_eq (Nat.not_lt.1 ahead) (by omega) first, Option.bind_some]
      refine (congrArg (Option.bind · _) (append?_layout cut _)).trans ?_
      exact ih later

/-! ## Lost gaps -/

theorem declareGap?_window {stop : Nat} (le : r.frontier ≤ stop) :
    r.window.declareGap? stop = some (r.declareGap stop).window := by
  have len := r.length_data_window
  simp only [Window.declareGap?, len, show r.window.frontier = r.frontier from rfl,
    sub?_of_le le, Option.bind_eq_bind, Option.bind_some, Option.some.injEq]
  simp [window, layout, declareGap, pendingSize, Marker.ofIslands_concat, size, Gap.length]

theorem declareGaps?_window (ordered : r.Ordered) (small : r.Small)
    (ahead : ∀ f ∈ r.pending, r.frontier < f.position) :
    r.window.declareGaps? = some r.declareGaps.window := by
  fun_induction declareGaps r with
  | case1 r none => exact Window.declareGaps?_of_none none
  | case2 r f rest first near =>
    have pending := small.pending
    have bound := furthest_le.1 (Nat.le_refl (furthest r.pending)) f (first ▸ List.mem_cons_self)
    have hole := ahead f (first ▸ List.mem_cons_self)
    simp only [furthest, first, Fragment.stop] at bound near pending
    rw [Window.declareGaps?_of_first first, Fragment.furthest?_eq pending]
    simp only [Option.bind_eq_bind, Option.bind_some]
    rw [show r.window.frontier = r.frontier from rfl, sub?_of_le (by omega), Option.bind_some]
    exact if_pos near
  | case3 r f rest first far _ ih =>
    have pending := small.pending
    have bound := furthest_le.1 (Nat.le_refl (furthest r.pending)) f (first ▸ List.mem_cons_self)
    have hole := ahead f (first ▸ List.mem_cons_self)
    have declare : Move f r (r.declareGap f.position) := .declare first hole (Nat.not_le.1 far)
    have flush : Moves f (r.declareGap f.position)
        ((r.declareGap f.position).flushFrom (f :: rest)) := by
      have := moves_flushFrom f (r.declareGap f.position) (f :: rest)
      rwa [← first] at this ⊢
    have moves := Relation.ReflTransGen.head declare flush
    have f_small := small.pending f (first ▸ List.mem_cons_self)
    have sorted := ordered.pending
    have flushed := flushFrom?_layout (r := r.declareGap f.position) (first ▸ small.pending)
    have counted : total (·.bytes.length) (f :: rest) = (r.declareGap f.position).pendingSize :=
      congrArg (total _) first.symm
    rw [counted] at flushed
    simp only [furthest, first, Fragment.stop] at bound far pending
    rw [Window.declareGaps?_of_first first, Fragment.furthest?_eq pending]
    simp only [Option.bind_eq_bind, Option.bind_some]
    rw [show r.window.frontier = r.frontier from rfl, sub?_of_le (by omega), Option.bind_some]
    refine (if_neg far).trans ?_
    rw [declareGap?_window (Nat.le_of_lt hole), Option.bind_some]
    refine (congrArg (Option.bind · _) flushed).trans ?_
    rw [first] at sorted
    exact ih (ordered.moves moves) (small.moves f_small moves) (flushFrom_ahead _ sorted)

theorem skip_ofIslands (position : Nat) (run : Bytes) (islands : List Island) :
    Marker.skip position (Marker.ofIslands run.length islands) =
      ((firstRun position run islands).1,
        Marker.ofIslands (firstRun position run islands).2.1.length
          (firstRun position run islands).2.2) := by
  induction islands generalizing position run with
  | nil => rfl
  | cons i rest ih =>
    simp only [Marker.ofIslands, Marker.skip, firstRun]
    cases run with
    | nil =>
      have := ih i.gap.stop i.bytes
      simpa using this
    | cons b bs => simp [Marker.ofIslands]

theorem crossGaps_window (r : Reassembly) : r.window.crossGaps = r.crossGaps.window := by
  cases islands : r.islands with
  | nil =>
    rw [crossGaps_of_whole islands]
    simp [Window.crossGaps, window, layout, islands, Marker.ofIslands]
  | cons i rest =>
    cases run : r.run with
    | cons b bs => simp [Window.crossGaps, crossGaps, window, layout, islands, run,
      Marker.ofIslands]
    | nil =>
      have skipped := skip_ofIslands i.gap.stop i.bytes rest
      have bytes := map_fst_placedRuns i.gap.stop i.bytes rest
      rw [← placedRuns_firstRun, map_fst_placedRuns] at bytes
      simp [Window.crossGaps, crossGaps, window, layout, islands, run, Marker.ofIslands, skipped,
        firstRun, moveHead, bytes, pendingSize]

theorem enforceCapacity?_window (ordered : r.Ordered) (small : r.Small) :
    r.window.enforceCapacity? = some r.enforceCapacity.window := by
  have len := r.length_data_window
  simp only [Window.enforceCapacity?, len, limits_window, enforceCapacity]
  by_cases full : r.limits.capacity < r.size
  · rw [if_pos full, if_neg (by omega), sub?_of_le (Nat.le_of_lt full)]
    set tally : Tally := { r.tally with dropped := r.tally.dropped + (r.size - r.limits.capacity) }
    exact consume?_window (r := { r with tally := tally })
      ⟨ordered.inOrder, ordered.stamps, ordered.stamped, ordered.pending, ordered.unset⟩
      ⟨small.frontier, small.pending⟩ _
  · rw [if_neg full, if_pos (by omega)]

end Reassembly

end Dialogue
