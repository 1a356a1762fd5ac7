import Mathlib
import Dialogue.Proofs.Reassembly.Layout

/-!
No arithmetic on a reassembly fails.

The layout of a reassembly takes in fragments without failing (`add?_window`), so a whole run goes
through and ends in the layout of what the reassembly has become. What the layout keeps between
calls rests on one more invariant: no island and no waiting fragment is empty. Declaring a gap opens
an empty island, and `Filled` says until when: the first waiting fragment, which starts at the
frontier then, is about to fill it.
-/
namespace Dialogue.Reassembly

variable {limits : Limits} {r r' : Reassembly} {f g : Fragment}

/-! ## Filing a fragment in the layout -/

theorem enter_of_absent {fs : List Fragment} (absent : fs.find? (·.position = f.position) = none) :
    (enter f fs).1 = true ∧
      total (·.bytes.length) (f.put fs) = total (·.bytes.length) fs + f.bytes.length := by
  induction fs with
  | nil => simp [enter, Fragment.put]
  | cons k rest ih =>
    obtain ⟨other, later⟩ := List.forall_mem_cons.1 (List.find?_eq_none.1 absent)
    have ne : ¬ f.position = k.position := fun eq => by simp [eq] at other
    obtain ⟨entered, sum⟩ := ih (List.find?_eq_none.2 later)
    simp only [enter, Fragment.put, if_neg ne]
    split
    · simp only [total_cons, true_and]
      omega
    · simp only [entered, total_cons, true_and]
      omega

theorem enter_of_present {fs : List Fragment} {old : Fragment} (sorted : Fragment.Ascending fs)
    (present : fs.find? (·.position = f.position) = some old) :
    (enter f fs).1 = decide (old.bytes.length < f.bytes.length) ∧
      total (·.bytes.length) (f.put fs) + old.bytes.length =
        total (·.bytes.length) fs + f.bytes.length := by
  induction fs with
  | nil => cases present
  | cons k rest ih =>
    obtain ⟨first, later⟩ := List.pairwise_cons.1 sorted
    by_cases eq : k.position = f.position
    · rw [List.find?_cons_of_pos (by simpa using eq)] at present
      obtain rfl := Option.some.inj present
      have not_lt : ¬ f.position < k.position := by omega
      simp only [enter, Fragment.put, if_neg not_lt, if_pos eq.symm, total_cons]
      split
      · next le => exact ⟨by simpa using le, by omega⟩
      · next gt => exact ⟨by simpa using gt, by omega⟩
    · rw [List.find?_cons_of_neg (by simpa using eq)] at present
      -- What stands at the position comes later, so the new fragment does not go first.
      have behind := first old (List.mem_of_find?_eq_some present)
      have at_position : old.position = f.position := by
        simpa using List.find?_some present
      obtain ⟨entered, sum⟩ := ih later present
      simp only [enter, Fragment.put, if_neg (show ¬ f.position < k.position by omega),
        if_neg (show ¬ f.position = k.position by omega), total_cons]
      exact ⟨entered, by omega⟩

theorem hold_of_entered (entered : (enter f r.pending).1 = true) :
    r.hold f = { r with
      pending := f.put r.pending
      tally := { r.tally with outOfOrder := r.tally.outOfOrder + 1 } } := by
  simp only [hold, entered, if_true, Fragment.put_eq_enter entered]

theorem hold_of_not_entered (out : (enter f r.pending).1 = false) :
    r.hold f = { r with tally := { r.tally with repeated := r.tally.repeated + 1 } } := by
  simp only [hold, out, Bool.false_eq_true, if_false]

theorem hold?_window (sorted : Fragment.Ascending r.pending) :
    r.window.hold? f = some (r.hold f).window := by
  simp only [Window.hold?, show r.window.pending = r.pending from rfl]
  cases present : r.pending.find? (·.position = f.position) with
  | none =>
    obtain ⟨entered, sum⟩ := enter_of_absent present
    rw [hold_of_entered entered]
    simp [window, layout, pendingSize, sum]
  | some old =>
    obtain ⟨entered, sum⟩ := enter_of_present sorted present
    by_cases le : f.bytes.length ≤ old.bytes.length
    · rw [hold_of_not_entered (by simpa [entered] using le)]
      exact if_pos le
    · have part : old.bytes.length ≤ r.pendingSize :=
        le_total_of_mem (·.bytes.length) (List.mem_of_find?_eq_some present)
      rw [hold_of_entered (by simpa [entered] using le)]
      refine (if_neg le).trans ?_
      rw [show r.window.pendingBytes = r.pendingSize from rfl, sub?_of_le part]
      have counted : r.pendingSize - old.bytes.length + f.bytes.length =
          total (·.bytes.length) (f.put r.pending) := by
        unfold pendingSize at part ⊢
        omega
      simp only [Option.bind_eq_bind, Option.bind_some, counted]
      rfl

theorem moveBack?_window (wf : r.WellFormed) {head : Nat} (set : r.head = some head)
    (whole : r.islands = []) (p : Nat) :
    r.window.moveBack? head p = some (r.moveBack head p).window := by
  have hstop := wf.frontier_eq set whole
  have data : r.window.data = r.run := by simp [window, layout, whole]
  have cut := Fragment.pieces?_eq hstop wf.stamped
  have put : (pieces head r.frontier r.run r.stamps).foldl (fun ps f => f.put ps) r.pending =
      pieces head r.frontier r.run r.stamps ++ r.pending := by
    rw [← List.nil_append r.pending, Fragment.foldl_put ?_ fun f hf k hk => ?_, List.nil_append,
      List.nil_append]
    · exact pieces_ascending hstop wf.stamps wf.stamped
    · have := bounds_of_mem_pieces hstop wf.stamps wf.stamped hf
      have := wf.ahead k hk
      omega
  rw [Window.moveBack?, data]
  simp only [show r.window.stamps = r.stamps from rfl, frontier_window, cut, Option.bind_eq_bind,
    Option.bind_some, show r.window.pending = r.pending from rfl, put]
  simp [window, layout, moveBack, whole, Marker.ofIslands, pendingSize, Nat.add_comm]

theorem anchor?_window (wf : r.WellFormed) (p : Nat) :
    r.window.anchor? p = some (r.anchor p).window := by
  have markers : r.window.markers.isEmpty = r.islands.isEmpty := by
    cases islands : r.islands <;> simp [window, layout, islands, Marker.ofIslands]
  cases set : r.head with
  | none =>
    simp only [Window.anchor?, anchor, show r.window.head = none from set, set]
    rfl
  | some head =>
    simp only [Window.anchor?, anchor, show r.window.head = some head from set, set, markers,
      show r.window.advanced = r.advanced from rfl]
    split
    · next back =>
      simp only [Bool.and_eq_true, List.isEmpty_iff] at back
      exact moveBack?_window wf set back.2 p
    · rfl

theorem place?_window (ready : r.Ready g) (small : r.Small) (g_small : g.stop ≤ maxPosition)
    (at_least : r.frontier ≤ g.position) :
    r.window.place? g =
      some ((if g.position = r.frontier then (r.append g).flush
        else r.hold g).declareGaps.crossGaps.enforceCapacity).window := by
  have settle : ∀ s : Reassembly, Moves g r s → (∀ k ∈ s.pending, s.frontier < k.position) →
      (do (← s.window.declareGaps?).crossGaps.enforceCapacity?) =
        some s.declareGaps.crossGaps.enforceCapacity.window := by
    intro s moves ahead
    have ordered := ready.toOrdered.moves moves
    have declared : Moves g s s.declareGaps := moves_declareGaps g ordered.pending ahead
    have small := (small.moves g_small moves).moves g_small (declared.tail .cross)
    rw [declareGaps?_window ordered (Small.moves ‹r.Small› g_small moves) ahead]
    simp only [Option.bind_eq_bind, Option.bind_some, crossGaps_window]
    exact enforceCapacity?_window (ordered.moves (declared.tail .cross)) small
  rw [Window.place?]
  by_cases at_frontier : g.position = r.frontier
  · rw [if_pos at_frontier, if_pos (show g.position = r.window.frontier from at_frontier)]
    have append : Move g r (r.append g) := by
      have := Move.append (g := g) ready.set (Nat.le_of_eq at_frontier)
        (at_frontier ▸ Nat.le_add_right ..)
      rwa [Fragment.startingAt_of_le at_least] at this
    have flush : Moves g (r.append g) (r.append g).flush := moves_flushFrom g (r.append g) r.pending
    have flushed := flushFrom?_layout (r := r.append g) small.pending
    simp only [window, append?_layout g_small, Option.bind_eq_bind, Option.bind_some]
    refine (congrArg (Option.bind · _) flushed).trans ?_
    exact settle _ (.head append flush) (flushFrom_ahead _ ready.pending)
  · rw [if_neg at_frontier, if_neg (show ¬ g.position = r.window.frontier from at_frontier),
      hold?_window ready.pending]
    have ahead : r.frontier < g.position := by omega
    exact settle _ (moves_hold ready.set ahead) (ready.ahead_hold ahead)

theorem file_of_new (new : ¬ (g.position < r.frontier ∧ g.stop ≤ r.frontier)) :
    r.file g =
      (if (g.startingAt r.frontier).position = r.frontier then
        (r.append (g.startingAt r.frontier)).flush
      else r.hold (g.startingAt r.frontier)).declareGaps.crossGaps.enforceCapacity := by
  rw [file, if_neg (by simpa using new)]

theorem file?_window (ready : r.Ready g) (small : r.Small) (g_small : g.stop ≤ maxPosition) :
    r.window.file? g = some (r.file g).window := by
  have noted : r.window.noteRepeated g.position = (r.noteRepeated g.position).window := by
    unfold Window.noteRepeated noteRepeated
    split
    · next near => exact (if_pos near).symm ▸ rfl
    · next far => exact (if_neg far).symm ▸ rfl
  rw [Window.file?]
  by_cases before : g.position < r.frontier
  · rw [if_pos (show g.position < r.window.frontier from before), Fragment.stop?_of_le g_small]
    simp only [Option.bind_eq_bind, Option.bind_some]
    rw [show r.window.frontier = r.frontier from rfl]
    by_cases old : g.stop ≤ r.frontier
    · rw [if_pos old, noted, file, if_pos (by simpa using ⟨before, old⟩)]
    · have cut : (g.startingAt r.frontier).stop = g.stop := Fragment.stop_startingAt (by omega)
      have position := Fragment.position_startingAt g r.frontier
      have ready' : r.Ready (g.startingAt r.frontier) :=
        ⟨ready.toOrdered, ready.set, ready.ahead, fun still whole => by
          have := ready.head_le still whole
          omega⟩
      rw [if_neg old, sub?_of_le (Nat.le_of_lt before), Option.bind_some,
        Fragment.behind?_eq (Nat.le_of_lt before) (by omega) g_small, Option.bind_some,
        place?_window ready' small (cut ▸ g_small) (by omega), file_of_new (fun h => old h.2)]
  · rw [if_neg (show ¬ g.position < r.window.frontier from before),
      place?_window ready small g_small (Nat.not_lt.1 before), file_of_new (fun h => before h.1),
      Fragment.startingAt_of_le (Nat.not_lt.1 before)]

theorem stop_lastBytes (f : Fragment) (n : Nat) : (f.lastBytes n).stop = f.stop := by
  refine Fragment.stop_startingAt ?_
  simp only [Fragment.stop]
  omega

theorem add?_window (wf : r.WellFormed) (small : r.Small) (f_small : f.stop ≤ maxPosition) :
    r.window.add? f = some (r.add f).window := by
  by_cases empty : f.bytes.isEmpty
  · rw [Window.add?, if_pos empty, add, if_pos empty]
  set kept := f.lastBytes r.limits.capacity with hkept
  have kept_small : kept.stop ≤ maxPosition := by rwa [hkept, stop_lastBytes]
  have filed : ∀ tally : Tally,
      (do (← Window.anchor? { r.window with tally := tally } kept.position).file? kept) =
        some (({ r with tally := tally }.anchor kept.position).file kept).window := by
    intro tally
    obtain ⟨anchored, ready, -⟩ := anchor_spec (wf.withTally tally) kept
    have still : Small { r with tally := tally } := ⟨small.frontier, small.pending⟩
    refine (congrArg (Option.bind · _) (anchor?_window (wf.withTally tally) kept.position)).trans ?_
    exact file?_window ready (still.moves kept_small anchored) kept_small
  rw [Window.add?, if_neg empty, add, if_neg empty]
  by_cases long : r.limits.capacity < f.bytes.length
  · have kept_eq : f.behind? (f.bytes.length - r.limits.capacity) = some kept := by
      have := Fragment.behind?_eq (f := f) (p := f.position + (f.bytes.length - r.limits.capacity))
        (Nat.le_add_right ..) (by simp only [Fragment.stop]; omega) f_small
      rwa [Nat.add_sub_cancel_left] at this
    refine (if_pos (show r.window.limits.capacity < f.bytes.length from long)).trans ?_
    rw [limits_window, sub?_of_le (Nat.le_of_lt long)]
    simp only [Option.bind_eq_bind, Option.bind_some, kept_eq]
    exact filed _
  · have same : kept = f := Fragment.lastBytes_of_le (by omega)
    have none : f.bytes.length - r.limits.capacity = 0 := by omega
    refine (if_neg (show ¬ r.window.limits.capacity < f.bytes.length from long)).trans ?_
    simp only [none, Nat.add_zero]
    rw [← hkept, same]
    rw [same] at filed
    exact filed _

/-! ## What is held is not empty -/

/-- Nothing that is held or waits is empty, but for the last island behind a gap just declared. -/
structure Filled (r : Reassembly) : Prop where
  pending : ∀ f ∈ r.pending, f.bytes ≠ []
  islands : ∀ i ∈ r.islands.dropLast, i.bytes ≠ []
  /-- What fills an empty last island waits at the frontier. -/
  last : ∀ i, r.islands.getLast? = some i → i.bytes = [] → ∃ f ∈ r.pending, f.position = r.frontier

theorem filled_of_whole (pending : ∀ f ∈ r.pending, f.bytes ≠ []) (whole : r.islands = []) :
    r.Filled where
  pending := pending
  islands := by simp [whole]
  last := by simp [whole]

theorem Filled.append (h : r.Filled) (at_frontier : f.position = r.frontier) :
    (r.append f).Filled := by
  rcases r.append_cases f with ⟨-, hr⟩ | ⟨islands, i, cut, hr⟩
  · rw [hr]
    exact filled_of_whole h.pending rfl
  · rw [hr]
    refine ⟨h.pending, ?_, ?_⟩
    · simpa [cut] using h.islands
    · intro j hj empty
      simp only [List.getLast?_concat, Option.some.injEq] at hj
      subst hj
      obtain ⟨i_empty, f_empty⟩ := List.append_eq_nil_iff.1 empty
      obtain ⟨k, hk, position⟩ := h.last i (by simp [cut]) i_empty
      refine ⟨k, hk, ?_⟩
      show k.position = f.stop
      rw [position, Fragment.stop, f_empty, at_frontier]
      rfl

theorem Filled.suffix {islands : List Island} (h : r.Filled) (part : islands <:+ r.islands)
    (head : Nat) (run : Bytes) : (r.moveHead head run islands).Filled where
  pending := h.pending
  islands := by
    obtain ⟨gone, hg⟩ := part
    intro i hi
    have some : islands ≠ [] := by
      rintro rfl
      cases hi
    refine h.islands i ?_
    rw [← hg, List.dropLast_append_of_ne_nil some]
    exact List.mem_append_right gone hi
  last := by
    obtain ⟨gone, hg⟩ := part
    intro i hi empty
    refine h.last i ?_ empty
    rw [← hg, List.getLast?_append, show islands.getLast? = some i from hi]
    rfl

theorem dropHeld_suffix (n position : Nat) (run : Bytes) (islands : List Island) :
    (dropHeld n position run islands).2.2 <:+ islands := by
  induction islands generalizing n position run with
  | nil => exact List.suffix_refl []
  | cons i rest ih =>
    rw [dropHeld]
    split
    · exact List.suffix_refl _
    · exact (ih _ _ _).trans (List.suffix_cons i rest)

theorem firstRun_suffix (position : Nat) (run : Bytes) (islands : List Island) :
    (firstRun position run islands).2.2 <:+ islands := by
  induction islands generalizing position run with
  | nil => exact List.suffix_refl []
  | cons i rest ih =>
    rw [firstRun]
    split
    · exact (ih _ _).trans (List.suffix_cons i rest)
    · exact List.suffix_refl _

theorem Filled.consume (h : r.Filled) (n : Nat) : (r.consume n).Filled := by
  rcases r.consume_cases n with ⟨hr, -⟩ | ⟨-, hr⟩
  · rwa [hr]
  · rw [hr]
    exact h.suffix (dropHeld_suffix ..) _ _

theorem Filled.crossGaps (h : r.Filled) : r.crossGaps.Filled := by
  rcases r.crossGaps_cases with ⟨hr, -⟩ | ⟨-, hr⟩
  · rwa [hr]
  · rw [hr]
    exact h.suffix (firstRun_suffix ..) _ _

theorem mem_enter_of_ne {k : Fragment} {fs : List Fragment} (hk : k ∈ fs)
    (ne : f.position ≠ k.position) : k ∈ (enter f fs).2 := by
  induction fs with
  | nil => cases hk
  | cons g rest ih =>
    simp only [enter]
    split
    · exact List.mem_cons_of_mem f hk
    · split
      · next eq =>
        have later : k ∈ rest := (List.mem_cons.1 hk).resolve_left fun e => ne (e ▸ eq)
        split
        · exact hk
        · exact List.mem_cons_of_mem f later
      · rcases List.mem_cons.1 hk with rfl | hk
        · exact List.mem_cons_self
        · exact List.mem_cons_of_mem g (ih hk)

theorem bytes_ne_nil_of_lt (h : f.position < f.stop) : f.bytes ≠ [] := by
  intro none
  rw [Fragment.stop, none] at h
  exact absurd h (Nat.lt_irrefl _)

theorem lt_stop_of_bytes_ne_nil (h : f.bytes ≠ []) : f.position < f.stop :=
  Nat.lt_add_of_pos_right (List.length_pos_of_ne_nil h)

theorem Filled.move (h : r.Filled) (ordered : r.Ordered) (hg : g.bytes ≠ []) (m : Move g r r') :
    r'.Filled := by
  cases m with
  | count _ _ _ => exact ⟨h.pending, h.islands, h.last⟩
  | place unset => exact filled_of_whole h.pending (ordered.unset unset).2.2.2.1
  | back wf set _ _ whole =>
    refine filled_of_whole (fun f hf => ?_) whole
    rcases List.mem_append.1 hf with hf | hf
    · have := bounds_of_mem_pieces (wf.frontier_eq set whole) wf.stamps wf.stamped hf
      exact bytes_ne_nil_of_lt this.2.1
    · exact h.pending f hf
  | append _ reaches _ =>
    refine h.append ?_
    rw [Fragment.position_startingAt]
    omega
  | hold _ ahead =>
    refine ⟨fun f hf => ?_, h.islands, fun i hi empty => ?_⟩
    · rcases mem_enter hf with rfl | hf
      · exact hg
      · exact h.pending f hf
    · obtain ⟨k, hk, position⟩ := h.last i hi empty
      exact ⟨k, mem_enter_of_ne hk (by omega), position⟩
  | @flush f rest first reaches lt =>
    have appended : (r.append (f.startingAt r.frontier)).Filled := by
      refine h.append ?_
      rw [Fragment.position_startingAt]
      omega
    refine ⟨fun k hk => h.pending k (first ▸ List.mem_cons_of_mem f hk), appended.islands, ?_⟩
    -- The fragment brings bytes, so the last island is not empty.
    intro i hi empty
    exfalso
    have bytes : (f.startingAt r.frontier).bytes ≠ [] := by
      refine bytes_ne_nil_of_lt ?_
      rw [Fragment.position_startingAt, Fragment.stop_startingAt (Nat.le_of_lt lt)]
      omega
    rcases r.append_cases (f.startingAt r.frontier) with ⟨-, hr⟩ | ⟨islands, j, -, hr⟩
    · simp [hr] at hi
    · simp only [hr, List.getLast?_concat, Option.some.injEq] at hi
      subst hi
      exact bytes (List.append_eq_nil_iff.1 empty).2
  | @skip f rest first covered =>
    refine ⟨fun k hk => h.pending k (first ▸ List.mem_cons_of_mem f hk), h.islands, ?_⟩
    intro i hi empty
    obtain ⟨k, hk, position⟩ := h.last i hi empty
    have filled := lt_stop_of_bytes_ne_nil (h.pending k hk)
    rw [first] at hk
    rcases List.mem_cons.1 hk with rfl | hk
    · omega
    · exact ⟨k, hk, position⟩
  | @declare f rest first hole _ =>
    refine ⟨h.pending, fun i hi => ?_, fun _ _ _ => ⟨f, first ▸ List.mem_cons_self, rfl⟩⟩
    simp only [Reassembly.declareGap, List.dropLast_concat] at hi
    rcases List.eq_nil_or_concat r.islands with none | ⟨islands, j, cut⟩
    · simp [none] at hi
    -- What would fill an empty last island stands at the frontier, but the first to wait does not.
    intro empty
    rw [List.concat_eq_append] at cut
    have inner := h.islands
    rw [cut, List.dropLast_concat] at inner
    rw [cut] at hi
    rcases List.mem_append.1 hi with hi | hi
    · exact inner i hi empty
    · rw [List.mem_singleton.1 hi] at empty
      obtain ⟨k, hk, position⟩ := h.last j (by simp [cut]) empty
      have sorted := ordered.pending
      rw [first] at sorted hk
      rcases List.mem_cons.1 hk with rfl | hk
      · omega
      · have := (List.pairwise_cons.1 sorted).1 k hk
        omega
  | cross => exact h.crossGaps
  | drop _ => exact h.consume _

theorem filled_replay (room : 1 ≤ limits.capacity) (calls : List Call) :
    (replay limits calls).Filled := by
  induction calls using List.reverseRecOn with
  | nil => exact filled_of_whole nofun rfl
  | append_singleton calls call ih =>
    rw [replay_concat]
    cases call with
    | consume n => exact ih.consume n
    | add f =>
      by_cases given : f.bytes = []
      · rw [apply, add, if_pos (List.isEmpty_iff.2 given)]
        exact ih
      · have kept : (f.lastBytes (replay limits calls).limits.capacity).bytes ≠ [] := by
          refine bytes_ne_nil_of_lt ?_
          have some := List.length_pos_of_ne_nil given
          rw [stop_lastBytes, Fragment.lastBytes, Fragment.position_startingAt, replay_limits,
            Fragment.stop]
          omega
        exact (wellFormed_replay limits calls).add_induction
          (fun _ _ ordered m hs => hs.move ordered kept m) ih

theorem Filled.islands_ne_nil (h : r.Filled) (wf : r.WellFormed) :
    ∀ i ∈ r.islands, i.bytes ≠ [] := by
  intro i hi empty
  rcases List.eq_nil_or_concat r.islands with none | ⟨islands, j, cut⟩
  · simp [none] at hi
  rw [List.concat_eq_append] at cut
  have inner := h.islands
  rw [cut, List.dropLast_concat] at inner
  rw [cut] at hi
  rcases List.mem_append.1 hi with hi | hi
  · exact inner i hi empty
  · rw [List.mem_singleton.1 hi] at empty
    obtain ⟨k, hk, position⟩ := h.last j (by simp [cut]) empty
    have := wf.ahead k hk
    omega

/-! ## The head stands at a byte where there is one -/

/-- The head is not just before a gap. -/
def Led (r : Reassembly) : Prop := r.run ≠ [] ∨ r.islands = []

theorem dropHeld_led (n position : Nat) (run : Bytes) (islands : List Island) :
    (dropHeld n position run islands).2.1 ≠ [] ∨ (dropHeld n position run islands).2.2 = [] := by
  induction islands generalizing n position run with
  | nil => exact .inr rfl
  | cons i rest ih =>
    rw [dropHeld]
    split
    · next more =>
      rw [atLeast_iff] at more
      refine .inl (List.ne_nil_of_length_pos ?_)
      rw [List.length_drop]
      omega
    · exact ih _ _ _

theorem firstRun_led (position : Nat) (run : Bytes) (islands : List Island) :
    (firstRun position run islands).2.1 ≠ [] ∨ (firstRun position run islands).2.2 = [] := by
  induction islands generalizing position run with
  | nil => exact .inr rfl
  | cons i rest ih =>
    rw [firstRun]
    split
    · exact ih _ _
    · next more => exact .inl (by simpa using more)

theorem Led.consume (h : r.Led) (n : Nat) : (r.consume n).Led := by
  rcases r.consume_cases n with ⟨hr, -⟩ | ⟨-, hr⟩
  · rwa [hr]
  · rw [hr]
    exact dropHeld_led ..

theorem led_crossGaps (r : Reassembly) : r.crossGaps.Led := by
  rcases r.crossGaps_cases with ⟨hr, led⟩ | ⟨-, hr⟩
  · rwa [hr]
  · rw [hr]
    exact firstRun_led ..

theorem Led.enforceCapacity (h : r.Led) : r.enforceCapacity.Led := by
  rcases r.enforceCapacity_cases with ⟨hr, -⟩ | ⟨-, tally, -, -, hr⟩
  · rwa [hr]
  · rw [hr]
    exact Led.consume (r := { r with tally := tally }) h _

theorem Led.anchor (h : r.Led) (p : Nat) : (r.anchor p).Led := by
  unfold Reassembly.anchor
  split
  · exact h
  · split
    · next back =>
      simp only [Bool.and_eq_true, List.isEmpty_iff] at back
      exact .inr back.2
    · exact h

theorem Led.add (h : r.Led) (f : Fragment) : (r.add f).Led := by
  rcases r.add_cases f with ⟨-, hr⟩ | ⟨-, tally, -, -, hr⟩
  · rwa [hr]
  · have anchored := Led.anchor (r := { r with tally := tally }) h
      (f.lastBytes r.limits.capacity).position
    rw [hr, file]
    split
    · unfold noteRepeated
      split
      · exact anchored
      · exact anchored
    · exact (led_crossGaps _).enforceCapacity

theorem Led.apply (h : r.Led) (call : Call) : (r.apply call).Led := by
  cases call with
  | add f => exact h.add f
  | consume n => exact h.consume n

theorem led_replay (limits : Limits) (calls : List Call) : (replay limits calls).Led := by
  have fresh : (replay limits []).Led := .inr rfl
  exact replay_later (fun _ call _ led => led.apply call) fresh calls

end Dialogue.Reassembly

/-! ## What the layout keeps between calls -/

namespace Dialogue

/-- How the offsets and counters of a layout agree. -/
structure Window.Consistent (w : Window) : Prop where
  /-- The frontier is behind all bytes in order and the gaps between them. -/
  frontier : w.frontier = w.head.getD 0 + w.data.length + total (·.gap.length) w.markers
  ascending : w.markers.Pairwise (·.offset < ·.offset)
  within : ∀ m ∈ w.markers, 0 < m.offset ∧ m.offset < w.data.length
  ahead : ∀ f ∈ w.pending, w.frontier < f.position
  pendingBytes : w.pendingBytes = total (·.bytes.length) w.pending
  size_le : w.data.length ≤ w.limits.capacity
  reach : ∀ f ∈ w.pending, f.stop ≤ w.frontier + w.limits.maxGap

theorem Marker.ofIslands_spec {offset : Nat} {islands : List Island}
    (filled : ∀ i ∈ islands, i.bytes ≠ []) :
    (ofIslands offset islands).Pairwise (·.offset < ·.offset) ∧
      ∀ m ∈ ofIslands offset islands,
        offset ≤ m.offset ∧ m.offset < offset + total (·.bytes.length) islands := by
  induction islands generalizing offset with
  | nil => exact ⟨.nil, nofun⟩
  | cons i rest ih =>
    obtain ⟨first, later⟩ := List.forall_mem_cons.1 filled
    have some := List.length_pos_of_ne_nil first
    obtain ⟨sorted, bounds⟩ := @ih (offset + i.bytes.length) later
    refine ⟨List.pairwise_cons.2 ⟨fun m hm => ?_, sorted⟩, fun m hm => ?_⟩
    · have := bounds m hm
      show offset < m.offset
      omega
    · rw [total_cons]
      rcases List.mem_cons.1 hm with rfl | hm
      · show offset ≤ offset ∧ offset < _
        omega
      · have := bounds m hm
        omega

namespace Reassembly

variable {limits : Limits} {r : Reassembly}

theorem Chained.stop_eq {stop position : Nat} {run : Bytes} {islands : List Island}
    (h : Chained stop position run islands) :
    stop = position + (run.length + total (·.bytes.length) islands) +
      total (·.gap.length) islands := by
  induction islands generalizing position run with
  | nil => exact h.symm
  | cons i rest ih =>
    obtain ⟨h1, h2, h3⟩ := h
    have := ih h3
    have length : i.gap.length = i.gap.stop - i.gap.start := rfl
    rw [total_cons, total_cons]
    omega

theorem consistent_window (wf : r.WellFormed) (filled : r.Filled) (led : r.Led) :
    r.window.Consistent where
  frontier := by
    have stop := wf.inOrder.stop_eq
    rw [length_data_window]
    show r.frontier = r.position + r.size + total (·.gap.length) (Marker.ofIslands _ r.islands)
    rwa [Marker.total_gap_ofIslands]
  ascending := (Marker.ofIslands_spec (filled.islands_ne_nil wf)).1
  within := by
    intro m hm
    have bounds := (Marker.ofIslands_spec (filled.islands_ne_nil wf)).2 m hm
    rw [length_data_window, size]
    have run : r.run ≠ [] := led.resolve_right fun none => by
      simp [window, layout, none, Marker.ofIslands] at hm
    have := List.length_pos_of_ne_nil run
    omega
  ahead := wf.ahead
  pendingBytes := rfl
  size_le := by
    rw [length_data_window]
    exact wf.size_le
  reach := wf.reach

theorem run?_window (r : Reassembly) : r.window.run? = some r.run := by
  cases islands : r.islands with
  | nil =>
    have data : r.window.data = r.run := by simp [window, layout, islands]
    have markers : r.window.markers = [] := by simp [window, layout, islands, Marker.ofIslands]
    simp only [Window.run?, data, markers]
    exact part?_to_end (Nat.zero_le _)
  | cons i rest =>
    have markers : r.window.markers =
        ⟨r.run.length, i.gap⟩ :: Marker.ofIslands (r.run.length + i.bytes.length) rest := by
      simp [window, layout, islands, Marker.ofIslands]
    simp only [Window.run?, markers]
    exact part?_from_start r.run _

theorem small_replay {calls : List Call} (small : ∀ f, .add f ∈ calls → f.stop ≤ maxPosition) :
    (replay limits calls).Small := by
  induction calls using List.reverseRecOn with
  | nil => exact ⟨Nat.zero_le _, nofun⟩
  | append_singleton calls call ih =>
    have before := ih fun f hf => small f (List.mem_append_left _ hf)
    rw [replay_concat]
    cases call with
    | add f =>
      have f_small := small f (by simp)
      exact (wellFormed_replay limits calls).add_induction
        (fun _ _ _ m hs => hs.move (by rwa [stop_lastBytes]) m) before
    | consume n => exact before.consume n

theorem replay?_eq {calls : List Call} (small : ∀ f, .add f ∈ calls → f.stop ≤ maxPosition) :
    Window.replay? limits calls = some (replay limits calls).window := by
  induction calls using List.reverseRecOn with
  | nil => rfl
  | append_singleton calls call ih =>
    have earlier : ∀ f, .add f ∈ calls → f.stop ≤ maxPosition :=
      fun f hf => small f (List.mem_append_left _ hf)
    have wf := wellFormed_replay limits calls
    have fits : (replay limits calls).Small := small_replay earlier
    have before := ih earlier
    rw [Window.replay?] at before ⊢
    rw [List.foldlM_append, before, replay_concat]
    simp only [Option.bind_eq_bind, Option.bind_some, List.foldlM_cons, List.foldlM_nil]
    cases call with
    | add f => simp [Window.call?, add?_window wf fits (small f (by simp)), apply]
    | consume n => simp [Window.call?, consume?_window wf.toOrdered fits n, apply]

/-- **No arithmetic fails.** As long as positions fit into their word, no call of a run subtracts
below zero, cuts a slice out of bounds or reaches a position that is too large, and the layout it
ends in is that of the reassembly. In it the frontier is behind the bytes and gaps held, the offsets
of the gaps ascend within the bytes, all that waits is ahead of the frontier, counted and not too
far, the bytes fit into the capacity, and the head run can be cut out. -/
theorem arithmetic_safe (room : 1 ≤ limits.capacity) {calls : List Call}
    (small : ∀ f, .add f ∈ calls → f.stop ≤ maxPosition) :
    Window.replay? limits calls = some (replay limits calls).window ∧
      (replay limits calls).window.Consistent ∧
      (replay limits calls).window.run? = some (replay limits calls).run :=
  ⟨replay?_eq small,
    consistent_window (wellFormed_replay limits calls) (filled_replay room calls)
      (led_replay limits calls),
    run?_window _⟩

/-- The head moves back, a gap is declared lost and crossed, and the oldest bytes are dropped. -/
def eventful : List Call :=
  [.add ⟨4, 0, [5, 6]⟩, .add ⟨2, 1, [3, 4]⟩, .add ⟨9, 2, [10]⟩, .add ⟨11, 3, [12, 13]⟩,
    .consume 3, .add ⟨13, 4, [14, 15, 16, 17, 18]⟩]

theorem arithmetic_safe_eventful :
    let limits : Limits := { capacity := 6, maxGap := 4 }
    1 ≤ limits.capacity ∧ (∀ f, .add f ∈ eventful → f.stop ≤ maxPosition) ∧
      Window.replay? limits eventful = some (replay limits eventful).window ∧
      (replay limits eventful).window.Consistent ∧
      (replay limits eventful).window.run? = some (replay limits eventful).run := by
  intro limits
  have small : ∀ f, .add f ∈ eventful → f.stop ≤ maxPosition := by
    simp [eventful, Fragment.stop, maxPosition]
  exact ⟨by decide, small, arithmetic_safe (by decide) small⟩

end Reassembly

end Dialogue
