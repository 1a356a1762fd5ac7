import Mathlib
import Dialogue.Proofs.Reassembly.Held

/-!
What taking in a fragment can do to a reassembly.

`Move g` lists the steps that filing the fragment `g` is made of, each with the condition under
which it is made, and `moves_add` shows that taking in a fragment is a sequence of them. So a
property that every move keeps is kept by `add` (`WellFormed.add_induction`). The first such
property is `Ordered`: the bytes in order end at the frontier, and stamps and waiting fragments
stand in ascending order. Between two calls a reassembly is `WellFormed`: whatever waits is ahead of
the frontier and ends within the allowed gap, and no more is held in order than the capacity allows.
`replay` is the state after any calls on a fresh reassembly, in any order.
-/
namespace Dialogue.Reassembly

/-- The order in which everything is held, at any moment. -/
structure Ordered (r : Reassembly) : Prop where
  inOrder : r.InOrder
  stamps : Stamp.Ascending r.stamps
  stamped : ∀ s ∈ r.stamps, s.position ≤ r.frontier
  pending : Fragment.Ascending r.pending
  /-- Before the first fragment nothing is held. -/
  unset : r.head = none →
    r.advanced = false ∧ r.frontier = 0 ∧ r.run = [] ∧ r.islands = [] ∧ r.pending = [] ∧
      r.stamps = []

/-- What holds between two calls. -/
structure WellFormed (r : Reassembly) : Prop extends Ordered r where
  ahead : ∀ f ∈ r.pending, r.frontier < f.position
  reach : ∀ f ∈ r.pending, f.stop ≤ r.frontier + r.limits.maxGap
  size_le : r.size ≤ r.limits.capacity

/-- The steps that filing the fragment `g` is made of. -/
inductive Move (g : Fragment) : Reassembly → Reassembly → Prop where
  /-- Something is counted that is no lost gap. -/
  | count {r : Reassembly} (tally : Tally) (gaps : tally.gaps = r.tally.gaps)
      (gapBytes : tally.gapBytes = r.tally.gapBytes) : Move g r { r with tally := tally }
  /-- The first fragment gives the head its place. -/
  | place {r : Reassembly} (unset : r.head = none) :
      Move g r { r with head := some g.position, frontier := g.position }
  /-- A head that nothing has left moves back. -/
  | back {r : Reassembly} {head : Nat} (wf : r.WellFormed) (set : r.head = some head)
      (lt : g.position < head) (unmoved : r.advanced = false) (whole : r.islands = []) :
      Move g r (r.moveBack head g.position)
  /-- The fragment, or what of it lies behind the frontier, is appended. -/
  | append {r : Reassembly} (set : r.head ≠ none) (reaches : g.position ≤ r.frontier)
      (le : r.frontier ≤ g.stop) : Move g r (r.append (g.startingAt r.frontier))
  /-- The fragment waits. -/
  | hold {r : Reassembly} (set : r.head ≠ none) (ahead : r.frontier < g.position) :
      Move g r { r with pending := (enter g r.pending).2 }
  /-- The first waiting fragment is appended. -/
  | flush {r : Reassembly} {f : Fragment} {rest : List Fragment} (first : r.pending = f :: rest)
      (reaches : f.position ≤ r.frontier) (lt : r.frontier < f.stop) :
      Move g r { r.append (f.startingAt r.frontier) with pending := rest }
  /-- The first waiting fragment is dropped, since all of it lies before the frontier. -/
  | skip {r : Reassembly} {f : Fragment} {rest : List Fragment} (first : r.pending = f :: rest)
      (covered : f.stop ≤ r.frontier) : Move g r { r with pending := rest }
  /-- The hole before the first waiting fragment is declared lost. -/
  | declare {r : Reassembly} {f : Fragment} {rest : List Fragment} (first : r.pending = f :: rest)
      (hole : r.frontier < f.position) (far : r.limits.maxGap < furthest r.pending - r.frontier) :
      Move g r (r.declareGap f.position)
  /-- Gaps that no byte precedes are crossed. -/
  | cross {r : Reassembly} : Move g r r.crossGaps
  /-- The oldest bytes are dropped, as far as there are too many. -/
  | drop {r : Reassembly} (full : r.limits.capacity < r.size) :
      Move g r (r.consume (r.size - r.limits.capacity))

/-- Moves in sequence. -/
abbrev Moves (g : Fragment) : Reassembly → Reassembly → Prop := Relation.ReflTransGen (Move g)

/-! ## Every move keeps the order -/

theorem Ordered.append {r : Reassembly} {f : Fragment} (h : r.Ordered) (set : r.head ≠ none)
    (hf : f.position = r.frontier) : (r.append f).Ordered where
  inOrder := h.inOrder.append hf
  stamps := h.stamps.insert
  stamped := by
    intro s hs
    have := Nat.le_add_right f.position f.bytes.length
    rcases Stamp.mem_insert hs with rfl | hs
    · exact this
    · exact Nat.le_trans (h.stamped s hs) (hf ▸ this)
  pending := h.pending
  unset := fun hn => absurd hn set

theorem Ordered.moveHead {r : Reassembly} {p : Nat} {run : Bytes} {islands : List Island}
    (h : r.Ordered) (hc : Chained r.frontier p run islands) :
    (r.moveHead p run islands).Ordered where
  inOrder := hc
  stamps := h.stamps.prune
  stamped := fun s hs => h.stamped s (Stamp.mem_of_mem_prune hs)
  pending := h.pending
  unset := fun hn => nomatch hn

theorem Ordered.consume {r : Reassembly} (h : r.Ordered) (n : Nat) : (r.consume n).Ordered := by
  rcases r.consume_cases n with ⟨hr, -⟩ | ⟨-, hr⟩
  · rwa [hr]
  · rw [hr]
    exact h.moveHead h.inOrder.dropHeld

theorem Ordered.crossGaps {r : Reassembly} (h : r.Ordered) : r.crossGaps.Ordered := by
  rcases r.crossGaps_cases with ⟨hr, -⟩ | ⟨-, hr⟩
  · rwa [hr]
  · rw [hr]
    exact h.moveHead h.inOrder.firstRun

theorem Ordered.declareGap {r : Reassembly} {stop : Nat} (h : r.Ordered) (set : r.head ≠ none)
    (lt : r.frontier < stop) : (r.declareGap stop).Ordered where
  inOrder := h.inOrder.declareGap lt
  stamps := h.stamps
  stamped := fun s hs => Nat.le_trans (h.stamped s hs) (Nat.le_of_lt lt)
  pending := h.pending
  unset := fun hn => absurd hn set

/-- The same order with other fragments waiting. -/
theorem Ordered.withPending {r : Reassembly} {fs : List Fragment} (h : r.Ordered)
    (set : r.head ≠ none) (hfs : Fragment.Ascending fs) :
    Ordered { r with pending := fs } where
  inOrder := h.inOrder
  stamps := h.stamps
  stamped := h.stamped
  pending := hfs
  unset := fun hn => absurd hn set

theorem Ordered.set_of_pending {r : Reassembly} {f : Fragment} {rest : List Fragment}
    (h : r.Ordered) (first : r.pending = f :: rest) : r.head ≠ none := by
  intro hn
  have := (h.unset hn).2.2.2.2.1
  rw [first] at this
  cases this

/-- Where there is one run, it stands between the head and the frontier. -/
theorem Ordered.frontier_eq {r : Reassembly} {head : Nat} (h : r.Ordered)
    (set : r.head = some head) (whole : r.islands = []) : r.frontier = head + r.run.length := by
  have := h.inOrder
  simp only [InOrder, whole, Chained, position, set, Option.getD_some] at this
  exact this.symm

theorem WellFormed.ordered_moveBack {r : Reassembly} {head p : Nat} (h : r.WellFormed)
    (set : r.head = some head) (whole : r.islands = []) : (r.moveBack head p).Ordered where
  inOrder := by simp [InOrder, moveBack, whole, Chained, position]
  stamps := .nil
  stamped := fun s hs => nomatch hs
  pending := by
    have hstop := h.frontier_eq set whole
    refine List.pairwise_append.2
      ⟨pieces_ascending hstop h.stamps h.stamped, h.pending, fun f hf g hg => ?_⟩
    have := bounds_of_mem_pieces hstop h.stamps h.stamped hf
    have := h.ahead g hg
    omega
  unset := fun hn => nomatch hn

theorem Ordered.move {g : Fragment} {r r' : Reassembly} (h : r.Ordered) (m : Move g r r') :
    r'.Ordered := by
  cases m with
  | count tally _ _ => exact ⟨h.inOrder, h.stamps, h.stamped, h.pending, h.unset⟩
  | place unset =>
    obtain ⟨-, -, hrun, hislands, hpending, hstamps⟩ := h.unset unset
    refine ⟨?_, ?_, ?_, ?_, fun hn => nomatch hn⟩
    · simp [InOrder, Chained, position, hrun, hislands]
    · rw [hstamps]
      exact .nil
    · simp [hstamps]
    · rw [hpending]
      exact .nil
  | back wf set _ _ whole => exact wf.ordered_moveBack set whole
  | append set reaches _ =>
    refine h.append set ?_
    rw [Fragment.position_startingAt]
    omega
  | hold set _ => exact h.withPending set (ascending_enter h.pending)
  | flush first reaches _ =>
    have set := h.set_of_pending first
    refine (h.append set ?_).withPending ?_ ?_
    · rw [Fragment.position_startingAt]
      omega
    · exact set
    · have := h.pending
      rw [first] at this
      exact (List.pairwise_cons.1 this).2
  | skip first _ =>
    refine h.withPending (h.set_of_pending first) ?_
    have := h.pending
    rw [first] at this
    exact (List.pairwise_cons.1 this).2
  | declare first hole _ => exact h.declareGap (h.set_of_pending first) hole
  | cross => exact h.crossGaps
  | drop _ => exact h.consume _

theorem Ordered.moves {g : Fragment} {r r' : Reassembly} (h : r.Ordered) (m : Moves g r r') :
    r'.Ordered := by
  induction m with
  | refl => exact h
  | tail _ last ih => exact ih.move last

/-- A fragment can be filed: the head has its place, as early as it can be. -/
structure Ready (g : Fragment) (r : Reassembly) : Prop extends Ordered r where
  set : r.head ≠ none
  ahead : ∀ f ∈ r.pending, r.frontier < f.position
  head_le : r.advanced = false → r.islands = [] → r.position ≤ g.position

/-- A fragment has been filed: each of its positions is before the frontier or waited for. -/
structure Filed (g : Fragment) (r : Reassembly) : Prop where
  head_le : r.advanced = false → r.islands = [] → r.position ≤ g.position
  kept : ∀ p, g.Covers p → p < r.frontier ∨ Fragment.Covered r.pending p

/-- Moves that file a fragment on the way. -/
def Files (g : Fragment) (r r' : Reassembly) : Prop :=
  ∃ s, Moves g r s ∧ s.Filed g ∧ Moves g s r'

theorem Files.moves {g : Fragment} {r r' : Reassembly} (h : Files g r r') : Moves g r r' := by
  obtain ⟨s, before, -, after⟩ := h
  exact before.trans after

theorem Files.after {g : Fragment} {r r' t : Reassembly} (moves : Moves g t r)
    (h : Files g r r') : Files g t r' := by
  obtain ⟨s, before, filed, after⟩ := h
  exact ⟨s, moves.trans before, filed, after⟩

/-! ## Taking in a fragment is a sequence of moves -/

/-- What waits after appending all that reaches the frontier is the end of what waited before. -/
theorem flushFrom_pending (r : Reassembly) (fs : List Fragment) :
    (r.flushFrom fs).pending <:+ fs := by
  induction fs generalizing r with
  | nil => exact List.suffix_refl []
  | cons f rest ih =>
    simp only [flushFrom]
    split
    · exact List.suffix_refl _
    · split
      · exact (ih r).trans (List.suffix_cons f rest)
      · exact (ih _).trans (List.suffix_cons f rest)

theorem flushFrom_ahead (r : Reassembly) {fs : List Fragment} (sorted : Fragment.Ascending fs) :
    ∀ f ∈ (r.flushFrom fs).pending, (r.flushFrom fs).frontier < f.position := by
  induction fs generalizing r with
  | nil => exact fun f hf => nomatch hf
  | cons f rest ih =>
    obtain ⟨first, later⟩ := List.pairwise_cons.1 sorted
    simp only [flushFrom]
    split
    · next lt =>
      intro g hg
      rcases List.mem_cons.1 hg with rfl | hg
      · exact lt
      · exact Nat.lt_trans lt (first g hg)
    · split
      · exact ih r later
      · exact ih _ later

theorem moves_flushFrom (g : Fragment) (r : Reassembly) (fs : List Fragment) :
    Moves g { r with pending := fs } (r.flushFrom fs) := by
  induction fs generalizing r with
  | nil => exact .refl
  | cons f rest ih =>
    simp only [flushFrom]
    split
    · exact .refl
    · next reaches =>
      rw [Nat.not_lt] at reaches
      split
      · next covered =>
        have skip : Move g { r with pending := f :: rest } { r with pending := rest } :=
          .skip rfl covered
        exact .head skip (ih r)
      · next lt =>
        rw [Nat.not_le] at lt
        have flush : Move g { r with pending := f :: rest }
            { r.append (f.startingAt r.frontier) with pending := rest } :=
          .flush (r := { r with pending := f :: rest }) rfl reaches lt
        exact .head flush (ih _)

theorem moves_declareGaps (g : Fragment) {r : Reassembly} (sorted : Fragment.Ascending r.pending)
    (ahead : ∀ f ∈ r.pending, r.frontier < f.position) : Moves g r r.declareGaps := by
  fun_induction declareGaps r with
  | case1 => exact .refl
  | case2 => exact .refl
  | case3 r f rest h far _ ih =>
    -- The hole before `f` is declared lost; then `f` and all that reaches the frontier is appended,
    -- and what is left waiting is again in order and ahead of the frontier.
    have hole : r.frontier < f.position := ahead f (h ▸ List.mem_cons_self)
    have declare : Move g r (r.declareGap f.position) := .declare h hole (Nat.not_le.1 far)
    have flush : Moves g (r.declareGap f.position)
        ((r.declareGap f.position).flushFrom (f :: rest)) := by
      have := moves_flushFrom g (r.declareGap f.position) (f :: rest)
      rwa [← h] at this ⊢
    rw [h] at sorted
    refine (Relation.ReflTransGen.head declare flush).trans (ih ?_ ?_)
    · exact sorted.sublist (flushFrom_pending _ _).sublist
    · exact flushFrom_ahead _ sorted

/-- After declaring gaps, what waits is ahead of the frontier and not too far. -/
theorem declareGaps_spec {r : Reassembly} (sorted : Fragment.Ascending r.pending)
    (ahead : ∀ f ∈ r.pending, r.frontier < f.position) :
    (∀ f ∈ r.declareGaps.pending, r.declareGaps.frontier < f.position) ∧
      ∀ f ∈ r.declareGaps.pending,
        f.stop ≤ r.declareGaps.frontier + r.declareGaps.limits.maxGap := by
  fun_induction declareGaps r with
  | case1 r h => simp [h]
  | case2 r f rest h near =>
    refine ⟨ahead, fun f hf => ?_⟩
    have : furthest r.pending ≤ r.frontier + r.limits.maxGap := by omega
    exact furthest_le.1 this f hf
  | case3 r f rest h far _ ih =>
    rw [h] at sorted
    exact ih (sorted.sublist (flushFrom_pending _ _).sublist) (flushFrom_ahead _ sorted)

theorem hold_eq (r : Reassembly) (g : Fragment) :
    ∃ tally : Tally, tally.gaps = r.tally.gaps ∧ tally.gapBytes = r.tally.gapBytes ∧
      r.hold g = { r with pending := (enter g r.pending).2, tally := tally } := by
  unfold hold
  split
  next entered pending he =>
  split
  · rw [he]
    exact ⟨{ r.tally with outOfOrder := r.tally.outOfOrder + 1 }, rfl, rfl, rfl⟩
  · next hn =>
    rw [enter_of_not_entered (by rw [he]; simpa using hn)]
    exact ⟨{ r.tally with repeated := r.tally.repeated + 1 }, rfl, rfl, rfl⟩

theorem pending_hold (r : Reassembly) (g : Fragment) :
    (r.hold g).pending = (enter g r.pending).2 := by
  obtain ⟨tally, -, -, h⟩ := r.hold_eq g
  rw [h]

theorem frontier_hold (r : Reassembly) (g : Fragment) : (r.hold g).frontier = r.frontier := by
  obtain ⟨tally, -, -, h⟩ := r.hold_eq g
  rw [h]

theorem moves_hold {g : Fragment} {r : Reassembly} (set : r.head ≠ none)
    (ahead : r.frontier < g.position) : Moves g r (r.hold g) := by
  obtain ⟨tally, gaps, gapBytes, h⟩ := r.hold_eq g
  rw [h]
  have hold : Move g r { r with pending := (enter g r.pending).2 } := .hold set ahead
  exact .tail (.single hold) (.count tally gaps gapBytes)

theorem enforceCapacity_cases (r : Reassembly) :
    (r.enforceCapacity = r ∧ r.size ≤ r.limits.capacity) ∨
      (r.limits.capacity < r.size ∧ ∃ tally : Tally, tally.gaps = r.tally.gaps ∧
        tally.gapBytes = r.tally.gapBytes ∧ r.enforceCapacity =
          consume { r with tally := tally } (r.size - r.limits.capacity)) := by
  unfold enforceCapacity
  simp only
  split
  · next h => exact .inl ⟨rfl, Nat.le_of_sub_eq_zero h⟩
  · next h =>
    exact .inr ⟨Nat.lt_of_sub_ne_zero h,
      { r.tally with dropped := r.tally.dropped + (r.size - r.limits.capacity) }, rfl, rfl, rfl⟩

theorem moves_enforceCapacity (g : Fragment) (r : Reassembly) : Moves g r r.enforceCapacity := by
  rcases r.enforceCapacity_cases with ⟨h, -⟩ | ⟨full, tally, gaps, gapBytes, h⟩
  · rw [h]
  · rw [h]
    have drop : Move g { r with tally := tally } _ := .drop full
    exact .head (.count tally gaps gapBytes) (.single drop)

/-- The head is placed, moved back, or left where it is. -/
theorem anchor_spec {r : Reassembly} (h : r.WellFormed) (g : Fragment) :
    Moves g r (r.anchor g.position) ∧ (r.anchor g.position).Ready g ∧
      ((r.anchor g.position).WellFormed ∨ (r.anchor g.position).frontier = g.position) := by
  unfold anchor
  split
  · next unset =>
    have place : Move g r _ := .place unset
    have nothing := (h.unset unset).2.2.2.2.1
    refine ⟨.single place, ⟨h.toOrdered.move place, Option.some_ne_none _, ?_, ?_⟩, .inr rfl⟩
    · simp [nothing]
    · exact fun _ _ => Nat.le_refl g.position
  · next head set =>
    split
    · next hc =>
      simp only [Bool.and_eq_true, decide_eq_true_eq, Bool.not_eq_true', List.isEmpty_iff] at hc
      obtain ⟨⟨lt, unmoved⟩, whole⟩ := hc
      have back : Move g r _ := .back h set lt unmoved whole
      have hstop := h.frontier_eq set whole
      refine ⟨.single back,
        ⟨h.toOrdered.move back, Option.some_ne_none _, fun f hf => ?_, ?_⟩, .inr rfl⟩
      · show g.position < f.position
        -- The pieces start at the old head or behind it, and the old head is behind the new one.
        rcases List.mem_append.1 hf with hf | hf
        · have := bounds_of_mem_pieces hstop h.stamps h.stamped hf
          omega
        · have := h.ahead f hf
          omega
      · exact fun _ _ => Nat.le_refl g.position
    · next hc =>
      refine ⟨.refl, ⟨h.toOrdered, by simp [set], h.ahead, fun unmoved whole => ?_⟩, .inl h⟩
      rw [position, set, Option.getD_some]
      simpa [unmoved, whole] using hc

/-- Declaring gaps, crossing them and dropping the excess restore what holds between two calls. -/
theorem settle_spec (g : Fragment) {r : Reassembly} (h : r.Ordered)
    (ahead : ∀ f ∈ r.pending, r.frontier < f.position) :
    Moves g r r.declareGaps.crossGaps.enforceCapacity ∧
      r.declareGaps.crossGaps.enforceCapacity.WellFormed := by
  have moves : Moves g r r.declareGaps.crossGaps.enforceCapacity :=
    ((moves_declareGaps g h.pending ahead).tail .cross).trans (moves_enforceCapacity g _)
  obtain ⟨ahead', reach'⟩ := declareGaps_spec h.pending ahead
  refine ⟨moves, h.moves moves, ?_, ?_, ?_⟩
  · rcases r.declareGaps.crossGaps.enforceCapacity_cases with ⟨hr, -⟩ | ⟨-, _, -, -, hr⟩
    · simpa [hr] using ahead'
    · simpa [hr] using ahead'
  · rcases r.declareGaps.crossGaps.enforceCapacity_cases with ⟨hr, -⟩ | ⟨-, _, -, -, hr⟩
    · simpa [hr] using reach'
    · simpa [hr] using reach'
  · rcases r.declareGaps.crossGaps.enforceCapacity_cases with ⟨hr, hle⟩ | ⟨full, _, -, -, hr⟩
    · rwa [hr]
    · rw [hr, size_consume, consume_limits]
      simp only [size] at full ⊢
      omega

theorem moves_noteRepeated (g : Fragment) (r : Reassembly) (p : Nat) :
    Moves g r (r.noteRepeated p) := by
  unfold noteRepeated
  split
  · exact .single (.count _ rfl rfl)
  · exact .single (.count _ rfl rfl)

theorem WellFormed.noteRepeated {r : Reassembly} (h : r.WellFormed) (p : Nat) :
    (r.noteRepeated p).WellFormed := by
  have ordered : (r.noteRepeated p).Ordered :=
    h.toOrdered.moves (moves_noteRepeated ⟨0, 0, []⟩ r p)
  unfold Reassembly.noteRepeated at ordered ⊢
  split at ordered
  · next hp =>
    rw [if_pos hp]
    exact ⟨ordered, h.ahead, h.reach, h.size_le⟩
  · next hp =>
    rw [if_neg hp]
    exact ⟨ordered, h.ahead, h.reach, h.size_le⟩

theorem Ready.filed_append {g : Fragment} {r : Reassembly} (h : r.Ready g)
    (le : r.frontier ≤ g.stop) : (r.append (g.startingAt r.frontier)).Filed g where
  head_le := by
    intro unmoved whole
    have : r.islands = [] := by
      rcases r.append_cases (g.startingAt r.frontier) with ⟨hr, -⟩ | ⟨_, _, -, hr⟩
      · exact hr
      · rw [hr] at whole
        simp at whole
    exact h.head_le unmoved this
  kept := by
    intro p hp
    rw [append_frontier, Fragment.stop_startingAt le]
    exact .inl hp.2

theorem Ready.filed_hold {g : Fragment} {r : Reassembly} (h : r.Ready g) : (r.hold g).Filed g where
  head_le := by
    obtain ⟨tally, -, -, hr⟩ := r.hold_eq g
    rw [hr]
    exact h.head_le
  kept := by
    intro p hp
    rw [pending_hold]
    exact .inr (covered_enter (.inl rfl) hp)

theorem Ready.ahead_hold {g : Fragment} {r : Reassembly} (h : r.Ready g)
    (beyond : r.frontier < g.position) :
    ∀ f ∈ (r.hold g).pending, (r.hold g).frontier < f.position := by
  intro f hf
  rw [pending_hold] at hf
  rw [frontier_hold]
  rcases mem_enter hf with rfl | hf
  · exact beyond
  · exact h.ahead f hf

/-- Filing a fragment that brings something new. -/
theorem file_new_spec {r : Reassembly} {g : Fragment} (h : r.Ready g)
    (new : ¬ (g.position < r.frontier ∧ g.stop ≤ r.frontier)) :
    Files g r (r.file g) ∧ (r.file g).WellFormed := by
  have bounds : g.position ≤ g.stop := Nat.le_add_right ..
  unfold file
  rw [if_neg (by simpa using new)]
  simp only [Fragment.position_startingAt]
  -- Cut at the frontier, the fragment is appended if it starts there, and waits if it starts ahead.
  split
  · next at_frontier =>
    have append : Move g r (r.append (g.startingAt r.frontier)) :=
      .append h.set (by omega) (by omega)
    have flush : Moves g (r.append (g.startingAt r.frontier))
        (r.append (g.startingAt r.frontier)).flush :=
      moves_flushFrom g (r.append (g.startingAt r.frontier)) r.pending
    obtain ⟨settle, wf⟩ := settle_spec g (h.toOrdered.moves (.head append flush))
      (flushFrom_ahead _ h.pending)
    exact ⟨⟨_, .single append, h.filed_append (by omega), flush.trans settle⟩, wf⟩
  · next beyond =>
    have hg : r.frontier < g.position := by omega
    rw [Fragment.startingAt_of_le (Nat.le_of_lt hg)]
    have hold : Moves g r (r.hold g) := moves_hold h.set hg
    obtain ⟨settle, wf⟩ := settle_spec g (h.toOrdered.moves hold) (h.ahead_hold hg)
    exact ⟨⟨_, hold, h.filed_hold, settle⟩, wf⟩

theorem file_spec {r : Reassembly} {g : Fragment} (h : r.Ready g)
    (wf : r.WellFormed ∨ r.frontier = g.position) :
    Files g r (r.file g) ∧ (r.file g).WellFormed := by
  by_cases old : g.position < r.frontier ∧ g.stop ≤ r.frontier
  · have hr : r.file g = r.noteRepeated g.position := by
      unfold file
      rw [if_pos (by simpa using old)]
    have filed : r.Filed g := ⟨h.head_le, fun p hp => .inl (Nat.lt_of_lt_of_le hp.2 old.2)⟩
    -- A head that has just been placed for the fragment has nothing of it yet.
    have wf : r.WellFormed := wf.resolve_right fun hf => by omega
    rw [hr]
    exact ⟨⟨r, .refl, filed, moves_noteRepeated g r _⟩, wf.noteRepeated _⟩
  · exact file_new_spec h old

theorem WellFormed.withTally {r : Reassembly} (h : r.WellFormed) (tally : Tally) :
    WellFormed { r with tally := tally } :=
  ⟨⟨h.inOrder, h.stamps, h.stamped, h.pending, h.unset⟩, h.ahead, h.reach, h.size_le⟩

theorem add_cases (r : Reassembly) (f : Fragment) :
    (f.bytes = [] ∧ r.add f = r) ∨
      (f.bytes ≠ [] ∧ ∃ tally : Tally, tally.gaps = r.tally.gaps ∧
        tally.gapBytes = r.tally.gapBytes ∧ r.add f =
          (anchor { r with tally := tally } (f.lastBytes r.limits.capacity).position).file
            (f.lastBytes r.limits.capacity)) := by
  unfold add
  split
  · next h => exact .inl ⟨List.isEmpty_iff.1 h, rfl⟩
  · next h =>
    refine .inr ⟨fun hn => h (List.isEmpty_iff.2 hn), { r.tally with
      fragments := r.tally.fragments + 1
      dropped := r.tally.dropped + (f.bytes.length - r.limits.capacity) }, rfl, rfl, rfl⟩

/-- **Taking in a fragment is a sequence of moves that file it**, and leaves what holds between two
calls. -/
theorem add_spec {r : Reassembly} (h : r.WellFormed) {f : Fragment} (hf : f.bytes ≠ []) :
    Files (f.lastBytes r.limits.capacity) r (r.add f) ∧ (r.add f).WellFormed := by
  rcases r.add_cases f with ⟨hn, -⟩ | ⟨-, tally, gaps, gapBytes, hr⟩
  · exact absurd hn hf
  · rw [hr]
    obtain ⟨anchored, ready, wf⟩ := anchor_spec (h.withTally tally) (f.lastBytes r.limits.capacity)
    obtain ⟨files, wf⟩ := file_spec ready wf
    exact ⟨files.after (.head (.count tally gaps gapBytes) anchored), wf⟩

theorem moves_add {r : Reassembly} (h : r.WellFormed) (f : Fragment) :
    Moves (f.lastBytes r.limits.capacity) r (r.add f) ∧ (r.add f).WellFormed := by
  by_cases hf : f.bytes = []
  · have hr : r.add f = r := by simp [add, hf]
    rw [hr]
    exact ⟨.refl, h⟩
  · obtain ⟨files, wf⟩ := add_spec h hf
    exact ⟨files.moves, wf⟩

theorem WellFormed.add {r : Reassembly} (h : r.WellFormed) (f : Fragment) :
    (r.add f).WellFormed :=
  (moves_add h f).2

theorem WellFormed.consume {r : Reassembly} (h : r.WellFormed) (n : Nat) :
    (r.consume n).WellFormed where
  toOrdered := h.toOrdered.consume n
  ahead := by simpa using h.ahead
  reach := by simpa using h.reach
  size_le := by
    have := h.size_le
    rw [size_consume, consume_limits]
    omega

/-- What every move keeps is kept by taking in a fragment. -/
theorem WellFormed.add_induction {motive : Reassembly → Prop} {r : Reassembly} {f : Fragment}
    (h : r.WellFormed)
    (step : ∀ s t : Reassembly, s.Ordered → Move (f.lastBytes r.limits.capacity) s t →
      motive s → motive t)
    (first : motive r) : motive (r.add f) := by
  have all : ∀ t, Moves (f.lastBytes r.limits.capacity) r t → t.Ordered ∧ motive t := by
    intro t moves
    induction moves with
    | refl => exact ⟨h.toOrdered, first⟩
    | tail _ last ih => exact ⟨ih.1.move last, step _ _ ih.1 last ih.2⟩
  exact (all _ (moves_add h f).1).2

/-! ## Runs of calls -/

/-- What a user of a reassembly can do to it. -/
inductive Call where
  | add (f : Fragment)
  | consume (n : Nat)

/-- The effect of a call. -/
def apply (r : Reassembly) : Call → Reassembly
  | .add f => r.add f
  | .consume n => r.consume n

/-- The state after some calls, the first one on a fresh reassembly. -/
def replay (limits : Limits) (calls : List Call) : Reassembly :=
  calls.foldl apply { limits := limits }

theorem replay_concat (limits : Limits) (calls : List Call) (call : Call) :
    replay limits (calls ++ [call]) = (replay limits calls).apply call := by
  simp [replay]

theorem wellFormed_fresh (limits : Limits) : WellFormed { limits := limits } where
  inOrder := rfl
  stamps := .nil
  stamped := nofun
  pending := .nil
  unset := fun _ => ⟨rfl, rfl, rfl, rfl, rfl, rfl⟩
  ahead := nofun
  reach := nofun
  size_le := Nat.zero_le _

theorem wellFormed_replay (limits : Limits) (calls : List Call) :
    (replay limits calls).WellFormed := by
  induction calls using List.reverseRecOn with
  | nil => exact wellFormed_fresh limits
  | append_singleton calls call ih =>
    rw [replay_concat]
    cases call with
    | add f => exact ih.add f
    | consume n => exact ih.consume n

/-- What every call keeps is kept by all calls that follow. -/
theorem replay_later {motive : Reassembly → Prop} {limits : Limits} {calls : List Call}
    (step : ∀ (r : Reassembly) (call : Call), r.WellFormed → motive r → motive (r.apply call))
    (h : motive (replay limits calls)) (more : List Call) :
    motive (replay limits (calls ++ more)) := by
  induction more using List.reverseRecOn with
  | nil => rwa [List.append_nil]
  | append_singleton more call ih =>
    rw [← List.append_assoc, replay_concat]
    exact step _ call (wellFormed_replay limits _) ih

theorem Move.limits {g : Fragment} {r r' : Reassembly} (m : Move g r r') :
    r'.limits = r.limits := by
  cases m with
  | count _ _ _ | place _ | back _ _ _ _ _ | append _ _ _ | hold _ _ | flush _ _ _ | skip _ _ => rfl
  | declare _ _ _ => rfl
  | cross => exact crossGaps_limits _
  | drop _ => exact consume_limits _ _

theorem WellFormed.add_limits {r : Reassembly} (h : r.WellFormed) (f : Fragment) :
    (r.add f).limits = r.limits :=
  h.add_induction (motive := fun s => s.limits = r.limits) (fun _ _ _ m hs => m.limits.trans hs) rfl

@[simp] theorem replay_limits (limits : Limits) (calls : List Call) :
    (replay limits calls).limits = limits := by
  induction calls using List.reverseRecOn with
  | nil => rfl
  | append_singleton calls call ih =>
    rw [replay_concat]
    cases call with
    | add f => exact ((wellFormed_replay limits calls).add_limits f).trans ih
    | consume n => exact (consume_limits _ n).trans ih

end Dialogue.Reassembly
