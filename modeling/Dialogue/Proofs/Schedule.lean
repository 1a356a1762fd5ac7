import Mathlib
import Dialogue.Postgres
import Dialogue.Proofs.Connection
import Dialogue.Proofs.Reassembly.Contiguous
import Dialogue.Proofs.Reassembly.Reordering

/-!
Two schedules of the same bytes.

What a scan does depends on a direction only through the bytes it offers, the capture time at its
head and how often reading has failed there. Two scans that are `Alike` in this stay alike step by
step (`Alike.step`) and end alike (`Alike.run`). Two schedules that bring the same positions of one
stream, cut, repeated and ordered in any way, leave directions that are alike, so processing gives
the same (`process_any_order`).
-/
namespace Dialogue

namespace Flow.Scan

variable {d : Dialect}

/-- Both scans read the same bytes, all captured at `time`, and have come to the same. -/
structure Alike (limits : Limits) (time : Nat) (s s' : Scan d) : Prop where
  offers : ∃ run, s.flow.reassembly.Offers limits run ∧ s'.flow.reassembly.Offers limits run
  timed : s.flow.reassembly.Traced fun _ _ t => t = time
  timed' : s'.flow.reassembly.Traced fun _ _ t => t = time
  failures : s.flow.failures = s'.flow.failures
  searched : s.flow.searched = s'.flow.searched
  conversation : s.conversation = s'.conversation
  findings : s.findings = s'.findings

/-- Both scans go on, or both end. -/
inductive Parallel (limits : Limits) (time : Nat) : Progress d → Progress d → Prop where
  | more {s s' : Scan d} (alike : Alike limits time s s') :
      Parallel limits time (.more s) (.more s')
  | done {s s' : Scan d} (alike : Alike limits time s s') :
      Parallel limits time (.done s) (.done s')

variable {limits : Limits} {time : Nat} {s s' : Scan d} {dir : Direction} {patience : Nat}

namespace Alike

theorem run_eq (h : Alike limits time s s') : s.flow.reassembly.run = s'.flow.reassembly.run := by
  obtain ⟨run, offers, offers'⟩ := h.offers
  rw [offers.run, offers'.run]

theorem endsAtGap (h : Alike limits time s s') :
    s.flow.reassembly.endsAtGap = false ∧ s'.flow.reassembly.endsAtGap = false := by
  obtain ⟨run, offers, offers'⟩ := h.offers
  simp [Reassembly.endsAtGap, offers.whole, offers'.whole]

theorem isFull_eq (h : Alike limits time s s') :
    s.flow.reassembly.isFull = s'.flow.reassembly.isFull := by
  obtain ⟨run, offers, offers'⟩ := h.offers
  rw [Reassembly.isFull, Reassembly.isFull, offers.size, offers'.size, offers.limits,
    offers'.limits]

/-- Where there are bytes, both heads were captured at the same time. -/
theorem headTime_eq (h : Alike limits time s s') (filled : s.flow.reassembly.run ≠ []) :
    s.flow.reassembly.headTime = s'.flow.reassembly.headTime := by
  obtain ⟨run, offers, offers'⟩ := h.offers
  rw [offers.run] at filled
  obtain ⟨b, rest, first⟩ := List.exists_cons_of_ne_nil filled
  exact (offers.headTime h.timed first).trans (offers'.headTime h.timed' first).symm

/-- The same number of bytes consumed on both sides, with whatever else is the same on both. -/
theorem consume (h : Alike limits time s s') (n failures searched : Nat) (c : Conversation d)
    (findings : Findings) :
    Alike limits time ⟨⟨s.flow.reassembly.consume n, failures, searched⟩, c, findings⟩
      ⟨⟨s'.flow.reassembly.consume n, failures, searched⟩, c, findings⟩ := by
  obtain ⟨run, offers, offers'⟩ := h.offers
  exact ⟨⟨run.drop n, offers.consume n, offers'.consume n⟩, h.timed.consume offers.ordered n,
    h.timed'.consume offers'.ordered n, rfl, rfl, rfl, rfl⟩

theorem learn (h : Alike limits time s s') (state : d.State) :
    Alike limits time (s.learn state) (s'.learn state) where
  offers := h.offers
  timed := h.timed
  timed' := h.timed'
  failures := h.failures
  searched := h.searched
  conversation := congrArg (fun c : Conversation d => { c with state := state }) h.conversation
  findings := h.findings

theorem take (h : Alike limits time s s') (filled : s.flow.reassembly.run ≠ []) (frame : d.Frame)
    (length : Nat) : Alike limits time (s.take dir frame length) (s'.take dir frame length) := by
  simp only [Scan.take, h.headTime_eq filled, h.conversation, h.findings]
  exact h.consume length 0 0 _ _

theorem skipTo (h : Alike limits time s s') (position : Nat) :
    Alike limits time (s.skipTo position) (s'.skipTo position) := by
  simp only [Scan.skipTo, h.failures, h.conversation, h.findings]
  exact h.consume position _ 0 _ _

theorem dropHead (h : Alike limits time s s') : Alike limits time s.dropHead s'.dropHead := by
  simp only [Scan.dropHead, h.run_eq, h.conversation, h.findings]
  exact h.consume _ 0 0 _ _

theorem noteFailure (h : Alike limits time s s') :
    Alike limits time s.noteFailure s'.noteFailure where
  offers := h.offers
  timed := h.timed
  timed' := h.timed'
  failures := by simp only [Scan.noteFailure, h.run_eq, h.isFull_eq, h.failures, h.searched]
  searched := congrArg List.length h.run_eq
  conversation := h.conversation
  findings := h.findings

theorem resync (h : Alike limits time s s') (dir : Direction) (patience : Nat) :
    Parallel limits time (s.resync dir patience) (s'.resync dir patience) := by
  unfold Scan.resync
  simp only [h.run_eq, h.conversation]
  split
  · exact .more (h.skipTo _)
  · obtain ⟨ends, ends'⟩ := h.endsAtGap
    rw [h.noteFailure.failures, ends, ends']
    split
    · exact .done h.noteFailure
    · exact .more h.noteFailure.dropHead

theorem act (h : Alike limits time s s') (filled : s.flow.reassembly.run ≠ []) (dir : Direction)
    (patience : Nat) (parsed : Parsed d.Frame) :
    Parallel limits time (s.act dir patience parsed) (s'.act dir patience parsed) := by
  cases parsed with
  | complete frame length =>
    by_cases zero : length = 0
    · simp only [Scan.act, if_pos zero]
      exact h.resync dir patience
    · simp only [Scan.act, if_neg zero]
      exact .more (h.take filled frame length)
  | needMore minimum =>
    obtain ⟨ends, ends'⟩ := h.endsAtGap
    simp only [Scan.act, ends, ends']
    exact .done h
  | invalid reason => exact h.resync dir patience

/-- One look at the head does the same on both sides. -/
theorem step (h : Alike limits time s s') (dir : Direction) (patience : Nat) :
    Parallel limits time (s.step dir patience) (s'.step dir patience) := by
  unfold Scan.step
  simp only [← h.run_eq, ← h.conversation]
  split
  · exact .done h
  · next filled =>
    have bytes : s.flow.reassembly.run ≠ [] := by simpa using filled
    exact (h.learn (d.parse dir s.conversation.state s.flow.reassembly.run).2).act bytes dir
      patience _

theorem run (h : Alike limits time s s') (dir : Direction) (patience : Nat) :
    Alike limits time (s.run dir patience) (s'.run dir patience) := by
  fun_induction Scan.run dir patience s generalizing s' with
  | case1 s t stepped =>
    have parallel := h.step dir patience
    rw [stepped] at parallel
    cases hs : s'.step dir patience with
    | more t' => rw [hs] at parallel; cases parallel
    | done t' =>
      rw [hs] at parallel
      cases parallel with
      | done alike => rwa [run_of_done hs]
  | case2 s t stepped _ ih =>
    have parallel := h.step dir patience
    rw [stepped] at parallel
    cases hs : s'.step dir patience with
    | done t' => rw [hs] at parallel; cases parallel
    | more t' =>
      rw [hs] at parallel
      cases parallel with
      | more alike =>
        rw [run_of_more hs]
        exact ih alike

end Alike

end Flow.Scan

namespace Connection

variable {d : Dialect} {id : Nat} {settings : Settings} {es es' : List Event}

/-- The fragments that events bring for one direction, in the order in which they come. -/
def fragments (dir : Direction) (es : List Event) : List Fragment :=
  (es.filter (·.direction = dir)).map (·.fragment)

/-- The events bring pieces of one stream for each direction, each piece under the time of its
direction, and the pieces of a direction lie no further apart than the limits allow. -/
structure Delivers (limits : Limits) (stream : Direction → Bytes) (time : Direction → Nat)
    (es : List Event) : Prop where
  filled : ∀ e ∈ es, e.fragment.bytes ≠ []
  sliced : ∀ e ∈ es, e.fragment.IsSliceOf (stream e.direction)
  timed : ∀ e ∈ es, e.fragment.time = time e.direction
  extent : ∀ e ∈ es, ∀ e' ∈ es, e.direction = e'.direction →
    e'.fragment.stop ≤ e.fragment.position + min limits.capacity limits.maxGap

theorem flow_foldl_add (c : Connection d) (es : List Event) (dir : Direction) :
    (es.foldl add c).flow dir =
      { c.flow dir with
        reassembly := (fragments dir es).foldl Reassembly.add (c.flow dir).reassembly } := by
  induction es generalizing c with
  | nil => rfl
  | cons e rest ih =>
    rw [List.foldl_cons, ih]
    unfold add fragments
    cases hd : e.direction <;> cases dir <;> simp [hd, flow]

theorem kept_foldl_add (c : Connection d) (es : List Event) :
    (es.foldl add c).id = c.id ∧ (es.foldl add c).settings = c.settings ∧
      (es.foldl add c).conversation = c.conversation ∧ (es.foldl add c).totals = c.totals := by
  induction es generalizing c with
  | nil => exact ⟨rfl, rfl, rfl, rfl⟩
  | cons e rest ih =>
    obtain ⟨hid, hsettings, hconversation, htotals⟩ := ih (c.add e)
    rw [List.foldl_cons, hid, hsettings, hconversation, htotals]
    unfold add
    cases e.direction <;> exact ⟨rfl, rfl, rfl, rfl⟩

theorem flow_gathered (dir : Direction) (es : List Event) :
    (es.foldl add (fresh d id settings)).flow dir =
      { reassembly := Reassembly.gather settings.limits (fragments dir es) } := by
  rw [flow_foldl_add]
  cases dir <;> rfl

section
variable {limits : Limits} {stream : Direction → Bytes} {time : Direction → Nat} {dir : Direction}

theorem mem_fragments {f : Fragment} :
    f ∈ fragments dir es ↔ ∃ e ∈ es, e.direction = dir ∧ e.fragment = f := by
  simp [fragments, and_assoc]

theorem Delivers.traced (h : Delivers limits stream time es) (dir : Direction) :
    (Reassembly.gather limits (fragments dir es)).Traced fun _ _ t => t = time dir := by
  rw [Reassembly.gather_eq_replay]
  refine (Reassembly.traced_replay limits _).mono ?_
  rintro b p t ⟨f, hf, -, rfl⟩
  obtain ⟨e, he, rfl, rfl⟩ := mem_fragments.1 (by simpa using hf)
  exact h.timed e he

theorem Delivers.fits (h : Delivers limits stream time es) (dir : Direction) :
    Reassembly.Fits limits (fragments dir es) (Reassembly.furthest (fragments dir es)) := by
  refine Reassembly.fits_of_extent fun f hf g hg => ?_
  obtain ⟨e, he, same, rfl⟩ := mem_fragments.1 hf
  obtain ⟨e', he', same', rfl⟩ := mem_fragments.1 hg
  exact h.extent e he e' he' (same.trans same'.symm)

theorem Delivers.filled_fragments (h : Delivers limits stream time es) (dir : Direction) :
    ∀ f ∈ fragments dir es, f.bytes ≠ [] := by
  intro f hf
  obtain ⟨e, he, -, rfl⟩ := mem_fragments.1 hf
  exact h.filled e he

theorem Delivers.offers (h : Delivers limits stream time es) (dir : Direction) :
    (Reassembly.gather limits (fragments dir es)).Offers limits
      (Reassembly.gather limits (fragments dir es)).run where
  limits := Reassembly.gather_limits ..
  run := rfl
  whole := (Reassembly.gathered_gather (h.fits dir) (h.filled_fragments dir)
    (List.Subset.refl _)).intact.whole
  ordered := (Reassembly.wellFormed_gather ..).toOrdered

/-- What a direction offers depends only on the positions that its fragments cover. -/
theorem Delivers.run_eq (h : Delivers limits stream time es) (h' : Delivers limits stream time es')
    (dir : Direction) (same : ∀ p, Fragment.Covered (fragments dir es) p ↔
      Fragment.Covered (fragments dir es') p) :
    (Reassembly.gather limits (fragments dir es)).run =
      (Reassembly.gather limits (fragments dir es')).run := by
  have none : ∀ {es es' : List Event}, Delivers limits stream time es' →
      (∀ p, Fragment.Covered (fragments dir es) p ↔ Fragment.Covered (fragments dir es') p) →
      fragments dir es = [] → fragments dir es' = [] := by
    intro es es' h' same empty
    refine List.eq_nil_iff_forall_not_mem.2 fun f hf => ?_
    obtain ⟨g, hg, -⟩ := (same _).2 ⟨f, hf, Fragment.covers_position (h'.filled_fragments dir f hf)⟩
    rw [empty] at hg
    cases hg
  by_cases given : fragments dir es = []
  · rw [given, none h' same given]
  · have given' : fragments dir es' ≠ [] := fun empty =>
      given (none h (fun p => (same p).symm) empty)
    have sliced : ∀ {es : List Event}, Delivers limits stream time es →
        ∀ f ∈ fragments dir es, f.IsSliceOf (stream dir) := by
      intro es h f hf
      obtain ⟨e, he, rfl, rfl⟩ := mem_fragments.1 hf
      exact h.sliced e he
    have assembled := Reassembly.assembled_gather (h.fits dir) given (h.filled_fragments dir)
      (sliced h)
    have assembled' := Reassembly.assembled_gather (h'.fits dir) given' (h'.filled_fragments dir)
      (sliced h')
    exact (assembled.unique assembled' (h.filled_fragments dir) (h'.filled_fragments dir) same).2.2

end

/-- Directions that were brought the same positions are read alike. -/
theorem alike_scan (id : Nat) {stream : Direction → Bytes} {time : Direction → Nat}
    (h : Delivers settings.limits stream time es) (h' : Delivers settings.limits stream time es')
    (dir : Direction) (same : ∀ p, Fragment.Covered (fragments dir es) p ↔
      Fragment.Covered (fragments dir es') p) (c : Conversation d) :
    Flow.Scan.Alike settings.limits (time dir)
      (((es.foldl add (fresh d id settings)).flow dir).scan dir settings.patience c)
      (((es'.foldl add (fresh d id settings)).flow dir).scan dir settings.patience c) := by
  rw [flow_gathered, flow_gathered]
  have alike : Flow.Scan.Alike (d := d) settings.limits (time dir)
      { flow := { reassembly := Reassembly.gather settings.limits (fragments dir es) }
        conversation := c }
      { flow := { reassembly := Reassembly.gather settings.limits (fragments dir es') }
        conversation := c } := by
    refine ⟨⟨_, h.offers dir, ?_⟩, h.traced dir, h'.traced dir, rfl, rfl, rfl, rfl⟩
    rw [h.run_eq h' dir same]
    exact h'.offers dir
  exact alike.run dir settings.patience

/-- **Processing does not depend on the schedule.** Let two schedules bring a fresh connection, for
each direction, pieces of one stream at one time, no further apart than the limits allow and
covering the same positions. However they cut, repeat, order and interleave them, processing
harvests the same records and errors, leaves the same frames waiting and the same counters. -/
theorem process_any_order {stream : Direction → Bytes} {time : Direction → Nat}
    (h : Delivers settings.limits stream time es) (h' : Delivers settings.limits stream time es')
    (same : ∀ dir p, Fragment.Covered (fragments dir es) p ↔
      Fragment.Covered (fragments dir es') p) :
    (es.foldl add (fresh d id settings)).process.1 =
        (es'.foldl add (fresh d id settings)).process.1 ∧
      (es.foldl add (fresh d id settings)).process.2.conversation =
        (es'.foldl add (fresh d id settings)).process.2.conversation ∧
      (es.foldl add (fresh d id settings)).process.2.totals =
        (es'.foldl add (fresh d id settings)).process.2.totals := by
  obtain ⟨hid, hsettings, hconversation, htotals⟩ := kept_foldl_add (fresh d id settings) es
  obtain ⟨hid', hsettings', hconversation', htotals'⟩ := kept_foldl_add (fresh d id settings) es'
  have asked := alike_scan (d := d) id h h' .request (same .request)
    (fresh d id settings).conversation
  -- Requests are read first, so responses find the same conversation on both sides.
  have answered := fun c => alike_scan (d := d) id h h' .response (same .response) c
  simp only [flow] at asked answered
  simp only [process, hid, hid', hsettings, hsettings', hconversation, hconversation', htotals,
    htotals']
  rw [show (fresh d id settings).settings = settings from rfl, asked.conversation,
    (answered _).conversation, asked.findings, (answered _).findings]
  exact ⟨rfl, rfl, rfl⟩

/-- A Postgres query and its answer. -/
def spoken : Direction → Bytes
  | .request => [81, 0, 0, 0, 9, 83, 69, 76, 69, 0]
  | .response => [67, 0, 0, 0, 13, 83, 69, 76, 69, 67, 84, 32, 48, 0]

def straight : List Event :=
  [⟨.request, 0, 10, spoken .request⟩, ⟨.response, 0, 20, spoken .response⟩]

/-- Both cut into pieces that overlap, are repeated and come out of order. -/
def shuffled : List Event :=
  [⟨.response, 3, 20, [0, 13, 83, 69, 76, 69, 67, 84, 32, 48, 0]⟩,
    ⟨.request, 4, 10, [9, 83, 69, 76, 69, 0]⟩, ⟨.response, 0, 20, [67, 0, 0, 0, 13, 83]⟩,
    ⟨.request, 0, 10, [81, 0, 0, 0, 9, 83]⟩, ⟨.request, 0, 10, [81, 0]⟩]

theorem process_any_order_shuffled :
    let c := shuffled.foldl add (fresh Postgres.dialect 1 {})
    let c' := straight.foldl add (fresh Postgres.dialect 1 {})
    c.process.2.totals.records = 1 ∧ c.process.1 = c'.process.1 ∧
      c.process.2.conversation = c'.process.2.conversation ∧
      c.process.2.totals = c'.process.2.totals := by
  intro c c'
  have cut : Delivers {} spoken (fun dir => if dir = .request then 10 else 20) shuffled :=
    ⟨by decide, by decide, by decide, by decide⟩
  have whole : Delivers {} spoken (fun dir => if dir = .request then 10 else 20) straight :=
    ⟨by decide, by decide, by decide, by decide⟩
  have same : ∀ dir p, Fragment.Covered (fragments dir shuffled) p ↔
      Fragment.Covered (fragments dir straight) p := by
    intro dir p
    cases dir
    all_goals
      simp only [Fragment.Covered, Fragment.Covers, Fragment.stop, fragments, shuffled, straight,
        spoken, List.filter, reduceCtorEq, decide_true, decide_false, List.map_cons, List.map_nil,
        List.mem_cons, List.not_mem_nil, or_false, exists_eq_or_imp, exists_eq_left,
        List.length_cons, List.length_nil]
      omega
  have records : c.process.2.totals.records = 1 := by decide +kernel
  exact ⟨records, @process_any_order _ _ {} _ _ _ _ cut whole same⟩

end Connection

end Dialogue
