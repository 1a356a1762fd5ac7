import Mathlib
import Dialogue.Proofs.Reassembly.Advance

/-!
Lost gaps are final, and all of them are counted.

A reassembly remembers only the gaps declared last. `declared` is the full record of a run: every
hole that was declared lost, with the reassembly as it stood just before. A gap once declared is
never filled (`Lost.apply`): the frontier is behind it, and the head can no longer move back, since
either bytes have left it or there is an island behind the gap. `Accounted` ties the record to the
counters and to the gaps that are remembered; each declaration extends both by the same gap
(`Accounted.declareGap`), and nothing else touches them (`SameLosses`).
-/
namespace Dialogue.Reassembly

variable {limits : Limits} {r r' s : Reassembly} {f : Fragment} {g : Gap} {log : List Gap}

/-! ## The record of a run -/

/-- A hole that is declared lost: the reassembly just before, and where the hole ends. -/
structure Loss where
  before : Reassembly
  stop : Nat

def Loss.gap (l : Loss) : Gap := ⟨l.before.frontier, l.stop⟩

/-- The holes that `declareGaps` declares lost, in order. -/
def losses (r : Reassembly) : List Loss :=
  match h : r.pending with
  | [] => []
  | f :: rest =>
    if furthest r.pending - r.frontier ≤ r.limits.maxGap then []
    else
      have : ((r.declareGap f.position).flushFrom (f :: rest)).pending.length <
          r.pending.length := by
        rw [h]
        exact length_pending_flushFrom_lt (Nat.le_refl _) rest
      ⟨r, f.position⟩ :: losses ((r.declareGap f.position).flushFrom (f :: rest))
termination_by r.pending.length

/-- The state in which a fragment has its place and gaps are looked for; none if the fragment
brings nothing new. -/
def admitted? (r : Reassembly) (f : Fragment) : Option Reassembly :=
  if f.bytes.isEmpty then none
  else
    let kept := f.lastBytes r.limits.capacity
    let tally := { r.tally with
      fragments := r.tally.fragments + 1
      dropped := r.tally.dropped + (f.bytes.length - r.limits.capacity) }
    let r := { r with tally := tally }.anchor kept.position
    if kept.position < r.frontier && kept.stop ≤ r.frontier then none
    else
      let kept := kept.startingAt r.frontier
      some (if kept.position = r.frontier then (r.append kept).flush else r.hold kept)

/-- The holes that a call declares lost. -/
def lossesBy (r : Reassembly) : Call → List Loss
  | .add f => ((r.admitted? f).map losses).getD []
  | .consume _ => []

def lossesFrom (r : Reassembly) : List Call → List Loss
  | [] => []
  | call :: rest => r.lossesBy call ++ (r.apply call).lossesFrom rest

/-- All holes that are declared lost during a run, in order. -/
def declared (limits : Limits) (calls : List Call) : List Loss :=
  lossesFrom { limits := limits } calls

theorem lossesFrom_concat (r : Reassembly) (calls : List Call) (call : Call) :
    r.lossesFrom (calls ++ [call]) = r.lossesFrom calls ++ (calls.foldl apply r).lossesBy call := by
  induction calls generalizing r with
  | nil => simp [lossesFrom]
  | cons c rest ih => simp [lossesFrom, ih]

theorem declared_concat (limits : Limits) (calls : List Call) (call : Call) :
    declared limits (calls ++ [call]) =
      declared limits calls ++ (replay limits calls).lossesBy call :=
  lossesFrom_concat _ calls call

theorem losses_of_near (near : furthest r.pending - r.frontier ≤ r.limits.maxGap) :
    r.losses = [] := by
  rw [losses]
  split
  · rfl
  · rw [if_pos near]

theorem losses_of_far {rest : List Fragment} (first : r.pending = f :: rest)
    (far : ¬ furthest r.pending - r.frontier ≤ r.limits.maxGap) :
    r.losses =
      ⟨r, f.position⟩ :: ((r.declareGap f.position).flushFrom (f :: rest)).losses := by
  rw [losses]
  split
  · next none => simp [none] at first
  · next k ks h =>
    obtain ⟨rfl, rfl⟩ := List.cons.inj (h.symm.trans first)
    rw [if_neg far]

theorem losses_of_none (none : r.pending = []) : r.losses = [] := by
  rw [losses]
  split
  · rfl
  · next h => simp [none] at h

theorem flushFrom_limits (r : Reassembly) (fs : List Fragment) :
    (r.flushFrom fs).limits = r.limits := by
  induction fs generalizing r with
  | nil => rfl
  | cons f rest ih =>
    simp only [flushFrom]
    split
    · rfl
    · split
      · exact ih r
      · exact ih _

/-- A hole is declared lost only while too much waits behind it, and it ends where the first
fragment waits. -/
theorem far_of_mem_losses {l : Loss} (h : l ∈ r.losses) :
    l.before.limits = r.limits ∧
      r.limits.maxGap < furthest l.before.pending - l.before.frontier ∧
      l.before.pending.head?.map (·.position) = some l.stop := by
  fun_induction declareGaps r with
  | case1 r none => simp [losses_of_none none] at h
  | case2 r f rest first near => simp [losses_of_near near] at h
  | case3 r f rest first far _ ih =>
    rw [losses_of_far first far] at h
    rcases List.mem_cons.1 h with rfl | h
    · refine ⟨rfl, Nat.not_le.1 far, ?_⟩
      show r.pending.head?.map (·.position) = some f.position
      rw [first]
      rfl
    · have same := flushFrom_limits (r.declareGap f.position) (f :: rest)
      have later := ih h
      rw [same] at later
      exact later

/-! ## What is lost stays lost -/

/-- A gap that the head has crossed or will cross: nothing in it is held, and nothing will be. -/
structure Lost (g : Gap) (r : Reassembly) : Prop where
  fixed : r.advanced = true ∨ r.islands ≠ []
  behind : g.stop ≤ r.frontier
  avoided : ∀ b p, (b, p) ∈ r.held → ¬ (g.start ≤ p ∧ p < g.stop)

theorem Lost.append (h : Lost g r) (ordered : r.Ordered) (hf : f.position = r.frontier) :
    Lost g (r.append f) where
  fixed := by
    rcases r.append_cases f with ⟨whole, hr⟩ | ⟨islands, i, -, hr⟩
    · rw [hr]
      exact .inl (h.fixed.resolve_right fun cut => cut whole)
    · rw [hr]
      right
      simp
  behind := by
    have := h.behind
    rw [append_frontier, Fragment.stop]
    omega
  avoided := by
    intro b p hp
    rw [held_append ordered.inOrder hf, List.mem_append] at hp
    rcases hp with hp | hp
    · exact h.avoided b p hp
    · have := (Fragment.bounds_of_mem_placed hp).1
      have := h.behind
      omega

/-- Moving the head on keeps what is lost. -/
theorem Lost.moveHead {head : Nat} {run : Bytes} {islands : List Island} (h : Lost g r)
    (part : ∀ x ∈ placedRuns head run islands, x ∈ r.held) :
    Lost g (r.moveHead head run islands) where
  fixed := .inl rfl
  behind := h.behind
  avoided := fun b p hp => h.avoided b p (part _ hp)

theorem Lost.consume (h : Lost g r) (n : Nat) : Lost g (r.consume n) := by
  rcases r.consume_cases n with ⟨hr, -⟩ | ⟨-, hr⟩
  · rwa [hr]
  · rw [hr]
    refine h.moveHead fun x hx => ?_
    rw [placedRuns_dropHeld] at hx
    exact List.mem_of_mem_drop hx

theorem Lost.crossGaps (h : Lost g r) : Lost g r.crossGaps := by
  rcases r.crossGaps_cases with ⟨hr, -⟩ | ⟨-, hr⟩
  · rwa [hr]
  · rw [hr]
    refine h.moveHead fun x hx => ?_
    rwa [placedRuns_firstRun] at hx

/-- What is held stands before the frontier, and so outside of a gap that starts there. -/
theorem lost_declareGap (ordered : r.Ordered) (stop : Nat) :
    Lost ⟨r.frontier, stop⟩ (r.declareGap stop) where
  fixed := .inr (by simp [Reassembly.declareGap])
  behind := Nat.le_refl stop
  avoided := by
    intro b p hp
    rw [held_declareGap] at hp
    have := (ordered.inOrder.bounds hp).2
    simp only
    omega

theorem Lost.move {k : Fragment} (h : Lost g r) (ordered : r.Ordered) (m : Move k r r') :
    Lost g r' := by
  cases m with
  | count _ _ _ | hold _ _ | skip _ _ => exact ⟨h.fixed, h.behind, h.avoided⟩
  | place unset =>
    obtain ⟨unmoved, -, -, whole, -⟩ := ordered.unset unset
    have := h.fixed
    simp [unmoved, whole] at this
  | back _ _ _ unmoved whole =>
    have := h.fixed
    simp [unmoved, whole] at this
  | append _ reaches _ =>
    refine h.append ordered ?_
    rw [Fragment.position_startingAt]
    omega
  | @flush f rest _ reaches _ =>
    have appended : Lost g (r.append (f.startingAt r.frontier)) := by
      refine h.append ordered ?_
      rw [Fragment.position_startingAt]
      omega
    exact ⟨appended.fixed, appended.behind, appended.avoided⟩
  | declare _ hole _ =>
    refine ⟨.inr (by simp [Reassembly.declareGap]), Nat.le_trans h.behind (Nat.le_of_lt hole), ?_⟩
    rw [held_declareGap]
    exact h.avoided
  | cross => exact h.crossGaps
  | drop _ => exact h.consume _

theorem Lost.moves {k : Fragment} (h : Lost g r) (ordered : r.Ordered) (m : Moves k r r') :
    Lost g r' := by
  have both : r'.Ordered ∧ Lost g r' := by
    induction m with
    | refl => exact ⟨ordered, h⟩
    | tail _ last ih => exact ⟨ih.1.move last, ih.2.move ih.1 last⟩
  exact both.2

theorem Lost.apply (h : Lost g r) (wf : r.WellFormed) (call : Call) : Lost g (r.apply call) := by
  cases call with
  | add f => exact wf.add_induction (fun _ _ ordered m hs => hs.move ordered m) h
  | consume n => exact h.consume n

theorem Lost.later {calls : List Call} (h : Lost g (replay limits calls)) (more : List Call) :
    Lost g (replay limits (calls ++ more)) :=
  replay_later (fun _ call wf lost => lost.apply wf call) h more

/-! ## What does not declare gaps does not count any -/

/-- The same gaps remembered and counted. -/
structure SameLosses (r r' : Reassembly) : Prop where
  gaps : r'.gaps = r.gaps
  count : r'.tally.gaps = r.tally.gaps
  bytes : r'.tally.gapBytes = r.tally.gapBytes

theorem SameLosses.refl (r : Reassembly) : SameLosses r r := ⟨rfl, rfl, rfl⟩

theorem SameLosses.trans (h : SameLosses r s) (h' : SameLosses s r') : SameLosses r r' :=
  ⟨h'.gaps.trans h.gaps, h'.count.trans h.count, h'.bytes.trans h.bytes⟩

theorem sameLosses_consume (r : Reassembly) (n : Nat) : SameLosses r (r.consume n) := by
  rcases r.consume_cases n with ⟨hr, -⟩ | ⟨-, hr⟩
  · rw [hr]
    exact .refl r
  · rw [hr]
    exact ⟨rfl, rfl, rfl⟩

theorem sameLosses_crossGaps (r : Reassembly) : SameLosses r r.crossGaps := by
  rcases r.crossGaps_cases with ⟨hr, -⟩ | ⟨-, hr⟩
  · rw [hr]
    exact .refl r
  · rw [hr]
    exact ⟨rfl, rfl, rfl⟩

theorem sameLosses_enforceCapacity (r : Reassembly) : SameLosses r r.enforceCapacity := by
  rcases r.enforceCapacity_cases with ⟨hr, -⟩ | ⟨-, tally, count, bytes, hr⟩
  · rw [hr]
    exact .refl r
  · rw [hr]
    have counted : SameLosses r { r with tally := tally } := ⟨rfl, count, bytes⟩
    exact counted.trans (sameLosses_consume _ _)

theorem sameLosses_flushFrom (r : Reassembly) (fs : List Fragment) :
    SameLosses r (r.flushFrom fs) := by
  induction fs generalizing r with
  | nil => exact ⟨rfl, rfl, rfl⟩
  | cons f rest ih =>
    simp only [flushFrom]
    split
    · exact ⟨rfl, rfl, rfl⟩
    · split
      · exact ih r
      · have appended : SameLosses r (r.append (f.startingAt r.frontier)) := ⟨rfl, rfl, rfl⟩
        exact appended.trans (ih _)

theorem sameLosses_hold (r : Reassembly) (f : Fragment) : SameLosses r (r.hold f) := by
  obtain ⟨tally, count, bytes, hr⟩ := r.hold_eq f
  rw [hr]
  exact ⟨rfl, count, bytes⟩

theorem sameLosses_noteRepeated (r : Reassembly) (p : Nat) : SameLosses r (r.noteRepeated p) := by
  unfold noteRepeated
  split
  · exact ⟨rfl, rfl, rfl⟩
  · exact ⟨rfl, rfl, rfl⟩

theorem sameLosses_anchor (r : Reassembly) (p : Nat) : SameLosses r (r.anchor p) := by
  unfold anchor
  split
  · exact ⟨rfl, rfl, rfl⟩
  · split
    · exact ⟨rfl, rfl, rfl⟩
    · exact .refl r

/-! ## Taking in a fragment, up to where gaps are looked for -/

theorem add_of_admitted (h : r.admitted? f = some s) :
    r.add f = s.declareGaps.crossGaps.enforceCapacity := by
  simp only [admitted?] at h
  split at h
  · cases h
  · next filled =>
    split at h
    · cases h
    · next new =>
      obtain rfl := Option.some.inj h
      rw [add, if_neg filled]
      simp only
      rw [file, if_neg new]

theorem add_of_not_admitted (h : r.admitted? f = none) : SameLosses r (r.add f) := by
  simp only [admitted?] at h
  split at h
  · next empty =>
    rw [add, if_pos empty]
    exact .refl r
  · next filled =>
    split at h
    · next old =>
      rw [add, if_neg filled]
      simp only
      rw [file, if_pos old]
      set counted : Reassembly := { r with tally := _ }
      have first : SameLosses r counted := ⟨rfl, rfl, rfl⟩
      exact first.trans ((sameLosses_anchor _ _).trans (sameLosses_noteRepeated _ _))
    · cases h

/-- A fragment that brings something new has its place, and all that waits is ahead of the
frontier. -/
theorem WellFormed.admitted (wf : r.WellFormed) (h : r.admitted? f = some s) :
    Moves (f.lastBytes r.limits.capacity) r s ∧ SameLosses r s ∧
      ∀ k ∈ s.pending, s.frontier < k.position := by
  simp only [admitted?] at h
  split at h
  · cases h
  split at h
  · cases h
  next new =>
  obtain rfl := Option.some.inj h
  set kept := f.lastBytes r.limits.capacity
  set tally : Tally := { r.tally with
    fragments := r.tally.fragments + 1
    dropped := r.tally.dropped + (f.bytes.length - r.limits.capacity) }
  have counted : Move kept r { r with tally := tally } := .count tally rfl rfl
  obtain ⟨anchored, ready, -⟩ := anchor_spec (wf.withTally tally) kept
  have tallied : SameLosses r { r with tally := tally } := ⟨rfl, rfl, rfl⟩
  have same : SameLosses r (anchor { r with tally := tally } kept.position) :=
    tallied.trans (sameLosses_anchor _ _)
  generalize anchor { r with tally := tally } kept.position = t at *
  have bounds : kept.position ≤ kept.stop := Nat.le_add_right ..
  simp only [Bool.and_eq_true, decide_eq_true_eq] at new
  rw [Fragment.position_startingAt]
  split
  · next at_frontier =>
    have append : Move kept t (t.append (kept.startingAt t.frontier)) :=
      .append ready.set (by omega) (by omega)
    have flush : Moves kept (t.append (kept.startingAt t.frontier))
        (t.append (kept.startingAt t.frontier)).flush :=
      moves_flushFrom kept (t.append (kept.startingAt t.frontier)) t.pending
    have appended : SameLosses t (t.append (kept.startingAt t.frontier)) := ⟨rfl, rfl, rfl⟩
    exact ⟨(Relation.ReflTransGen.head counted anchored).trans (.head append flush),
      same.trans (appended.trans (sameLosses_flushFrom _ _)), flushFrom_ahead _ ready.pending⟩
  · next beyond =>
    have ahead : t.frontier < kept.position := by omega
    rw [Fragment.startingAt_of_le (Nat.le_of_lt ahead)]
    exact ⟨(Relation.ReflTransGen.head counted anchored).trans (moves_hold ready.set ahead),
      same.trans (sameLosses_hold _ _), ready.ahead_hold ahead⟩

theorem limits_of_moves {k : Fragment} (m : Moves k r r') : r'.limits = r.limits := by
  induction m with
  | refl => rfl
  | tail _ last ih => exact last.limits.trans ih

theorem far_of_mem_declared (limits : Limits) (calls : List Call) {l : Loss}
    (h : l ∈ declared limits calls) :
    limits.maxGap < furthest l.before.pending - l.before.frontier ∧
      l.before.pending.head?.map (·.position) = some l.stop := by
  induction calls using List.reverseRecOn with
  | nil => exact nomatch h
  | append_singleton calls call ih =>
    rw [declared_concat] at h
    rcases List.mem_append.1 h with h | h
    · exact ih h
    · cases call with
      | consume n => exact nomatch h
      | add f =>
        simp only [lossesBy] at h
        cases admits : (replay limits calls).admitted? f with
        | none => simp [admits] at h
        | some s =>
          rw [admits, Option.map_some, Option.getD_some] at h
          obtain ⟨moves, -, -⟩ := (wellFormed_replay limits calls).admitted admits
          have far := far_of_mem_losses h
          rw [limits_of_moves moves, replay_limits] at far
          exact far.2

/-! ## The record and the counters -/

/-- The gaps of `log` are those declared so far: they are counted, the last of them are remembered,
each one lies behind those before it, and none is ever filled. -/
structure Accounted (log : List Gap) (r : Reassembly) : Prop where
  count : r.tally.gaps = log.length
  bytes : r.tally.gapBytes = total Gap.length log
  recent : r.gaps = log.drop (log.length - rememberedGaps)
  filled : ∀ g ∈ log, g.start < g.stop
  apart : log.Pairwise (·.stop ≤ ·.start)
  lost : ∀ g ∈ log, Lost g r

theorem Accounted.same (h : Accounted log r) (same : SameLosses r r')
    (kept : ∀ g, Lost g r → Lost g r') : Accounted log r' where
  count := same.count.trans h.count
  bytes := same.bytes.trans h.bytes
  recent := same.gaps.trans h.recent
  filled := h.filled
  apart := h.apart
  lost := fun g hg => kept g (h.lost g hg)

theorem drop_concat {α : Type} (xs : List α) (x : α) {n : Nat} (pos : 0 < n) :
    (xs.drop (xs.length - n) ++ [x]).drop ((xs.drop (xs.length - n) ++ [x]).length - n) =
      (xs ++ [x]).drop ((xs ++ [x]).length - n) := by
  simp only [List.length_append, List.length_drop, List.length_singleton]
  by_cases le : xs.length < n
  · rw [show xs.length - n = 0 by omega, List.drop_zero, Nat.sub_zero]
  · rw [List.drop_append_of_le_length (by rw [List.length_drop]; omega), List.drop_drop,
      List.drop_append_of_le_length (by omega)]
    congr 2
    omega

/-- Declaring a gap extends the record by it. -/
theorem Accounted.declareGap {k : Fragment} {rest : List Fragment} (h : Accounted log r)
    (ordered : r.Ordered) (first : r.pending = k :: rest) (hole : r.frontier < k.position)
    (far : r.limits.maxGap < furthest r.pending - r.frontier) :
    Accounted (log ++ [⟨r.frontier, k.position⟩]) (r.declareGap k.position) where
  count := by
    show r.tally.gaps + 1 = _
    rw [h.count, List.length_append, List.length_singleton]
  bytes := by
    show r.tally.gapBytes + _ = _
    rw [h.bytes, total_append, total_cons, total_nil, Nat.add_zero]
  recent := by
    show (r.gaps ++ [_]).drop ((r.gaps ++ [_]).length - rememberedGaps) = _
    rw [h.recent]
    exact drop_concat log _ (by decide)
  filled := by
    intro g hg
    rcases List.mem_append.1 hg with hg | hg
    · exact h.filled g hg
    · rwa [List.mem_singleton.1 hg]
  apart := by
    refine List.pairwise_append.2 ⟨h.apart, List.pairwise_singleton _ _, fun g hg g' hg' => ?_⟩
    rw [List.mem_singleton.1 hg']
    exact (h.lost g hg).behind
  lost := by
    intro g hg
    rcases List.mem_append.1 hg with hg | hg
    · exact (h.lost g hg).move (k := k) ordered (.declare first hole far)
    · rw [List.mem_singleton.1 hg]
      exact lost_declareGap ordered k.position

theorem Accounted.declareGaps (h : Accounted log r) (ordered : r.Ordered)
    (ahead : ∀ k ∈ r.pending, r.frontier < k.position) :
    Accounted (log ++ r.losses.map Loss.gap) r.declareGaps := by
  fun_induction Reassembly.declareGaps r generalizing log with
  | case1 r none => simpa [losses_of_none none] using h
  | case2 r f rest first near => simpa [losses_of_near near] using h
  | case3 r f rest first far _ ih =>
    -- One gap is recorded; what is then appended declares none, and the rest is the same again.
    have hole : r.frontier < f.position := ahead f (first ▸ List.mem_cons_self)
    have beyond := Nat.not_le.1 far
    have declare : Move f r (r.declareGap f.position) := .declare first hole beyond
    have flush : Moves f (r.declareGap f.position)
        ((r.declareGap f.position).flushFrom (f :: rest)) := by
      have := moves_flushFrom f (r.declareGap f.position) (f :: rest)
      rwa [← first] at this ⊢
    have recorded : Accounted (log ++ [⟨r.frontier, f.position⟩])
        ((r.declareGap f.position).flushFrom (f :: rest)) :=
      (h.declareGap ordered first hole beyond).same (sameLosses_flushFrom _ _)
        fun g hg => hg.moves (ordered.move declare) flush
    have sorted := ordered.pending
    rw [first] at sorted
    have := ih recorded ((ordered.move declare).moves flush) (flushFrom_ahead _ sorted)
    rw [losses_of_far first far, List.map_cons, Loss.gap]
    rwa [List.append_assoc, List.singleton_append] at this

theorem Accounted.apply (h : Accounted log r) (wf : r.WellFormed) (call : Call) :
    Accounted (log ++ (r.lossesBy call).map Loss.gap) (r.apply call) := by
  cases call with
  | consume n =>
    rw [lossesBy, List.map_nil, List.append_nil]
    exact h.same (sameLosses_consume r n) fun g hg => hg.consume n
  | add f =>
    have kept : ∀ g, Lost g r → Lost g (r.add f) := fun g hg => hg.apply wf (.add f)
    simp only [lossesBy, Reassembly.apply]
    cases admits : r.admitted? f with
    | none => simpa using h.same (add_of_not_admitted admits) kept
    | some s =>
      obtain ⟨moves, same, ahead⟩ := wf.admitted admits
      have ordered := wf.toOrdered.moves moves
      have filed := (h.same same fun g hg => hg.moves wf.toOrdered moves).declareGaps ordered ahead
      rw [add_of_admitted admits]
      refine filed.same ((sameLosses_crossGaps _).trans (sameLosses_enforceCapacity _)) ?_
      intro g hg
      exact hg.crossGaps.moves
        ((ordered.moves (moves_declareGaps f ordered.pending ahead)).crossGaps)
        (moves_enforceCapacity f _)

theorem accounted_replay (limits : Limits) (calls : List Call) :
    Accounted ((declared limits calls).map Loss.gap) (replay limits calls) := by
  induction calls using List.reverseRecOn with
  | nil => exact ⟨rfl, rfl, rfl, nofun, .nil, nofun⟩
  | append_singleton calls call ih =>
    rw [declared_concat, replay_concat, List.map_append]
    exact ih.apply (wellFormed_replay limits calls) call

/-! ## What has left the head is behind it -/

/-- How many bytes leave the head in a call: those consumed, or dropped for want of room. -/
def leaving (r : Reassembly) : Call → Nat
  | .consume n => min n r.size
  | .add f =>
    ((r.admitted? f).map fun s =>
      s.declareGaps.crossGaps.size - s.declareGaps.limits.capacity).getD 0

theorem advanced_consume {n : Nat} (pos : 0 < n) (held : 0 < r.size) :
    (r.consume n).advanced = true := by
  rcases r.consume_cases n with ⟨-, rfl | none⟩ | ⟨-, hr⟩
  · omega
  · have := r.length_held
    rw [none, List.length_nil] at this
    omega
  · rw [hr]
    rfl

theorem advanced_of_leaving {call : Call} (leaves : 0 < r.leaving call) :
    (r.apply call).advanced = true := by
  cases call with
  | consume n =>
    simp only [leaving] at leaves
    exact advanced_consume (by omega) (by omega)
  | add f =>
    simp only [leaving, Reassembly.apply] at leaves ⊢
    cases admits : r.admitted? f with
    | none => simp [admits] at leaves
    | some s =>
      rw [admits, Option.map_some, Option.getD_some] at leaves
      rw [add_of_admitted admits]
      rcases s.declareGaps.crossGaps.enforceCapacity_cases with ⟨-, le⟩ | ⟨full, tally, -, -, hr⟩
      · rw [crossGaps_limits] at le
        omega
      · rw [hr]
        refine advanced_consume (by omega) ?_
        show 0 < s.declareGaps.crossGaps.size
        omega

/-- Bytes have left the head, which stands at `p` or behind it, and the frontier at `q` or behind
it. -/
structure Beyond (p q : Nat) (r : Reassembly) : Prop extends Past p r where
  reached : q ≤ r.frontier

theorem Beyond.move {k : Fragment} {p q : Nat} (h : Beyond p q r) (ordered : r.Ordered)
    (m : Move k r r') : Beyond p q r' := by
  refine ⟨h.toPast.move ordered m, Nat.le_trans h.reached ?_⟩
  cases m with
  | count _ _ _ | hold _ _ | skip _ _ => exact Nat.le_refl _
  | place unset =>
    have := (ordered.unset unset).1
    simp [h.advanced] at this
  | back _ _ _ unmoved _ => simp [h.advanced] at unmoved
  | append _ _ le =>
    rw [append_frontier, Fragment.stop_startingAt le]
    exact le
  | @flush f rest _ _ lt =>
    show r.frontier ≤ (f.startingAt r.frontier).stop
    rw [Fragment.stop_startingAt (Nat.le_of_lt lt)]
    exact Nat.le_of_lt lt
  | declare _ hole _ => exact Nat.le_of_lt hole
  | cross => rw [crossGaps_frontier]
  | drop _ => rw [consume_frontier]

theorem Beyond.apply {p q : Nat} (h : Beyond p q r) (wf : r.WellFormed) (call : Call) :
    Beyond p q (r.apply call) := by
  cases call with
  | add f => exact wf.add_induction (fun _ _ ordered m hs => hs.move ordered m) h
  | consume n =>
    refine ⟨h.toPast.consume wf.toOrdered n, ?_⟩
    show q ≤ (r.consume n).frontier
    rw [consume_frontier]
    exact h.reached

theorem Beyond.later {p q : Nat} {calls : List Call} (h : Beyond p q (replay limits calls))
    (more : List Call) : Beyond p q (replay limits (calls ++ more)) :=
  replay_later (fun _ call wf beyond => beyond.apply wf call) h more

/-- **Lost gaps are final, and all of them are counted.** The gaps declared during a run hold at
least one position each and lie one behind the other. Each was declared while more than the allowed
gap lay between the frontier and the end of the furthest fragment that waited, and reaches up to the
first of these. Nothing in a declared gap is ever offered, whatever comes later. Once bytes have
left the head, head and frontier only move on. The counters are the number and the total length of
the declared gaps, and the last of them are remembered in order. -/
theorem gaps_final (limits : Limits) (calls : List Call) :
    let gaps := (declared limits calls).map Loss.gap
    (∀ g ∈ gaps, g.start < g.stop) ∧
    gaps.Pairwise (·.stop ≤ ·.start) ∧
    (∀ l ∈ declared limits calls,
      limits.maxGap < furthest l.before.pending - l.before.frontier ∧
      l.before.pending.head?.map (·.position) = some l.stop) ∧
    (∀ more, ∀ g ∈ gaps, ∀ i < (replay limits (calls ++ more)).run.length,
      ¬ (g.start ≤ (replay limits (calls ++ more)).position + i ∧
        (replay limits (calls ++ more)).position + i < g.stop)) ∧
    (∀ before call, before ++ [call] <+: calls → 0 < (replay limits before).leaving call →
      ∀ more, (replay limits calls).position ≤ (replay limits (calls ++ more)).position ∧
        (replay limits calls).frontier ≤ (replay limits (calls ++ more)).frontier) ∧
    (replay limits calls).tally.gaps = gaps.length ∧
    (replay limits calls).tally.gapBytes = total Gap.length gaps ∧
    (replay limits calls).gaps = gaps.drop (gaps.length - rememberedGaps) := by
  intro gaps
  have accounted : Accounted gaps (replay limits calls) := accounted_replay limits calls
  refine ⟨accounted.filled, accounted.apart, ?_, ?_, ?_, accounted.count, accounted.bytes,
    accounted.recent⟩
  · exact fun l hl => far_of_mem_declared limits calls hl
  · intro more g hg i hi
    have byte := List.getElem?_eq_getElem hi
    exact ((accounted.lost g hg).later more).avoided _ _ (mem_held_of_getElem? byte)
  · rintro before call ⟨after, rfl⟩ leaves more
    -- The head is past its own place then, and stays past it.
    have left : Beyond 0 0 (replay limits (before ++ [call])) := by
      refine ⟨⟨?_, Nat.zero_le _⟩, Nat.zero_le _⟩
      rw [replay_concat]
      exact advanced_of_leaving leaves
    have now : Beyond (replay limits (before ++ [call] ++ after)).position
        (replay limits (before ++ [call] ++ after)).frontier
        (replay limits (before ++ [call] ++ after)) :=
      ⟨⟨(left.later after).advanced, Nat.le_refl _⟩, Nat.le_refl _⟩
    exact ⟨(now.later more).le, (now.later more).reached⟩

/-- Two bytes that wait at 3 declare 1 and 2 lost; the bytes that come for these later are stale. -/
example :
    ((declared { maxGap := 2 } [.add ⟨0, 0, [7]⟩, .add ⟨3, 1, [8, 9]⟩, .add ⟨1, 2, [5, 5]⟩]).map
      Loss.gap) = [⟨1, 3⟩] := by
  decide +kernel

end Dialogue.Reassembly
