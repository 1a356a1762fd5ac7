import Mathlib
import Dialogue.Proofs.Pairing
import Dialogue.Proofs.Polling

/-!
When a scan loses its patience.

The searches that fail are counted, and a head in which no frame is found is dropped at the last of
`patience` failures. `Sight` lists what a look at the head can come to, as far as the patience with
it goes, and the sights of a run tell what the counter holds (`Follows`): the failures since the
last frame or dropped head. So a head that no lost gap cuts short is dropped after as many failures
as there is patience, and no sooner (`drops_borne`). What a scan finds can be read off its sights as
well (`Scan.shows_run`).

The counter outlasts a search that succeeds, and an unfinished frame that a lost gap cuts short:
failures from before them count on as if nothing had gone well in between
(`drops_after_success`).
-/
namespace Dialogue.Flow

/-- What a look at the head comes to. -/
inductive Sight where
  /-- A frame was read. -/
  | frame
  /-- A search found a credible frame further on. -/
  | found
  /-- A search found none in a head of the given length; whether the buffer was full. -/
  | missed (length : Nat) (full : Bool)
  /-- A head in which no frame was found was dropped; whether a lost gap cut it short. -/
  | dropped (cut : Bool)
  /-- An unfinished frame that a lost gap cut short was dropped. -/
  | severed
deriving DecidableEq

/-- What a run has come to, the last sight first. -/
abbrev Sights := List Sight

/-- Whether failed searches are no longer held against the head afterwards. -/
def Sight.settles : Sight → Bool
  | frame | dropped _ => true
  | found | missed .. | severed => false

/-- Whether failed searches are no longer in a row afterwards. -/
def Sight.breaks : Sight → Bool
  | missed .. => false
  | frame | found | dropped _ | severed => true

namespace Sights

/-- The length of the head at the last search, where nothing has been read or passed over since. -/
def searched : Sights → Nat
  | .missed length _ :: _ => length
  | _ => 0

/-- Whether a sight is a failure: a search that finds nothing in a head that has grown since the
last one, or that cannot grow. -/
def fails (past : Sights) : Sight → Bool
  | .missed length full => decide (past.searched < length) || full
  | _ => false

/-- The failures since the last sight of a kind that ends the count. -/
def failures (ends : Sight → Bool) : Sights → Nat
  | [] => 0
  | sight :: past =>
    if ends sight then 0 else failures ends past + (fails past sight).toNat

/-- The failures that stood against the head when a search last succeeded or an unfinished frame was
last cut short, unless they have been settled since. -/
def carried : Sights → Nat
  | [] => 0
  | sight :: past =>
    if sight.settles then 0
    else if sight.breaks then failures Sight.settles past
    else carried past

/-- The failures that are held against a head are those in a row and those carried over. -/
theorem failures_settles (past : Sights) :
    failures Sight.settles past = failures Sight.breaks past + carried past := by
  induction past with
  | nil => rfl
  | cons sight past ih =>
    cases sight with
    | frame => rfl
    | found => simp [failures, carried, fails, Sight.settles, Sight.breaks]
    | missed length full =>
      simp only [failures, carried, Sight.settles, Sight.breaks, Bool.false_eq_true, if_false, ih]
      omega
    | dropped cut => rfl
    | severed => simp [failures, carried, fails, Sight.settles, Sight.breaks]

end Sights

namespace Scan

variable {d : Dialect}

/-- The sights of a search. -/
def searches (s : Scan d) (dir : Direction) (patience : Nat) : Sights :=
  let r := s.flow.reassembly
  match (d.boundary dir s.conversation.state r.run 1).filter (0 < ·) with
  | some _ => [.found]
  | none =>
    let miss := Sight.missed r.run.length r.isFull
    match s.resync dir patience with
    | .more _ => [.dropped r.endsAtGap, miss]
    | .done _ => [miss]

/-- The sights of what reading the head has given. -/
def sightsOf (s : Scan d) (dir : Direction) (patience : Nat) : Parsed d.Frame → Sights
  | .complete _ length => if length = 0 then s.searches dir patience else [.frame]
  | .needMore _ => if s.flow.reassembly.endsAtGap then [.severed] else []
  | .invalid _ => s.searches dir patience

/-- The sights of one look at the head. -/
def sights (dir : Direction) (patience : Nat) (s : Scan d) : Sights :=
  if s.flow.reassembly.run.isEmpty then []
  else
    let (parsed, state) := d.parse dir s.conversation.state s.flow.reassembly.run
    (s.learn state).sightsOf dir patience parsed

/-- The sights of a scan. -/
def sightings (dir : Direction) (patience : Nat) (s : Scan d) : Sights :=
  match h : s.step dir patience with
  | .done _ => s.sights dir patience
  | .more t =>
    have := size_step_lt h
    sightings dir patience t ++ s.sights dir patience
termination_by s.size

end Scan

/-! ## The sights and the findings of a scan -/

/-- Whether a head was dropped, be it unreadable or cut short. -/
def Sight.drops : Sight → Bool
  | dropped _ | severed => true
  | frame | found | missed .. => false

/-- The findings have grown by what the sights say. -/
structure Shows (seen : Sights) (before after : Findings) : Prop where
  frames : after.frames = before.frames + seen.count .frame
  resyncs : after.resyncs = before.resyncs + seen.count .found
  errors : after.errors = before.errors + seen.countP Sight.drops

theorem Shows.trans {first second : Sights} {a b c : Findings} (h : Shows first a b)
    (k : Shows second b c) : Shows (second ++ first) a c where
  frames := by rw [k.frames, h.frames, List.count_append]; omega
  resyncs := by rw [k.resyncs, h.resyncs, List.count_append]; omega
  errors := by rw [k.errors, h.errors, List.countP_append]; omega

namespace Scan

variable {d : Dialect}

theorem shows_resync (s : Scan d) (dir : Direction) (patience : Nat) :
    Shows (s.searches dir patience) s.findings (s.resync dir patience).scan.findings := by
  unfold searches
  dsimp only
  split
  · next position found =>
    have goes : s.resync dir patience = .more (s.skipTo position) := by simp only [resync, found]
    rw [goes]
    exact ⟨rfl, rfl, rfl⟩
  · next lost =>
    simp only [resync, lost]
    split_ifs <;> exact ⟨rfl, rfl, rfl⟩

theorem shows_act (s : Scan d) (dir : Direction) (patience : Nat) (parsed : Parsed d.Frame) :
    Shows (s.sightsOf dir patience parsed) s.findings
      (s.act dir patience parsed).scan.findings := by
  cases parsed with
  | complete frame length =>
    simp only [sightsOf, act]
    split
    · exact shows_resync s dir patience
    · exact ⟨rfl, rfl, rfl⟩
  | needMore minimum =>
    simp only [sightsOf, act]
    split <;> exact ⟨rfl, rfl, rfl⟩
  | invalid reason => exact shows_resync s dir patience

theorem shows_step (s : Scan d) (dir : Direction) (patience : Nat) :
    Shows (s.sights dir patience) s.findings (s.step dir patience).scan.findings := by
  unfold sights step
  split
  · exact ⟨rfl, rfl, rfl⟩
  · let read := d.parse dir s.conversation.state s.flow.reassembly.run
    exact shows_act (s.learn read.2) dir patience read.1

/-- What a scan finds is what its sights say. -/
theorem shows_run (s : Scan d) (dir : Direction) (patience : Nat) :
    Shows (s.sightings dir patience) s.findings (s.run dir patience).findings := by
  fun_induction sightings dir patience s with
  | case1 s t step =>
    have now := shows_step s dir patience
    rw [step] at now
    rw [run_of_done step]
    exact now
  | case2 s t step _ ih =>
    have now := shows_step s dir patience
    rw [step] at now
    rw [run_of_more step]
    exact now.trans ih

end Scan

/-! ## Runs of a direction -/

/-- What can be done with one direction: bytes come in, or they are read into a conversation. What
the conversation holds by then is left open, since the other direction and the pairing change it. -/
inductive Move (d : Dialect) where
  | add (f : Fragment)
  | scan (c : Conversation d)

/-- A direction with all that looking at its head has come to. -/
structure Watched where
  flow : Flow
  seen : Sights := []

variable {d : Dialect}

/-- The effect of a move. -/
def Watched.move (dir : Direction) (patience : Nat) (w : Watched) : Move d → Watched
  | .add f => { w with flow := { w.flow with reassembly := w.flow.reassembly.add f } }
  | .scan c =>
    ⟨(w.flow.scan dir patience c).flow,
      Scan.sightings dir patience { flow := w.flow, conversation := c } ++ w.seen⟩

/-- The direction after some moves. -/
def Watched.replay (dir : Direction) (patience : Nat) (limits : Limits) (moves : List (Move d)) :
    Watched :=
  moves.foldl (Watched.move dir patience) { flow := { reassembly := { limits := limits } } }

/-! ## What the counter holds -/

/-- The sights so far tell what the counters hold, and every head that was dropped in whole had
borne as many failures as there is patience. -/
structure Follows (patience : Nat) (seen : Sights) (f : Flow) : Prop where
  failures : f.failures = seen.failures Sight.settles
  searched : f.searched = seen.searched
  patient : f.failures < patience
  borne : ∀ past, Sight.dropped false :: past <:+ seen →
    Sights.failures Sight.settles past = patience

section
variable {dir : Direction} {patience : Nat} {seen : Sights} {f : Flow}

theorem follows_fresh (patient : 0 < patience) (limits : Limits) :
    Follows patience [] { reassembly := { limits := limits } } where
  failures := rfl
  searched := rfl
  patient := patient
  borne past h := by simp at h

/-- Bytes that come in change no counter. -/
theorem Follows.withReassembly (h : Follows patience seen f) (r : Reassembly) :
    Follows patience seen { f with reassembly := r } :=
  ⟨h.failures, h.searched, h.patient, h.borne⟩

/-- A sight that is no dropped head leaves nothing more to be borne. -/
theorem Follows.borne_cons (h : Follows patience seen f) {sight : Sight}
    (stays : sight ≠ .dropped false) :
    ∀ past, Sight.dropped false :: past <:+ sight :: seen →
      Sights.failures Sight.settles past = patience := by
  intro past suffix
  rcases List.suffix_cons_iff.1 suffix with first | later
  · exact absurd (List.cons.inj first).1.symm stays
  · exact h.borne past later

namespace Scan

variable {s : Scan d}

/-- A search that fails is counted as the sights count it. -/
theorem failures_noteFailure (h : Follows patience seen s.flow) :
    s.noteFailure.flow.failures = Sights.failures Sight.settles
      (.missed s.flow.reassembly.run.length s.flow.reassembly.isFull :: seen) := by
  have grown : atLeast (s.flow.searched + 1) s.flow.reassembly.run =
      decide (seen.searched < s.flow.reassembly.run.length) := by
    rw [Bool.eq_iff_iff, atLeast_iff, decide_eq_true_eq, h.searched]
    exact Iff.rfl
  show (if atLeast _ _ || s.flow.reassembly.isFull then _ else s.flow.failures) = _
  rw [grown, h.failures]
  simp only [Sights.failures, Sight.settles, Sights.fails, Bool.false_eq_true, if_false]
  cases decide (seen.searched < s.flow.reassembly.run.length) ||
    s.flow.reassembly.isFull <;> rfl

/-- A search adds at most one failure. -/
theorem failures_noteFailure_le (s : Scan d) :
    s.noteFailure.flow.failures ≤ s.flow.failures + 1 := by
  unfold noteFailure
  dsimp only
  split <;> omega

theorem follows_resync (h : Follows patience seen s.flow) :
    Follows patience (s.searches dir patience ++ seen) (s.resync dir patience).scan.flow := by
  unfold searches
  dsimp only
  split
  · next position found =>
    have goes : s.resync dir patience = .more (s.skipTo position) := by
      simp only [resync, found]
    rw [goes]
    exact
      { failures := h.failures
        searched := rfl
        patient := h.patient
        borne := h.borne_cons (by simp) }
  · next lost =>
    have counted := failures_noteFailure h
    have few := s.failures_noteFailure_le
    generalize hm : Sight.missed s.flow.reassembly.run.length s.flow.reassembly.isFull = miss
      at counted
    have missed : ∀ past, Sight.dropped false :: past <:+ miss :: seen →
        Sights.failures Sight.settles past = patience := h.borne_cons (by simp [← hm])
    have goes : s.resync dir patience =
        if s.noteFailure.flow.failures < patience && !s.flow.reassembly.endsAtGap then
          .done s.noteFailure else .more s.noteFailure.dropHead := by
      simp only [resync, lost]
    rw [goes]
    split_ifs with stays
    · rw [Bool.and_eq_true, decide_eq_true_eq] at stays
      exact
        { failures := counted
          searched := by rw [← hm]; rfl
          patient := stays.1
          borne := missed }
    · -- The head is dropped, in whole only if there is no patience left.
      have patient := h.patient
      refine
        { failures := rfl
          searched := rfl
          patient := Nat.zero_lt_of_lt patient
          borne := fun past suffix => ?_ }
      rcases List.suffix_cons_iff.1 suffix with first | later
      · obtain ⟨cut, rfl⟩ := List.cons.inj first
        have whole : s.flow.reassembly.endsAtGap = false := (Sight.dropped.inj cut).symm
        rw [whole, Bool.not_false, Bool.and_true, decide_eq_true_eq] at stays
        show Sights.failures Sight.settles (miss :: seen) = patience
        omega
      · exact missed past later

theorem follows_act (h : Follows patience seen s.flow) (parsed : Parsed d.Frame) :
    Follows patience (s.sightsOf dir patience parsed ++ seen)
      (s.act dir patience parsed).scan.flow := by
  cases parsed with
  | complete frame length =>
    simp only [sightsOf, act]
    split
    · exact follows_resync h
    · exact
        { failures := rfl
          searched := rfl
          patient := Nat.zero_lt_of_lt h.patient
          borne := h.borne_cons (by simp) }
  | needMore minimum =>
    simp only [sightsOf, act]
    split
    · exact
        { failures := h.failures
          searched := rfl
          patient := h.patient
          borne := h.borne_cons (by simp) }
    · exact h
  | invalid reason => exact follows_resync h

/-- What one look at the head keeps up. -/
theorem follows_step (h : Follows patience seen s.flow) :
    Follows patience (s.sights dir patience ++ seen) (s.step dir patience).scan.flow := by
  unfold sights step
  split
  · exact h
  · let read := d.parse dir s.conversation.state s.flow.reassembly.run
    exact follows_act (s := s.learn read.2) h read.1

/-- What a whole scan keeps up. -/
theorem follows_run (h : Follows patience seen s.flow) :
    Follows patience (s.sightings dir patience ++ seen) (s.run dir patience).flow := by
  fun_induction sightings dir patience s generalizing seen with
  | case1 s t step =>
    have after : Follows patience (s.sights dir patience ++ seen) (s.step dir patience).scan.flow :=
      follows_step h
    rw [step] at after
    rw [run_of_done step]
    exact after
  | case2 s t step _ ih =>
    have after : Follows patience (s.sights dir patience ++ seen) (s.step dir patience).scan.flow :=
      follows_step h
    rw [step] at after
    rw [run_of_more step, List.append_assoc]
    exact ih after

end Scan

/-- What a run of moves keeps up. -/
theorem follows_replay (patient : 0 < patience) (limits : Limits) (moves : List (Move d)) :
    Follows patience (Watched.replay dir patience limits moves).seen
      (Watched.replay dir patience limits moves).flow := by
  refine Pairing.holds_foldl (P := fun w : Watched => Follows patience w.seen w.flow)
    (follows_fresh patient limits) ?_
  intro w h move _
  cases move with
  | add f => exact h.withReassembly _
  | scan c => exact Scan.follows_run (s := { flow := w.flow, conversation := c }) h

end

/-- **A head is dropped at the last of the failures that it may have.** Whatever comes in and
whenever it is read, a head that no lost gap cuts short is dropped as unreadable after exactly as
many failed searches as there is patience, each in a head that has grown or cannot grow, counted
since the last frame or dropped head. All of them are in a row, with no search that succeeds and no
unfinished frame cut short among them, exactly when none was carried over such a sight. -/
theorem drops_borne (dir : Direction) {patience : Nat} (patient : 0 < patience) (limits : Limits)
    (moves : List (Move d)) :
    ∀ past, Sight.dropped false :: past <:+ (Watched.replay dir patience limits moves).seen →
      Sights.failures Sight.settles past = patience ∧
        (patience ≤ Sights.failures Sight.breaks past ↔ Sights.carried past = 0) := by
  intro past suffix
  have borne : Sights.failures Sight.settles past = patience :=
    (follows_replay patient limits moves).borne past suffix
  have split : Sights.failures Sight.settles past =
      Sights.failures Sight.breaks past + Sights.carried past := Sights.failures_settles past
  refine ⟨borne, ?_⟩
  omega

/-- A byte that begins no request, the start of a request line, and a byte that breaks it off. -/
def falseStart : List (Move Http.dialect) :=
  [.add ⟨0, 1, [0]⟩, .scan {}, .add ⟨1, 2, ascii "GET "⟩, .scan {}, .add ⟨5, 3, [0]⟩, .scan {}]

/-- Of the two failures, one is carried over the search that succeeded. -/
theorem drops_borne_carried :
    let seen := (Watched.replay .request 2 {} falseStart).seen
    let past : Sights := [.missed 5 false, .found, .missed 1 false]
    0 < 2 ∧ Sight.dropped false :: past <:+ seen ∧ Sights.carried past = 1 ∧
      Sights.failures Sight.settles past = 2 ∧
      (2 ≤ Sights.failures Sight.breaks past ↔ Sights.carried past = 0) := by
  intro seen past
  have suffix : Sight.dropped false :: past <:+ seen := by decide +kernel
  exact ⟨by decide, suffix, by decide, drops_borne .request (by decide) {} falseStart past suffix⟩

/-- The head is dropped after one failed search since the last one that succeeded. -/
theorem drops_after_success :
    let seen := (Watched.replay .request 2 {} falseStart).seen
    seen = [.dropped false, .missed 5 false, .found, .missed 1 false] ∧
      ¬ ∀ past, Sight.dropped false :: past <:+ seen → 2 ≤ Sights.failures Sight.breaks past := by
  intro seen
  have all : seen = [.dropped false, .missed 5 false, .found, .missed 1 false] := by decide +kernel
  refine ⟨all, fun claimed => ?_⟩
  have two : 2 ≤ Sights.failures Sight.breaks [.missed 5 false, .found, .missed 1 false] :=
    claimed _ (all ▸ List.suffix_refl _)
  exact absurd two (by decide)

end Dialogue.Flow
