import Mathlib
import Dialogue.Connection
import Dialogue.Mux
import Dialogue.Proofs.Reading

/-!
Whole runs of a connection: events come in and are processed, in any order.

`readings` lists what one direction reads during a run. Whatever was lost, repeated, reordered or
dropped, each frame is read off a contiguous piece of the stream that the events were cut from, no
byte is read twice, and the frames come in the order of the stream (`readings_sound`).
-/
namespace Dialogue.Connection

/-- What can be done with a connection. -/
inductive Action where
  | event (e : Event)
  | process

variable {d : Dialect}

/-- The effect of an action. -/
def act (c : Connection d) : Action → Connection d
  | .event e => c.add e
  | .process => c.process.2

/-- The connection after some actions. -/
def replay (d : Dialect) (id : Nat) (settings : Settings) (actions : List Action) : Connection d :=
  actions.foldl act (fresh d id settings)

/-- The fragments that events bring for one direction. -/
def brought (dir : Direction) (actions : List Action) : List Fragment :=
  actions.filterMap fun
    | .event e => if e.direction = dir then some e.fragment else none
    | .process => none

/-- One direction of a connection. -/
def flow (c : Connection d) : Direction → Flow
  | .request => c.requests
  | .response => c.responses

/-- The conversation as it is when a direction is read: requests come first. -/
def heard (c : Connection d) : Direction → Conversation d
  | .request => c.conversation
  | .response => (c.requests.scan .request c.settings.patience c.conversation).conversation

/-- The scan of one direction in processing. -/
def scanned (c : Connection d) (dir : Direction) : Flow.Scan d :=
  (c.flow dir).scan dir c.settings.patience (c.heard dir)

/-- What processing reads from one direction. -/
def reads (c : Connection d) (dir : Direction) : List (Reading d) :=
  Flow.Scan.readings dir c.settings.patience { flow := c.flow dir, conversation := c.heard dir }

/-- What one direction reads during a run. -/
def readings (dir : Direction) : Connection d → List Action → List (Reading d)
  | _, [] => []
  | c, .event e :: rest => readings dir (c.add e) rest
  | c, .process :: rest => c.reads dir ++ readings dir c.process.2 rest

theorem flow_process (c : Connection d) (dir : Direction) :
    c.process.2.flow dir = (c.scanned dir).flow := by
  cases dir <;> rfl

theorem reassembly_add (c : Connection d) (e : Event) (dir : Direction) :
    ((c.add e).flow dir).reassembly =
      if e.direction = dir then (c.flow dir).reassembly.add e.fragment
      else (c.flow dir).reassembly := by
  unfold add
  cases e.direction <;> cases dir <;> rfl

/-- What is filed in processing is what is read, requests before responses. -/
theorem scanned_files (c : Connection d) (dir : Direction) :
    (c.scanned dir).conversation.backlog =
      (c.reads dir).foldl (fun b ρ => b.push (d.key ρ.frame.value) dir ρ.frame)
        (c.heard dir).backlog :=
  (Flow.Scan.run_files dir c.settings.patience _).1

variable {id : Nat} {settings : Settings} {dir : Direction} {stream : Bytes}

/-- Whatever is done with a connection keeps track of what is read from a direction. -/
theorem track_readings
    (bounded : ∀ state bs frame n, (d.parse dir state bs).1 = .complete frame n → n ≤ bs.length)
    {c : Connection d} {limits : Limits} {fs : List Fragment} {ρs : List (Reading d)}
    (h : Track dir limits stream fs ρs (c.flow dir).reassembly) (actions : List Action)
    (sliced : ∀ f ∈ fs ++ brought dir actions, f.IsSliceOf stream) :
    Track dir limits stream (fs ++ brought dir actions) (ρs ++ readings dir c actions)
      ((actions.foldl act c).flow dir).reassembly := by
  induction actions generalizing c fs ρs with
  | nil => simpa [brought, readings] using h
  | cons a rest ih =>
    cases a with
    | event e =>
      -- An event of the other direction brings nothing here.
      by_cases same : e.direction = dir
      · have added : Track dir limits stream (fs ++ [e.fragment]) ρs
            ((c.add e).flow dir).reassembly := by
          rw [reassembly_add, if_pos same]
          refine h.apply (List.subset_append_left fs _) (.add e.fragment) ?_
          rintro _ ⟨⟩
          simp
        have hb : fs ++ brought dir (.event e :: rest) =
            fs ++ [e.fragment] ++ brought dir rest := by
          simp [brought, same]
        rw [hb] at sliced ⊢
        exact ih added sliced
      · have kept : Track dir limits stream fs ρs ((c.add e).flow dir).reassembly := by
          rwa [reassembly_add, if_neg same]
        have hb : brought dir (.event e :: rest) = brought dir rest := by simp [brought, same]
        rw [hb] at sliced ⊢
        exact ih kept sliced
    | process =>
      have scanned : Track dir limits stream fs (ρs ++ c.reads dir)
          (c.process.2.flow dir).reassembly := by
        rw [flow_process]
        exact Track.run h bounded fun f hf => sliced f (List.mem_append_left _ hf)
      rw [readings, ← List.append_assoc]
      exact ih scanned sliced

theorem track_fresh (d : Dialect) (id : Nat) (settings : Settings) (dir : Direction)
    (stream : Bytes) :
    Track (d := d) dir settings.limits stream [] []
      ((fresh d id settings).flow dir).reassembly where
  reached := by
    refine ⟨[], ?_, nofun⟩
    cases dir <;> rfl
  sound := nofun
  ordered := .nil
  past := nofun

/-- **No frame is read across a hole, and no byte is read twice.** Let the events of a direction be
pieces of one stream, and let reading never take up more than it is offered. Then, whatever was
lost, repeated, reordered or dropped, processing files just the frames of its readings; each of them
is read off a contiguous piece of the stream, under the time of an earlier event that brought its
first byte; and over a whole run each reading lies behind the one before it. -/
theorem readings_sound {actions : List Action}
    (bounded : ∀ state bs frame n, (d.parse dir state bs).1 = .complete frame n → n ≤ bs.length)
    (sliced : ∀ f ∈ brought dir actions, f.IsSliceOf stream) :
    (∀ before after, actions = before ++ .process :: after →
      ((replay d id settings before).scanned dir).conversation.backlog =
        ((replay d id settings before).reads dir).foldl
          (fun b ρ => b.push (d.key ρ.frame.value) dir ρ.frame)
          ((replay d id settings before).heard dir).backlog ∧
      ∀ ρ ∈ (replay d id settings before).reads dir, ρ.Sound dir stream (brought dir before)) ∧
    (readings dir (fresh d id settings) actions).Pairwise fun ρ σ =>
      ρ.start < ρ.stop ∧ ρ.stop ≤ σ.start := by
  have fresh := track_fresh d id settings dir stream
  refine ⟨?_, ?_⟩
  · rintro before after rfl
    refine ⟨scanned_files _ dir, fun ρ hρ => ?_⟩
    have sliced_before : ∀ f ∈ brought dir before, f.IsSliceOf stream := by
      intro f hf
      refine sliced f ?_
      rw [brought, List.filterMap_append]
      exact List.mem_append_left _ hf
    have before_track := track_readings bounded fresh before sliced_before
    exact (before_track.run bounded sliced_before).sound ρ (List.mem_append_right _ hρ)
  · have track := track_readings bounded fresh actions sliced
    refine track.ordered.imp_of_mem fun {ρ σ} hρ _ le => ⟨?_, le⟩
    have := (track.sound ρ hρ).pos
    rw [Reading.stop]
    omega

/-- Two mux messages of eight bytes: the second, and then the first in overlapping pieces. -/
def scrambled : List Action :=
  [.event ⟨.request, 8, 10, [0, 0, 0, 4, 65, 0, 0, 2]⟩,
    .event ⟨.request, 3, 20, [4, 65, 0, 0, 1]⟩, .event ⟨.request, 0, 30, [0, 0, 0, 4, 65]⟩]

/-- A mux message takes up no more than it is read from. -/
theorem length_le_of_parse_mux {bs : Bytes} {m : Mux.Message} {n : Nat}
    (h : Mux.Message.parse bs = .complete m n) : n ≤ bs.length := by
  unfold Mux.Message.parse at h
  split at h
  · cases h
  · split at h
    · cases h
    · split at h
      · next whole =>
        cases h
        exact (atLeast_iff ..).1 whole
      · cases h

theorem readings_sound_scrambled :
    (readings .request (fresh Mux.dialect 1 {}) (scrambled ++ [.process])).map
        (fun ρ => (ρ.start, ρ.stop, ρ.frame.time)) = [(0, 8, 30), (8, 16, 10)] ∧
      (readings .request (fresh Mux.dialect 1 {}) (scrambled ++ [.process])).Pairwise fun ρ σ =>
        ρ.start < ρ.stop ∧ ρ.stop ≤ σ.start := by
  refine ⟨by decide +kernel, ?_⟩
  have bounded : ∀ state bs frame n,
      (Mux.dialect.parse .request state bs).1 = .complete frame n → n ≤ bs.length :=
    fun _ _ _ _ h => length_le_of_parse_mux h
  have sliced : ∀ f ∈ brought .request (scrambled ++ [.process]),
      f.IsSliceOf [0, 0, 0, 4, 65, 0, 0, 1, 0, 0, 0, 4, 65, 0, 0, 2] := by decide
  exact (readings_sound bounded sliced).2

end Dialogue.Connection
