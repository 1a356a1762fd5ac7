import Mathlib
import Dialogue.Flow
import Dialogue.Proofs.Reassembly.Advance
import Dialogue.Proofs.Reassembly.Provenance

/-!
The frames that are read off one direction, and the bytes they are read from.

A scan files frames and goes on; `Scan.readings` lists what it reads, with the bytes that the head
offered and where they stand in the stream. The frames of these readings, in this order, are all
that a scan files (`run_files`). `Track` is what holds of the readings so far and the reassembly
they were read from: every reading is of a piece of the stream (`Reading.Sound`), they follow one
another without overlap, and the head has passed them all. Whatever a scan does keeps it
(`Track.run`).
-/
namespace Dialogue

/-- A frame read off the head. -/
structure Reading (d : Dialect) where
  /-- What the protocol remembered before it. -/
  state : d.State
  /-- The position of the head, which is that of the frame. -/
  start : Nat
  /-- The bytes at the head, of which the frame takes up the first `length`. -/
  offered : Bytes
  length : Nat
  frame : Stamped d.Frame

/-- The position behind the frame. -/
def Reading.stop {d : Dialect} (ρ : Reading d) : Nat := ρ.start + ρ.length

namespace Flow

variable {d : Dialect}

/-- The scan as a step leaves it. -/
def Progress.scan : Progress d → Scan d
  | .more s => s
  | .done s => s

namespace Scan

/-- The frame that the next step reads, if it reads one. -/
def reading? (dir : Direction) (s : Scan d) : Option (Reading d) :=
  let r := s.flow.reassembly
  if r.run.isEmpty then none
  else
    match (d.parse dir s.conversation.state r.run).1 with
    | .complete frame length =>
      if length = 0 then none
      else some ⟨s.conversation.state, r.position, r.run, length, ⟨r.headTime, frame⟩⟩
    | _ => none

/-- The frames that a scan reads, in order. -/
def readings (dir : Direction) (patience : Nat) (s : Scan d) : List (Reading d) :=
  match h : s.step dir patience with
  | .done _ => []
  | .more t =>
    have := size_step_lt h
    (s.reading? dir).toList ++ readings dir patience t
termination_by s.size

variable {dir : Direction} {patience : Nat} {s t : Scan d} {ρ : Reading d}

/-- A reading is of the head as it stands. -/
theorem of_reading? (h : s.reading? dir = some ρ) :
    (d.parse dir ρ.state ρ.offered).1 = .complete ρ.frame.value ρ.length ∧ 0 < ρ.length ∧
      ρ.start = s.flow.reassembly.position ∧ ρ.offered = s.flow.reassembly.run ∧
      ρ.offered ≠ [] ∧ ρ.frame.time = s.flow.reassembly.headTime := by
  simp only [reading?] at h
  split at h
  · cases h
  · next filled =>
    split at h
    · next frame length parsed =>
      split at h
      · cases h
      · next pos =>
        cases h
        exact ⟨parsed, Nat.pos_of_ne_zero pos, rfl, rfl, by simpa using filled, rfl⟩
    · cases h

/-- A frame is filed and its bytes are consumed. -/
structure Takes (dir : Direction) (s : Scan d) (ρ : Reading d) (t : Scan d) : Prop where
  reassembly : t.flow.reassembly = s.flow.reassembly.consume ρ.length
  backlog : t.conversation.backlog =
    s.conversation.backlog.push (d.key ρ.frame.value) dir ρ.frame
  frames : t.findings.frames = s.findings.frames + 1

/-- Nothing is filed, whatever is consumed. -/
structure Passes (s t : Scan d) : Prop where
  reassembly : ∃ n, t.flow.reassembly = s.flow.reassembly.consume n
  backlog : t.conversation.backlog = s.conversation.backlog
  frames : t.findings.frames = s.findings.frames

theorem Passes.refl (s : Scan d) : Passes s s := ⟨⟨0, by simp [Reassembly.consume]⟩, rfl, rfl⟩

theorem passes_resync (s : Scan d) (dir : Direction) (patience : Nat) :
    Passes s (s.resync dir patience).scan := by
  unfold resync
  simp only
  split
  · next position _ => exact ⟨⟨position, rfl⟩, rfl, rfl⟩
  · split
    · exact ⟨⟨0, by simp [Reassembly.consume, Progress.scan, noteFailure]⟩, rfl, rfl⟩
    · exact ⟨⟨_, rfl⟩, rfl, rfl⟩

theorem passes_act (s : Scan d) (dir : Direction) (patience : Nat) {parsed : Parsed d.Frame}
    (none : ∀ frame length, parsed = .complete frame length → length = 0) :
    Passes s (s.act dir patience parsed).scan := by
  cases parsed with
  | complete frame length =>
    rw [act, if_pos (none frame length rfl)]
    exact passes_resync s dir patience
  | needMore minimum =>
    simp only [act]
    split
    · exact ⟨⟨_, rfl⟩, rfl, rfl⟩
    · exact Passes.refl s
  | invalid reason => exact passes_resync s dir patience

/-- A step files the frame that it reads, and otherwise files nothing. -/
theorem step_spec (dir : Direction) (patience : Nat) (s : Scan d) :
    (∃ ρ t, s.reading? dir = some ρ ∧ s.step dir patience = .more t ∧ Takes dir s ρ t) ∨
      (s.reading? dir = none ∧ Passes s (s.step dir patience).scan) := by
  by_cases empty : s.flow.reassembly.run.isEmpty
  · rw [step, reading?, if_pos empty, if_pos empty]
    exact .inr ⟨rfl, Passes.refl s⟩
  rcases hparse : d.parse dir s.conversation.state s.flow.reassembly.run with ⟨parsed, state⟩
  -- What reading teaches the protocol leaves the bytes and the filed frames alone.
  have learned : ∀ t, Passes (s.learn state) t → Passes s t := fun t h =>
    ⟨h.reassembly, h.backlog, h.frames⟩
  simp only [step, reading?, if_neg empty, hparse]
  split
  · next frame length =>
    split
    · next zero =>
      refine .inr ⟨rfl, learned _ (passes_act _ dir patience ?_)⟩
      rintro _ _ ⟨⟩
      exact zero
    · next pos =>
      rw [act, if_neg pos]
      exact .inl ⟨_, _, rfl, rfl, rfl, rfl, rfl⟩
  · next other =>
    refine .inr ⟨rfl, learned _ (passes_act _ dir patience ?_)⟩
    exact fun frame length h => absurd h (other frame length)

theorem step_more (h : s.step dir patience = .more t) :
    (∃ ρ, s.reading? dir = some ρ ∧ Takes dir s ρ t) ∨ (s.reading? dir = none ∧ Passes s t) := by
  rcases s.step_spec dir patience with ⟨ρ, u, reads, steps, takes⟩ | ⟨none, passes⟩
  · obtain rfl : t = u := Progress.more.inj (h.symm.trans steps)
    exact .inl ⟨ρ, reads, takes⟩
  · exact .inr ⟨none, by rwa [h] at passes⟩

theorem step_done (h : s.step dir patience = .done t) : Passes s t := by
  rcases s.step_spec dir patience with ⟨ρ, u, -, steps, -⟩ | ⟨-, passes⟩
  · rw [steps] at h
    cases h
  · rwa [h] at passes

theorem run_of_done (h : s.step dir patience = .done t) : s.run dir patience = t := by
  rw [run]
  split
  · next u hu => exact Progress.done.inj (hu.symm.trans h)
  · next u hu => cases hu.symm.trans h

theorem run_of_more (h : s.step dir patience = .more t) :
    s.run dir patience = t.run dir patience := by
  rw [run]
  split
  · next u hu => cases hu.symm.trans h
  · next u hu =>
    obtain rfl := Progress.more.inj (hu.symm.trans h)
    rfl

/-- The frames that a scan files are those that it reads. -/
theorem run_files (dir : Direction) (patience : Nat) (s : Scan d) :
    (s.run dir patience).conversation.backlog =
        (s.readings dir patience).foldl (fun b ρ => b.push (d.key ρ.frame.value) dir ρ.frame)
          s.conversation.backlog ∧
      (s.run dir patience).findings.frames =
        s.findings.frames + (s.readings dir patience).length := by
  fun_induction readings dir patience s with
  | case1 s t h =>
    have passes := step_done h
    rw [run_of_done h]
    exact ⟨passes.backlog, passes.frames⟩
  | case2 s t h _ ih =>
    rw [run_of_more h, ih.1, ih.2]
    rcases step_more h with ⟨ρ, reads, takes⟩ | ⟨none, passes⟩
    · rw [reads, takes.backlog, takes.frames]
      refine ⟨rfl, ?_⟩
      simp only [Option.toList_some, List.singleton_append, List.length_cons]
      omega
    · rw [none, passes.backlog, passes.frames]
      exact ⟨rfl, rfl⟩

end Scan

end Flow

/-- A frame that was read off a piece of the stream, and whose time is that of a fragment that
brought its first byte. -/
structure Reading.Sound {d : Dialect} (dir : Direction) (stream : Bytes) (fs : List Fragment)
    (ρ : Reading d) : Prop where
  parsed : (d.parse dir ρ.state ρ.offered).1 = .complete ρ.frame.value ρ.length
  contiguous : ρ.offered = slice stream ρ.start ρ.offered.length
  pos : 0 < ρ.length
  le : ρ.length ≤ ρ.offered.length
  stamped : ∃ f ∈ fs, f.time = ρ.frame.time ∧
    ∃ b, stream[ρ.start]? = some b ∧ f.byteAt? ρ.start = some b

theorem Reading.Sound.mono {d : Dialect} {dir : Direction} {stream : Bytes}
    {fs gs : List Fragment} {ρ : Reading d} (h : ρ.Sound dir stream fs) (sub : fs ⊆ gs) :
    ρ.Sound dir stream gs := by
  obtain ⟨f, hf, hb⟩ := h.stamped
  exact ⟨h.parsed, h.contiguous, h.pos, h.le, f, sub hf, hb⟩

/-- What holds of the readings so far and the reassembly that they were read from. -/
structure Track {d : Dialect} (dir : Direction) (limits : Limits) (stream : Bytes)
    (fs : List Fragment) (ρs : List (Reading d)) (r : Reassembly) : Prop where
  reached : ∃ calls, r = Reassembly.replay limits calls ∧ ∀ f, .add f ∈ calls → f ∈ fs
  sound : ∀ ρ ∈ ρs, ρ.Sound dir stream fs
  ordered : ρs.Pairwise fun ρ σ => ρ.stop ≤ σ.start
  past : ∀ ρ ∈ ρs, r.Past ρ.stop

namespace Track

variable {d : Dialect} {dir : Direction} {limits : Limits} {stream : Bytes} {fs : List Fragment}
  {ρs : List (Reading d)} {ρ : Reading d} {r : Reassembly}

theorem wellFormed (h : Track dir limits stream fs ρs r) : r.WellFormed := by
  obtain ⟨calls, rfl, -⟩ := h.reached
  exact Reassembly.wellFormed_replay limits calls

theorem apply (h : Track dir limits stream fs ρs r) {gs : List Fragment} (sub : fs ⊆ gs)
    (call : Reassembly.Call) (brought : ∀ f, call = .add f → f ∈ gs) :
    Track dir limits stream gs ρs (r.apply call) where
  reached := by
    obtain ⟨calls, rfl, mem⟩ := h.reached
    refine ⟨calls ++ [call], (Reassembly.replay_concat limits calls call).symm, fun f hf => ?_⟩
    rcases List.mem_append.1 hf with hf | hf
    · exact sub (mem f hf)
    · exact brought f (List.mem_singleton.1 hf).symm
  sound := fun ρ hρ => (h.sound ρ hρ).mono sub
  ordered := h.ordered
  past := fun ρ hρ => (h.past ρ hρ).apply h.wellFormed call

theorem consume (h : Track dir limits stream fs ρs r) (n : Nat) :
    Track dir limits stream fs ρs (r.consume n) :=
  h.apply (List.Subset.refl fs) (.consume n) nofun

/-- The time at the head is that of a fragment that brought the head byte. -/
theorem stamped (h : Track dir limits stream fs ρs r) (sliced : ∀ f ∈ fs, f.IsSliceOf stream)
    (filled : r.run ≠ []) : ∃ f ∈ fs, f.time = r.headTime ∧
      ∃ b, stream[r.position]? = some b ∧ f.byteAt? r.position = some b := by
  have ordered := h.wellFormed.toOrdered
  obtain ⟨calls, hr, mem⟩ := h.reached
  have pos : 0 < r.run.length := List.length_pos_of_ne_nil filled
  have byte : (Reassembly.replay limits calls).run[0]? = some r.run[0] := by
    rw [← hr]
    exact List.getElem?_eq_getElem pos
  obtain ⟨f, hf, hb, ht⟩ := Reassembly.head_byte_captured limits calls byte
  rw [← hr, Nat.add_zero] at hb ht
  refine ⟨f, mem f hf, ?_, r.run[0], (sliced f (mem f hf)).getElem? hb, hb⟩
  obtain ⟨head, set⟩ := Option.ne_none_iff_exists'.1 fun unset => filled (ordered.unset unset).2.2.1
  rw [Reassembly.position_of_head set] at ht
  rw [Reassembly.headTime, set, Option.bind_some, ht, Option.getD_some]

/-- What is read off the head is a piece of the stream, behind all that was read before. -/
theorem take {s : Flow.Scan d} (h : Track dir limits stream fs ρs s.flow.reassembly)
    (bounded : ∀ state bs frame n, (d.parse dir state bs).1 = .complete frame n → n ≤ bs.length)
    (sliced : ∀ f ∈ fs, f.IsSliceOf stream) (reads : s.reading? dir = some ρ) :
    Track dir limits stream fs (ρs ++ [ρ]) (s.flow.reassembly.consume ρ.length) := by
  obtain ⟨parsed, pos, start, offered, filled, time⟩ := Flow.Scan.of_reading? reads
  have le : ρ.length ≤ ρ.offered.length := bounded _ _ _ _ parsed
  have sound : ρ.Sound dir stream fs := by
    refine ⟨parsed, ?_, pos, le, ?_⟩
    · obtain ⟨calls, hr, mem⟩ := h.reached
      rw [offered, start, hr]
      exact Reassembly.run_eq_slice fun f hf => sliced f (mem f hf)
    · rw [start, time]
      exact h.stamped sliced (offered ▸ filled)
  have consumed := h.consume ρ.length
  refine ⟨consumed.reached, ?_, ?_, ?_⟩
  · intro σ hσ
    rcases List.mem_append.1 hσ with hσ | hσ
    · exact h.sound σ hσ
    · rwa [List.mem_singleton.1 hσ]
  · refine List.pairwise_append.2 ⟨h.ordered, List.pairwise_singleton _ _, fun σ hσ τ hτ => ?_⟩
    -- The head has passed all earlier frames, and the new one starts at the head.
    rw [List.mem_singleton.1 hτ, start]
    exact (h.past σ hσ).le
  · intro σ hσ
    rcases List.mem_append.1 hσ with hσ | hσ
    · exact consumed.past σ hσ
    · rw [List.mem_singleton.1 hσ, Reading.stop, start]
      exact Reassembly.past_consume h.wellFormed.toOrdered pos (offered ▸ le)

theorem run {s : Flow.Scan d} {patience : Nat}
    (h : Track dir limits stream fs ρs s.flow.reassembly)
    (bounded : ∀ state bs frame n, (d.parse dir state bs).1 = .complete frame n → n ≤ bs.length)
    (sliced : ∀ f ∈ fs, f.IsSliceOf stream) :
    Track dir limits stream fs (ρs ++ s.readings dir patience)
      (s.run dir patience).flow.reassembly := by
  fun_induction Flow.Scan.readings dir patience s generalizing ρs with
  | case1 s t step =>
    obtain ⟨n, hn⟩ := (Flow.Scan.step_done step).reassembly
    rw [Flow.Scan.run_of_done step, List.append_nil, hn]
    exact h.consume n
  | case2 s t step _ ih =>
    rw [Flow.Scan.run_of_more step, ← List.append_assoc]
    apply ih
    rcases Flow.Scan.step_more step with ⟨ρ, reads, takes⟩ | ⟨none, passes⟩
    · rw [reads, takes.reassembly]
      exact h.take bounded sliced reads
    · obtain ⟨n, hn⟩ := passes.reassembly
      rw [none, hn, Option.toList_none, List.append_nil]
      exact h.consume n

end Track

end Dialogue
