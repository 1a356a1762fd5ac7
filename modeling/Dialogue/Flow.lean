import Dialogue.Dialect
import Dialogue.Reassembly

/-!
Reading the frames of one direction off its reassembled bytes.

`Flow.step` looks at the head once. A frame is filed and its bytes are consumed. Bytes that may
still become a frame are waited for, unless a lost gap cuts them short. Bytes that begin no frame
are skipped up to the next credible frame; where there is none, the search is repeated as the head
grows, and after `patience` failures in a row the head is dropped. Each step that goes on consumes
something, so `Flow.scan` ends when the bytes do.
-/
namespace Dialogue

/-- One direction of a connection. -/
structure Flow where
  reassembly : Reassembly := {}
  /-- The failed searches since the last frame or dropped head. -/
  failures : Nat := 0
  /-- The length of the head at the last failed search. -/
  searched : Nat := 0

/-- What happened during one scan. -/
structure Findings where
  frames : Nat := 0
  errors : Nat := 0
  /-- The searches that found a frame's start. -/
  resyncs : Nat := 0
  /-- The bytes passed over without being read. -/
  skipped : Nat := 0
deriving DecidableEq

namespace Flow

/-- A scan under way. -/
structure Scan (d : Dialect) where
  flow : Flow
  conversation : Conversation d
  findings : Findings := {}

/-- Whether a scan goes on. -/
inductive Progress (d : Dialect) where
  | more (scan : Scan d)
  | done (scan : Scan d)

namespace Scan

variable {d : Dialect}

/-- The bytes held in order by the direction under scan. -/
def size (s : Scan d) : Nat := s.flow.reassembly.size

/-- Files a frame of `length` bytes, stamped with the capture time of its first byte. -/
def take (s : Scan d) (dir : Direction) (frame : d.Frame) (length : Nat) : Scan d :=
  let r := s.flow.reassembly
  { flow := { reassembly := r.consume length }
    conversation := s.conversation.push dir ⟨r.headTime, frame⟩
    findings := { s.findings with frames := s.findings.frames + 1 } }

/-- Drops an unfinished frame that a lost gap cuts short. -/
def dropCut (s : Scan d) : Scan d :=
  let r := s.flow.reassembly
  { s with
    flow := { s.flow with reassembly := r.consume r.run.length, searched := 0 }
    findings := { s.findings with
      errors := s.findings.errors + 1, skipped := s.findings.skipped + r.run.length } }

/-- Skips to the position of a credible frame. -/
def skipTo (s : Scan d) (position : Nat) : Scan d :=
  { s with
    flow := { s.flow with reassembly := s.flow.reassembly.consume position, searched := 0 }
    findings := { s.findings with
      resyncs := s.findings.resyncs + 1, skipped := s.findings.skipped + position } }

/-- Counts a failed search, if the head has grown since the last one or cannot grow. -/
def noteFailure (s : Scan d) : Scan d :=
  let r := s.flow.reassembly
  let counts := atLeast (s.flow.searched + 1) r.run || r.isFull
  { s with
    flow := { s.flow with
      failures := if counts then s.flow.failures + 1 else s.flow.failures
      searched := r.run.length } }

/-- Drops a head in which no frame was found. -/
def dropHead (s : Scan d) : Scan d :=
  let r := s.flow.reassembly
  { s with
    flow := { reassembly := r.consume r.run.length }
    findings := { s.findings with
      errors := s.findings.errors + 1, skipped := s.findings.skipped + r.run.length } }

/-- Deals with a head that begins no frame. -/
def resync (s : Scan d) (dir : Direction) (patience : Nat) : Progress d :=
  let r := s.flow.reassembly
  match (d.boundary dir s.conversation.state r.run 1).filter (0 < ·) with
  | some position => .more (s.skipTo position)
  | none =>
    let s := s.noteFailure
    if s.flow.failures < patience && !r.endsAtGap then .done s else .more s.dropHead

/-- Acts on what reading the head has given. -/
def act (s : Scan d) (dir : Direction) (patience : Nat) : Parsed d.Frame → Progress d
  | .complete frame length =>
    if length = 0 then s.resync dir patience else .more (s.take dir frame length)
  | .needMore _ => if s.flow.reassembly.endsAtGap then .more s.dropCut else .done s
  | .invalid _ => s.resync dir patience

/-- The scan with what reading has taught. -/
def learn (s : Scan d) (state : d.State) : Scan d :=
  { s with conversation := { s.conversation with state := state } }

/-- Looks at the head once. -/
def step (dir : Direction) (patience : Nat) (s : Scan d) : Progress d :=
  if s.flow.reassembly.run.isEmpty then .done s
  else
    let (parsed, state) := d.parse dir s.conversation.state s.flow.reassembly.run
    (s.learn state).act dir patience parsed

theorem size_consume_lt {r : Reassembly} (h : r.run.isEmpty = false) {n : Nat} (hn : 0 < n) :
    (r.consume n).size < r.size := by
  have hr : 0 < r.run.length := by
    cases hrun : r.run with
    | nil => simp [hrun] at h
    | cons => simp
  rw [Reassembly.size_consume]
  simp only [Reassembly.size]
  omega

theorem length_pos_of_not_isEmpty {r : Reassembly} (h : r.run.isEmpty = false) :
    0 < r.run.length := by
  cases hrun : r.run with
  | nil => simp [hrun] at h
  | cons => simp

theorem size_resync_lt {s t : Scan d} {dir : Direction} {patience : Nat}
    (hr : s.flow.reassembly.run.isEmpty = false) (h : s.resync dir patience = .more t) :
    t.size < s.size := by
  simp only [resync] at h
  split at h
  · next position hp =>
    obtain rfl := Progress.more.inj h
    exact size_consume_lt hr (by simpa using (Option.filter_eq_some_iff.1 hp).2)
  · split at h
    · exact absurd h (by simp)
    · obtain rfl := Progress.more.inj h
      exact size_consume_lt hr (length_pos_of_not_isEmpty hr)

theorem size_act_lt {s t : Scan d} {dir : Direction} {patience : Nat} {parsed : Parsed d.Frame}
    (hr : s.flow.reassembly.run.isEmpty = false) (h : s.act dir patience parsed = .more t) :
    t.size < s.size := by
  cases parsed with
  | complete frame length =>
    simp only [act] at h
    split at h
    · exact size_resync_lt hr h
    · next hn =>
      obtain rfl := Progress.more.inj h
      exact size_consume_lt hr (Nat.pos_of_ne_zero hn)
  | needMore minimum =>
    simp only [act] at h
    split at h
    · obtain rfl := Progress.more.inj h
      exact size_consume_lt hr (length_pos_of_not_isEmpty hr)
    · exact absurd h (by simp)
  | invalid reason => exact size_resync_lt hr h

/-- A step after which the scan goes on has consumed something. -/
theorem size_step_lt {s t : Scan d} {dir : Direction} {patience : Nat}
    (h : s.step dir patience = .more t) : t.size < s.size := by
  simp only [step] at h
  split at h
  · exact absurd h (by simp)
  · next hr =>
    rw [Bool.not_eq_true] at hr
    let learned := s.learn (d.parse dir s.conversation.state s.flow.reassembly.run).2
    exact size_act_lt (s := learned) hr h

/-- Steps until nothing more can be read. -/
def run (dir : Direction) (patience : Nat) (s : Scan d) : Scan d :=
  match h : s.step dir patience with
  | .done t => t
  | .more t =>
    have := size_step_lt h
    run dir patience t
termination_by s.size

end Scan

/-- Reads what one direction holds into the conversation. -/
def scan {d : Dialect} (f : Flow) (dir : Direction) (patience : Nat) (c : Conversation d) :
    Scan d :=
  ({ flow := f, conversation := c } : Scan d).run dir patience

end Flow

end Dialogue
