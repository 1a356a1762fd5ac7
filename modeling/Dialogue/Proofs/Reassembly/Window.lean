import Mathlib
import Dialogue.Proofs.Reassembly.Moves

/-!
A reassembly as it is laid out in memory, with arithmetic that can fail.

A `Window` keeps the bytes in order in one buffer, with a marker at each offset where a lost gap
was, and counts the waiting bytes in a counter. Its operations work on offsets and counters alone:
a subtraction below zero, a position too large for its word and a slice out of bounds have no
result. `Reassembly.window` is the layout of a reassembly; each operation on the layout has a
result, and it is the layout of what the operation on the reassembly yields.
-/
namespace Dialogue

/-- The largest position. -/
def maxPosition : Nat := 18446744073709551615

def sub? (a b : Nat) : Option Nat := if b ≤ a then some (a - b) else none

def add? (a b : Nat) : Option Nat := if a + b ≤ maxPosition then some (a + b) else none

/-- The bytes from `start` up to, not including, `stop`. -/
def part? (bs : Bytes) (start stop : Nat) : Option Bytes :=
  if start ≤ stop ∧ stop ≤ bs.length then some (slice bs start (stop - start)) else none

@[simp] theorem sub?_of_le {a b : Nat} (h : b ≤ a) : sub? a b = some (a - b) := if_pos h

@[simp] theorem add?_of_le {a b : Nat} (h : a + b ≤ maxPosition) : add? a b = some (a + b) :=
  if_pos h

theorem part?_of_le {bs : Bytes} {start stop : Nat} (le : start ≤ stop)
    (within : stop ≤ bs.length) :
    part? bs start stop = some (slice bs start (stop - start)) :=
  if_pos ⟨le, within⟩

@[simp] theorem part?_to_end {bs : Bytes} {start : Nat} (h : start ≤ bs.length) :
    part? bs start bs.length = some (bs.drop start) := by
  rw [part?_of_le h (Nat.le_refl _), slice, List.take_of_length_le]
  rw [List.length_drop]

theorem part?_from_start (bs cs : Bytes) : part? (bs ++ cs) 0 bs.length = some bs := by
  rw [part?_of_le (Nat.zero_le _) (by simp)]
  simp [slice]

/-- Where in the buffer the bytes go on behind a lost gap. -/
structure Marker where
  offset : Nat
  gap : Gap
deriving DecidableEq

namespace Marker

/-- Moves a marker `n` bytes towards the start of the buffer. -/
def shift? (n : Nat) (m : Marker) : Option Marker := do
  some { m with offset := ← sub? m.offset n }

/-- The new head once `n` bytes are gone, and the markers that are still ahead of it. -/
def cross? (n : Nat) : Nat → List Marker → Option (Nat × List Marker)
  | head, [] => some (head, [])
  | head, m :: rest =>
    if n < m.offset then some (head, m :: rest)
    else do cross? n (← add? m.gap.stop (← sub? n m.offset)) rest

/-- The head behind the gaps that no byte precedes, and the other markers. -/
def skip : Nat → List Marker → Nat × List Marker
  | head, [] => (head, [])
  | head, m :: rest => if m.offset = 0 then skip m.gap.stop rest else (head, m :: rest)

/-- The markers of islands, the first of which starts at `offset`. -/
def ofIslands : Nat → List Island → List Marker
  | _, [] => []
  | offset, i :: rest => ⟨offset, i.gap⟩ :: ofIslands (offset + i.bytes.length) rest

end Marker

namespace Fragment

/-- Enters a fragment by its position, in place of one at the same position. -/
def put (f : Fragment) : List Fragment → List Fragment
  | [] => [f]
  | g :: rest =>
    if f.position < g.position then f :: g :: rest
    else if f.position = g.position then f :: rest
    else g :: put f rest

def stop? (f : Fragment) : Option Nat := add? f.position f.bytes.length

/-- The part of a fragment behind its first `n` bytes. -/
def behind? (n : Nat) (f : Fragment) : Option Fragment := do
  some { f with position := ← add? f.position n, bytes := ← part? f.bytes n f.bytes.length }

/-- The position behind the furthest of some fragments. -/
def furthest? : Nat → List Fragment → Option Nat
  | far, [] => some far
  | far, f :: rest => do furthest? (max far (← f.stop?)) rest

/-- The pieces of the bytes `run` from `head` up to `stop`, as they were captured. -/
def pieces? (head stop : Nat) (run : Bytes) : List Stamp → Option (List Fragment)
  | [] => some []
  | s :: rest => do
    let start := max s.position head
    let stop' := Reassembly.pieceStop stop rest
    let later ← pieces? head stop run rest
    if start < stop' then
      let bytes ← part? run (← sub? start head) (← sub? stop' head)
      some (⟨start, s.time, bytes⟩ :: later)
    else some later

end Fragment

/-- One direction of a stream, as it is laid out in memory. -/
structure Window where
  limits : Limits := {}
  head : Option Nat := none
  advanced : Bool := false
  frontier : Nat := 0
  /-- The bytes in order, across all lost gaps. -/
  data : Bytes := []
  /-- Where the lost gaps were that the head has not crossed. -/
  markers : List Marker := []
  pending : List Fragment := []
  /-- The number of bytes in `pending`. -/
  pendingBytes : Nat := 0
  stamps : List Stamp := []
  gaps : List Gap := []
  tally : Tally := {}
deriving DecidableEq

namespace Window

/-- The bytes up to the first lost gap. -/
def run? (w : Window) : Option Bytes :=
  match w.markers with
  | [] => part? w.data 0 w.data.length
  | m :: _ => part? w.data 0 m.offset

def consume? (w : Window) (n : Nat) : Option Window :=
  let n := min n w.data.length
  if n = 0 then some w
  else
    match w.head with
    | none => some w
    | some head => do
      let (head, markers) ← Marker.cross? n (← add? head n) w.markers
      some { w with
        head := some head, advanced := true
        data := ← part? w.data n w.data.length
        markers := ← markers.mapM (Marker.shift? n)
        stamps := Stamp.prune head w.stamps }

/-- Appends a fragment that starts at the frontier. -/
def append? (w : Window) (f : Fragment) : Option Window := do
  some { w with
    data := w.data ++ f.bytes, frontier := ← f.stop?
    stamps := Stamp.insert ⟨f.position, f.time⟩ w.stamps }

/-- Appends, of fragments in ascending order, those that reach the frontier; the others wait. -/
def flushFrom? (w : Window) : List Fragment → Option Window
  | [] => some { w with pending := [] }
  | f :: rest =>
    if w.frontier < f.position then some { w with pending := f :: rest }
    else do
      let counted := { w with pendingBytes := ← sub? w.pendingBytes f.bytes.length }
      if (← f.stop?) ≤ w.frontier then flushFrom? counted rest
      else flushFrom? (← counted.append? (← f.behind? (← sub? w.frontier f.position))) rest

/-- Declares the positions from the frontier up to `stop` lost. -/
def declareGap? (w : Window) (stop : Nat) : Option Window := do
  let gap : Gap := ⟨w.frontier, stop⟩
  let gaps := w.gaps ++ [gap]
  some { w with
    frontier := stop
    markers := w.markers ++ [⟨w.data.length, gap⟩]
    gaps := gaps.drop (gaps.length - Reassembly.rememberedGaps)
    tally := { w.tally with
      gaps := w.tally.gaps + 1, gapBytes := w.tally.gapBytes + (← sub? gap.stop gap.start) } }

theorem length_pending_flushFrom?_le {w w' : Window} {fs : List Fragment}
    (h : w.flushFrom? fs = some w') : w'.pending.length ≤ fs.length := by
  induction fs generalizing w with
  | nil =>
    obtain rfl := Option.some.inj h
    exact Nat.le_refl _
  | cons f rest ih =>
    simp only [flushFrom?] at h
    split at h
    · obtain rfl := Option.some.inj h
      exact Nat.le_refl _
    · simp only [Option.bind_eq_bind, Option.bind_eq_some_iff] at h
      obtain ⟨_, -, _, -, h⟩ := h
      split at h
      · exact Nat.le_succ_of_le (ih h)
      · obtain ⟨_, -, h⟩ := Option.bind_eq_some_iff.1 h
        obtain ⟨_, -, h⟩ := Option.bind_eq_some_iff.1 h
        obtain ⟨_, -, h⟩ := Option.bind_eq_some_iff.1 h
        exact Nat.le_succ_of_le (ih h)

theorem length_pending_flushFrom?_lt {w w' : Window} {f : Fragment} {rest : List Fragment}
    (reaches : f.position ≤ w.frontier) (h : w.flushFrom? (f :: rest) = some w') :
    w'.pending.length < (f :: rest).length := by
  rw [flushFrom?, if_neg (Nat.not_lt.2 reaches)] at h
  simp only [Option.bind_eq_bind, Option.bind_eq_some_iff] at h
  obtain ⟨_, -, _, -, h⟩ := h
  split at h
  · exact Nat.lt_succ_of_le (length_pending_flushFrom?_le h)
  · obtain ⟨_, -, h⟩ := Option.bind_eq_some_iff.1 h
    obtain ⟨_, -, h⟩ := Option.bind_eq_some_iff.1 h
    obtain ⟨_, -, h⟩ := Option.bind_eq_some_iff.1 h
    exact Nat.lt_succ_of_le (length_pending_flushFrom?_le h)

theorem frontier_declareGap? {w w' : Window} {stop : Nat} (h : w.declareGap? stop = some w') :
    w'.frontier = stop := by
  obtain ⟨_, -, h⟩ := Option.bind_eq_some_iff.1 h
  obtain rfl := Option.some.inj h
  rfl

/-- Declares holes lost while too much waits behind them. -/
def declareGaps? (w : Window) : Option Window :=
  match first : w.pending with
  | [] => some w
  | f :: rest => do
    let furthest ← Fragment.furthest? 0 (f :: rest)
    if (← sub? furthest w.frontier) ≤ w.limits.maxGap then some w
    else
      match declared : w.declareGap? f.position with
      | none => none
      | some behind =>
        match flushed : behind.flushFrom? (f :: rest) with
        | none => none
        | some next =>
          have : next.pending.length < w.pending.length := by
            rw [first]
            exact length_pending_flushFrom?_lt (Nat.le_of_eq (frontier_declareGap? declared).symm)
              flushed
          declareGaps? next
termination_by w.pending.length

theorem declareGaps?_of_none {w : Window} (none : w.pending = []) : w.declareGaps? = some w := by
  rw [declareGaps?]
  split
  · rfl
  · next first => simp [none] at first

theorem declareGaps?_of_first {w : Window} {f : Fragment} {rest : List Fragment}
    (first : w.pending = f :: rest) :
    w.declareGaps? = (do
      let furthest ← Fragment.furthest? 0 (f :: rest)
      if (← sub? furthest w.frontier) ≤ w.limits.maxGap then some w
      else (← (← w.declareGap? f.position).flushFrom? (f :: rest)).declareGaps?) := by
  rw [declareGaps?]
  split
  · next none => simp [none] at first
  · next k ks h =>
    obtain ⟨rfl, rfl⟩ := List.cons.inj (h.symm.trans first)
    simp only [Option.bind_eq_bind]
    congr 1
    funext furthest
    congr 1
    funext span
    split
    · rfl
    · split
      · next none => rw [none]; rfl
      · next behind declared =>
        rw [declared, Option.bind_some]
        split
        · next none => rw [none]; rfl
        · next after flushed => rw [flushed, Option.bind_some]

/-- Crosses the gaps that no byte precedes any more. -/
def crossGaps (w : Window) : Window :=
  match w.markers with
  | m :: rest =>
    if m.offset = 0 then
      let (head, markers) := Marker.skip m.gap.stop rest
      { w with
        head := some head, advanced := true, markers := markers
        stamps := Stamp.prune head w.stamps }
    else w
  | [] => w

/-- Drops the oldest bytes beyond the capacity. -/
def enforceCapacity? (w : Window) : Option Window :=
  if w.limits.capacity < w.data.length then do
    let excess ← sub? w.data.length w.limits.capacity
    consume? { w with tally := { w.tally with dropped := w.tally.dropped + excess } } excess
  else some w

/-- Counts a fragment that brings nothing new. -/
def noteRepeated (w : Window) (position : Nat) : Window :=
  if w.head.getD 0 - position ≤ w.limits.repeatWindow then
    { w with tally := { w.tally with repeated := w.tally.repeated + 1 } }
  else { w with tally := { w.tally with stale := w.tally.stale + 1 } }

/-- Lets a fragment ahead of the frontier wait. -/
def hold? (w : Window) (f : Fragment) : Option Window :=
  let tally := { w.tally with outOfOrder := w.tally.outOfOrder + 1 }
  match w.pending.find? (·.position = f.position) with
  | none => some { w with
      pending := f.put w.pending, pendingBytes := w.pendingBytes + f.bytes.length, tally := tally }
  | some old =>
    if f.bytes.length ≤ old.bytes.length then
      some { w with tally := { w.tally with repeated := w.tally.repeated + 1 } }
    else do some { w with
      pending := f.put w.pending
      pendingBytes := (← sub? w.pendingBytes old.bytes.length) + f.bytes.length, tally := tally }

/-- Moves a head that nothing has left yet back to `position`: what is held in order waits again. -/
def moveBack? (w : Window) (head position : Nat) : Option Window := do
  let pieces ← Fragment.pieces? head w.frontier w.data w.stamps
  some { w with
    head := some position, frontier := position, data := [], stamps := []
    pending := pieces.foldl (fun ps f => f.put ps) w.pending
    pendingBytes := w.pendingBytes + total (·.bytes.length) pieces
    tally := { w.tally with outOfOrder := w.tally.outOfOrder + 1 } }

/-- Puts the head where the first fragment starts, or an earlier one while nothing has left. -/
def anchor? (w : Window) (position : Nat) : Option Window :=
  match w.head with
  | none => some { w with head := some position, frontier := position }
  | some head =>
    if position < head && !w.advanced && w.markers.isEmpty then w.moveBack? head position
    else some w

/-- Files a fragment that starts at the frontier or ahead of it. -/
def place? (w : Window) (f : Fragment) : Option Window := do
  let placed ←
    if f.position = w.frontier then do
      let appended ← w.append? f
      appended.flushFrom? w.pending
    else w.hold? f
  (← placed.declareGaps?).crossGaps.enforceCapacity?

/-- Files a fragment before, at or ahead of the frontier. -/
def file? (w : Window) (f : Fragment) : Option Window := do
  if f.position < w.frontier then
    if (← f.stop?) ≤ w.frontier then some (w.noteRepeated f.position)
    else w.place? (← f.behind? (← sub? w.frontier f.position))
  else w.place? f

/-- Takes in a fragment. Of one that is longer than the capacity only the last bytes count. -/
def add? (w : Window) (f : Fragment) : Option Window :=
  if f.bytes.isEmpty then some w
  else
    let tally := { w.tally with fragments := w.tally.fragments + 1 }
    if w.limits.capacity < f.bytes.length then do
      let excess ← sub? f.bytes.length w.limits.capacity
      let kept ← f.behind? excess
      let counted := { w with tally := { tally with dropped := tally.dropped + excess } }
      (← counted.anchor? kept.position).file? kept
    else do (← anchor? { w with tally := tally } f.position).file? f

/-- The effect of a call. -/
def call? (w : Window) : Reassembly.Call → Option Window
  | .add f => w.add? f
  | .consume n => w.consume? n

/-- The state after some calls, the first one on a fresh window. -/
def replay? (limits : Limits) (calls : List Reassembly.Call) : Option Window :=
  calls.foldlM call? { limits := limits }

end Window

end Dialogue
