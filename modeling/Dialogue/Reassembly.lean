import Dialogue.Bytes
import Dialogue.Total

/-!
Reassembly of one direction of a captured byte stream.

Fragments carry their position in the stream; they may come in any order, overlap, repeat or stay
away. The bytes in order stand in `run`, which starts at the head. Fragments ahead of the frontier
wait in `pending`. A hole that stays open while more than `maxGap` bytes pile up behind it is
declared lost: what follows it becomes an `Island`, and the head crosses the gap once the bytes
before it are consumed. No more than `capacity` bytes are held in order; the oldest are dropped.

Each held byte keeps the capture time of the fragment that brought it: `stamps` has one entry for
each piece appended, by the position of its first byte.
-/
namespace Dialogue

/-- What one direction may hold. -/
structure Limits where
  /-- The most bytes held in order. -/
  capacity : Nat := 1024 * 1024
  /-- How far the furthest waiting byte may lie past the frontier. -/
  maxGap : Nat := 128 * 1024
  /-- A fragment at most this far behind the head counts as sent again, an older one as stale. -/
  repeatWindow : Nat := 128 * 1024
deriving DecidableEq

/-- A part of the stream that was declared lost: from `start` up to, not including, `stop`. -/
structure Gap where
  start : Nat
  stop : Nat
deriving DecidableEq

namespace Gap

def length (g : Gap) : Nat := g.stop - g.start

def isEmpty (g : Gap) : Bool := g.start == g.stop

end Gap

/-- What a direction has been given and has lost so far. -/
structure Tally where
  fragments : Nat := 0
  outOfOrder : Nat := 0
  repeated : Nat := 0
  stale : Nat := 0
  gaps : Nat := 0
  gapBytes : Nat := 0
  dropped : Nat := 0
deriving DecidableEq

/-- A piece of the stream as it was captured. -/
structure Fragment where
  position : Nat
  time : Nat
  bytes : Bytes
deriving DecidableEq

namespace Fragment

/-- The position behind the last byte. -/
def stop (f : Fragment) : Nat := f.position + f.bytes.length

/-- The part of a fragment from a position on. -/
def startingAt (f : Fragment) (position : Nat) : Fragment :=
  if f.position < position then
    { f with position := position, bytes := f.bytes.drop (position - f.position) }
  else f

/-- The last `n` bytes of a fragment. -/
def lastBytes (f : Fragment) (n : Nat) : Fragment :=
  f.startingAt (f.position + (f.bytes.length - n))

end Fragment

/-- The capture time of the bytes from a position on. -/
structure Stamp where
  position : Nat
  time : Nat
deriving DecidableEq

namespace Stamp

/-- Enters a stamp in ascending order of position, in place of one at the same position. -/
def insert (s : Stamp) : List Stamp → List Stamp
  | [] => [s]
  | t :: rest =>
    if s.position < t.position then s :: t :: rest
    else if s.position = t.position then s :: rest
    else t :: insert s rest

/-- The last stamp at or before a position. -/
def covering (position : Nat) (stamps : List Stamp) : Option Stamp :=
  (stamps.takeWhile (·.position ≤ position)).getLast?

/-- Forgets the stamps of bytes that all lie before `head`. -/
def prune (head : Nat) : List Stamp → List Stamp
  | s :: t :: rest => if t.position ≤ head then prune head (t :: rest) else s :: t :: rest
  | stamps => stamps

end Stamp

/-- Bytes in order behind a lost gap. -/
structure Island where
  gap : Gap
  bytes : Bytes
deriving DecidableEq

/-- One direction of a stream, reassembled as far as its fragments allow. -/
structure Reassembly where
  limits : Limits := {}
  /-- The position of the first held byte, once there was a fragment. -/
  head : Option Nat := none
  /-- Whether bytes have left the head, which then cannot move back. -/
  advanced : Bool := false
  /-- The position behind the last byte in order. -/
  frontier : Nat := 0
  /-- The bytes in order from the head on, up to the first lost gap. -/
  run : Bytes := []
  /-- The bytes in order behind each lost gap that the head has not crossed. -/
  islands : List Island := []
  /-- The fragments ahead of the frontier, by ascending position. -/
  pending : List Fragment := []
  /-- The capture times of the held bytes, by ascending position. -/
  stamps : List Stamp := []
  /-- The gaps declared last. -/
  gaps : List Gap := []
  tally : Tally := {}
deriving DecidableEq

namespace Reassembly

/-- How many declared gaps are remembered. -/
def rememberedGaps : Nat := 64

/-! ## Views -/

/-- The position of the head byte. -/
def position (r : Reassembly) : Nat := r.head.getD 0

/-- The number of bytes held in order, those behind lost gaps included. -/
def size (r : Reassembly) : Nat := r.run.length + total (·.bytes.length) r.islands

/-- The number of bytes held out of order. -/
def pendingSize (r : Reassembly) : Nat := total (·.bytes.length) r.pending

/-- The number of bytes held. -/
def memory (r : Reassembly) : Nat := r.size + r.pendingSize

def isFull (r : Reassembly) : Bool := r.limits.capacity ≤ r.size

def isEmpty (r : Reassembly) : Bool := r.size == 0 && r.pending.isEmpty

/-- Whether the bytes at the head are cut short by a lost gap; a frame that does not fit into them
can then never be completed. -/
def endsAtGap (r : Reassembly) : Bool := !r.islands.isEmpty

/-- The capture time of the byte at a position. -/
def timeAt (r : Reassembly) (position : Nat) : Option Nat :=
  (Stamp.covering position r.stamps).map (·.time)

/-- The capture time of the head byte, zero before the first fragment. -/
def headTime (r : Reassembly) : Nat := (r.head.bind r.timeAt).getD 0

/-! ## Consuming -/

/-- What is left of a run and its islands after `n` bytes: the new head, run and islands. A gap is
crossed as soon as no byte is left before it. -/
def dropHeld (n position : Nat) (run : Bytes) : List Island → Nat × Bytes × List Island
  | [] => (if atLeast n run then position + n else position + run.length, run.drop n, [])
  | i :: rest =>
    if atLeast (n + 1) run then (position + n, run.drop n, i :: rest)
    else dropHeld (n - run.length) i.gap.stop i.bytes rest

theorem length_dropHeld (n position : Nat) (run : Bytes) (islands : List Island) :
    (dropHeld n position run islands).2.1.length +
        total (·.bytes.length) (dropHeld n position run islands).2.2 =
      run.length + total (·.bytes.length) islands - n := by
  induction islands generalizing n position run with
  | nil => simp [dropHeld]
  | cons i rest ih =>
    simp only [dropHeld]
    split
    · next h =>
      rw [atLeast_iff] at h
      simp only [List.length_drop, total_cons]
      omega
    · next h =>
      rw [atLeast_iff] at h
      rw [ih]
      simp only [total_cons]
      omega

/-- Moves the head, forgetting what lies entirely before it. -/
def moveHead (r : Reassembly) (position : Nat) (run : Bytes) (islands : List Island) :
    Reassembly :=
  { r with
    head := some position, advanced := true, run := run, islands := islands
    stamps := Stamp.prune position r.stamps }

/-- Consumes `n` bytes from the head, or all that are held in order. -/
def consume (r : Reassembly) (n : Nat) : Reassembly :=
  if n == 0 || (r.run.isEmpty && r.islands.all (·.bytes.isEmpty)) then r
  else
    let (position, run, islands) := dropHeld n r.position r.run r.islands
    r.moveHead position run islands

theorem size_consume (r : Reassembly) (n : Nat) : (r.consume n).size = r.size - n := by
  unfold consume
  split
  · next h =>
    rw [Bool.or_eq_true, beq_iff_eq, Bool.and_eq_true, List.isEmpty_iff, List.all_eq_true] at h
    rcases h with h | ⟨run, islands⟩
    · simp [h]
    · have : total (·.bytes.length) r.islands = 0 :=
        total_eq_zero fun i hi => by simpa using islands i hi
      simp [size, run, this]
  · exact length_dropHeld ..

/-! ## The steps of taking in a fragment -/

/-- Appends a fragment that starts at the frontier. -/
def append (r : Reassembly) (f : Fragment) : Reassembly :=
  let (run, islands) :=
    match r.islands.getLast? with
    | none => (r.run ++ f.bytes, [])
    | some i => (r.run, r.islands.dropLast ++ [{ i with bytes := i.bytes ++ f.bytes }])
  { r with
    run := run, islands := islands, frontier := f.stop
    stamps := Stamp.insert ⟨f.position, f.time⟩ r.stamps }

/-- Appends, of fragments in ascending order, those that reach the frontier; the others wait. -/
def flushFrom (r : Reassembly) : List Fragment → Reassembly
  | [] => { r with pending := [] }
  | f :: rest =>
    if r.frontier < f.position then { r with pending := f :: rest }
    else if f.stop ≤ r.frontier then flushFrom r rest
    else flushFrom (r.append (f.startingAt r.frontier)) rest

/-- Appends the waiting fragments that now touch the frontier. -/
def flush (r : Reassembly) : Reassembly := r.flushFrom r.pending

theorem length_pending_flushFrom_le (r : Reassembly) (fs : List Fragment) :
    (r.flushFrom fs).pending.length ≤ fs.length := by
  induction fs generalizing r with
  | nil => simp [flushFrom]
  | cons f rest ih =>
    simp only [flushFrom]
    split
    · simp
    · split
      · exact Nat.le_succ_of_le (ih _)
      · exact Nat.le_succ_of_le (ih _)

theorem length_pending_flushFrom_lt {r : Reassembly} {f : Fragment} (h : f.position ≤ r.frontier)
    (fs : List Fragment) : (r.flushFrom (f :: fs)).pending.length < (f :: fs).length := by
  rw [flushFrom, if_neg (Nat.not_lt.2 h)]
  split
  · exact Nat.lt_succ_of_le (length_pending_flushFrom_le _ _)
  · exact Nat.lt_succ_of_le (length_pending_flushFrom_le _ _)

/-- The position behind the furthest waiting byte. -/
def furthest (fs : List Fragment) : Nat := (fs.map Fragment.stop).foldl max 0

/-- Declares the hole before a waiting fragment lost, and goes on behind it. -/
def declareGap (r : Reassembly) (stop : Nat) : Reassembly :=
  let gap : Gap := ⟨r.frontier, stop⟩
  let gaps := r.gaps ++ [gap]
  { r with
    frontier := stop
    islands := r.islands ++ [⟨gap, []⟩]
    gaps := gaps.drop (gaps.length - rememberedGaps)
    tally := { r.tally with gaps := r.tally.gaps + 1, gapBytes := r.tally.gapBytes + gap.length } }

/-- Declares holes lost while too much waits behind them. -/
def declareGaps (r : Reassembly) : Reassembly :=
  match h : r.pending with
  | [] => r
  | f :: rest =>
    if furthest r.pending - r.frontier ≤ r.limits.maxGap then r
    else
      have : ((r.declareGap f.position).flushFrom (f :: rest)).pending.length <
          r.pending.length := by
        rw [h]
        exact length_pending_flushFrom_lt (Nat.le_refl _) rest
      declareGaps ((r.declareGap f.position).flushFrom (f :: rest))
termination_by r.pending.length

/-- The first run that has bytes, or the last one, with its position and the islands behind it. -/
def firstRun (position : Nat) (run : Bytes) : List Island → Nat × Bytes × List Island
  | [] => (position, run, [])
  | i :: rest =>
    if run.isEmpty then firstRun i.gap.stop i.bytes rest else (position, run, i :: rest)

/-- Crosses the gaps that no byte precedes any more. -/
def crossGaps (r : Reassembly) : Reassembly :=
  if r.run.isEmpty && !r.islands.isEmpty then
    let (position, run, islands) := firstRun r.position r.run r.islands
    r.moveHead position run islands
  else r

/-- Drops the oldest bytes beyond the capacity. -/
def enforceCapacity (r : Reassembly) : Reassembly :=
  let excess := r.size - r.limits.capacity
  if excess = 0 then r
  else { r with tally := { r.tally with dropped := r.tally.dropped + excess } }.consume excess

/-- Counts a fragment that brings nothing new. -/
def noteRepeated (r : Reassembly) (position : Nat) : Reassembly :=
  if r.position - position ≤ r.limits.repeatWindow then
    { r with tally := { r.tally with repeated := r.tally.repeated + 1 } }
  else { r with tally := { r.tally with stale := r.tally.stale + 1 } }

/-- Enters a fragment among the waiting ones. Of two at one position the longer is kept, the older
one if they are equally long; the result says whether the fragment was entered. -/
def enter (f : Fragment) : List Fragment → Bool × List Fragment
  | [] => (true, [f])
  | g :: rest =>
    if f.position < g.position then (true, f :: g :: rest)
    else if f.position = g.position then
      if f.bytes.length ≤ g.bytes.length then (false, g :: rest) else (true, f :: rest)
    else
      let (entered, rest) := enter f rest
      (entered, g :: rest)

/-- Lets a fragment ahead of the frontier wait. -/
def hold (r : Reassembly) (f : Fragment) : Reassembly :=
  let (entered, pending) := enter f r.pending
  if entered then
    { r with pending := pending, tally := { r.tally with outOfOrder := r.tally.outOfOrder + 1 } }
  else { r with tally := { r.tally with repeated := r.tally.repeated + 1 } }

/-- The pieces of a run that starts at `head` and ends before `stop`, as they were captured. -/
def pieces (head stop : Nat) (run : Bytes) : List Stamp → List Fragment
  | [] => []
  | s :: rest =>
    let start := max s.position head
    let stop' := match rest with
      | [] => stop
      | t :: _ => t.position
    let later := pieces head stop run rest
    if start < stop' then ⟨start, s.time, slice run (start - head) (stop' - start)⟩ :: later
    else later

/-- Moves a head that nothing has left yet back to `position`: what is held in order waits again. -/
def moveBack (r : Reassembly) (head position : Nat) : Reassembly :=
  { r with
    head := some position, frontier := position, run := [], stamps := []
    pending := pieces head r.frontier r.run r.stamps ++ r.pending
    tally := { r.tally with outOfOrder := r.tally.outOfOrder + 1 } }

/-- Puts the head where the first fragment starts, or an earlier one while nothing has left. -/
def anchor (r : Reassembly) (position : Nat) : Reassembly :=
  match r.head with
  | none => { r with head := some position, frontier := position }
  | some head =>
    if position < head && !r.advanced && r.islands.isEmpty then r.moveBack head position else r

/-- Files a fragment before, at or ahead of the frontier. -/
def file (r : Reassembly) (f : Fragment) : Reassembly :=
  if f.position < r.frontier && f.stop ≤ r.frontier then r.noteRepeated f.position
  else
    let f := f.startingAt r.frontier
    let r := if f.position = r.frontier then (r.append f).flush else r.hold f
    r.declareGaps.crossGaps.enforceCapacity

/-- Takes in a fragment. Of one that is longer than the capacity only the last bytes count. -/
def add (r : Reassembly) (f : Fragment) : Reassembly :=
  if f.bytes.isEmpty then r
  else
    let kept := f.lastBytes r.limits.capacity
    let tally := { r.tally with
      fragments := r.tally.fragments + 1
      dropped := r.tally.dropped + (f.bytes.length - r.limits.capacity) }
    ({ r with tally := tally }.anchor kept.position).file kept

end Reassembly

end Dialogue
