import Mathlib
import Dialogue.Proofs.Reassembly.Stamps

/-!
The bytes held in order and where they stand in the stream.

`held` lists them with their positions, across all gaps. Consuming takes from its front
(`held_consume`), appending at the frontier adds behind its end (`held_append`), and declaring or
crossing a gap leaves it alone. `Chained` says that the run and the islands stand one behind the
other, with a gap before each island, and end at a given position; it is what makes the position of
a byte, which is nowhere stored, the one it was captured at.
-/
namespace Dialogue.Reassembly

/-- The bytes of a run and of the islands behind it, each with its position. -/
def placedRuns (position : Nat) (run : Bytes) (islands : List Island) : List (UInt8 × Nat) :=
  run.zipIdx position ++ islands.flatMap fun i => i.bytes.zipIdx i.gap.stop

/-- The run and the islands stand one behind the other, each island behind a gap, up to `stop`. -/
def Chained (stop : Nat) : Nat → Bytes → List Island → Prop
  | position, run, [] => position + run.length = stop
  | position, run, i :: rest =>
    position + run.length = i.gap.start ∧ i.gap.start < i.gap.stop ∧
      Chained stop i.gap.stop i.bytes rest

variable {stop position n : Nat} {run : Bytes} {islands : List Island}

theorem placedRuns_cons (i : Island) :
    placedRuns position run (i :: islands) =
      run.zipIdx position ++ placedRuns i.gap.stop i.bytes islands := rfl

theorem placedRuns_concat (i : Island) :
    placedRuns position run (islands ++ [i]) =
      placedRuns position run islands ++ i.bytes.zipIdx i.gap.stop := by
  simp [placedRuns]

theorem length_placedRuns :
    (placedRuns position run islands).length = run.length + total (·.bytes.length) islands := by
  induction islands generalizing position run with
  | nil => simp [placedRuns]
  | cons i rest ih => rw [placedRuns_cons, List.length_append, ih, List.length_zipIdx, total_cons]

theorem chained_concat (i : Island) :
    Chained stop position run (islands ++ [i]) ↔
      Chained i.gap.start position run islands ∧ i.gap.start < i.gap.stop ∧
        i.gap.stop + i.bytes.length = stop := by
  induction islands generalizing position run with
  | nil => rfl
  | cons j rest ih =>
    simp only [List.cons_append, Chained, ih]
    tauto

theorem Chained.le (h : Chained stop position run islands) : position + run.length ≤ stop := by
  induction islands generalizing position run with
  | nil => exact Nat.le_of_eq h
  | cons i rest ih =>
    obtain ⟨h1, h2, h3⟩ := h
    have := ih h3
    omega

theorem Chained.bounds (h : Chained stop position run islands) {b : UInt8} {p : Nat}
    (hp : (b, p) ∈ placedRuns position run islands) : position ≤ p ∧ p < stop := by
  induction islands generalizing position run with
  | nil =>
    have hp : (b, p) ∈ run.zipIdx position := by simpa [placedRuns] using hp
    exact ⟨List.le_snd_of_mem_zipIdx hp, h ▸ List.snd_lt_add_of_mem_zipIdx hp⟩
  | cons i rest ih =>
    have hle := h.le
    obtain ⟨h1, h2, h3⟩ := h
    rcases List.mem_append.1 hp with hp | hp
    · have := List.le_snd_of_mem_zipIdx hp
      have := List.snd_lt_add_of_mem_zipIdx hp
      omega
    · have := ih h3 hp
      omega

theorem pairwise_zipIdx (bs : Bytes) (position : Nat) :
    (bs.zipIdx position).Pairwise (·.2 < ·.2) := by
  have : (List.range' position bs.length).Pairwise (· < ·) := List.pairwise_lt_range'
  rwa [← List.zipIdx_map_snd, List.pairwise_map] at this

/-- Bytes held in order stand in ascending order of position. -/
theorem Chained.pairwise (h : Chained stop position run islands) :
    (placedRuns position run islands).Pairwise (·.2 < ·.2) := by
  induction islands generalizing position run with
  | nil => simpa [placedRuns] using pairwise_zipIdx run position
  | cons i rest ih =>
    obtain ⟨h1, h2, h3⟩ := h
    rw [placedRuns_cons]
    refine List.pairwise_append.2 ⟨pairwise_zipIdx run position, ih h3, fun x hx y hy => ?_⟩
    have := List.snd_lt_add_of_mem_zipIdx hx
    have := (h3.bounds hy).1
    omega

theorem drop_zipIdx (bs : Bytes) (n position : Nat) :
    (bs.zipIdx position).drop n = (bs.drop n).zipIdx (position + n) := by
  apply List.ext_getElem?
  intro i
  simp only [List.getElem?_drop, List.getElem?_zipIdx]
  congr 1
  funext b
  rw [Nat.add_assoc]

/-! ## Dropping from the front -/

theorem placedRuns_dropHeld :
    placedRuns (dropHeld n position run islands).1 (dropHeld n position run islands).2.1
        (dropHeld n position run islands).2.2 =
      (placedRuns position run islands).drop n := by
  induction islands generalizing n position run with
  | nil =>
    simp only [dropHeld, placedRuns, List.flatMap_nil, List.append_nil, drop_zipIdx]
    split
    · rfl
    · next h =>
      rw [atLeast_iff] at h
      rw [List.drop_eq_nil_of_le (by omega)]
      rfl
  | cons i rest ih =>
    simp only [dropHeld, placedRuns_cons, List.drop_append, List.length_zipIdx, drop_zipIdx]
    -- Either bytes of the run are left, or all of it goes and the rest is dropped behind the gap.
    split
    · next h =>
      rw [atLeast_iff] at h
      rw [show n - run.length = 0 by omega]
      rfl
    · next h =>
      rw [atLeast_iff] at h
      rw [ih, List.drop_eq_nil_of_le (by omega : run.length ≤ n)]
      rfl

theorem Chained.dropHeld (h : Chained stop position run islands) :
    Chained stop (dropHeld n position run islands).1 (dropHeld n position run islands).2.1
      (dropHeld n position run islands).2.2 := by
  induction islands generalizing n position run with
  | nil =>
    simp only [Chained] at h
    simp only [Reassembly.dropHeld, Chained, List.length_drop]
    split
    · next hn =>
      rw [atLeast_iff] at hn
      omega
    · next hn =>
      rw [atLeast_iff] at hn
      omega
  | cons i rest ih =>
    obtain ⟨h1, h2, h3⟩ := h
    simp only [Reassembly.dropHeld]
    split
    · next hn =>
      rw [atLeast_iff] at hn
      exact ⟨by rw [List.length_drop]; omega, h2, h3⟩
    · exact ih h3

/-- The head moves on by the bytes dropped, and further where that crosses a gap. -/
theorem Chained.le_dropHeld (h : Chained stop position run islands) :
    position + min n run.length ≤ (Reassembly.dropHeld n position run islands).1 := by
  induction islands generalizing n position run with
  | nil =>
    simp only [Reassembly.dropHeld]
    split
    · omega
    · omega
  | cons i rest ih =>
    obtain ⟨h1, h2, h3⟩ := h
    simp only [Reassembly.dropHeld]
    split
    · exact Nat.add_le_add_left (Nat.min_le_left ..) _
    · next hn =>
      rw [atLeast_iff] at hn
      have := ih (n := n - run.length) h3
      omega

/-! ## The first run that has bytes -/

theorem placedRuns_firstRun :
    placedRuns (firstRun position run islands).1 (firstRun position run islands).2.1
        (firstRun position run islands).2.2 =
      placedRuns position run islands := by
  induction islands generalizing position run with
  | nil => rfl
  | cons i rest ih =>
    simp only [firstRun]
    split
    · next h =>
      rw [List.isEmpty_iff] at h
      rw [ih, placedRuns_cons, h]
      rfl
    · rfl

theorem Chained.firstRun (h : Chained stop position run islands) :
    Chained stop (firstRun position run islands).1 (firstRun position run islands).2.1
      (firstRun position run islands).2.2 := by
  induction islands generalizing position run with
  | nil => exact h
  | cons i rest ih =>
    simp only [Reassembly.firstRun]
    split
    · exact ih h.2.2
    · exact h

theorem Chained.le_firstRun (h : Chained stop position run islands) :
    position ≤ (Reassembly.firstRun position run islands).1 := by
  induction islands generalizing position run with
  | nil => exact Nat.le_refl position
  | cons i rest ih =>
    obtain ⟨h1, h2, h3⟩ := h
    simp only [Reassembly.firstRun]
    split
    · have := ih h3
      omega
    · exact Nat.le_refl position

/-! ## The bytes held by a reassembly -/

/-- The bytes held in order, each with its position in the stream. -/
def held (r : Reassembly) : List (UInt8 × Nat) := placedRuns r.position r.run r.islands

/-- The bytes in order end at the frontier. -/
def InOrder (r : Reassembly) : Prop := Chained r.frontier r.position r.run r.islands

theorem length_held (r : Reassembly) : r.held.length = r.size := length_placedRuns

theorem mem_held_of_getElem? {r : Reassembly} {i : Nat} {b : UInt8} (h : r.run[i]? = some b) :
    (b, r.position + i) ∈ r.held := by
  refine List.mem_append_left _ (List.mk_mem_zipIdx_iff_le_and_getElem?_sub.2 ⟨by omega, ?_⟩)
  rwa [Nat.add_sub_cancel_left]

/-- Without islands, the bytes held are those of the run. -/
theorem held_eq_zipIdx {r : Reassembly} (h : r.islands = []) :
    r.held = r.run.zipIdx r.position := by
  simp [held, placedRuns, h]

theorem position_of_head {r : Reassembly} {head : Nat} (h : r.head = some head) :
    r.position = head := by
  rw [position, h, Option.getD_some]

/-- Consuming when nothing is held changes nothing. -/
theorem consume_cases (r : Reassembly) (n : Nat) :
    (r.consume n = r ∧ (n = 0 ∨ r.held = [])) ∨
      (n ≠ 0 ∧ r.consume n = r.moveHead (dropHeld n r.position r.run r.islands).1
        (dropHeld n r.position r.run r.islands).2.1
        (dropHeld n r.position r.run r.islands).2.2) := by
  unfold consume
  split
  · next h =>
    refine .inl ⟨rfl, ?_⟩
    rw [Bool.or_eq_true, beq_iff_eq, Bool.and_eq_true, List.isEmpty_iff, List.all_eq_true] at h
    refine h.imp_right fun ⟨hrun, hislands⟩ => ?_
    have : r.islands.flatMap (fun i => i.bytes.zipIdx i.gap.stop) = [] := by
      rw [List.flatMap_eq_nil_iff]
      intro i hi
      simpa using hislands i hi
    simp [held, placedRuns, hrun, this]
  · next h =>
    refine .inr ⟨fun hn => h ?_, rfl⟩
    simp [hn]

theorem held_consume (r : Reassembly) (n : Nat) : (r.consume n).held = r.held.drop n := by
  rcases r.consume_cases n with ⟨h, hn | hr⟩ | ⟨-, h⟩
  · rw [h, hn, List.drop_zero]
  · rw [h, hr, List.drop_nil]
  · rw [h]
    exact placedRuns_dropHeld

theorem crossGaps_cases (r : Reassembly) :
    (r.crossGaps = r ∧ (r.run ≠ [] ∨ r.islands = [])) ∨
      ((r.run = [] ∧ r.islands ≠ []) ∧
        r.crossGaps = r.moveHead (firstRun r.position r.run r.islands).1
          (firstRun r.position r.run r.islands).2.1 (firstRun r.position r.run r.islands).2.2) := by
  unfold crossGaps
  split
  · next h =>
    rw [Bool.and_eq_true, List.isEmpty_iff, Bool.not_eq_true', List.isEmpty_eq_false_iff] at h
    exact .inr ⟨h, rfl⟩
  · next h =>
    refine .inl ⟨rfl, ?_⟩
    rw [Bool.and_eq_true, List.isEmpty_iff, Bool.not_eq_true', List.isEmpty_eq_false_iff] at h
    tauto

theorem crossGaps_of_whole {r : Reassembly} (whole : r.islands = []) : r.crossGaps = r := by
  rcases r.crossGaps_cases with ⟨hr, -⟩ | ⟨⟨-, hn⟩, -⟩
  · exact hr
  · exact absurd whole hn

theorem held_crossGaps (r : Reassembly) : r.crossGaps.held = r.held := by
  rcases r.crossGaps_cases with ⟨h, -⟩ | ⟨-, h⟩
  · rw [h]
  · rw [h]
    exact placedRuns_firstRun

theorem held_declareGap (r : Reassembly) (stop : Nat) : (r.declareGap stop).held = r.held := by
  show placedRuns r.position r.run (r.islands ++ [_]) = r.held
  rw [placedRuns_concat]
  simp [held]

/-- What appending does to the run and the islands. -/
theorem append_cases (r : Reassembly) (f : Fragment) :
    (r.islands = [] ∧ r.append f = { r with
      run := r.run ++ f.bytes, islands := [], frontier := f.stop
      stamps := Stamp.insert ⟨f.position, f.time⟩ r.stamps }) ∨
      ∃ islands i, r.islands = islands ++ [i] ∧ r.append f = { r with
        islands := islands ++ [{ i with bytes := i.bytes ++ f.bytes }], frontier := f.stop
        stamps := Stamp.insert ⟨f.position, f.time⟩ r.stamps } := by
  rcases List.eq_nil_or_concat r.islands with h | ⟨islands, i, h⟩
  · exact .inl ⟨h, by simp [append, h]⟩
  · refine .inr ⟨islands, i, by simpa using h, ?_⟩
    simp [append, h]

theorem held_append {r : Reassembly} {f : Fragment} (h : r.InOrder)
    (hf : f.position = r.frontier) : (r.append f).held = r.held ++ f.placed := by
  rcases r.append_cases f with ⟨h1, h2⟩ | ⟨islands, i, h1, h2⟩
  · simp only [InOrder, h1, Chained] at h
    simp only [h2, held, placedRuns, h1, position, List.flatMap_nil, List.append_nil,
      List.zipIdx_append, Fragment.placed]
    rw [← position, h, hf]
  · simp only [InOrder, h1, chained_concat] at h
    simp only [h2, held, h1, placedRuns_concat, position, List.zipIdx_append, List.append_assoc,
      Fragment.placed, h.2.2, hf]

/-! What the operations leave alone. -/

@[simp] theorem append_frontier (r : Reassembly) (f : Fragment) : (r.append f).frontier = f.stop :=
  rfl

@[simp] theorem append_stamps (r : Reassembly) (f : Fragment) :
    (r.append f).stamps = Stamp.insert ⟨f.position, f.time⟩ r.stamps := rfl

@[simp] theorem consume_limits (r : Reassembly) (n : Nat) : (r.consume n).limits = r.limits := by
  rcases r.consume_cases n with ⟨h, -⟩ | ⟨-, h⟩
  · rw [h]
  · rw [h]
    rfl

@[simp] theorem consume_frontier (r : Reassembly) (n : Nat) :
    (r.consume n).frontier = r.frontier := by
  rcases r.consume_cases n with ⟨h, -⟩ | ⟨-, h⟩
  · rw [h]
  · rw [h]
    rfl

@[simp] theorem consume_pending (r : Reassembly) (n : Nat) : (r.consume n).pending = r.pending := by
  rcases r.consume_cases n with ⟨h, -⟩ | ⟨-, h⟩
  · rw [h]
  · rw [h]
    rfl

@[simp] theorem crossGaps_limits (r : Reassembly) : r.crossGaps.limits = r.limits := by
  rcases r.crossGaps_cases with ⟨h, -⟩ | ⟨-, h⟩
  · rw [h]
  · rw [h]
    rfl

@[simp] theorem crossGaps_frontier (r : Reassembly) : r.crossGaps.frontier = r.frontier := by
  rcases r.crossGaps_cases with ⟨h, -⟩ | ⟨-, h⟩
  · rw [h]
  · rw [h]
    rfl

@[simp] theorem crossGaps_pending (r : Reassembly) : r.crossGaps.pending = r.pending := by
  rcases r.crossGaps_cases with ⟨h, -⟩ | ⟨-, h⟩
  · rw [h]
  · rw [h]
    rfl

theorem InOrder.append {r : Reassembly} {f : Fragment} (h : r.InOrder)
    (hf : f.position = r.frontier) : (r.append f).InOrder := by
  rcases r.append_cases f with ⟨h1, h2⟩ | ⟨islands, i, h1, h2⟩
  · simp only [InOrder, h1, Chained] at h
    simp only [InOrder, h2, Chained, List.length_append, position, Fragment.stop]
    simp only [position] at h
    omega
  · simp only [InOrder, h1, chained_concat] at h
    simp only [InOrder, h2, chained_concat, position, List.length_append, Fragment.stop]
    exact ⟨h.1, h.2.1, by omega⟩

theorem InOrder.declareGap {r : Reassembly} {stop : Nat} (h : r.InOrder) (lt : r.frontier < stop) :
    (r.declareGap stop).InOrder := by
  show Chained stop r.position r.run (r.islands ++ [_])
  rw [chained_concat]
  exact ⟨h, lt, rfl⟩

end Dialogue.Reassembly
