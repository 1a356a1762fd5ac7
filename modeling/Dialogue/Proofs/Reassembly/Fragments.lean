import Mathlib
import Dialogue.Reassembly

/-!
Fragments as bytes at positions of the stream.

`placed` lists the bytes of a fragment with their positions. Cutting a fragment at a position keeps
its bytes from there on where they stand (`mem_placed_startingAt`). Entering a fragment among the
waiting ones keeps them in ascending order (`ascending_enter`), and whatever was covered by a
waiting fragment or is covered by the new one is covered by one that waits then (`covered_enter`).
-/
namespace Dialogue

namespace Fragment

/-- The bytes of a fragment, each with its position in the stream. -/
def placed (f : Fragment) : List (UInt8 × Nat) := f.bytes.zipIdx f.position

theorem mem_placed {f : Fragment} {b : UInt8} {p : Nat} :
    (b, p) ∈ f.placed ↔ f.position ≤ p ∧ f.bytes[p - f.position]? = some b :=
  List.mk_mem_zipIdx_iff_le_and_getElem?_sub

theorem bounds_of_mem_placed {f : Fragment} {b : UInt8} {p : Nat} (h : (b, p) ∈ f.placed) :
    f.position ≤ p ∧ p < f.stop :=
  ⟨List.le_snd_of_mem_zipIdx h, List.snd_lt_add_of_mem_zipIdx h⟩

/-- The byte that a fragment brings at a position of the stream. -/
def byteAt? (f : Fragment) (p : Nat) : Option UInt8 :=
  if f.position ≤ p then f.bytes[p - f.position]? else none

theorem mem_placed_iff_byteAt? {f : Fragment} {b : UInt8} {p : Nat} :
    (b, p) ∈ f.placed ↔ f.byteAt? p = some b := by
  rw [mem_placed, byteAt?]
  split
  · next h => simp [h]
  · next h => simp [h]

/-- A fragment of the stream at its true position. -/
def IsSliceOf (stream : Bytes) (f : Fragment) : Prop :=
  f.bytes = slice stream f.position f.bytes.length

instance (stream : Bytes) (f : Fragment) : Decidable (f.IsSliceOf stream) :=
  inferInstanceAs (Decidable (_ = _))

theorem IsSliceOf.getElem? {stream : Bytes} {f : Fragment} (h : f.IsSliceOf stream) {b : UInt8}
    {p : Nat} (hb : f.byteAt? p = some b) : stream[p]? = some b := by
  obtain ⟨h1, h2⟩ := mem_placed.1 (mem_placed_iff_byteAt?.2 hb)
  rw [h, slice, List.getElem?_take] at h2
  split at h2
  · rwa [List.getElem?_drop, Nat.add_sub_cancel' h1] at h2
  · cases h2

/-- Whether a position lies between the ends of a fragment. -/
def Covers (f : Fragment) (p : Nat) : Prop := f.position ≤ p ∧ p < f.stop

/-- Whether a position lies between the ends of some fragment. -/
def Covered (fs : List Fragment) (p : Nat) : Prop := ∃ f ∈ fs, f.Covers p

theorem covers_iff_exists_mem_placed {f : Fragment} {p : Nat} :
    f.Covers p ↔ ∃ b, (b, p) ∈ f.placed := by
  constructor
  · intro ⟨h1, h2⟩
    have hi : p - f.position < f.bytes.length := by
      simp only [stop] at h2
      omega
    exact ⟨f.bytes[p - f.position], mem_placed.2 ⟨h1, List.getElem?_eq_getElem hi⟩⟩
  · exact fun ⟨b, hb⟩ => bounds_of_mem_placed hb

theorem covers_position {f : Fragment} (h : f.bytes ≠ []) : f.Covers f.position := by
  have := List.length_pos_of_ne_nil h
  simp only [Covers, stop]
  omega

/-- Fragments in strictly ascending order of position. -/
def Ascending (fs : List Fragment) : Prop := fs.Pairwise (·.position < ·.position)

theorem startingAt_of_le {f : Fragment} {p : Nat} (h : p ≤ f.position) : f.startingAt p = f := by
  rw [startingAt, if_neg (Nat.not_lt.2 h)]

theorem position_startingAt (f : Fragment) (p : Nat) :
    (f.startingAt p).position = max f.position p := by
  unfold startingAt
  split
  · simp only
    omega
  · omega

theorem time_startingAt (f : Fragment) (p : Nat) : (f.startingAt p).time = f.time := by
  unfold startingAt
  split <;> rfl

theorem stop_startingAt {f : Fragment} {p : Nat} (h : p ≤ f.stop) :
    (f.startingAt p).stop = f.stop := by
  unfold startingAt
  split
  · simp only [stop, List.length_drop] at h ⊢
    omega
  · rfl

/-- The part of a fragment from a position on holds the fragment's bytes from there on. -/
theorem mem_placed_startingAt {f : Fragment} {q p : Nat} {b : UInt8} :
    (b, p) ∈ (f.startingAt q).placed ↔ (b, p) ∈ f.placed ∧ q ≤ p := by
  by_cases h : f.position < q
  · simp only [startingAt, if_pos h, mem_placed, List.getElem?_drop]
    constructor
    · intro ⟨h1, h2⟩
      rw [show q - f.position + (p - q) = p - f.position by omega] at h2
      exact ⟨⟨by omega, h2⟩, h1⟩
    · intro ⟨⟨h1, h2⟩, h3⟩
      rw [show q - f.position + (p - q) = p - f.position by omega]
      exact ⟨h3, h2⟩
  · rw [startingAt_of_le (Nat.not_lt.1 h)]
    exact ⟨fun hp => ⟨hp, Nat.le_trans (Nat.not_lt.1 h) (bounds_of_mem_placed hp).1⟩, And.left⟩

theorem time_lastBytes (f : Fragment) (n : Nat) : (f.lastBytes n).time = f.time :=
  time_startingAt ..

theorem length_lastBytes_le (f : Fragment) (n : Nat) : (f.lastBytes n).bytes.length ≤ n := by
  unfold lastBytes startingAt
  split
  · simp only [List.length_drop]
    omega
  · omega

theorem lastBytes_of_le {f : Fragment} {n : Nat} (h : f.bytes.length ≤ n) : f.lastBytes n = f :=
  startingAt_of_le (by omega)

theorem mem_placed_of_lastBytes {f : Fragment} {n p : Nat} {b : UInt8}
    (h : (b, p) ∈ (f.lastBytes n).placed) : (b, p) ∈ f.placed :=
  (mem_placed_startingAt.1 h).1

end Fragment

namespace Reassembly

/-! ## Entering among the waiting fragments -/

theorem mem_enter {f g : Fragment} {fs : List Fragment} (h : g ∈ (enter f fs).2) :
    g = f ∨ g ∈ fs := by
  induction fs with
  | nil => simpa [enter] using h
  | cons k rest ih =>
    simp only [enter] at h
    split at h
    · simpa using h
    · split at h
      · split at h
        · exact .inr h
        · rcases List.mem_cons.1 h with h | h
          · exact .inl h
          · exact .inr (List.mem_cons_of_mem k h)
      · rcases List.mem_cons.1 h with h | h
        · exact .inr (h ▸ List.mem_cons_self)
        · exact (ih h).imp_right (List.mem_cons_of_mem k)

theorem enter_of_not_entered {f : Fragment} {fs : List Fragment} (h : (enter f fs).1 = false) :
    (enter f fs).2 = fs := by
  induction fs with
  | nil => simp [enter] at h
  | cons k rest ih =>
    simp only [enter] at h ⊢
    split
    · simp_all
    · split
      · split
        · rfl
        · simp_all
      · simp_all

theorem ascending_enter {f : Fragment} {fs : List Fragment} (h : Fragment.Ascending fs) :
    Fragment.Ascending (enter f fs).2 := by
  induction fs with
  | nil => exact List.pairwise_singleton _ _
  | cons k rest ih =>
    obtain ⟨first, later⟩ := List.pairwise_cons.1 h
    simp only [enter]
    split
    · next lt =>
      refine List.pairwise_cons.2 ⟨fun u hu => ?_, h⟩
      rcases List.mem_cons.1 hu with rfl | hu
      · exact lt
      · exact Nat.lt_trans lt (first u hu)
    · split
      · next eq =>
        split
        · exact h
        · exact List.pairwise_cons.2 ⟨fun u hu => eq ▸ first u hu, later⟩
      · refine List.pairwise_cons.2 ⟨fun u hu => ?_, ih later⟩
        rcases mem_enter hu with rfl | hu
        · omega
        · exact first u hu

/-- Entering keeps every position that was covered and covers those of the new fragment. -/
theorem covered_enter {f g : Fragment} {fs : List Fragment} {p : Nat} (hg : g = f ∨ g ∈ fs)
    (h : g.Covers p) : Fragment.Covered (enter f fs).2 p := by
  induction fs with
  | nil =>
    obtain rfl : g = f := by simpa using hg
    exact ⟨g, List.mem_singleton_self g, h⟩
  | cons k rest ih =>
    have later : ∀ u ∈ rest, u = g → Fragment.Covered (k :: rest) p :=
      fun u hu e => ⟨u, List.mem_cons_of_mem k hu, e ▸ h⟩
    simp only [List.mem_cons] at hg
    simp only [enter]
    split
    · exact ⟨g, by simpa using hg, h⟩
    · split
      · next eq =>
        -- One of two fragments at the same position gives way: the shorter one.
        split
        · next le =>
          rcases hg with rfl | rfl | hg
          · refine ⟨k, List.mem_cons_self, ?_⟩
            simp only [Fragment.Covers, Fragment.stop] at h ⊢
            omega
          · exact ⟨g, List.mem_cons_self, h⟩
          · exact later g hg rfl
        · next le =>
          rcases hg with rfl | rfl | hg
          · exact ⟨g, List.mem_cons_self, h⟩
          · refine ⟨f, List.mem_cons_self, ?_⟩
            simp only [Fragment.Covers, Fragment.stop] at h ⊢
            omega
          · exact ⟨g, List.mem_cons_of_mem f hg, h⟩
      · rcases hg with hg | rfl | hg
        · obtain ⟨u, hu, hc⟩ := ih (.inl hg)
          exact ⟨u, List.mem_cons_of_mem k hu, hc⟩
        · exact ⟨g, List.mem_cons_self, h⟩
        · obtain ⟨u, hu, hc⟩ := ih (.inr hg)
          exact ⟨u, List.mem_cons_of_mem k hu, hc⟩

theorem foldl_max_le {xs : List Nat} {a n : Nat} :
    xs.foldl max a ≤ n ↔ a ≤ n ∧ ∀ x ∈ xs, x ≤ n := by
  induction xs generalizing a with
  | nil => simp
  | cons x rest ih =>
    rw [List.foldl_cons, ih, Nat.max_le, List.forall_mem_cons, and_assoc]

theorem furthest_le {fs : List Fragment} {n : Nat} : furthest fs ≤ n ↔ ∀ f ∈ fs, f.stop ≤ n := by
  simp [furthest, foldl_max_le]

end Reassembly

end Dialogue
