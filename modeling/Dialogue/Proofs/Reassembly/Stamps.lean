import Mathlib
import Dialogue.Proofs.Reassembly.Fragments

/-!
Capture times by position.

The stamps of a reassembly stand in ascending order of position, and the time of a byte is that of
the last stamp at or before it (`Stamp.covering`). A piece appended behind all stamps gives its time
to the positions from its own on and changes no other (`covering_insert`); forgetting the stamps
before the head changes nothing from the head on (`covering_prune`). When a run is cut into pieces
at its stamps, each piece holds bytes of the run under the time they had
(`mem_placed_of_mem_pieces`), and no stamped byte of the run is left out (`exists_mem_pieces`).
-/
namespace Dialogue

namespace Stamp

/-- Stamps in strictly ascending order of position. -/
def Ascending (stamps : List Stamp) : Prop := stamps.Pairwise (·.position < ·.position)

@[simp] theorem covering_nil (p : Nat) : covering p [] = none := rfl

theorem covering_cons (p : Nat) (s : Stamp) (rest : List Stamp) :
    covering p (s :: rest) =
      if s.position ≤ p then some ((covering p rest).getD s) else none := by
  unfold covering
  rw [List.takeWhile_cons]
  by_cases h : s.position ≤ p
  · rw [if_pos (by simpa using h), if_pos h, List.getLast?_cons]
  · rw [if_neg (by simpa using h), if_neg h]
    rfl

theorem mem_insert {s t : Stamp} {stamps : List Stamp} (h : t ∈ insert s stamps) :
    t = s ∨ t ∈ stamps := by
  induction stamps with
  | nil => simpa [insert] using h
  | cons u rest ih =>
    simp only [insert] at h
    split at h
    · simpa using h
    · split at h
      · rcases List.mem_cons.1 h with h | h
        · exact .inl h
        · exact .inr (List.mem_cons_of_mem u h)
      · rcases List.mem_cons.1 h with h | h
        · exact .inr (h ▸ List.mem_cons_self)
        · exact (ih h).imp_right (List.mem_cons_of_mem u)

theorem Ascending.insert {s : Stamp} {stamps : List Stamp} (h : Ascending stamps) :
    Ascending (insert s stamps) := by
  induction stamps with
  | nil => exact List.pairwise_singleton _ _
  | cons t rest ih =>
    obtain ⟨first, later⟩ := List.pairwise_cons.1 h
    simp only [Stamp.insert]
    split
    · next lt =>
      refine List.pairwise_cons.2 ⟨fun u hu => ?_, h⟩
      rcases List.mem_cons.1 hu with rfl | hu
      · exact lt
      · exact Nat.lt_trans lt (first u hu)
    · split
      · next eq => exact List.pairwise_cons.2 ⟨fun u hu => eq ▸ first u hu, later⟩
      · refine List.pairwise_cons.2 ⟨fun u hu => ?_, ih later⟩
        rcases mem_insert hu with rfl | hu
        · omega
        · exact first u hu

/-- A stamp behind all others covers the positions from its own on, and no other. -/
theorem covering_insert {s : Stamp} {stamps : List Stamp} (sorted : Ascending stamps)
    (behind : ∀ t ∈ stamps, t.position ≤ s.position) (p : Nat) :
    covering p (insert s stamps) = if s.position ≤ p then some s else covering p stamps := by
  induction stamps with
  | nil => simp [insert, covering_cons]
  | cons t rest ih =>
    obtain ⟨first, later⟩ := List.pairwise_cons.1 sorted
    have ht := behind t List.mem_cons_self
    have hrest : ∀ u ∈ rest, u.position ≤ s.position :=
      fun u hu => behind u (List.mem_cons_of_mem t hu)
    simp only [insert]
    rw [if_neg (Nat.not_lt.2 ht)]
    split
    · next eq =>
      -- A stamp at the position of the new one is the last, as none stands behind the new one.
      have : rest = [] := List.eq_nil_iff_forall_not_mem.2 fun u hu => by
        have := first u hu
        have := hrest u hu
        omega
      by_cases hp : t.position ≤ p
      · simp [this, covering_cons, eq, hp]
      · simp [this, covering_cons, eq, hp]
    · rw [covering_cons, ih later hrest, covering_cons]
      by_cases hs : s.position ≤ p
      · simp [hs, Nat.le_trans ht hs]
      · simp [hs]

theorem mem_of_mem_prune {s : Stamp} {head : Nat} {stamps : List Stamp}
    (h : s ∈ prune head stamps) : s ∈ stamps := by
  fun_induction prune head stamps with
  | case1 t u rest le ih => exact List.mem_cons_of_mem t (ih h)
  | case2 t u rest le => exact h
  | case3 => exact h

theorem Ascending.prune {head : Nat} {stamps : List Stamp} (h : Ascending stamps) :
    Ascending (prune head stamps) := by
  fun_induction Stamp.prune head stamps with
  | case1 t u rest le ih => exact ih (List.pairwise_cons.1 h).2
  | case2 t u rest le => exact h
  | case3 => exact h

/-- What is forgotten lies before the head and under a later stamp. -/
theorem covering_prune {head p : Nat} {stamps : List Stamp} (sorted : Ascending stamps)
    (h : head ≤ p) : covering p (prune head stamps) = covering p stamps := by
  fun_induction prune head stamps with
  | case1 t u rest le ih =>
    have lt := (List.pairwise_cons.1 sorted).1 u List.mem_cons_self
    have hu : u.position ≤ p := Nat.le_trans le h
    rw [ih (List.pairwise_cons.1 sorted).2, covering_cons p t, covering_cons p u, if_pos hu,
      if_pos (by omega)]
    rfl
  | case2 t u rest le => rfl
  | case3 => rfl

end Stamp

namespace Reassembly

/-! ## A run cut into pieces at its stamps -/

theorem mem_slice {run : Bytes} {head start n p : Nat} {b : UInt8} (h : head ≤ start) :
    (b, p) ∈ (slice run (start - head) n).zipIdx start ↔
      (b, p) ∈ run.zipIdx head ∧ start ≤ p ∧ p < start + n := by
  simp only [List.mk_mem_zipIdx_iff_le_and_getElem?_sub, slice, List.getElem?_take,
    List.getElem?_drop]
  by_cases hp : start ≤ p ∧ p < start + n
  · rw [if_pos (by omega), show start - head + (p - start) = p - head by omega]
    exact ⟨fun h' => ⟨⟨by omega, h'.2⟩, hp⟩, fun h' => ⟨hp.1, h'.1.2⟩⟩
  · constructor
    · rintro ⟨h1, h2⟩
      rw [if_neg (by omega)] at h2
      cases h2
    · exact fun h' => absurd h'.2 hp

/-- Where the piece under a stamp ends: at the next stamp, or where the run does. -/
def pieceStop (stop : Nat) : List Stamp → Nat
  | [] => stop
  | t :: _ => t.position

theorem pieces_cons (head stop : Nat) (run : Bytes) (s : Stamp) (rest : List Stamp) :
    pieces head stop run (s :: rest) =
      if max s.position head < pieceStop stop rest then
        ⟨max s.position head, s.time,
          slice run (max s.position head - head) (pieceStop stop rest - max s.position head)⟩ ::
            pieces head stop run rest
      else pieces head stop run rest := by
  cases rest <;> rfl

theorem pieceStop_le {stop : Nat} {stamps : List Stamp} (h : ∀ s ∈ stamps, s.position ≤ stop) :
    pieceStop stop stamps ≤ stop := by
  cases stamps with
  | nil => exact Nat.le_refl stop
  | cons s rest => exact h s List.mem_cons_self

/-- No later stamp covers a position before the end of a piece. -/
theorem covering_eq_none_of_lt_pieceStop {stop p : Nat} {stamps : List Stamp}
    (h : p < pieceStop stop stamps) : Stamp.covering p stamps = none := by
  cases stamps with
  | nil => rfl
  | cons s rest =>
    have hs : ¬ s.position ≤ p := Nat.not_le.2 h
    rw [Stamp.covering_cons, if_neg hs]

theorem bounds_of_mem_pieces {head stop : Nat} {run : Bytes} {stamps : List Stamp} {f : Fragment}
    (hstop : stop = head + run.length) (sorted : Stamp.Ascending stamps)
    (le : ∀ s ∈ stamps, s.position ≤ stop) (h : f ∈ pieces head stop run stamps) :
    head ≤ f.position ∧ f.position < f.stop ∧ f.stop ≤ stop ∧
      ∀ s ∈ stamps.head?, s.position ≤ f.position := by
  induction stamps with
  | nil => simp [pieces] at h
  | cons s rest ih =>
    obtain ⟨first, later⟩ := List.pairwise_cons.1 sorted
    have le' : ∀ t ∈ rest, t.position ≤ stop := fun t ht => le t (List.mem_cons_of_mem s ht)
    -- A piece under a later stamp starts no earlier than that stamp, and so behind this one.
    have hrest : f ∈ pieces head stop run rest → head ≤ f.position ∧ f.position < f.stop ∧
        f.stop ≤ stop ∧ ∀ t ∈ (s :: rest).head?, t.position ≤ f.position := by
      intro hf
      obtain ⟨h1, h2, h3, h4⟩ := ih later le' hf
      refine ⟨h1, h2, h3, ?_⟩
      rw [List.head?_cons]
      rintro t ⟨⟩
      cases rest with
      | nil => simp [pieces] at hf
      | cons u rest => exact Nat.le_trans (Nat.le_of_lt (first u List.mem_cons_self)) (h4 u rfl)
    rw [pieces_cons] at h
    split at h
    · next lt =>
      rcases List.mem_cons.1 h with rfl | h
      · have := pieceStop_le le'
        simp only [Fragment.stop, slice, List.length_take, List.length_drop, List.head?_cons]
        refine ⟨by omega, by omega, by omega, ?_⟩
        rintro t ⟨⟩
        exact Nat.le_max_left ..
      · exact hrest h
    · exact hrest h

theorem pieces_ascending {head stop : Nat} {run : Bytes} {stamps : List Stamp}
    (hstop : stop = head + run.length) (sorted : Stamp.Ascending stamps)
    (le : ∀ s ∈ stamps, s.position ≤ stop) :
    Fragment.Ascending (pieces head stop run stamps) := by
  induction stamps with
  | nil => exact .nil
  | cons s rest ih =>
    obtain ⟨first, later⟩ := List.pairwise_cons.1 sorted
    have le' : ∀ t ∈ rest, t.position ≤ stop := fun t ht => le t (List.mem_cons_of_mem s ht)
    rw [pieces_cons]
    split
    · next lt =>
      refine List.pairwise_cons.2 ⟨fun f hf => ?_, ih later le'⟩
      obtain ⟨-, -, -, h4⟩ := bounds_of_mem_pieces hstop later le' hf
      cases rest with
      | nil => simp [pieces] at hf
      | cons t rest => exact Nat.lt_of_lt_of_le lt (h4 t rfl)
    · exact ih later le'

/-- A piece holds bytes of the run, under the time that they had there. -/
theorem mem_placed_of_mem_pieces {head stop : Nat} {run : Bytes} {stamps : List Stamp}
    {f : Fragment} {b : UInt8} {p : Nat} (sorted : Stamp.Ascending stamps)
    (hf : f ∈ pieces head stop run stamps) (h : (b, p) ∈ f.placed) :
    (b, p) ∈ run.zipIdx head ∧ (Stamp.covering p stamps).map (·.time) = some f.time := by
  induction stamps with
  | nil => simp [pieces] at hf
  | cons s rest ih =>
    obtain ⟨first, later⟩ := List.pairwise_cons.1 sorted
    -- A byte under a later stamp is behind this one, which does not change its time.
    have hrest : f ∈ pieces head stop run rest → (b, p) ∈ run.zipIdx head ∧
        (Stamp.covering p (s :: rest)).map (·.time) = some f.time := by
      intro hf
      obtain ⟨h1, h2⟩ := ih later hf
      obtain ⟨c, hc, ht⟩ := Option.map_eq_some_iff.1 h2
      have hs : s.position ≤ p := by
        cases rest with
        | nil => simp at hc
        | cons t rest =>
          have := first t List.mem_cons_self
          rw [Stamp.covering_cons] at hc
          split at hc
          · omega
          · cases hc
      exact ⟨h1, by rw [Stamp.covering_cons, if_pos hs, hc]; simpa using ht⟩
    rw [pieces_cons] at hf
    split at hf
    · next lt =>
      rcases List.mem_cons.1 hf with rfl | hf
      · obtain ⟨h1, h2, h3⟩ := (mem_slice (Nat.le_max_right ..)).1 h
        have hp : p < pieceStop stop rest := by omega
        rw [Stamp.covering_cons, if_pos (by omega), covering_eq_none_of_lt_pieceStop hp]
        exact ⟨h1, rfl⟩
      · exact hrest hf
    · exact hrest hf

/-- Every byte of the run that has a time is in a piece. -/
theorem exists_mem_pieces {head stop : Nat} {run : Bytes} {stamps : List Stamp} {b : UInt8}
    {p : Nat} {s : Stamp} (hstop : stop = head + run.length) (h : (b, p) ∈ run.zipIdx head)
    (hs : Stamp.covering p stamps = some s) :
    ∃ f ∈ pieces head stop run stamps, (b, p) ∈ f.placed := by
  induction stamps generalizing s with
  | nil => simp at hs
  | cons t rest ih =>
    rw [Stamp.covering_cons] at hs
    split at hs
    · next le =>
      rw [pieces_cons]
      cases hr : Stamp.covering p rest with
      | some u =>
        obtain ⟨f, hf, hb⟩ := ih hr
        refine ⟨f, ?_, hb⟩
        split
        · exact List.mem_cons_of_mem _ hf
        · exact hf
      | none =>
        -- No later stamp covers the byte, so it is in the piece under this one.
        have hp : p < pieceStop stop rest := by
          cases rest with
          | nil => exact hstop ▸ List.snd_lt_add_of_mem_zipIdx h
          | cons u rest =>
            rw [Stamp.covering_cons] at hr
            split at hr
            · cases hr
            · next hu => exact Nat.not_le.1 hu
        have := List.le_snd_of_mem_zipIdx h
        rw [if_pos (by omega)]
        exact ⟨_, List.mem_cons_self,
          (mem_slice (Nat.le_max_right ..)).2 ⟨h, by omega, by omega⟩⟩
    · cases hs

end Reassembly

end Dialogue
