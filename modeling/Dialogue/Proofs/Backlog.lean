import Mathlib
import Dialogue.Backlog

/-!
A backlog as a table of lanes.

The keys of a backlog in use ascend, so no key has two lanes, and the lane that is found under a key
is all that there is to know of it (`Ascending.eq_map`). A change of one lane keeps the order of the
keys and the other lanes.
-/
namespace Dialogue

namespace Backlog

variable {F : Type} {b : Backlog F} {key k : Int} {change : Lane F → Lane F} {lane : Lane F}

/-- Lower keys come first, and no key comes twice. -/
def Ascending (b : Backlog F) : Prop := b.Pairwise fun x y => x.1 < y.1

@[simp] theorem lane?_nil : lane? ([] : Backlog F) k = none := rfl

theorem lane?_cons (rest : Backlog F) :
    lane? ((key, lane) :: rest) k = if key = k then some lane else lane? rest k := by
  by_cases same : key = k
  · rw [lane?, same, List.lookup_cons_self, if_pos rfl]
  · have other : (k == key) = false := by simpa using Ne.symm same
    rw [lane?, List.lookup_cons, other, if_neg same]
    rfl

theorem lane?_eq_none_iff : b.lane? k = none ↔ k ∉ b.keys := by
  rw [lane?, List.lookup_eq_none_iff, keys, List.mem_map]
  constructor
  · rintro absent ⟨e, he, rfl⟩
    exact bne_iff_ne.1 (absent e he) rfl
  · exact fun absent e he => bne_iff_ne.2 fun same => absent ⟨e, he, same.symm⟩

/-- A key that is lower than all others has no lane. -/
theorem lane?_of_lt (low : ∀ e ∈ b, k < e.1) : b.lane? k = none := by
  rw [lane?_eq_none_iff, keys, List.mem_map]
  rintro ⟨e, he, rfl⟩
  exact Int.lt_irrefl _ (low e he)

theorem mem_update {e : Int × Lane F} (h : e ∈ update key change b) : e.1 = key ∨ e ∈ b := by
  induction b with
  | nil => exact .inl (List.mem_singleton.1 h ▸ rfl)
  | cons e' rest ih =>
    obtain ⟨k', lane⟩ := e'
    rw [update] at h
    split_ifs at h with before same
    · rcases List.mem_cons.1 h with rfl | h
      · exact .inl rfl
      · exact .inr h
    · rcases List.mem_cons.1 h with rfl | h
      · exact .inl same.symm
      · exact .inr (List.mem_cons_of_mem _ h)
    · rcases List.mem_cons.1 h with rfl | h
      · exact .inr List.mem_cons_self
      · exact (ih h).imp id (List.mem_cons_of_mem _)

theorem Ascending.update (h : Ascending b) : Ascending (update key change b) := by
  induction b with
  | nil => exact List.pairwise_singleton _ _
  | cons e rest ih =>
    obtain ⟨k', lane⟩ := e
    obtain ⟨first, later⟩ := List.pairwise_cons.1 h
    rw [Backlog.update]
    split_ifs with before same
    · refine List.pairwise_cons.2 ⟨?_, h⟩
      intro e he
      rcases List.mem_cons.1 he with rfl | he
      · exact before
      · exact Int.lt_trans before (first e he)
    · exact List.pairwise_cons.2 ⟨first, later⟩
    · refine List.pairwise_cons.2 ⟨?_, ih later⟩
      intro e he
      rcases mem_update he with rfl | he
      · show k' < e.1
        omega
      · exact first e he

/-- The lane of the key is changed, and every other one is as it was. -/
theorem lane?_update (h : Ascending b) :
    (update key change b).lane? k =
      if key = k then some (change ((b.lane? key).getD {})) else b.lane? k := by
  induction b with
  | nil => exact lane?_cons []
  | cons e rest ih =>
    obtain ⟨k', lane⟩ := e
    obtain ⟨first, later⟩ := List.pairwise_cons.1 h
    rw [update]
    rcases Int.lt_trichotomy key k' with before | rfl | behind
    · have none : lane? ((k', lane) :: rest) key = none := by
        refine lane?_of_lt fun e he => ?_
        rcases List.mem_cons.1 he with rfl | he
        · exact before
        · exact Int.lt_trans before (first e he)
      rw [if_pos before, lane?_cons, none]
      rfl
    · rw [if_neg (Int.lt_irrefl _), if_pos rfl, lane?_cons, lane?_cons, if_pos rfl, lane?_cons]
      split_ifs <;> rfl
    · have other : key ≠ k' := Int.ne_of_gt behind
      rw [if_neg (Int.lt_asymm behind), if_neg other, lane?_cons, ih later, lane?_cons,
        if_neg other.symm, lane?_cons]
      split_ifs with target same
      · exact absurd (same.trans target.symm) other
      · rfl
      · rfl
      · rfl

theorem mem_keys_update (h : Ascending b) :
    k ∈ (update key change b).keys ↔ k = key ∨ k ∈ b.keys := by
  have absent : k ∉ (update key change b).keys ↔ ¬ (k = key ∨ k ∈ b.keys) := by
    rw [← lane?_eq_none_iff, lane?_update h, not_or, ← lane?_eq_none_iff, eq_comm (a := k)]
    split_ifs with same <;> simp [same]
  exact not_iff_not.1 absent

theorem Ascending.pairwise_keys (h : Ascending b) : b.keys.Pairwise (· < ·) := List.pairwise_map.2 h

/-- A backlog is made up of the lanes that its keys have. -/
theorem Ascending.eq_map (h : Ascending b) : b = b.keys.map fun k => (k, (b.lane? k).getD {}) := by
  induction b with
  | nil => rfl
  | cons e rest ih =>
    obtain ⟨key, lane⟩ := e
    obtain ⟨first, later⟩ := List.pairwise_cons.1 h
    rw [keys, List.map_cons, List.map_cons, lane?_cons, if_pos rfl]
    refine congrArg ((key, lane) :: ·) ((ih later).trans (List.map_congr_left fun k hk => ?_))
    obtain ⟨e, he, rfl⟩ := List.mem_map.1 hk
    rw [lane?_cons, if_neg (Int.ne_of_lt (first e he))]

end Backlog

end Dialogue
