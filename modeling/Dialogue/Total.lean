/-!
The sum of a size over a list.

`total size xs` adds up what the members take up: the bytes of fragments, the frames of lanes, the
memory of connections. The lemmas say how it goes with the list's own operations.
-/
namespace Dialogue

variable {α : Type} {size : α → Nat}

/-- The sum of the sizes of the members. -/
def total (size : α → Nat) (xs : List α) : Nat := xs.foldr (fun x n => size x + n) 0

@[simp] theorem total_nil : total size [] = 0 := rfl

@[simp] theorem total_cons (x : α) (xs : List α) : total size (x :: xs) = size x + total size xs :=
  rfl

@[simp] theorem total_append (xs ys : List α) :
    total size (xs ++ ys) = total size xs + total size ys := by
  induction xs with
  | nil => simp
  | cons x xs ih => rw [List.cons_append, total_cons, total_cons, ih, Nat.add_assoc]

theorem total_eq_zero {xs : List α} (h : ∀ x ∈ xs, size x = 0) : total size xs = 0 := by
  induction xs with
  | nil => rfl
  | cons x xs ih =>
    rw [total_cons, h x List.mem_cons_self, ih fun y hy => h y (List.mem_cons_of_mem x hy)]

theorem le_total_of_mem (size : α → Nat) {x : α} {xs : List α} (h : x ∈ xs) :
    size x ≤ total size xs := by
  obtain ⟨before, behind, rfl⟩ := List.append_of_mem h
  rw [total_append, total_cons]
  omega

end Dialogue
