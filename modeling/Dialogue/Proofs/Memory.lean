import Mathlib
import Dialogue.Memory

/-!
What a memory of prepared statements recalls.

What is done to the statements of a server is a list of deeds: a text is prepared under a key, or a
key is closed. The text that stands for a key is that of the last deed about the key (`standing?`).
A memory that follows the deeds recalls no other text (`Recalls.sound`), since being emptied when it
is full only takes texts away, and it recalls all of them as long as it need not be emptied
(`Recalls.complete`).
-/
namespace Dialogue

/-- Something done to the statements of a server. -/
inductive Deed (K V : Type) where
  | prepares (key : K) (text : V)
  | closes (key : K)
deriving DecidableEq

namespace Deed

variable {K V : Type}

def key : Deed K V → K
  | prepares key _ => key
  | closes key => key

/-- The text that is prepared. -/
def text? : Deed K V → Option V
  | prepares _ text => some text
  | closes _ => none

/-- The number of times that a text is prepared. -/
def preparations (deeds : List (Deed K V)) : Nat := deeds.countP fun d => d.text?.isSome

@[simp] theorem preparations_append (first second : List (Deed K V)) :
    preparations (first ++ second) = preparations first + preparations second :=
  List.countP_append

@[simp] theorem preparations_prepares (key : K) (text : V) :
    preparations [prepares key text] = 1 := rfl

@[simp] theorem preparations_closes (key : K) : preparations [closes (V := V) key] = 0 := rfl

variable [BEq K]

/-- The text that stands for a key: that of the last deed about it, unless it was to close. -/
def standing? (key : K) (deeds : List (Deed K V)) : Option V :=
  (deeds.reverse.find? (·.key == key)).bind text?

theorem standing?_append (key : K) (deeds : List (Deed K V)) (d : Deed K V) :
    standing? key (deeds ++ [d]) = if d.key == key then d.text? else standing? key deeds := by
  rw [standing?, List.reverse_append, List.reverse_singleton, List.singleton_append,
    List.find?_cons]
  cases d.key == key <;> rfl

end Deed

namespace Memory

variable {K V : Type} [BEq K] {m : Memory K V} {key k : K}

theorem length_forget_le : (m.forget key).length ≤ m.length := List.length_filter_le ..

theorem length_put_le (value : V) : (m.put key value).length ≤ m.length + 1 :=
  Nat.succ_le_succ length_forget_le

theorem length_modify (change : V → V) : (m.modify key change).length = m.length :=
  List.length_map ..

theorem value?_cons (value : V) :
    value? ((key, value) :: m) k = if k == key then some value else m.value? k := by
  rw [value?, List.lookup_cons]
  cases k == key <;> rfl

variable [LawfulBEq K]

/-- Entering a value in place of an earlier one takes no room. -/
theorem length_put_of_held (held : (m.value? key).isSome) (value : V) :
    (m.put key value).length ≤ m.length := by
  obtain ⟨e, he, same⟩ := List.lookup_isSome_iff.1 held
  refine List.length_filter_lt_length_iff_exists.2 ⟨e, he, ?_⟩
  simp [eq_of_beq same]

theorem value?_forget : (m.forget key).value? k = if k == key then none else m.value? k := by
  induction m with
  | nil => simp [forget, value?]
  | cons e m ih =>
    obtain ⟨held, value⟩ := e
    by_cases same : held = key
    · have dropped : forget ((held, value) :: m) key = forget m key := by simp [forget, same]
      rw [dropped, ih, value?_cons, same]
      split <;> rfl
    · have kept : forget ((held, value) :: m) key = (held, value) :: forget m key := by
        simp [forget, same]
      rw [kept, value?_cons, value?_cons, ih]
      by_cases first : k = held
      · simp [first, same]
      · simp [first]

theorem value?_put (value : V) :
    (m.put key value).value? k = if k == key then some value else m.value? k := by
  rw [put, value?_cons, value?_forget]
  split <;> rfl

theorem value?_modify (change : V → V) :
    (m.modify key change).value? k =
      if k == key then (m.value? k).map change else m.value? k := by
  induction m with
  | nil => simp [modify, value?]
  | cons e m ih =>
    obtain ⟨held, value⟩ := e
    by_cases same : held = key
    · have changed : modify ((held, value) :: m) key change =
          (held, change value) :: modify m key change := by simp [modify, same]
      rw [changed, value?_cons, value?_cons, ih, same]
      split <;> rfl
    · have kept : modify ((held, value) :: m) key change =
          (held, value) :: modify m key change := by simp [modify, same]
      rw [kept, value?_cons, value?_cons, ih]
      by_cases first : k = held
      · simp [first, same]
      · simp [first]

end Memory

/-- A memory follows the deeds: it recalls only texts that stand, and all of them as long as there
has been room. -/
structure Recalls {K V W : Type} [BEq K] (view : W → V) (m : Memory K W)
    (deeds : List (Deed K V)) : Prop where
  bounded : m.length ≤ Memory.limit
  small : m.length ≤ Deed.preparations deeds
  sound : ∀ key value, m.value? key = some value → Deed.standing? key deeds = some (view value)
  complete : Deed.preparations deeds ≤ Memory.limit →
    ∀ key, (m.value? key).map view = Deed.standing? key deeds

namespace Recalls

variable {K V W : Type} [BEq K] {view : W → V} {m : Memory K W} {deeds : List (Deed K V)}

theorem start (view : W → V) : Recalls view ([] : Memory K W) ([] : List (Deed K V)) where
  bounded := Nat.zero_le _
  small := Nat.zero_le _
  sound key value held := by cases held
  complete _ key := rfl

variable [LawfulBEq K]

/-- Entering what has been prepared, a memory of texts that stand remains one. -/
theorem sound_put {m : Memory K W} (key : K) (value : W)
    (sound : ∀ k w, m.value? k = some w → Deed.standing? k deeds = some (view w)) (k : K) (w : W)
    (held : (m.put key value).value? k = some w) :
    Deed.standing? k (deeds ++ [.prepares key (view value)]) = some (view w) := by
  rw [Memory.value?_put] at held
  rw [Deed.standing?_append]
  by_cases same : k = key
  · simpa [same, Deed.key, Deed.text?] using congrArg (Option.map view) held
  · simp only [same, beq_iff_eq, if_false] at held
    simpa [Deed.key, Ne.symm same] using sound k w held

section
variable (h : Recalls view m deeds) (key : K)
include h

/-- Where there is room for it, a text is entered. -/
theorem put (value : W) (room : (m.put key value).length ≤ Memory.limit) :
    Recalls view (m.put key value) (deeds ++ [.prepares key (view value)]) where
  bounded := room
  small := by
    have le : (m.put key value).length ≤ m.length + 1 := Memory.length_put_le value
    have small := h.small
    simp only [Deed.preparations_append, Deed.preparations_prepares]
    omega
  sound := sound_put key value h.sound
  complete few k := by
    rw [Deed.preparations_append] at few
    rw [Memory.value?_put, Deed.standing?_append]
    by_cases same : k = key
    · simp [same, Deed.key, Deed.text?]
    · simpa [same, Deed.key, Ne.symm same] using h.complete (by omega) k

theorem remember (value : W) :
    Recalls view (m.remember key value) (deeds ++ [.prepares key (view value)]) := by
  have small := h.small
  unfold Memory.remember
  split
  · next full =>
    -- An empty memory holds nothing that does not stand, and the one text is put into it.
    have alone : ∀ k w, Memory.value? ([] : Memory K W) k = some w →
        Deed.standing? k deeds = some (view w) := by
      intro k w held
      cases held
    exact
      { bounded := show 1 ≤ 1024 by decide
        small := by simp
        sound := sound_put key value alone
        complete := fun few => by
          simp only [Deed.preparations_append, Deed.preparations_prepares] at few
          omega }
  · next room =>
    have le : (m.put key value).length ≤ m.length + 1 := Memory.length_put_le value
    exact h.put key value (by omega)

theorem renew (value : W) :
    Recalls view (m.renew key value) (deeds ++ [.prepares key (view value)]) := by
  unfold Memory.renew
  split
  · next held => exact h.put key value ((Memory.length_put_of_held held value).trans h.bounded)
  · exact h.remember key value

theorem forget : Recalls view (m.forget key) (deeds ++ [.closes key]) where
  bounded := Memory.length_forget_le.trans h.bounded
  small := by simpa using Memory.length_forget_le.trans h.small
  sound k w held := by
    rw [Memory.value?_forget] at held
    rw [Deed.standing?_append]
    by_cases same : k = key
    · simp [same] at held
    · simp only [same, beq_iff_eq, if_false] at held
      simpa [Deed.key, Ne.symm same] using h.sound k w held
  complete few k := by
    rw [Deed.preparations_append] at few
    rw [Memory.value?_forget, Deed.standing?_append]
    by_cases same : k = key
    · simp [same, Deed.key, Deed.text?]
    · simpa [same, Deed.key, Ne.symm same] using h.complete (by omega) k

theorem modify (change : W → W) (same : ∀ value, view (change value) = view value) :
    Recalls view (m.modify key change) deeds := by
  have recalled : ∀ k, ((m.modify key change).value? k).map view = (m.value? k).map view := by
    intro k
    rw [Memory.value?_modify]
    split
    · rw [Option.map_map]
      exact congrArg (Option.map · _) (funext same)
    · rfl
  exact
    { bounded := (Memory.length_modify change).trans_le h.bounded
      small := (Memory.length_modify change).trans_le h.small
      sound := fun k w held => by
        have before := recalled k
        rw [held] at before
        obtain ⟨value, held, eq⟩ := Option.map_eq_some_iff.1 before.symm
        rw [h.sound k value held, eq]
      complete := fun few k => (recalled k).trans (h.complete few k) }

end

end Recalls

/-- What is shown where the text of a key is asked for is the text that stands for it, or a text in
place of one that is not remembered; the text is remembered as long as there has been room. -/
structure Attributed {K V : Type} [BEq K] (deeds : List (Deed K V)) (key : K)
    (otherwise shown : V) : Prop where
  sound : shown = otherwise ∨ Deed.standing? key deeds = some shown
  complete : Deed.preparations deeds ≤ Memory.limit →
    shown = (Deed.standing? key deeds).getD otherwise

theorem Recalls.attributed {K V W : Type} [BEq K] {view : W → V} {m : Memory K W}
    {deeds : List (Deed K V)} (h : Recalls view m deeds) (key : K) (otherwise : V) :
    Attributed deeds key otherwise (((m.value? key).map view).getD otherwise) where
  sound := by
    cases held : m.value? key with
    | none => exact .inl rfl
    | some value => exact .inr (h.sound key value held)
  complete few := by rw [h.complete few]

end Dialogue
