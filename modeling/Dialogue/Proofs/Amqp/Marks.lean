import Mathlib
import Dialogue.Proofs.Amqp

/-!
The flags by which frames are taken out of a queue.

While a pass works on a queue nothing is taken out of it, so that the positions of its spans stay
right. There is a flag for each frame; the flags of a span are raised when the span is dealt with
(`mark?`), and at the end the frames whose flags are up are swept out (`sweep`).

In whichever order spans are marked, and however often, the flags that are up are those of their
frames (`markAll_flags`), and what is swept out are those spans (`sweep_marked`).
-/
namespace Dialogue.Amqp

/-- A span of a queue, and the position at which it begins. -/
structure Placed where
  start : Nat
  span : Span
deriving DecidableEq

namespace Placed

/-- The number of frames. -/
def length (p : Placed) : Nat := p.span.frames.length

/-- The position behind the last frame. -/
def stop (p : Placed) : Nat := p.start + p.length

/-- The same span with `n` more frames before it. -/
def shift (n : Nat) (p : Placed) : Placed := ⟨n + p.start, p.span⟩

end Placed

/-- Spans one behind the other, from a position on. -/
def placedFrom (start : Nat) : List Span → List Placed
  | [] => []
  | s :: rest => ⟨start, s⟩ :: placedFrom (start + s.frames.length) rest

/-- The spans of a queue in their places. -/
def placed (queue : List (Stamped Frame)) : List Placed := placedFrom 0 (spans queue)

/-- Raises the flags of a span, which must not run past the flags there are. -/
def mark? (flags : List Bool) (p : Placed) : Option (List Bool) :=
  if p.stop ≤ flags.length then
    some (flags.take p.start ++ List.replicate p.length true ++ flags.drop p.stop)
  else none

/-- Marks the spans at the given places of a list, one after the other. -/
def markAll (ps : List Placed) (order : List Nat) (flags : List Bool) : Option (List Bool) :=
  order.foldlM (fun flags i => ps[i]?.bind (mark? flags)) flags

/-- The members whose flags are not up; behind the flags all of them. -/
def sweep {α : Type} : List Bool → List α → List α
  | [], xs => xs
  | _, [] => []
  | flag :: flags, x :: xs => if flag then sweep flags xs else x :: sweep flags xs

/-! ## Places -/

theorem placedFrom_append (start : Nat) (ss ts : List Span) :
    placedFrom start (ss ++ ts) =
      placedFrom start ss ++ placedFrom (start + (ss.flatMap (·.frames)).length) ts := by
  induction ss generalizing start with
  | nil => simp [placedFrom]
  | cons s ss ih => simp [placedFrom, ih, Nat.add_assoc]

theorem placedFrom_shift (n start : Nat) (ss : List Span) :
    placedFrom (n + start) ss = (placedFrom start ss).map (Placed.shift n) := by
  induction ss generalizing start with
  | nil => rfl
  | cons s ss ih =>
    simp only [placedFrom, List.map_cons]
    rw [Nat.add_assoc, ih]
    rfl

/-- Each span begins where the one before it ends. -/
theorem isChain_placedFrom (start : Nat) (ss : List Span) :
    (placedFrom start ss).IsChain (fun p next => next.start = p.stop) := by
  induction ss generalizing start with
  | nil => exact .nil
  | cons s ss ih =>
    cases ss with
    | nil => exact .singleton _
    | cons t ss => exact .cons_cons rfl (ih _)

/-! ## Flags -/

/-- The flags that are up when the spans that are `dealt` with are marked, with as many frames
behind the spans as `behind` says. -/
def flags (behind : Nat) : (dealt : Nat → Bool) → List Span → List Bool
  | _, [] => List.replicate behind false
  | dealt, s :: rest =>
    List.replicate s.frames.length (dealt 0) ++ flags behind (fun i => dealt (i + 1)) rest

variable {behind : Nat} {dealt : Nat → Bool} {ss : List Span}

/-- At first no flag is up. -/
theorem flags_none :
    flags behind (fun _ => false) ss =
      List.replicate ((ss.flatMap (·.frames)).length + behind) false := by
  induction ss with
  | nil => simp [flags]
  | cons s ss ih => simp [flags, ih, List.replicate_append_replicate, Nat.add_assoc]

/-- Flags in front of a span have no say in marking it. -/
theorem mark?_shift (front fs : List Bool) (p : Placed) :
    mark? (front ++ fs) (p.shift front.length) = (mark? fs p).map (front ++ ·) := by
  have stop : (p.shift front.length).stop = front.length + p.stop := Nat.add_assoc ..
  have length : (p.shift front.length).length = p.length := rfl
  have start : (p.shift front.length).start = front.length + p.start := rfl
  by_cases fits : p.stop ≤ fs.length
  · simp [mark?, stop, length, start, fits, List.take_length_add_append,
      List.drop_length_add_append]
  · simp [mark?, stop, fits]

/-- Marking a span is dealing with it. -/
theorem mark?_flags {i : Nat} {p : Placed} (at_i : (placedFrom 0 ss)[i]? = some p) :
    mark? (flags behind dealt ss) p = some (flags behind (fun k => dealt k || k == i) ss) := by
  induction ss generalizing dealt i p with
  | nil => simp [placedFrom] at at_i
  | cons s ss ih =>
    cases i with
    | zero =>
      obtain rfl : ⟨0, s⟩ = p := by simpa [placedFrom] using at_i
      simp [mark?, Placed.stop, Placed.length, flags]
    | succ i =>
      have later : (placedFrom (s.frames.length + 0) ss)[i]? = some p := by
        simpa [placedFrom] using at_i
      -- The flags of the first span stand in front and stay as they are.
      rw [placedFrom_shift, List.getElem?_map, Option.map_eq_some_iff] at later
      obtain ⟨q, at_later, rfl⟩ := later
      have front := mark?_shift (List.replicate s.frames.length (dealt 0))
        (flags behind (fun k => dealt (k + 1)) ss) q
      rw [List.length_replicate, ih at_later] at front
      simpa [flags] using front

theorem length_placedFrom (start : Nat) (ss : List Span) :
    (placedFrom start ss).length = ss.length := by
  induction ss generalizing start with
  | nil => rfl
  | cons s ss ih => simp [placedFrom, ih]

/-- However they are ordered, the spans that have been marked are dealt with. -/
theorem markAll_flags {order : List Nat} (there : ∀ i ∈ order, i < ss.length) :
    markAll (placedFrom 0 ss) order (flags behind dealt ss) =
      some (flags behind (fun k => dealt k || decide (k ∈ order)) ss) := by
  induction order generalizing dealt with
  | nil => simp [markAll]
  | cons i order ih =>
    obtain ⟨p, at_i⟩ : ∃ p, (placedFrom 0 ss)[i]? = some p := by
      have bound : i < (placedFrom 0 ss).length := by
        rw [length_placedFrom]
        exact there i List.mem_cons_self
      exact ⟨_, List.getElem?_eq_getElem bound⟩
    have others : ∀ k ∈ order, k < ss.length := fun k hk => there k (List.mem_cons_of_mem i hk)
    calc markAll (placedFrom 0 ss) (i :: order) (flags behind dealt ss)
        = markAll (placedFrom 0 ss) order (flags behind (fun k => dealt k || k == i) ss) := by
          simp [markAll, at_i, mark?_flags at_i]
      _ = _ := by
          rw [ih others]
          congr 2
          funext k
          simp [Bool.or_assoc, List.mem_cons, Bool.decide_or, beq_eq_decide]

/-! ## Sweeping -/

section
variable {α : Type}

theorem sweep_raised (xs : List α) (fs : List Bool) (rest : List α) :
    sweep (List.replicate xs.length true ++ fs) (xs ++ rest) = sweep fs rest := by
  induction xs with
  | nil => rfl
  | cons x xs ih => simpa [List.replicate_succ, sweep] using ih

theorem sweep_lowered (xs : List α) (fs : List Bool) (rest : List α) :
    sweep (List.replicate xs.length false ++ fs) (xs ++ rest) = xs ++ sweep fs rest := by
  induction xs with
  | nil => rfl
  | cons x xs ih => simpa [List.replicate_succ, sweep] using ih

end

/-- The spans that are not dealt with, in order. -/
def undealt (dealt : Nat → Bool) (ss : List Span) : List Span :=
  (ss.zipIdx.filter fun s => !dealt s.2).map (·.1)

theorem undealt_cons (s : Span) (ss : List Span) :
    undealt dealt (s :: ss) =
      (if dealt 0 then [] else [s]) ++ undealt (fun i => dealt (i + 1)) ss := by
  unfold undealt
  rw [List.zipIdx_cons, Nat.zero_add, List.zipIdx_succ, List.filter_cons, List.filter_map]
  cases dealt 0 <;> simp [Function.comp_def]

/-- What stays are the spans that are not dealt with and what stands behind the spans, in order. -/
theorem sweep_flags (ss : List Span) (dealt : Nat → Bool) (behind : List (Stamped Frame)) :
    sweep (flags behind.length dealt ss) (ss.flatMap (·.frames) ++ behind) =
      (undealt dealt ss).flatMap (·.frames) ++ behind := by
  induction ss generalizing dealt with
  | nil =>
    have kept := sweep_lowered behind [] []
    simpa [flags, undealt, sweep] using kept
  | cons s ss ih =>
    rw [undealt_cons, flags, List.flatMap_cons, List.append_assoc]
    cases dealt 0 with
    | true => simpa using (sweep_raised s.frames _ _).trans (ih _)
    | false =>
      rw [sweep_lowered, ih]
      simp

/-- Marking spans of a queue never fails, and sweeps out these spans. -/
theorem sweep_marked {queue : List (Stamped Frame)} {order : List Nat}
    (there : ∀ i ∈ order, i < (spans queue).length) :
    ∃ flags, markAll (placed queue) order (List.replicate queue.length false) = some flags ∧
      sweep flags queue =
        (undealt (fun i => decide (i ∈ order)) (spans queue)).flatMap (·.frames) ++
          unfinished queue := by
  have whole := spans_append_unfinished queue
  have length : queue.length =
      ((spans queue).flatMap (·.frames)).length + (unfinished queue).length := by
    rw [← List.length_append, whole]
  have marked : markAll (placed queue) order
      (flags (unfinished queue).length (fun _ => false) (spans queue)) =
        some (flags (unfinished queue).length (fun i => false || decide (i ∈ order))
          (spans queue)) := markAll_flags there
  have swept := sweep_flags (spans queue) (fun i => decide (i ∈ order)) (unfinished queue)
  rw [whole] at swept
  refine ⟨_, ?_, swept⟩
  rw [length, ← flags_none, marked]
  simp only [Bool.false_or]

end Dialogue.Amqp
