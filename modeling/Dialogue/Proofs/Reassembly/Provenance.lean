import Mathlib
import Dialogue.Proofs.Reassembly.Moves

/-!
Where the bytes that a reassembly offers come from.

`Traced P` says that every byte held, in order or waiting, is one that `P` allows at its position
and under its capture time. Each move keeps it if `P` allows the bytes of the fragment being filed
(`Traced.move`), so after any calls every byte at the head was brought by an earlier fragment, for
the position and under the time that the reassembly gives for it (`head_byte_captured`). Fragments
of one stream at their true positions are therefore put together to a piece of that stream, whatever
was lost, repeated, overlapping or dropped (`run_eq_slice`).
-/
namespace Dialogue.Reassembly

/-- Every byte held is allowed by `P` at its position and under its capture time. -/
structure Traced (P : UInt8 → Nat → Nat → Prop) (r : Reassembly) : Prop where
  held : ∀ b p, (b, p) ∈ r.held → ∃ time, r.timeAt p = some time ∧ P b p time
  waiting : ∀ f ∈ r.pending, ∀ b p, (b, p) ∈ f.placed → P b p f.time

variable {P : UInt8 → Nat → Nat → Prop} {r : Reassembly}

/-! ## Capture times -/

theorem timeAt_append {f : Fragment} (h : r.Ordered) (hf : f.position = r.frontier) (p : Nat) :
    (r.append f).timeAt p = if f.position ≤ p then some f.time else r.timeAt p := by
  have behind : ∀ s ∈ r.stamps, s.position ≤ f.position := hf ▸ h.stamped
  unfold timeAt
  rw [append_stamps, Stamp.covering_insert (s := ⟨f.position, f.time⟩) h.stamps behind]
  split <;> rfl

theorem timeAt_moveHead {head p : Nat} (h : r.Ordered) (le : head ≤ p) (run : Bytes)
    (islands : List Island) : (r.moveHead head run islands).timeAt p = r.timeAt p := by
  unfold timeAt
  exact congrArg _ (Stamp.covering_prune h.stamps le)

/-! ## Every move keeps the bytes where they were captured -/

theorem Traced.append {f : Fragment} (h : Traced P r) (ordered : r.Ordered)
    (hf : f.position = r.frontier) (new : ∀ b p, (b, p) ∈ f.placed → P b p f.time) :
    Traced P (r.append f) where
  held := by
    intro b p hp
    rw [held_append ordered.inOrder hf, List.mem_append] at hp
    rw [timeAt_append ordered hf]
    rcases hp with hp | hp
    · -- What was held before stands before the frontier, where the new stamp covers nothing.
      have := (ordered.inOrder.bounds hp).2
      rw [if_neg (by omega)]
      exact h.held b p hp
    · rw [if_pos (Fragment.bounds_of_mem_placed hp).1]
      exact ⟨f.time, rfl, new b p hp⟩
  waiting := h.waiting

/-- Moving the head on keeps the bytes from the new head on. -/
theorem Traced.moveHead {head : Nat} {run : Bytes} {islands : List Island} (h : Traced P r)
    (ordered : r.Ordered) (chained : Chained r.frontier head run islands)
    (part : ∀ x ∈ placedRuns head run islands, x ∈ r.held) :
    Traced P (r.moveHead head run islands) where
  held := by
    intro b p hp
    rw [timeAt_moveHead ordered (chained.bounds hp).1]
    exact h.held b p (part _ hp)
  waiting := h.waiting

theorem Traced.consume (h : Traced P r) (ordered : r.Ordered) (n : Nat) :
    Traced P (r.consume n) := by
  rcases r.consume_cases n with ⟨hr, -⟩ | ⟨-, hr⟩
  · rwa [hr]
  · rw [hr]
    refine h.moveHead ordered ordered.inOrder.dropHeld fun x hx => ?_
    rw [placedRuns_dropHeld] at hx
    exact List.mem_of_mem_drop hx

theorem Traced.crossGaps (h : Traced P r) (ordered : r.Ordered) : Traced P r.crossGaps := by
  rcases r.crossGaps_cases with ⟨hr, -⟩ | ⟨-, hr⟩
  · rwa [hr]
  · rw [hr]
    refine h.moveHead ordered ordered.inOrder.firstRun fun x hx => ?_
    rwa [placedRuns_firstRun] at hx

/-- The pieces of a run that moves back among the waiting fragments keep their times. -/
theorem Traced.moveBack {head p : Nat} (h : Traced P r) (ordered : r.Ordered)
    (set : r.head = some head) (whole : r.islands = []) : Traced P (r.moveBack head p) where
  held := by
    intro b q hq
    simp [Reassembly.held, placedRuns, Reassembly.moveBack, whole] at hq
  waiting := by
    intro f hf b q hq
    rcases List.mem_append.1 hf with hf | hf
    · obtain ⟨h1, h2⟩ := mem_placed_of_mem_pieces ordered.stamps hf hq
      have hheld : (b, q) ∈ r.held := by
        rw [held_eq_zipIdx whole, position, set]
        exact h1
      obtain ⟨time, ht, hP⟩ := h.held b q hheld
      rw [timeAt, h2, Option.some.injEq] at ht
      rwa [ht]
    · exact h.waiting f hf b q hq

theorem Traced.move {g : Fragment} {r' : Reassembly} (h : Traced P r) (ordered : r.Ordered)
    (new : ∀ b p, (b, p) ∈ g.placed → P b p g.time) (m : Move g r r') : Traced P r' := by
  have part : ∀ f : Fragment, (∀ b p, (b, p) ∈ f.placed → P b p f.time) → ∀ q b p,
      (b, p) ∈ (f.startingAt q).placed → P b p (f.startingAt q).time := by
    intro f hf q b p hp
    rw [Fragment.time_startingAt]
    exact hf b p (Fragment.mem_placed_startingAt.1 hp).1
  cases m with
  | count tally _ _ => exact ⟨h.held, h.waiting⟩
  | place unset =>
    obtain ⟨-, -, hrun, hislands, hpending, -⟩ := ordered.unset unset
    refine ⟨fun b p hp => ?_, fun f hf => ?_⟩
    · simp [Reassembly.held, placedRuns, hrun, hislands] at hp
    · simp [hpending] at hf
  | back _ set _ _ whole => exact h.moveBack ordered set whole
  | append _ reaches _ =>
    refine h.append ordered ?_ (part g new _)
    rw [Fragment.position_startingAt]
    omega
  | hold _ _ =>
    refine ⟨h.held, fun f hf => ?_⟩
    rcases mem_enter hf with rfl | hf
    · exact new
    · exact h.waiting f hf
  | @flush f rest first reaches _ =>
    have first_mem : f ∈ r.pending := first ▸ List.mem_cons_self
    have appended : Traced P (r.append (f.startingAt r.frontier)) := by
      refine h.append ordered ?_ (part f (h.waiting f first_mem) _)
      rw [Fragment.position_startingAt]
      omega
    exact ⟨appended.held, fun k hk => h.waiting k (first ▸ List.mem_cons_of_mem f hk)⟩
  | @skip f rest first _ =>
    exact ⟨h.held, fun k hk => h.waiting k (first ▸ List.mem_cons_of_mem f hk)⟩
  | declare first _ _ => exact ⟨by rw [held_declareGap]; exact h.held, h.waiting⟩
  | cross => exact h.crossGaps ordered
  | drop _ => exact h.consume ordered _

/-! ## Runs -/

/-- Some call has brought the byte at this position, at this time. -/
def Captured (calls : List Call) (b : UInt8) (p time : Nat) : Prop :=
  ∃ f, Call.add f ∈ calls ∧ f.byteAt? p = some b ∧ f.time = time

theorem Captured.concat {calls : List Call} {call : Call} {b : UInt8} {p time : Nat}
    (h : Captured calls b p time) : Captured (calls ++ [call]) b p time := by
  obtain ⟨f, hf, hb⟩ := h
  exact ⟨f, List.mem_append_left _ hf, hb⟩

theorem Traced.mono {Q : UInt8 → Nat → Nat → Prop} (h : Traced P r)
    (imp : ∀ b p time, P b p time → Q b p time) : Traced Q r where
  held := by
    intro b p hp
    obtain ⟨time, ht, hP⟩ := h.held b p hp
    exact ⟨time, ht, imp b p time hP⟩
  waiting := fun f hf b p hp => imp b p f.time (h.waiting f hf b p hp)

theorem traced_replay (limits : Limits) (calls : List Call) :
    Traced (Captured calls) (replay limits calls) := by
  induction calls using List.reverseRecOn with
  | nil => exact ⟨nofun, nofun⟩
  | append_singleton calls call ih =>
    rw [replay_concat]
    -- What the earlier calls have brought stays captured when there is one more call.
    have kept : Traced (Captured (calls ++ [call])) (replay limits calls) :=
      ih.mono fun _ _ _ => Captured.concat
    have wf := wellFormed_replay limits calls
    cases call with
    | add f =>
      refine wf.add_induction (fun s t ordered m hs => hs.move ordered ?_ m) kept
      intro b p hp
      rw [Fragment.time_lastBytes]
      have brought := Fragment.mem_placed_iff_byteAt?.1 (Fragment.mem_placed_of_lastBytes hp)
      exact ⟨f, by simp, brought, rfl⟩
    | consume n => exact kept.consume wf.toOrdered n

/-- A byte at the head was brought by an earlier fragment, under the time given for it. -/
theorem head_byte_captured (limits : Limits) (calls : List Call) {i : Nat} {b : UInt8}
    (h : (replay limits calls).run[i]? = some b) :
    ∃ f, Call.add f ∈ calls ∧ f.byteAt? ((replay limits calls).position + i) = some b ∧
      (replay limits calls).timeAt ((replay limits calls).position + i) = some f.time := by
  obtain ⟨time, ht, f, hf, hb, rfl⟩ :=
    (traced_replay limits calls).held b _ (mem_held_of_getElem? h)
  exact ⟨f, hf, hb, ht⟩

/-- Fragments of one stream are put together to a piece of that stream. -/
theorem run_eq_slice {limits : Limits} {calls : List Call} {stream : Bytes}
    (sliced : ∀ f, Call.add f ∈ calls → f.IsSliceOf stream) :
    (replay limits calls).run = slice stream (replay limits calls).position
      (replay limits calls).run.length := by
  apply List.ext_getElem?
  intro i
  rw [slice, List.getElem?_take]
  split
  · next hi =>
    have hb := List.getElem?_eq_getElem hi
    obtain ⟨f, hf, hbyte, -⟩ := head_byte_captured limits calls hb
    rw [List.getElem?_drop, hb, (sliced f hf).getElem? hbyte]
  · next hi => exact List.getElem?_eq_none (Nat.not_lt.1 hi)

/-- **Whatever the head offers was captured there.** After any calls, each byte at the head was
brought by an earlier fragment for just that position, and the time given for the position is that
fragment's. If all fragments are pieces of one stream at their true positions, the head is the piece
of the stream that starts at the head's position. -/
theorem head_captured (limits : Limits) (calls : List Call) :
    (∀ i b, (replay limits calls).run[i]? = some b →
      ∃ f, Call.add f ∈ calls ∧ f.byteAt? ((replay limits calls).position + i) = some b ∧
        (replay limits calls).timeAt ((replay limits calls).position + i) = some f.time) ∧
    ∀ stream, (∀ f, Call.add f ∈ calls → f.IsSliceOf stream) →
      (replay limits calls).run = slice stream (replay limits calls).position
        (replay limits calls).run.length :=
  ⟨fun _ _ h => head_byte_captured limits calls h, fun _ => run_eq_slice⟩

end Dialogue.Reassembly
