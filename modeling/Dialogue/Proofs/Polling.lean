import Mathlib
import Dialogue.Proofs.Readers
import Dialogue.Proofs.Reading

/-!
Scanning again when nothing has come in.

A scan ends where the head is empty, is waited for, or begins no frame and has been searched as far
as it goes (`Halted`). Another look at such a head changes nothing, since a search that is repeated
over the same bytes counts as a failure only where no more bytes can come in. So a scan that has
ended can be repeated at will: it finds nothing, and the failures do not add up.
-/
namespace Dialogue

/-- The dialect learns nothing unless a frame takes up bytes. A frame that takes up none is no frame
to a scan, so it counts as invalid here. -/
def Dialect.Steady (d : Dialect) (dir : Direction) : Prop :=
  ∀ σ bs, (∀ frame n, (d.parse dir σ bs).1 = .complete frame n → n = 0) →
    (d.parse dir σ bs).2 = σ

theorem Dialect.Idle.steady {d : Dialect} {dir : Direction} (idle : d.Idle dir)
    (measured : d.Measured dir) : d.Steady dir := by
  intro σ bs nothing
  refine idle σ bs fun frame n complete => ?_
  have pos := (measured.whole complete).1
  rw [nothing frame n complete] at pos
  exact Nat.lt_irrefl 0 pos

theorem Protocol.steady (p : Protocol) {libraries : Libraries}
    (settled : p = .http → libraries.heads.Settled) (dir : Direction) :
    (p.dialect libraries).Steady dir :=
  (p.idle settled dir).steady (p.measured settled dir)

namespace Flow

namespace Scan

variable {d : Dialect} {dir : Direction} {patience : Nat} {s t : Scan d}

/-- A scan of what the one before has left, with findings of its own. -/
def poll (dir : Direction) (patience : Nat) (s : Scan d) : Scan d :=
  s.flow.scan dir patience s.conversation

/-- Outcomes of reading after which a frame is looked for further on. -/
inductive Barren {F : Type} : Parsed F → Prop where
  | invalid (reason : String) : Barren (.invalid reason)
  | empty (frame : F) : Barren (.complete frame 0)

theorem act_of_barren {outcome : Parsed d.Frame} (barren : Barren outcome) (s : Scan d) :
    s.act dir patience outcome = s.resync dir patience := by
  cases barren with
  | invalid reason => rfl
  | empty frame => rfl

/-- A head at which nothing is left to do until more bytes come in. -/
inductive Halted (dir : Direction) (patience : Nat) (s : Scan d) : Prop where
  | empty (none : s.flow.reassembly.run = [])
  | waiting {minimum : Option Nat}
      (parsed : d.parse dir s.conversation.state s.flow.reassembly.run =
        (.needMore minimum, s.conversation.state))
      (open_ended : s.flow.reassembly.endsAtGap = false)
  | searched {outcome : Parsed d.Frame}
      (parsed : d.parse dir s.conversation.state s.flow.reassembly.run =
        (outcome, s.conversation.state))
      (barren : Barren outcome)
      (lost : (d.boundary dir s.conversation.state s.flow.reassembly.run 1).filter (0 < ·) = none)
      (searched : s.flow.searched = s.flow.reassembly.run.length)
      (patient : s.flow.failures < patience)
      (open_ended : s.flow.reassembly.endsAtGap = false)

theorem Halted.withFindings (h : Halted dir patience s) (findings : Findings) :
    Halted dir patience { s with findings := findings } := by
  cases h with
  | empty none => exact .empty none
  | waiting parsed open_ended => exact .waiting parsed open_ended
  | searched parsed barren lost searched patient open_ended =>
    exact .searched parsed barren lost searched patient open_ended

/-! ## Where a scan ends -/

/-- A search that finds nothing ends the scan only while there is patience and the head can grow. -/
theorem halted_of_resync {outcome : Parsed d.Frame}
    (parsed : d.parse dir s.conversation.state s.flow.reassembly.run =
      (outcome, s.conversation.state))
    (barren : Barren outcome) (ends : s.resync dir patience = .done t) : Halted dir patience t := by
  simp only [resync] at ends
  split at ends
  · cases ends
  · next lost =>
    split at ends
    · next stays =>
      rw [Bool.and_eq_true, decide_eq_true_eq, Bool.not_eq_true'] at stays
      obtain rfl := Progress.done.inj ends
      exact .searched parsed barren lost rfl stays.1 stays.2
    · cases ends

section
variable (steady : d.Steady dir)
include steady

/-- At the end the dialect knows what it knew before the last look. -/
theorem halted_of_step (ends : s.step dir patience = .done t) : Halted dir patience t := by
  by_cases none : s.flow.reassembly.run.isEmpty
  · rw [step, if_pos none] at ends
    obtain rfl := Progress.done.inj ends
    exact .empty (List.isEmpty_iff.1 none)
  rw [step, if_neg none] at ends
  rcases parsed : d.parse dir s.conversation.state s.flow.reassembly.run with ⟨outcome, σ⟩
  have same (nothing : ∀ frame n, outcome = .complete frame n → n = 0) :
      σ = s.conversation.state := by
    have learned : (d.parse dir s.conversation.state s.flow.reassembly.run).2 =
        s.conversation.state := steady _ _ (by rwa [parsed])
    rwa [parsed] at learned
  rw [parsed] at ends
  dsimp only at ends
  cases outcome with
  | complete frame n =>
    by_cases zero : n = 0
    · subst zero
      obtain rfl := same (by simp)
      rw [act_of_barren (.empty frame)] at ends
      exact halted_of_resync (s := s.learn _) parsed (.empty frame) ends
    · rw [act, if_neg zero] at ends
      cases ends
  | needMore minimum =>
    obtain rfl := same (by simp)
    rw [act] at ends
    split at ends
    · cases ends
    · next whole =>
      obtain rfl := Progress.done.inj ends
      exact .waiting parsed (Bool.eq_false_of_not_eq_true whole)
  | invalid reason =>
    obtain rfl := same (by simp)
    exact halted_of_resync (s := s.learn _) parsed (.invalid reason) ends

theorem halted_run (patience : Nat) (s : Scan d) :
    Halted dir patience (s.run dir patience) := by
  fun_induction run dir patience s with
  | case1 s t step => exact halted_of_step steady step
  | case2 s t step _ ih => exact ih

end

/-! ## What another scan does -/

/-- A search over the bytes that were searched before is no other failure. -/
theorem noteFailure_of_searched (searched : s.flow.searched = s.flow.reassembly.run.length)
    (room : s.flow.reassembly.isFull = false) : s.noteFailure = s := by
  have shorter : atLeast (s.flow.searched + 1) s.flow.reassembly.run = false := by
    rw [Bool.eq_false_iff, ne_eq, atLeast_iff]
    omega
  simp only [noteFailure, shorter, room, Bool.or_self, Bool.false_eq_true, if_false, ← searched]

theorem Halted.step_eq (h : Halted dir patience s) (room : s.flow.reassembly.isFull = false) :
    s.step dir patience = .done s := by
  unfold step
  split
  · rfl
  · next filled =>
    cases h with
    | empty none => exact absurd (List.isEmpty_iff.2 none) filled
    | waiting parsed open_ended =>
      rw [parsed]
      show (if s.flow.reassembly.endsAtGap then _ else Progress.done s) = _
      rw [open_ended]
      rfl
    | searched parsed barren lost searched patient open_ended =>
      rw [parsed]
      show (s.learn s.conversation.state).act dir patience _ = _
      rw [act_of_barren barren]
      show s.resync dir patience = _
      unfold resync
      simp only [lost, noteFailure_of_searched searched room, patient, open_ended, decide_true,
        Bool.not_false, Bool.and_self, if_true]

theorem Halted.poll_eq (h : Halted dir patience s) (room : s.flow.reassembly.isFull = false) :
    s.poll dir patience = { s with findings := {} } :=
  run_of_done ((h.withFindings {}).step_eq room)

end Scan

/-- **Scanning again is harmless.** Once a scan has ended and there is room for more bytes, scanning
again, however often, files no frame and counts nothing, and leaves the reassembly, the failures,
the searched length, the frames that wait and what the dialect remembers as they are. -/
theorem polls_harmless {d : Dialect} {dir : Direction} (steady : d.Steady dir) (f : Flow)
    (patience : Nat) (c : Conversation d) :
    let s := f.scan dir patience c
    s.flow.reassembly.size < s.flow.reassembly.limits.capacity →
      ∀ polls, (Scan.poll dir patience)^[polls + 1] s = ⟨s.flow, s.conversation, {}⟩ := by
  intro s room polls
  have halted : Scan.Halted dir patience s := Scan.halted_run steady patience _
  have open_ended : s.flow.reassembly.isFull = false := decide_eq_false (Nat.not_le.2 room)
  induction polls with
  | zero => exact halted.poll_eq open_ended
  | succ polls ih =>
    rw [Function.iterate_succ_apply', ih]
    exact (halted.withFindings {}).poll_eq open_ended

/-- Two bytes that begin no message, and the first bytes of a query. -/
def partialQuery : Flow :=
  ⟨.replay {} [.add ⟨0, 1, [0xFF, 0xFF]⟩, .add ⟨2, 2, [81, 0, 0, 0, 13, 82]⟩], 0, 0⟩

/-- The one failure stays one, although it would take only two more to drop the bytes. -/
theorem polls_harmless_partial :
    let s := partialQuery.scan .request 3 ({} : Conversation Postgres.dialect)
    Postgres.dialect.Steady .request ∧ s.flow.failures = 1 ∧ s.flow.searched = 8 ∧
      s.flow.reassembly.size < s.flow.reassembly.limits.capacity ∧
      (Scan.poll .request 3)^[5] s = ⟨s.flow, s.conversation, {}⟩ := by
  intro s
  have steady : Protocol.pgsql.dialect.Steady .request := Protocol.steady .pgsql (by simp) .request
  have room : s.flow.reassembly.size < s.flow.reassembly.limits.capacity := by decide +kernel
  exact ⟨steady, by decide +kernel, by decide +kernel, room,
    polls_harmless steady partialQuery 3 {} room 4⟩

end Flow

end Dialogue
