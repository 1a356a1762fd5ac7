import Mathlib
import Dialogue.Proofs.Readers
import Dialogue.Proofs.Reading
import Dialogue.Proofs.Reassembly.Arithmetic

/-!
What a scan does with the bytes that are held in order.

`Look` lists what a look at the head can come to, each with the condition under which it does. A
look that goes on consumes bytes, either those of a frame or bytes that are counted as skipped
(`Look.accounts`), so a scan ends after at most one look for each byte held and one more
(`ends_run`), and no byte is lost between the frames and the count (`run_accounts`). It ends where
nothing can be read: there is no lost gap ahead, and the head is empty, waited for, or begins no
frame anywhere (`Rests`).

A `Scan` asks a dialect for positions behind the head only. That it ends does not rest on this:
`trustingStep` goes on wherever the dialect says, and ends all the same for a dialect that names
positions within the head.
-/
namespace Dialogue

namespace Flow.Scan

variable {d : Dialect} {dir : Direction} {patience : Nat} {s t u : Scan d}

/-! ## A scan that takes its dialect at its word -/

/-- Deals with a head that begins no frame; where the dialect names a position, it is gone to. -/
def trustingResync (s : Scan d) (dir : Direction) (patience : Nat) : Progress d :=
  match d.boundary dir s.conversation.state s.flow.reassembly.run 1 with
  | some position => .more (s.skipTo position)
  | none => s.resync dir patience

/-- Acts on what reading the head has given. -/
def trustingAct (s : Scan d) (dir : Direction) (patience : Nat) : Parsed d.Frame → Progress d
  | .complete frame length =>
    if length = 0 then s.trustingResync dir patience else .more (s.take dir frame length)
  | .needMore minimum => s.act dir patience (.needMore minimum)
  | .invalid _ => s.trustingResync dir patience

/-- Looks at the head once. -/
def trustingStep (dir : Direction) (patience : Nat) (s : Scan d) : Progress d :=
  if s.flow.reassembly.run.isEmpty then .done s
  else
    let (parsed, state) := d.parse dir s.conversation.state s.flow.reassembly.run
    (s.learn state).trustingAct dir patience parsed

/-- Looking at the head again and again ends, after the given number of looks. -/
inductive Ends (dir : Direction) (patience : Nat) : Nat → Scan d → Scan d → Prop where
  | done {s t : Scan d} : s.trustingStep dir patience = .done t → Ends dir patience 1 s t
  | more {n : Nat} {s t u : Scan d} : s.trustingStep dir patience = .more t →
      Ends dir patience n t u → Ends dir patience (n + 1) s u

theorem trustingResync_eq (h : d.Measured dir) (s : Scan d) (patience : Nat) :
    s.trustingResync dir patience = s.resync dir patience := by
  unfold trustingResync
  split
  · next position found =>
    have kept : (some position).filter (0 < ·) = some position := by
      simpa using (h.within found).1
    simp only [resync, found, kept]
  · rfl

theorem trustingStep_eq (h : d.Measured dir) (patience : Nat) (s : Scan d) :
    s.trustingStep dir patience = s.step dir patience := by
  unfold trustingStep step
  split
  · rfl
  · dsimp only
    cases (d.parse dir s.conversation.state s.flow.reassembly.run).1 with
    | complete frame length => simp only [trustingAct, act, trustingResync_eq h]
    | needMore minimum => rfl
    | invalid reason => exact trustingResync_eq h _ _

theorem ends_run (h : d.Measured dir) (patience : Nat) (s : Scan d) :
    ∃ n ≤ s.size + 1, Ends dir patience n s (s.run dir patience) := by
  fun_induction run dir patience s with
  | case1 s t step =>
    exact ⟨1, by omega, .done (by rw [trustingStep_eq h, step])⟩
  | case2 s t step _ ih =>
    obtain ⟨n, le, ends⟩ := ih
    have := size_step_lt step
    exact ⟨n + 1, by omega, .more (by rw [trustingStep_eq h, step]) ends⟩

/-! ## What a look comes to -/

/-- What a look at the head can come to. -/
inductive Look (dir : Direction) (s : Scan d) : Progress d → Prop where
  | nothing (empty : s.flow.reassembly.run = []) : Look dir s (.done s)
  | frame {frame : d.Frame} {n : Nat} {σ : d.State}
      (filled : s.flow.reassembly.run ≠ [])
      (parsed : d.parse dir s.conversation.state s.flow.reassembly.run = (.complete frame n, σ)) :
      Look dir s (.more ((s.learn σ).take dir frame n))
  | wait {minimum : Option Nat} {σ : d.State}
      (parsed : d.parse dir s.conversation.state s.flow.reassembly.run = (.needMore minimum, σ))
      (open_ended : s.flow.reassembly.endsAtGap = false) : Look dir s (.done (s.learn σ))
  | cut {minimum : Option Nat} {σ : d.State}
      (parsed : d.parse dir s.conversation.state s.flow.reassembly.run = (.needMore minimum, σ)) :
      Look dir s (.more (s.learn σ).dropCut)
  | found {reason : String} {σ : d.State} {p : Nat}
      (parsed : d.parse dir s.conversation.state s.flow.reassembly.run = (.invalid reason, σ))
      (boundary : d.boundary dir σ s.flow.reassembly.run 1 = some p) :
      Look dir s (.more ((s.learn σ).skipTo p))
  | lost {reason : String} {σ : d.State}
      (parsed : d.parse dir s.conversation.state s.flow.reassembly.run = (.invalid reason, σ))
      (boundary : d.boundary dir σ s.flow.reassembly.run 1 = none)
      (open_ended : s.flow.reassembly.endsAtGap = false) :
      Look dir s (.done (s.learn σ).noteFailure)
  | drop {reason : String} {σ : d.State}
      (parsed : d.parse dir s.conversation.state s.flow.reassembly.run = (.invalid reason, σ)) :
      Look dir s (.more (s.learn σ).noteFailure.dropHead)

theorem look_step (h : d.Measured dir) (patience : Nat) (s : Scan d) :
    Look dir s (s.step dir patience) := by
  by_cases filled : s.flow.reassembly.run = []
  · rw [step, if_pos (List.isEmpty_iff.2 filled)]
    exact .nothing filled
  rw [step, if_neg (by simpa using filled)]
  rcases parsed : d.parse dir s.conversation.state s.flow.reassembly.run with ⟨outcome, σ⟩
  show Look dir s ((s.learn σ).act dir patience outcome)
  cases outcome with
  | complete frame n =>
    have pos := (h.whole (congrArg Prod.fst parsed)).1
    rw [act, if_neg (Nat.ne_of_gt pos)]
    exact .frame filled parsed
  | needMore minimum =>
    rw [act]
    split
    · exact .cut parsed
    · next whole => exact .wait parsed (Bool.eq_false_of_not_eq_true whole)
  | invalid reason =>
    show Look dir s ((s.learn σ).resync dir patience)
    rw [← trustingResync_eq h, trustingResync]
    split
    · next p found => exact .found parsed found
    · next none =>
      simp only [resync, none, Option.filter_none]
      split
      · next ends =>
        simp only [Bool.and_eq_true, Bool.not_eq_true'] at ends
        exact .lost parsed none ends.2
      · exact .drop parsed

/-! ## Where the bytes go -/

theorem length_run_le_size (s : Scan d) : s.flow.reassembly.run.length ≤ s.size :=
  Nat.le_add_right ..

/-- The bytes that the frames read take up. -/
def frameBytes (ρs : List (Reading d)) : Nat := total (fun ρ => d.size ρ.frame.value) ρs

/-- The bytes consumed by a look are those of the frame that it reads, or are counted as skipped. -/
theorem Look.accounts (h : d.Measured dir) (look : Look dir s (.more t)) :
    t.size + frameBytes (s.reading? dir).toList + t.findings.skipped =
      s.size + s.findings.skipped := by
  have le := s.length_run_le_size
  generalize hp : Progress.more t = p at look
  cases look with
  | nothing _ | wait _ _ | lost _ _ _ => cases hp
  | @frame frame n σ filled parsed =>
    obtain ⟨pos, n_le, measured⟩ := h.whole (congrArg Prod.fst parsed)
    cases hp
    have read : frameBytes (s.reading? dir).toList = n := by
      simp [reading?, filled, parsed, Nat.ne_of_gt pos, frameBytes, measured]
    have size : ((s.learn σ).take dir frame n).size = s.size - n := Reassembly.size_consume ..
    have skipped : ((s.learn σ).take dir frame n).findings.skipped = s.findings.skipped := rfl
    omega
  | @cut _ σ parsed =>
    cases hp
    have read : frameBytes (s.reading? dir).toList = 0 := by simp [reading?, parsed, frameBytes]
    have size : (s.learn σ).dropCut.size = s.size - s.flow.reassembly.run.length :=
      Reassembly.size_consume ..
    have skipped : (s.learn σ).dropCut.findings.skipped =
        s.findings.skipped + s.flow.reassembly.run.length := rfl
    omega
  | @found _ σ p parsed boundary =>
    cases hp
    have within := h.within boundary
    have read : frameBytes (s.reading? dir).toList = 0 := by simp [reading?, parsed, frameBytes]
    have size : ((s.learn σ).skipTo p).size = s.size - p := Reassembly.size_consume ..
    have skipped : ((s.learn σ).skipTo p).findings.skipped = s.findings.skipped + p := rfl
    omega
  | @drop _ σ parsed =>
    cases hp
    have read : frameBytes (s.reading? dir).toList = 0 := by simp [reading?, parsed, frameBytes]
    have size : (s.learn σ).noteFailure.dropHead.size =
        s.size - s.flow.reassembly.run.length := Reassembly.size_consume ..
    have skipped : (s.learn σ).noteFailure.dropHead.findings.skipped =
        s.findings.skipped + s.flow.reassembly.run.length := rfl
    omega

/-- A look that ends the scan consumes nothing. -/
theorem Look.accounts_done (look : Look dir s (.done t)) :
    t.size = s.size ∧ t.findings.skipped = s.findings.skipped := by
  generalize hp : Progress.done t = p at look
  cases look with
  | frame _ _ | cut _ | found _ _ | drop _ => cases hp
  | nothing _ | wait _ _ | lost _ _ _ =>
    cases hp
    exact ⟨rfl, rfl⟩

theorem run_accounts (h : d.Measured dir) (patience : Nat) (s : Scan d) :
    (s.run dir patience).size + frameBytes (s.readings dir patience) +
        (s.run dir patience).findings.skipped = s.size + s.findings.skipped := by
  fun_induction readings dir patience s with
  | case1 s t step =>
    obtain ⟨size, skipped⟩ := (step ▸ look_step h patience s).accounts_done
    rw [run_of_done step, size, skipped]
    rfl
  | case2 s t step _ ih =>
    have now := (step ▸ look_step h patience s).accounts h
    rw [run_of_more step, frameBytes, total_append, ← frameBytes, ← frameBytes]
    omega

/-! ## Where a scan ends -/

/-- Nothing can be read off the head, and no lost gap cuts it short. What was last asked of the
dialect was about this head. -/
def Rests (dir : Direction) (s : Scan d) : Prop :=
  s.flow.reassembly.endsAtGap = false ∧
    (s.flow.reassembly.run = [] ∨
      ∃ σ, (d.Idle dir → σ = s.conversation.state) ∧
        ((∃ minimum, d.parse dir σ s.flow.reassembly.run =
            (.needMore minimum, s.conversation.state)) ∨
          ∃ reason, d.parse dir σ s.flow.reassembly.run =
              (.invalid reason, s.conversation.state) ∧
            d.boundary dir s.conversation.state s.flow.reassembly.run 1 = none))

theorem Look.rests (look : Look dir s (.done t)) (led : s.flow.reassembly.Led) : Rests dir t := by
  -- A dialect that is idle remembers the same after bytes that are no frame.
  have idle : ∀ {outcome σ}, d.parse dir s.conversation.state s.flow.reassembly.run = (outcome, σ) →
      (∀ frame n, outcome ≠ .complete frame n) → d.Idle dir → s.conversation.state = σ := by
    intro outcome σ parsed other idle
    have same := idle s.conversation.state s.flow.reassembly.run (by rwa [parsed])
    rwa [parsed, eq_comm] at same
  generalize hp : Progress.done t = p at look
  cases look with
  | frame _ _ | cut _ | found _ _ | drop _ => cases hp
  | nothing empty =>
    cases hp
    refine ⟨?_, .inl empty⟩
    rw [Reassembly.endsAtGap, led.resolve_left (not_not_intro empty)]
    rfl
  | wait parsed open_ended =>
    cases hp
    have same := idle parsed (by intro frame n h; cases h)
    exact ⟨open_ended, .inr ⟨_, same, .inl ⟨_, parsed⟩⟩⟩
  | lost parsed boundary open_ended =>
    cases hp
    have same := idle parsed (by intro frame n h; cases h)
    exact ⟨open_ended, .inr ⟨_, same, .inr ⟨_, parsed, boundary⟩⟩⟩

theorem led_of_step (step : s.step dir patience = .more t) (led : s.flow.reassembly.Led) :
    t.flow.reassembly.Led := by
  rcases step_more step with ⟨ρ, -, takes⟩ | ⟨-, passes⟩
  · rw [takes.reassembly]
    exact led.consume _
  · obtain ⟨n, hn⟩ := passes.reassembly
    rw [hn]
    exact led.consume n

theorem rests_run (h : d.Measured dir) (patience : Nat) (s : Scan d)
    (led : s.flow.reassembly.Led) : Rests dir (s.run dir patience) := by
  fun_induction run dir patience s with
  | case1 s t step => exact (step ▸ look_step h patience s).rests led
  | case2 s t step _ ih => exact ih (led_of_step step led)

end Flow.Scan

/-- **A scan ends, and accounts for every byte.** From any state that calls can bring about, with
any count of failures, and even if the dialect is taken at its word, a scan ends after at most one
look for each byte held in order and one more. Each byte that is gone belongs to a frame that was
filed or is counted as skipped. What is left begins no frame that could still be read. -/
theorem Flow.scan_accounts {d : Dialect} {dir : Direction} (measured : d.Measured dir)
    (limits : Limits) (calls : List Reassembly.Call) (failures searched patience : Nat)
    (c : Conversation d) :
    let f : Flow := ⟨.replay limits calls, failures, searched⟩
    let start : Scan d := { flow := f, conversation := c }
    let read := start.readings dir patience
    let s := f.scan dir patience c
    (∃ n ≤ f.reassembly.size + 1, Scan.Ends dir patience n start s) ∧
      s.conversation.backlog =
        read.foldl (fun b ρ => b.push (d.key ρ.frame.value) dir ρ.frame) c.backlog ∧
      s.findings.frames = read.length ∧
      f.reassembly.size = s.flow.reassembly.size + total (fun ρ => d.size ρ.frame.value) read +
        s.findings.skipped ∧
      Scan.Rests dir s := by
  intro f start read s
  obtain ⟨filed, frames⟩ := Scan.run_files dir patience start
  refine ⟨Scan.ends_run measured patience start, filed, ?_, ?_, ?_⟩
  · exact frames.trans (Nat.zero_add _)
  · exact (Scan.run_accounts measured patience start).symm
  · exact Scan.rests_run measured patience start (Reassembly.led_replay limits calls)

namespace Flow

/-- A ping, a piece of a message behind which bytes are lost, and two bytes that begin no message
before another ping. -/
def lossy : List Reassembly.Call :=
  [.add ⟨0, 1, [0, 0, 0, 4, 65, 0, 0, 1]⟩, .add ⟨8, 2, [0, 0, 0]⟩,
    .add ⟨16, 3, [1, 2, 0, 0, 0, 4, 65, 0, 0, 2]⟩]

theorem scan_accounts_lossy :
    let f : Flow := ⟨.replay { maxGap := 4 } lossy, 0, 0⟩
    let start : Scan Mux.dialect := { flow := f, conversation := {} }
    let read := start.readings .request 3
    let s := f.scan .request 3 {}
    Mux.dialect.Measured .request ∧ s.findings = ⟨2, 1, 1, 5⟩ ∧
      (∃ n ≤ f.reassembly.size + 1, Scan.Ends .request 3 n start s) ∧
      s.conversation.backlog =
        read.foldl (fun b ρ => Backlog.push b ρ.frame.value.tag .request ρ.frame) [] ∧
      s.findings.frames = read.length ∧
      f.reassembly.size = s.flow.reassembly.size + total (fun ρ => ρ.frame.value.size) read +
        s.findings.skipped ∧
      Scan.Rests .request s := by
  intro f start read s
  have measured : Mux.dialect.Measured .request := Protocol.measured_run .mux .request
  exact ⟨measured, by decide +kernel,
    scan_accounts measured { maxGap := 4 } lossy 0 0 3 {}⟩

end Flow

end Dialogue
