import Mathlib
import Dialogue.Dialects
import Dialogue.Proofs.Delimited
import Dialogue.Proofs.Dns
import Dialogue.Proofs.Reading
import Dialogue.Proofs.Reassembly.Contiguous

/-!
Reading one direction while its bytes arrive in order.

`Intake` takes turns: a piece of the stream comes in, or what has come in is scanned. Against it
stands `readAll`, which has all bytes at once. What ties them together is `Underway`: the messages
that have been read, under the times at which they began to arrive, and the bytes of the others that
are held. A piece that comes in keeps it (`Underway.intake`); so does a scan, which stops within a
message (`Underway.scan`).
-/
namespace Dialogue

/-! ## A direction that takes turns -/

inductive Turn where
  /-- The next bytes of the stream come in, captured at `time`. -/
  | bytes (bs : Bytes) (time : Nat)
  /-- What is held is read. -/
  | scan

/-- The stream that comes in. -/
def delivered : List Turn → Bytes
  | [] => []
  | .bytes bs _ :: turns => bs ++ delivered turns
  | .scan :: turns => delivered turns

/-- When the byte at place `p` of a stream that starts at `position` comes in. -/
def arrival? (position : Nat) : List Turn → Nat → Option Nat
  | [], _ => none
  | .bytes bs time :: turns, p =>
    if position ≤ p ∧ p < position + bs.length then some time
    else arrival? (position + bs.length) turns p
  | .scan :: turns, p => arrival? position turns p

/-- One direction with what has been read of it. -/
structure Intake (d : Dialect) where
  flow : Flow
  conversation : Conversation d
  /-- The place of the next byte to come in. -/
  next : Nat
  /-- What each scan has found. -/
  findings : List Findings := []

namespace Intake

variable {d : Dialect}

/-- A direction whose stream starts at `position`. -/
def fresh (limits : Limits) (position : Nat) (c : Conversation d) : Intake d where
  flow := { reassembly := { limits := limits } }
  conversation := c
  next := position

def turn (dir : Direction) (patience : Nat) (i : Intake d) : Turn → Intake d
  | .bytes bs time =>
    { i with
      flow := { i.flow with reassembly := i.flow.reassembly.add ⟨i.next, time, bs⟩ }
      next := i.next + bs.length }
  | .scan =>
    let s := i.flow.scan dir patience i.conversation
    { i with
      flow := s.flow, conversation := s.conversation, findings := i.findings ++ [s.findings] }

def run (dir : Direction) (patience : Nat) (i : Intake d) (turns : List Turn) : Intake d :=
  turns.foldl (turn dir patience) i

end Intake

/-! ## Reading all bytes at once -/

/-- The frames read one behind the other from bytes that start at `position`, each with its place,
and what is remembered then. -/
def readAll (d : Dialect) (dir : Direction) (position : Nat) (σ : d.State) (bs : Bytes) :
    List (Nat × d.Frame) × d.State :=
  if hbs : bs = [] then ([], σ)
  else
    match d.parse dir σ bs with
    | (.complete frame n, σ') =>
      if hn : n = 0 then ([], σ')
      else
        have : (bs.drop n).length < bs.length := by
          have := List.length_pos_of_ne_nil hbs
          rw [List.length_drop]
          omega
        let later := readAll d dir (position + n) σ' (bs.drop n)
        ((position, frame) :: later.1, later.2)
    | (_, σ') => ([], σ')
termination_by bs.length

/-- Each message is read as one frame that takes up all of it, in the state in which those before it
have left the dialect. -/
def Spells (d : Dialect) (dir : Direction) : d.State → List Bytes → Prop
  | _, [] => True
  | σ, m :: ms =>
    (∃ frame, (d.parse dir σ m).1 = .complete frame m.length) ∧ Spells d dir (d.parse dir σ m).2 ms

section
variable {d : Dialect} {dir : Direction} {σ σ' : d.State} {m : Bytes} {ms : List Bytes}

theorem Dialect.Delimited.parse_append (h : d.Delimited) {frame : d.Frame} {n : Nat}
    (parsed : (d.parse dir σ m).1 = .complete frame n) (tail : Bytes) :
    d.parse dir σ (m ++ tail) = d.parse dir σ m := by
  refine h.stable (fun _ more => ?_) tail
  rw [parsed] at more
  cases more

/-- A message of which something is missing is waited for. -/
theorem Dialect.Delimited.parse_cut (h : d.Delimited) {frame : d.Frame} {part : Bytes}
    (parsed : (d.parse dir σ m).1 = .complete frame m.length) (cut : part <+: m)
    (short : part.length < m.length) : ∃ k, d.parse dir σ part = (.needMore k, σ) := by
  have more : ∃ k, (d.parse dir σ part).1 = .needMore k := by
    by_contra none
    obtain ⟨tail, rfl⟩ := cut
    have same := h.stable (fun k hk => none ⟨k, hk⟩) tail
    rw [same] at parsed
    have := (h.bounded parsed).2
    omega
  obtain ⟨k, hk⟩ := more
  exact ⟨k, Prod.ext hk (h.idle hk)⟩

end

/-- Messages from `position` on are read to frames, each stamped with the time `T` gives for its
first byte. -/
inductive Reads (d : Dialect) (dir : Direction) (T : Nat → Option Nat) :
    Nat → d.State → List Bytes → List (Stamped d.Frame) → d.State → Prop where
  | nil (position : Nat) (σ : d.State) : Reads d dir T position σ [] [] σ
  | cons {position : Nat} {σ σ' : d.State} {m : Bytes} {ms : List Bytes} {f : Stamped d.Frame}
      {fs : List (Stamped d.Frame)}
      (parsed : (d.parse dir σ m).1 = .complete f.value m.length)
      (stamped : T position = some f.time)
      (later : Reads d dir T (position + m.length) (d.parse dir σ m).2 ms fs σ') :
      Reads d dir T position σ (m :: ms) (f :: fs) σ'

namespace Reads

variable {d : Dialect} {dir : Direction} {T : Nat → Option Nat} {position : Nat} {σ σ' : d.State}
  {m : Bytes} {ms : List Bytes} {f : Stamped d.Frame} {fs : List (Stamped d.Frame)}

theorem concat (h : Reads d dir T position σ ms fs σ')
    (parsed : (d.parse dir σ' m).1 = .complete f.value m.length)
    (stamped : T (position + ms.flatten.length) = some f.time) :
    Reads d dir T position σ (ms ++ [m]) (fs ++ [f]) (d.parse dir σ' m).2 := by
  induction h with
  | nil position σ => exact .cons parsed stamped (.nil _ _)
  | cons parsed' stamped' _ ih =>
    refine .cons parsed' stamped' (ih parsed ?_)
    rwa [Nat.add_assoc, ← List.length_append, ← List.flatten_cons]

theorem length_eq (h : Reads d dir T position σ ms fs σ') : fs.length = ms.length := by
  induction h with
  | nil => rfl
  | cons _ _ _ ih => rw [List.length_cons, List.length_cons, ih]

/-- The messages one behind the other are read alike when all their bytes are there. -/
theorem readAll_eq (h : Reads d dir T position σ ms fs σ') (hd : d.Delimited) :
    (readAll d dir position σ ms.flatten).2 = σ' ∧
      List.Forall₂ (fun f x => T x.1 = some f.time ∧ f.value = x.2) fs
        (readAll d dir position σ ms.flatten).1 := by
  induction h with
  | nil position σ =>
    rw [List.flatten_nil, readAll, dif_pos rfl]
    exact ⟨rfl, .nil⟩
  | @cons position σ σ' m ms f fs parsed stamped _ ih =>
    have pos := (hd.bounded parsed).1
    have hne : (m :: ms).flatten ≠ [] := by
      rw [List.flatten_cons, ← List.length_pos_iff, List.length_append]
      omega
    have hparse : d.parse dir σ (m :: ms).flatten =
        (.complete f.value m.length, (d.parse dir σ m).2) := by
      rw [List.flatten_cons, hd.parse_append parsed]
      exact Prod.ext parsed rfl
    have hdrop : (m :: ms).flatten.drop m.length = ms.flatten := by
      rw [List.flatten_cons, List.drop_left]
    rw [readAll, dif_neg hne, hparse]
    dsimp only
    rw [dif_neg (by omega), hdrop]
    exact ⟨ih.1, .cons ⟨stamped, rfl⟩ ih.2⟩

end Reads

/-! ## What turns keep -/

/-- Nothing went wrong. -/
structure Findings.Clean (f : Findings) : Prop where
  errors : f.errors = 0
  resyncs : f.resyncs = 0
  skipped : f.skipped = 0

/-- The messages in `done` have been read and filed since the conversation `start`; the bytes of
those in `todo` are held in `run` or are still to come in `rest`. -/
structure Underway (d : Dialect) (dir : Direction) (limits : Limits) (T : Nat → Option Nat)
    (position : Nat) (start : Conversation d) (done todo : List Bytes)
    (frames : List (Stamped d.Frame)) (run rest : Bytes) (c : Conversation d) (r : Reassembly) :
    Prop where
  reads : Reads d dir T position start.state done frames c.state
  filed : c.backlog = frames.foldl (fun b f => b.push (d.key f.value) dir f) start.backlog
  spells : Spells d dir c.state todo
  bytes : run ++ rest = todo.flatten
  holding : r.Holding limits T (position + done.flatten.length + run.length) run

namespace Underway

variable {d : Dialect} {dir : Direction} {limits : Limits} {T : Nat → Option Nat} {position : Nat}
  {start c : Conversation d} {done todo : List Bytes} {frames : List (Stamped d.Frame)}
  {run rest m : Bytes} {ms : List Bytes} {r : Reassembly}

/-- The first message that has not been read, if all of it is held. -/
theorem take (h : Underway d dir limits T position start done (m :: ms) frames run rest c r)
    (hd : d.Delimited) (whole : m.length ≤ run.length) :
    ∃ frame, d.parse dir c.state run = (.complete frame m.length, (d.parse dir c.state m).2) ∧
      m.length ≠ 0 ∧
      Underway d dir limits T position start (done ++ [m]) ms (frames ++ [⟨r.headTime, frame⟩])
        (run.drop m.length) rest
        (Conversation.push { c with state := (d.parse dir c.state m).2 } dir ⟨r.headTime, frame⟩)
        (r.consume m.length) := by
  obtain ⟨⟨frame, parsed⟩, spells⟩ := h.spells
  have pos := (hd.bounded parsed).1
  have hbytes : run ++ rest = m ++ ms.flatten := h.bytes
  obtain ⟨held, rfl⟩ : m <+: run := List.prefix_of_prefix_length_le ⟨_, hbytes.symm⟩ ⟨_, rfl⟩ whole
  refine ⟨frame, (hd.parse_append parsed held).trans (Prod.ext parsed rfl), by omega, ?_⟩
  have filled : m ++ held ≠ [] := by
    rw [← List.length_pos_iff, List.length_append]
    omega
  have hposition := h.holding.position filled
  refine ⟨?_, ?_, spells, ?_, ?_⟩
  · -- The head stands at the first byte of the message.
    refine h.reads.concat (f := ⟨r.headTime, frame⟩) parsed ?_
    rw [← h.holding.stamped filled]
    congr 1
    omega
  · rw [List.foldl_append, ← h.filed]
    rfl
  · rw [List.drop_left]
    exact List.append_cancel_left ((List.append_assoc ..).symm.trans hbytes)
  · have consumed := h.holding.consume m.length
    rw [List.drop_left] at consumed ⊢
    convert consumed using 1
    simp only [List.flatten_append, List.flatten_cons, List.flatten_nil, List.append_nil,
      List.length_append]
    omega

/-- A message of which something is missing. -/
theorem cut (h : Underway d dir limits T position start done (m :: ms) frames run rest c r)
    (hd : d.Delimited) (short : run.length < m.length) :
    ∃ k, d.parse dir c.state run = (.needMore k, c.state) := by
  obtain ⟨⟨frame, parsed⟩, -⟩ := h.spells
  have hbytes : run ++ rest = m ++ ms.flatten := h.bytes
  exact hd.parse_cut parsed
    (List.prefix_of_prefix_length_le ⟨_, rfl⟩ ⟨_, hbytes.symm⟩ (Nat.le_of_lt short)) short

/-- A scan reads every message that is there, and stops within the next one. -/
theorem scan {s : Flow.Scan d} (patience : Nat)
    (h : Underway d dir limits T position start done todo frames run rest s.conversation
      s.flow.reassembly) (hd : d.Delimited) (clean : s.findings.Clean) :
    (s.run dir patience).findings.Clean ∧
      ∃ done' todo' frames' run', done' ++ todo' = done ++ todo ∧
        Underway d dir limits T position start done' todo' frames' run' rest
          (s.run dir patience).conversation (s.run dir patience).flow.reassembly ∧
        (rest = [] → todo' = []) := by
  -- by induction on the messages that are left: a step reads the first of them or ends the scan
  induction todo generalizing done frames run s with
  | nil =>
    obtain ⟨rfl, rfl⟩ : run = [] ∧ rest = [] := List.append_eq_nil_iff.1 h.bytes
    have ended : s.step dir patience = .done s := by
      rw [Flow.Scan.step, if_pos (by rw [h.holding.run]; rfl)]
    rw [Flow.Scan.run_of_done ended]
    exact ⟨clean, done, [], frames, [], rfl, h, fun _ => rfl⟩
  | cons m ms ih =>
    by_cases whole : m.length ≤ run.length
    · obtain ⟨frame, parsed, pos, taken⟩ := h.take hd whole
      have filled : ¬ s.flow.reassembly.run.isEmpty = true := by
        rw [h.holding.run, List.isEmpty_iff, ← List.length_eq_zero_iff]
        omega
      let t := (s.learn (d.parse dir s.conversation.state m).2).take dir frame m.length
      have more : s.step dir patience = .more t := by
        rw [Flow.Scan.step, if_neg filled, h.holding.run, parsed]
        exact if_neg pos
      rw [Flow.Scan.run_of_more more]
      have later := ih (s := t) taken ⟨clean.errors, clean.resyncs, clean.skipped⟩
      rwa [List.append_assoc] at later
    · -- What is held cannot be all, or the first message would be there.
      have missing : rest ≠ [] := by
        rintro rfl
        have := congrArg List.length h.bytes
        simp only [List.append_nil, List.flatten_cons, List.length_append] at this
        omega
      have ended : s.step dir patience = .done s := by
        rw [Flow.Scan.step]
        split
        · rfl
        · obtain ⟨k, parsed⟩ := h.cut hd (Nat.not_le.1 whole)
          rw [h.holding.run, parsed]
          refine (if_neg ?_).trans rfl
          simp [Flow.Scan.learn, Reassembly.endsAtGap, h.holding.whole]
      rw [Flow.Scan.run_of_done ended]
      exact ⟨clean, done, m :: ms, frames, run, rfl, h, fun none => absurd none missing⟩

/-- The next bytes come in. -/
theorem intake (h : Underway d dir limits T position start done todo frames run rest c r)
    {bs later : Bytes} (time : Nat) (next : rest = bs ++ later)
    (fits : (done ++ todo).flatten.length ≤ limits.capacity)
    (timed : ∀ p, position + done.flatten.length + run.length ≤ p →
      p < position + done.flatten.length + run.length + bs.length → T p = some time) :
    Underway d dir limits T position start done todo frames (run ++ bs) later c
      (r.add ⟨position + done.flatten.length + run.length, time, bs⟩) where
  reads := h.reads
  filed := h.filed
  spells := h.spells
  bytes := by rw [← h.bytes, next, List.append_assoc]
  holding := by
    have hbytes := congrArg List.length h.bytes
    rw [next] at hbytes
    simp only [List.flatten_append, List.length_append] at hbytes fits
    have held := h.holding.add bs time (by omega) timed
    rwa [Nat.add_assoc _ run.length, ← List.length_append] at held

/-- As many bytes have come in as those of the messages read and those held. -/
theorem length_eq {done' todo' : List Bytes} {frames' : List (Stamped d.Frame)} {run' : Bytes}
    {c' : Conversation d} {r' : Reassembly}
    (h : Underway d dir limits T position start done todo frames run rest c r)
    (h' : Underway d dir limits T position start done' todo' frames' run' rest c' r')
    (same : done' ++ todo' = done ++ todo) :
    done'.flatten.length + run'.length = done.flatten.length + run.length := by
  have hbytes := congrArg List.length h.bytes
  have hbytes' := congrArg List.length h'.bytes
  have hall := congrArg (fun ms => ms.flatten.length) same
  simp only [List.flatten_append, List.length_append] at hbytes hbytes' hall
  omega

/-- Whatever turns are taken until all bytes are there, all messages are read then. -/
theorem turns {turns : List Turn} {i : Intake d} (patience : Nat)
    (h : Underway d dir limits T position start done todo frames run (delivered turns)
      i.conversation i.flow.reassembly)
    (hd : d.Delimited) (next : i.next = position + done.flatten.length + run.length)
    (fits : (done ++ todo).flatten.length ≤ limits.capacity)
    (timed : ∀ p, i.next ≤ p → p < i.next + (delivered turns).length →
      T p = arrival? i.next turns p)
    (clean : ∀ f ∈ i.findings, f.Clean) :
    (∀ f ∈ (i.run dir patience (turns ++ [.scan])).findings, f.Clean) ∧
      ∃ frames', Underway d dir limits T position start (done ++ todo) [] frames' [] []
        (i.run dir patience (turns ++ [.scan])).conversation
        (i.run dir patience (turns ++ [.scan])).flow.reassembly := by
  induction turns generalizing done todo frames run i with
  | nil =>
    let s : Flow.Scan d := { flow := i.flow, conversation := i.conversation }
    obtain ⟨found, done', todo', frames', run', same, later, ended⟩ :=
      h.scan (s := s) patience hd ⟨rfl, rfl, rfl⟩
    refine ⟨?_, frames', ?_⟩
    · intro f hf
      rcases List.mem_append.1 hf with hf | hf
      · exact clean f hf
      · rwa [List.mem_singleton.1 hf]
    · obtain rfl := ended rfl
      obtain ⟨rfl, -⟩ : run' = [] ∧ _ := List.append_eq_nil_iff.1 later.bytes
      rw [← same, List.append_nil]
      exact later
  | cons t turns ih =>
    cases t with
    | bytes bs time =>
      have hlength : (delivered (.bytes bs time :: turns)).length
          = bs.length + (delivered turns).length := List.length_append
      have came := h.intake time rfl fits fun p from_le lt => by
        rw [timed p (by omega) (by omega), arrival?, if_pos (by omega)]
      rw [← next] at came
      refine ih (i := i.turn dir patience (.bytes bs time)) came ?_ fits ?_ clean
      · show i.next + bs.length = _
        rw [next, List.length_append, Nat.add_assoc]
      · intro p from_le lt
        change i.next + bs.length ≤ p at from_le
        change p < i.next + bs.length + _ at lt
        rw [timed p (by omega) (by omega), arrival?, if_neg (by omega)]
        rfl
    | scan =>
      let s : Flow.Scan d := { flow := i.flow, conversation := i.conversation }
      obtain ⟨found, done', todo', frames', run', same, later, -⟩ :=
        h.scan (s := s) patience hd ⟨rfl, rfl, rfl⟩
      have hlength := h.length_eq later same
      rw [← same]
      rw [← same] at fits
      refine ih (i := i.turn dir patience .scan) later ?_ fits timed ?_
      · show i.next = _
        omega
      · intro f hf
        rcases List.mem_append.1 hf with hf | hf
        · exact clean f hf
        · rwa [List.mem_singleton.1 hf]

end Underway

/-! ## Every protocol whose frames say where they end -/

/-- The protocols whose frames say where they end. -/
def Protocol.delimiting : List Protocol := [.pgsql, .cql, .amqp, .mysql, .kafka, .mux, .http2, .dns]

theorem Protocol.delimited {p : Protocol} (h : p ∈ delimiting) (libraries : Libraries) :
    (p.dialect libraries).Delimited := by
  simp only [delimiting, List.mem_cons, List.not_mem_nil, or_false] at h
  rcases h with rfl | rfl | rfl | rfl | rfl | rfl | rfl | rfl
  · exact Postgres.delimited
  · exact Cql.delimited
  · exact Amqp.delimited
  · exact Mysql.delimited
  · exact Kafka.delimited
  · exact Mux.delimited
  · exact Http2.delimited libraries.headers
  · exact Dns.delimited

/-- **Reading bytes as they arrive comes to the same as reading them all at once**, for any library
that decompresses header blocks and from any state. Let a stream that spells messages come in order,
cut anywhere and with scans anywhere between the pieces. After a last scan the frames of the whole
stream have been filed, each under the time at which its first byte came in, the dialect remembers
what it would then, and no scan has found anything wrong. -/
theorem Intake.run_eq_readAll {p : Protocol} (hp : p ∈ Protocol.delimiting) (libraries : Libraries)
    (dir : Direction) (limits : Limits) (patience position : Nat)
    (c : Conversation (p.dialect libraries)) {ms : List Bytes}
    (spells : Spells (p.dialect libraries) dir c.state ms) {turns : List Turn}
    (delivers : delivered turns = ms.flatten) (fits : ms.flatten.length ≤ limits.capacity) :
    let d := p.dialect libraries
    let whole := readAll d dir position c.state ms.flatten
    let i := (fresh limits position c).run dir patience (turns ++ [.scan])
    whole.1.length = ms.length ∧ i.conversation.state = whole.2 ∧
      (∃ frames : List (Stamped d.Frame),
        List.Forall₂ (fun f x => arrival? position turns x.1 = some f.time ∧ f.value = x.2)
          frames whole.1 ∧
        i.conversation.backlog =
          frames.foldl (fun b f => b.push (d.key f.value) dir f) c.backlog) ∧
      ∀ f ∈ i.findings, f.errors = 0 ∧ f.resyncs = 0 ∧ f.skipped = 0 := by
  intro d whole i
  have hd : d.Delimited := Protocol.delimited hp libraries
  have start : Underway d dir limits (arrival? position turns) position c [] ms [] []
      (delivered turns) (fresh limits position c).conversation
      (fresh limits position c).flow.reassembly :=
    ⟨.nil _ _, rfl, spells, delivers, .fresh _ _ _⟩
  obtain ⟨clean, frames, ended⟩ := start.turns patience hd rfl fits
    (fun _ _ _ => rfl) nofun
  obtain ⟨state, same⟩ := ended.reads.readAll_eq hd
  refine ⟨same.length_eq.symm.trans ended.reads.length_eq, state.symm,
    ⟨frames, same, ended.filed⟩, fun f hf => ?_⟩
  have found := clean f hf
  exact ⟨found.errors, found.resyncs, found.skipped⟩

/-- Two pings. -/
def pings : List Bytes := [[0, 0, 0, 4, 65, 0, 0, 1], [0, 0, 0, 4, 65, 0, 0, 2]]

/-- Both pings, cut within the headers; the second one begins to come in at 20. -/
def pingTurns : List Turn :=
  [.bytes [0, 0] 10, .scan, .bytes [0, 4, 65, 0, 0, 1, 0] 20, .scan,
    .bytes [0, 0, 4, 65, 0, 0, 2] 30]

theorem Intake.run_eq_readAll_pings :
    let whole := readAll Mux.dialect .request 100 () pings.flatten
    let i := (fresh {} 100 ({} : Conversation Mux.dialect)).run .request 3 (pingTurns ++ [.scan])
    arrival? 100 pingTurns 108 = some 20 ∧
      whole.1.length = 2 ∧ i.conversation.state = whole.2 ∧
      (∃ frames : List (Stamped Mux.Message),
        List.Forall₂ (fun f x => arrival? 100 pingTurns x.1 = some f.time ∧ f.value = x.2)
          frames whole.1 ∧
        i.conversation.backlog =
          frames.foldl (fun b f => Backlog.push b f.value.tag .request f) []) ∧
      ∀ f ∈ i.findings, f.errors = 0 ∧ f.resyncs = 0 ∧ f.skipped = 0 := by
  intro whole i
  have spells : Spells Mux.dialect .request () pings :=
    ⟨⟨⟨.tping, 1, []⟩, rfl⟩, ⟨⟨.tping, 2, []⟩, rfl⟩, trivial⟩
  have delivers : delivered pingTurns = pings.flatten := rfl
  exact ⟨by decide,
    run_eq_readAll (p := .mux) (by decide) {} .request {} 3 100 {} spells delivers (by decide)⟩

end Dialogue
