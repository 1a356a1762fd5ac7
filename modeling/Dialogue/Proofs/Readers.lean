import Mathlib
import Dialogue.Dialects
import Dialogue.Proofs.Announced
import Dialogue.Proofs.Http
import Dialogue.Proofs.Intake
import Dialogue.Proofs.Lines

/-!
What holds of the readers of every protocol.

All of them keep the `Contract`, whatever the libraries, provided that the heads of HTTP/1 are read
by a settled reader. So what is shown of connections and scans under its terms holds of every
protocol. Those whose frames say where they end are `CutSafe` besides: a frame is the same whatever
follows it, and any piece of it is waited for.
-/
namespace Dialogue

/-- The rules of a protocol keep the contract; those of HTTP/1 do if heads are read as they
should. -/
theorem Protocol.contract (p : Protocol) {libraries : Libraries}
    (settled : p = .http → libraries.heads.Settled) :
    Contract (p.dialect libraries).size (p.dialect libraries).parse := by
  cases p with
  | pgsql => exact Postgres.contract
  | cql => exact Cql.contract
  | amqp => exact Amqp.contract
  | nats => exact Nats.contract
  | mysql => exact Mysql.contract
  | kafka => exact Kafka.contract
  | redis => exact Redis.contract
  | dns => exact Dns.contract
  | http => exact Http.contract (settled rfl)
  | http2 => exact Http2.Frame.contract_parse _
  | mux => exact Mux.contract

/-- **Every reader keeps the contract**: that of each protocol, whatever the libraries, that of
HTTP/2 with any decoder of header blocks, and that of HTTP/1 with any settled reader of heads. -/
theorem Protocol.keeps_contract :
    (∀ (p : Protocol) (libraries : Libraries), (p = .http → libraries.heads.Settled) →
        Contract (p.dialect libraries).size (p.dialect libraries).parse) ∧
      (∀ (Table : Type) (decode : Http2.Decoder Table),
        Contract Http2.Frame.length (Http2.Frame.parse decode)) ∧
      ∀ read : Http.HeadReader, read.Settled →
        Contract Http.Message.length (Http.Message.parse read) :=
  ⟨fun p _ => p.contract, fun _ => Http2.Frame.contract_parse,
    fun _ => Http.Message.contract_parse⟩

/-- A request whose body has not come in whole. -/
def post : Bytes := ascii "POST / HTTP/1.1\r\nContent-Length: 5\r\n\r\nab"

theorem Protocol.keeps_contract_post :
    Http.HeadReader.Settled Http.Head.read ∧
      (Http.Message.parse Http.Head.read .request [] post).1 = .needMore (some 43) ∧
      post.length < 43 ∧
      ∀ tail, (post ++ tail).length < 43 → ∀ frame n,
        (Http.Message.parse Http.Head.read .request [] (post ++ tail)).1 ≠ .complete frame n := by
  have settled := Http.Head.settled_read
  have waits : (Http.Message.parse Http.Head.read .request [] post).1 = .needMore (some 43) := by
    decide +kernel
  have keeps := keeps_contract.2.2 Http.Head.read settled
  exact ⟨settled, waits, keeps.ahead (by decide +kernel) waits, fun tail => keeps.short waits⟩

/-- Every search for a frame looks through the bytes from the given position on. -/
theorem Protocol.boundary_bounds (p : Protocol) {libraries : Libraries} (dir : Direction)
    (σ : (p.dialect libraries).State) {bs : Bytes} {start q : Nat}
    (h : (p.dialect libraries).boundary dir σ bs start = some q) : start ≤ q ∧ q < bs.length := by
  cases p <;> exact Boundary.find_bounds h

section
variable (p : Protocol) {libraries : Libraries} (settled : p = .http → libraries.heads.Settled)
  (dir : Direction)
include settled

theorem Protocol.idle : (p.dialect libraries).Idle dir := fun _ _ => (p.contract settled).idle

theorem Protocol.measured : (p.dialect libraries).Measured dir where
  whole := (p.contract settled).whole
  within := p.boundary_bounds dir _

end

/-- The rules that are run keep to what a scan needs. -/
theorem Protocol.measured_run (p : Protocol) (dir : Direction) : p.dialect.Measured dir :=
  p.measured (fun _ => Http.Head.settled_read) dir

/-! ## Cuts -/

/-- A frame is the same whatever follows it, and any piece of it is waited for. -/
structure CutSafe {S F : Type} (parse : Direction → S → Bytes → Parsed F × S) : Prop where
  extended : ∀ {dir : Direction} {σ : S} {bs : Bytes} {frame : F} {n : Nat},
    (parse dir σ bs).1 = .complete frame n → ∀ tail, parse dir σ (bs ++ tail) = parse dir σ bs
  cut : ∀ {dir : Direction} {σ : S} {bs : Bytes} {frame : F} {n : Nat},
    (parse dir σ bs).1 = .complete frame n → ∀ part, part <+: bs → part.length < n →
      ∃ minimum, parse dir σ part = (.needMore minimum, σ) ∧ ∀ m, minimum = some m → m ≤ n

theorem CutSafe.of_frames {S F : Type} {size : F → Nat}
    {parse : Direction → S → Bytes → Parsed F × S}
    (frames : ∀ dir σ, Frames size fun bs => (parse dir σ bs).1)
    (stable : ∀ {dir σ bs}, (∀ m, (parse dir σ bs).1 ≠ .needMore m) →
      ∀ tail, parse dir σ (bs ++ tail) = parse dir σ bs)
    (idle : ∀ {dir σ bs m}, (parse dir σ bs).1 = .needMore m → (parse dir σ bs).2 = σ) :
    CutSafe parse where
  extended := by
    intro dir σ bs frame n complete
    refine stable fun m => ?_
    rw [complete]
    exact nofun
  cut := by
    rintro dir σ _ frame n complete part ⟨tail, rfl⟩ short
    cases outcome : (parse dir σ part).1 with
    | needMore minimum =>
      refine ⟨minimum, Prod.ext outcome (idle outcome), ?_⟩
      rintro m rfl
      exact (frames dir σ).least outcome complete
    | complete other k =>
      -- The frame would be the same one, but the piece is too short for it.
      rw [stable (by rw [outcome]; exact nofun) tail, outcome] at complete
      obtain ⟨-, rfl⟩ := Parsed.complete.inj complete
      exact absurd ((frames dir σ).whole outcome).2.1 (Nat.not_le.2 short)
    | invalid reason =>
      rw [stable (by rw [outcome]; exact nofun) tail, outcome] at complete
      cases complete

theorem Protocol.frames {p : Protocol} (h : p ∈ delimiting) {libraries : Libraries}
    (dir : Direction) (σ : (p.dialect libraries).State) :
    Frames (p.dialect libraries).size fun bs => ((p.dialect libraries).parse dir σ bs).1 := by
  simp only [delimiting, List.mem_cons, List.not_mem_nil, or_false] at h
  rcases h with rfl | rfl | rfl | rfl | rfl | rfl | rfl | rfl
  · exact Postgres.Message.frames_parse dir
  · exact (Cql.Frame.announced_parse dir).frames
  · exact Amqp.Frame.frames_parse
  · exact (Mysql.Packet.announced_parse dir).frames
  · exact Kafka.frames dir σ
  · exact Mux.Message.announced_parse.frames
  · exact Http2.Frame.frames_parse _ dir σ
  · exact Dns.Message.frames_parse dir

/-- **Frames that say where they end are safe to cut**, for each of these protocols, whatever the
libraries, and for HTTP/2 with any decoder of header blocks. -/
theorem Protocol.cut_safe :
    (∀ p ∈ delimiting, ∀ libraries : Libraries, CutSafe (p.dialect libraries).parse) ∧
      ∀ (Table : Type) (decode : Http2.Decoder Table), CutSafe (Http2.Frame.parse decode) := by
  refine ⟨fun p h libraries => ?_, fun Table decode => ?_⟩
  · have delimited := Protocol.delimited h libraries
    exact .of_frames (Protocol.frames h) delimited.stable delimited.idle
  · exact .of_frames (Http2.Frame.frames_parse decode) (Http2.Frame.parse_append decode _ _)
      (Http2.Frame.idle_parse decode _ _)

/-- A ping with the first byte of another message behind it. -/
def pingAndMore : Bytes := [0, 0, 0, 4, 65, 0, 0, 1, 0]

theorem Protocol.cut_safe_ping :
    .mux ∈ delimiting ∧
      Mux.dialect.parse .request () pingAndMore = (.complete ⟨.tping, 1, []⟩ 8, ()) ∧
      (∀ tail, Mux.dialect.parse .request () (pingAndMore ++ tail) =
        Mux.dialect.parse .request () pingAndMore) ∧
      ∃ minimum, Mux.dialect.parse .request () (pingAndMore.take 5) = (.needMore minimum, ()) ∧
        ∀ m, minimum = some m → m ≤ 8 := by
  have safe : CutSafe Mux.dialect.parse := cut_safe.1 .mux (by decide) {}
  have read : (Mux.dialect.parse .request () pingAndMore).1 = .complete ⟨.tping, 1, []⟩ 8 := rfl
  exact ⟨by decide, rfl, safe.extended read,
    safe.cut read (pingAndMore.take 5) (List.take_prefix 5 _) (by decide)⟩

end Dialogue
