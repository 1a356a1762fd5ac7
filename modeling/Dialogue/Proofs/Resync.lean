import Mathlib
import Dialogue.Proofs.Connection
import Dialogue.Proofs.Draining
import Dialogue.Proofs.Pairing
import Dialogue.Proofs.Wire

/-!
Where a scan goes on after bytes that could not be read.

The search for a frame and the reader of frames are written apart. A search is `Boundary.find` for a
test of the bytes from a position on (`Protocol.accepts`), and for each protocol `…_iff` says what
this test comes to in terms of the reader: that a whole frame can be read there, and what is asked
of it besides. For Kafka this rests on the memory of the dialect, which holds only identifiers that
a response may have; the memories that a connection can come to are `Dialect.Reached`. A scan that
has skipped bytes therefore reads a frame at its next look (`Protocol.resync_lands`).
-/
namespace Dialogue

/-! ## The search -/

namespace Boundary

variable {accept : Bytes → Bool} {start position p : Nat} {bs : Bytes}

theorem findFrom_eq_some_iff : findFrom accept position bs = some p ↔
    position ≤ p ∧ p < position + bs.length ∧ accept (bs.drop (p - position)) = true ∧
      ∀ k, position ≤ k → k < p → accept (bs.drop (k - position)) = false := by
  induction bs generalizing position with
  | nil =>
    simp only [findFrom, List.length_nil, reduceCtorEq, false_iff]
    omega
  | cons b rest ih =>
    have behind : ∀ {k}, position < k →
        (b :: rest).drop (k - position) = rest.drop (k - (position + 1)) := by
      intro k lt
      obtain ⟨m, rfl⟩ : ∃ m, k = position + 1 + m := ⟨k - (position + 1), by omega⟩
      rw [show position + 1 + m - position = m + 1 by omega, Nat.add_sub_cancel_left]
      rfl
    rw [findFrom, List.length_cons]
    cases here : accept (b :: rest) with
    | true =>
      rw [if_pos rfl, Option.some.injEq]
      constructor
      · rintro rfl
        rw [Nat.sub_self]
        exact ⟨Nat.le_refl _, by omega, here, fun k le lt => absurd lt (Nat.not_lt.2 le)⟩
      · rintro ⟨le, -, -, before⟩
        by_contra ne
        have first := before position (Nat.le_refl _) (by omega)
        rw [Nat.sub_self, List.drop_zero, here] at first
        cases first
    | false =>
      rw [if_neg Bool.false_ne_true, ih]
      constructor
      · rintro ⟨le, lt, found, before⟩
        refine ⟨by omega, by omega, by rw [behind le, found], fun k le' lt' => ?_⟩
        rcases Nat.eq_or_lt_of_le le' with rfl | later
        · rw [Nat.sub_self, List.drop_zero, here]
        · rw [behind later, before k later lt']
      · rintro ⟨le, lt, found, before⟩
        have later : position < p := by
          refine Nat.lt_of_le_of_ne le ?_
          rintro rfl
          rw [Nat.sub_self, List.drop_zero, here] at found
          cases found
        refine ⟨later, by omega, by rw [← behind later, found], fun k le' lt' => ?_⟩
        rw [← behind le', before k (by omega) lt']

/-- A search gives the first position whose suffix is accepted. -/
theorem find_eq_some_iff : find accept start bs = some p ↔
    start ≤ p ∧ p < bs.length ∧ accept (bs.drop p) = true ∧
      ∀ k, start ≤ k → k < p → accept (bs.drop k) = false := by
  have suffix : ∀ {k}, start ≤ k → (bs.drop start).drop (k - start) = bs.drop k := by
    intro k le
    rw [List.drop_drop, Nat.add_sub_cancel' le]
  rw [find, findFrom_eq_some_iff, List.length_drop]
  constructor
  · rintro ⟨le, lt, found, before⟩
    refine ⟨le, by omega, by rwa [suffix le] at found, fun k le' lt' => ?_⟩
    rw [← suffix le', before k le' lt']
  · rintro ⟨le, lt, found, before⟩
    refine ⟨le, by omega, by rwa [suffix le], fun k le' lt' => ?_⟩
    rw [suffix le', before k le' lt']

/-- A search that finds nothing has seen no suffix that is accepted. -/
theorem find_eq_none_iff : find accept start bs = none ↔
    ∀ k, start ≤ k → k < bs.length → accept (bs.drop k) = false := by
  constructor
  · intro none k le lt
    by_contra found
    rw [Bool.not_eq_false] at found
    -- Of the positions that are accepted, the search would have found the first.
    have ex : ∃ k, start ≤ k ∧ k < bs.length ∧ accept (bs.drop k) = true := ⟨k, le, lt, found⟩
    classical
    obtain ⟨le, lt, found⟩ := Nat.find_spec ex
    have first : find accept start bs = some (Nat.find ex) := by
      refine find_eq_some_iff.2 ⟨le, lt, found, fun j le' lt' => ?_⟩
      have earlier := Nat.find_min ex lt'
      rw [not_and, not_and, Bool.not_eq_true] at earlier
      exact earlier le' (by omega)
    rw [none] at first
    cases first
  · intro never
    cases found : find accept start bs with
    | none => rfl
    | some p =>
      obtain ⟨le, lt, accepted, -⟩ := find_eq_some_iff.1 found
      rw [never p le lt] at accepted
      cases accepted

theorem find_eq_some_iff_isLeast (empty : accept [] = false) :
    find accept start bs = some p ↔ IsLeast {k | start ≤ k ∧ accept (bs.drop k) = true} p := by
  rw [find_eq_some_iff]
  constructor
  · rintro ⟨le, -, found, before⟩
    refine ⟨⟨le, found⟩, ?_⟩
    rintro k ⟨le', accepted⟩
    by_contra earlier
    rw [before k le' (by omega)] at accepted
    cases accepted
  · rintro ⟨⟨le, found⟩, least⟩
    refine ⟨le, ?_, found, fun k le' lt => ?_⟩
    · by_contra past
      rw [List.drop_of_length_le (by omega), empty] at found
      cases found
    · by_contra accepted
      rw [Bool.not_eq_false] at accepted
      exact absurd (least ⟨le', accepted⟩) (Nat.not_le.2 lt)

theorem find_eq_none_iff_forall (empty : accept [] = false) :
    find accept start bs = none ↔ ∀ k, start ≤ k → accept (bs.drop k) = false := by
  rw [find_eq_none_iff]
  constructor
  · intro never k le
    by_cases lt : k < bs.length
    · exact never k le lt
    · rw [List.drop_of_length_le (by omega), empty]
  · exact fun never k le _ => never k le

end Boundary

/-! ## What the tests come to -/

namespace Parsed

variable {F : Type}

theorem isComplete_iff {parsed : Parsed F} :
    parsed.isComplete = true ↔ ∃ frame n, parsed = .complete frame n := by
  cases parsed <;> simp [isComplete]

end Parsed

namespace Postgres.Message

/-- The test asks for a tagged message that can be read, and for a tag behind it. -/
theorem credible_iff {dir : Direction} {bs : Bytes} : credible dir bs = true ↔
    ∃ m n, parse dir bs = .complete m n ∧ m.tag ≠ Tag.startup ∧
      (bs.drop n).head?.all (Tag.known dir).contains = true := by
  constructor
  · intro accepted
    unfold credible at accepted
    split at accepted
    · cases accepted
    · next length believed =>
      rw [Bool.and_eq_true] at accepted
      obtain ⟨whole, next⟩ := accepted
      unfold length? at believed
      split at believed
      · next tag l₃ l₂ l₁ l₀ rest =>
        dsimp only at believed
        split_ifs at believed with range
        obtain rfl := Option.some.inj believed
        obtain ⟨known, range⟩ := range
        have tagged : tag ≠ Tag.startup := ne_startup_of_known (by simpa using known)
        have fits : atLeast (bigEndian [l₃, l₂, l₁, l₀] - 4) rest = true := by
          rw [atLeast_iff] at whole ⊢
          simp only [List.length_cons] at whole
          omega
        refine ⟨⟨tag, rest.take (bigEndian [l₃, l₂, l₁, l₀] - 4)⟩, _, ?_, tagged, next⟩
        have out : ¬ (bigEndian [l₃, l₂, l₁, l₀] < 4 ∨
            maxLength < bigEndian [l₃, l₂, l₁, l₀]) := by omega
        rw [parse, if_neg (by rintro ⟨-, same⟩; exact tagged (Option.some.inj same)), parseTagged]
        rw [known, if_neg (by decide), if_neg out, if_pos fits]
      · cases believed
  · rintro ⟨m, n, parsed, tagged, next⟩
    rw [parse] at parsed
    split_ifs at parsed with opens
    · unfold parseStartup at parsed
      split at parsed
      · next l₃ l₂ l₁ l₀ c₃ c₂ c₁ c₀ rest =>
        dsimp only at parsed
        split_ifs at parsed
        obtain ⟨rfl, -⟩ := Parsed.complete.inj parsed
        exact absurd rfl tagged
      · cases parsed
    · unfold parseTagged at parsed
      split at parsed
      · next tag l₃ l₂ l₁ l₀ rest =>
        dsimp only at parsed
        split_ifs at parsed with unknown range whole
        obtain ⟨rfl, rfl⟩ := Parsed.complete.inj parsed
        have known : (Tag.known dir).contains tag = true := by simpa using unknown
        have believed : length? dir (tag :: l₃ :: l₂ :: l₁ :: l₀ :: rest) =
            some (bigEndian [l₃, l₂, l₁, l₀]) := if_pos ⟨known, by omega⟩
        rw [credible, believed]
        dsimp only
        rw [Bool.and_eq_true]
        refine ⟨?_, next⟩
        rw [atLeast_iff] at whole ⊢
        simp only [List.length_cons]
        omega
      · cases parsed

end Postgres.Message

namespace Cql.Frame

/-- The test asks for nothing but a frame that can be read. -/
theorem fits_eq (dir : Direction) (bs : Bytes) : fits dir bs = (parse dir bs).isComplete := by
  unfold fits parse
  split
  · next first flags s₁ s₀ code l₃ l₂ l₁ l₀ rest =>
    dsimp only
    cases checkHeader dir first code (bigEndian [l₃, l₂, l₁, l₀]) with
    | error reason => rfl
    | ok opcode => cases atLeast (bigEndian [l₃, l₂, l₁, l₀]) rest <;> rfl
  · rfl

end Cql.Frame

namespace Mysql.Packet

/-- The test asks for a packet that can be read and starts a sequence. -/
theorem starts_iff {dir : Direction} {bs : Bytes} : starts dir bs = true ↔
    ∃ p n, parse dir bs = .complete p n ∧ p.sequence = firstSequence dir := by
  unfold starts parse
  cases header : header? dir bs with
  | none =>
    simp only [Bool.false_eq_true, false_iff, not_exists, not_and]
    intro p n parsed
    split_ifs at parsed
  | some found =>
    obtain ⟨length, sequence⟩ := found
    obtain ⟨-, -, pos, -⟩ := header?_spec header
    dsimp only
    rw [Bool.and_eq_true, beq_iff_eq]
    constructor
    · rintro ⟨first, whole⟩
      have started : atLeast (headerLength + 1) bs = true := by
        rw [atLeast_iff] at whole ⊢
        omega
      exact ⟨_, _, by rw [started, if_neg (by decide), if_pos whole], first⟩
    · rintro ⟨p, n, parsed, first⟩
      split_ifs at parsed with short whole
      obtain ⟨rfl, -⟩ := Parsed.complete.inj parsed
      exact ⟨first, whole⟩

end Mysql.Packet

namespace Mux.Message

/-- The test asks for a message that can be read, and for a header behind it. -/
theorem credible_iff {bs : Bytes} : credible bs = true ↔
    ∃ m n, parse bs = .complete m n ∧
      (atLeast headerLength (bs.drop n) = true → (header? (bs.drop n)).isSome = true) := by
  unfold credible parse
  cases header : header? bs with
  | none =>
    simp only [Bool.false_eq_true, false_iff, not_exists, not_and]
    intro m n parsed
    split_ifs at parsed
  | some found =>
    obtain ⟨length, kind, tag⟩ := found
    have long := headerLength_le_of_header? header
    have next : (!atLeast headerLength (bs.drop length) ||
        (header? (bs.drop length)).isSome) = true ↔
          (atLeast headerLength (bs.drop length) = true →
            (header? (bs.drop length)).isSome = true) := by
      cases atLeast headerLength (bs.drop length) <;> simp
    dsimp only
    rw [Bool.and_eq_true, next]
    constructor
    · rintro ⟨whole, behind⟩
      have started : atLeast headerLength bs = true := by
        rw [atLeast_iff] at whole ⊢
        omega
      exact ⟨_, _, by rw [started, if_neg (by decide), if_pos whole], behind⟩
    · rintro ⟨m, n, parsed, behind⟩
      split_ifs at parsed with short whole
      obtain ⟨-, rfl⟩ := Parsed.complete.inj parsed
      exact ⟨whole, behind⟩

end Mux.Message

namespace Kafka.Packet

/-- Among responses the test asks for a packet that can be read and answers a request that was
seen, provided that no identifier was remembered which a response cannot have. -/
theorem credible_response_iff {seen : Seen} (valid : ∀ id ∈ seen, id ≤ maxCorrelation)
    {bs : Bytes} : credible .response seen bs = true ↔
      ∃ p n, parse .response bs = .complete p n ∧ p.correlation ∈ seen := by
  unfold credible parse
  cases believed : messageLength? .response bs with
  | none =>
    simp only [Bool.false_eq_true, false_iff, not_exists, not_and]
    intro p n parsed
    split_ifs at parsed
  | some length =>
    obtain ⟨-, -, long, -⟩ := messageLength?_spec believed
    -- The identifier stands within the message.
    have identifier : (slice bs prefixLength length).take 4 = (bs.drop prefixLength).take 4 := by
      rw [slice, List.take_take]
      exact congrArg (List.take · _) (Nat.min_eq_left long)
    dsimp only
    simp only [ofMessage, ofResponse, identifier, recognised, Bool.and_eq_true,
      List.contains_eq_mem, decide_eq_true_iff]
    constructor
    · rintro ⟨whole, -, known⟩
      have started : atLeast prefixLength bs = true := by
        rw [atLeast_iff] at whole ⊢
        omega
      rw [started, whole, if_pos (valid _ known)]
      exact ⟨_, _, rfl, known⟩
    · rintro ⟨p, n, parsed, known⟩
      split_ifs at parsed with short cut correlated
      · obtain ⟨rfl, -⟩ := Parsed.complete.inj parsed
        have whole : atLeast (prefixLength + length) bs = true := by simpa using cut
        refine ⟨whole, ?_, known⟩
        rw [atLeast_iff] at whole ⊢
        rw [List.length_drop]
        simp only [minMessage] at long
        omega

end Kafka.Packet

/-! ## Memories -/

/-- What a connection can come to remember. -/
inductive Dialect.Reached (d : Dialect) : d.State → Prop where
  | initial : d.Reached d.initial
  | parse {σ : d.State} (dir : Direction) (bs : Bytes) :
      d.Reached σ → d.Reached (d.parse dir σ bs).2
  | pair {σ : d.State} (lane : Lane d.Frame) : d.Reached σ → d.Reached (d.pair σ lane).state

/-- Only identifiers that a response may have are remembered. -/
theorem Kafka.le_maxCorrelation {seen : Kafka.dialect.State} (h : Kafka.dialect.Reached seen) :
    ∀ id ∈ (show Kafka.Seen from seen), id ≤ Kafka.Packet.maxCorrelation := by
  induction h with
  | initial => exact nofun
  | @parse seen dir bs _ ih =>
    show ∀ id ∈ (Kafka.Packet.parseAndRemember dir seen bs).2, _
    unfold Kafka.Packet.parseAndRemember
    dsimp only
    split
    · next packet n parsed =>
      intro id remembered
      rcases List.mem_cons.1 (List.mem_of_mem_take remembered) with rfl | before
      · exact (Kafka.Packet.write_of_parse parsed).1.correlation
      · exact ih id before
    · exact ih
  | @pair seen lane _ ih =>
    have same : (Kafka.pair seen lane).state = seen := Pairing.state_inOrder (fun _ _ _ => rfl) _ _
    exact same.symm ▸ ih

/-! ## Scans -/

/-- Where a search that starts from certain memories leads to frames, and reading keeps to them. -/
structure Dialect.Lands (d : Dialect) (dir : Direction) (S : d.State → Prop) : Prop where
  found : ∀ {σ : d.State} {bs : Bytes} {p : Nat}, S σ → d.boundary dir σ bs 1 = some p →
    ∃ frame n, (d.parse dir σ (bs.drop p)).1 = .complete frame n
  parse : ∀ {σ : d.State} (bs : Bytes), S σ → S (d.parse dir σ bs).2

theorem Reassembly.run_consume {r : Reassembly} {n : Nat} (lt : n < r.run.length) :
    (r.consume n).run = r.run.drop n := by
  by_cases pos : n = 0
  · rw [pos, Reassembly.consume, if_pos (by simp), List.drop_zero]
  · have filled : r.size ≠ 0 := by
      unfold Reassembly.size
      omega
    rw [Reassembly.consume_of_filled pos filled]
    show (Reassembly.dropHeld n r.position r.run r.islands).2.1 = r.run.drop n
    cases r.islands with
    | nil => rfl
    | cons i rest => rw [Reassembly.dropHeld, if_pos (atLeast_iff.2 lt)]

namespace Flow.Scan

variable {d : Dialect} {dir : Direction} {patience : Nat} {s t u : Scan d} {S : d.State → Prop}

/-- The looks by which a scan comes from one state to another. -/
def Leads (dir : Direction) (patience : Nat) : Scan d → Scan d → Prop :=
  Relation.ReflTransGen fun s t => s.step dir patience = .more t

theorem look_of_step (measured : d.Measured dir) {look : Progress d}
    (h : s.step dir patience = look) : Look dir s look :=
  h ▸ look_step measured patience s

/-- After a look the memory is what reading the head has left. -/
theorem Look.state (look : Look dir s (.more t)) :
    t.conversation.state = (d.parse dir s.conversation.state s.flow.reassembly.run).2 := by
  generalize hp : Progress.more t = p at look
  cases look with
  | nothing _ | wait _ _ | lost _ _ _ => cases hp
  | frame _ parsed | cut parsed | found parsed _ | drop parsed =>
    cases hp
    rw [parsed]
    rfl

theorem Look.state_done (look : Look dir s (.done t)) :
    t.conversation.state = s.conversation.state ∨
      t.conversation.state = (d.parse dir s.conversation.state s.flow.reassembly.run).2 := by
  generalize hp : Progress.done t = p at look
  cases look with
  | frame _ _ | cut _ | found _ _ | drop _ => cases hp
  | nothing _ =>
    cases hp
    exact .inl rfl
  | wait parsed _ | lost parsed _ _ =>
    cases hp
    rw [parsed]
    exact .inr rfl

theorem state_leads (measured : d.Measured dir)
    (kept : ∀ {σ : d.State} (bs : Bytes), S σ → S (d.parse dir σ bs).2)
    (h : S s.conversation.state) (leads : Leads dir patience s t) : S t.conversation.state := by
  induction leads with
  | refl => exact h
  | tail _ step ih =>
    rw [(look_of_step measured step).state]
    exact kept _ ih

theorem state_run (measured : d.Measured dir)
    (kept : ∀ {σ : d.State} (bs : Bytes), S σ → S (d.parse dir σ bs).2)
    (h : S s.conversation.state) : S (s.run dir patience).conversation.state := by
  fun_induction run dir patience s with
  | case1 s t step =>
    rcases (look_of_step measured step).state_done with same | read
    · rwa [same]
    · rw [read]
      exact kept _ h
  | case2 s t step _ ih =>
    exact ih (state_leads measured kept h (.single step))

/-- A look counts at most one search, and only if it went where the search said. -/
theorem Look.resynced (look : Look dir s (.more t))
    (counted : t.findings.resyncs ≠ s.findings.resyncs) :
    t.findings.resyncs = s.findings.resyncs + 1 ∧ ∃ reason σ p,
      d.parse dir s.conversation.state s.flow.reassembly.run = (.invalid reason, σ) ∧
      d.boundary dir σ s.flow.reassembly.run 1 = some p ∧ t = (s.learn σ).skipTo p := by
  generalize hp : Progress.more t = p at look
  cases look with
  | nothing _ | wait _ _ | lost _ _ _ => cases hp
  | frame _ _ | cut _ | drop _ =>
    cases hp
    exact absurd rfl counted
  | found parsed boundary =>
    cases hp
    exact ⟨rfl, _, _, _, parsed, boundary, rfl⟩

/-- The look behind a search that found something reads a frame. -/
theorem reads_of_resync (measured : d.Measured dir) (lands : d.Lands dir S)
    (h : S s.conversation.state) (step : s.step dir patience = .more t)
    (counted : t.findings.resyncs ≠ s.findings.resyncs) :
    ∃ ρ u, t.reading? dir = some ρ ∧ t.step dir patience = .more u ∧ Takes dir t ρ u := by
  obtain ⟨-, reason, σ, p, parsed, boundary, rfl⟩ :=
    (look_of_step measured step).resynced counted
  have learned : S σ := by
    have := lands.parse s.flow.reassembly.run h
    rwa [parsed] at this
  obtain ⟨frame, n, complete⟩ := lands.found learned boundary
  have within := (measured.within boundary).2
  have head : ((s.learn σ).skipTo p).flow.reassembly.run = s.flow.reassembly.run.drop p :=
    Reassembly.run_consume within
  have filled : (s.flow.reassembly.run.drop p).isEmpty = false := by
    rw [List.isEmpty_eq_false_iff, ← List.length_pos_iff, List.length_drop]
    omega
  have pos := (measured.whole complete).1
  have reads : (((s.learn σ).skipTo p).reading? dir).isSome = true := by
    have state : ((s.learn σ).skipTo p).conversation.state = σ := rfl
    rw [reading?, head, state, complete]
    simp [filled, Nat.ne_of_gt pos]
  rcases ((s.learn σ).skipTo p).step_spec dir patience with ⟨ρ, u, reading, next, takes⟩ | ⟨none, -⟩
  · exact ⟨ρ, u, reading, next, takes⟩
  · rw [none] at reads
    cases reads

theorem Look.resyncs_done (look : Look dir s (.done t)) :
    t.findings.resyncs = s.findings.resyncs := by
  generalize hp : Progress.done t = p at look
  cases look with
  | frame _ _ | cut _ | found _ _ | drop _ => cases hp
  | nothing _ | wait _ _ | lost _ _ _ =>
    cases hp
    rfl

/-- No more searches are counted than frames are read. The frame that the next look reads is one
that an earlier search may have led to. -/
theorem resyncs_run (measured : d.Measured dir) (lands : d.Lands dir S)
    (h : S s.conversation.state) :
    (s.run dir patience).findings.resyncs + s.findings.frames + (s.reading? dir).toList.length ≤
      (s.run dir patience).findings.frames + s.findings.resyncs := by
  fun_induction run dir patience s with
  | case1 s t step =>
    have resyncs := (look_of_step measured step).resyncs_done
    rcases s.step_spec dir patience with ⟨ρ, u, -, next, -⟩ | ⟨none, passes⟩
    · rw [step] at next
      cases next
    · have frames := passes.frames
      rw [step] at frames
      rw [none]
      simp only [Progress.scan, Option.toList_none, List.length_nil] at frames ⊢
      omega
  | case2 s t step _ ih =>
    have next := ih (state_leads measured lands.parse h (.single step))
    have look := look_of_step measured step
    by_cases counted : t.findings.resyncs = s.findings.resyncs
    · rcases step_more step with ⟨ρ, reads, takes⟩ | ⟨none, passes⟩
      · rw [reads, Option.toList_some, List.length_singleton]
        have frames := takes.frames
        omega
      · rw [none, Option.toList_none, List.length_nil]
        have frames := passes.frames
        omega
    · obtain ⟨once, reason, σ, p, parsed, -, -⟩ := look.resynced counted
      obtain ⟨ρ, u, reads, -, -⟩ := reads_of_resync measured lands h step counted
      rw [reads, Option.toList_some, List.length_singleton] at next
      have unread : s.reading? dir = none := by
        rw [reading?, parsed]
        simp
      rcases step_more step with ⟨σ, read, -⟩ | ⟨-, passes⟩
      · rw [unread] at read
        cases read
      · rw [unread, Option.toList_none, List.length_nil]
        have frames := passes.frames
        omega

end Flow.Scan

theorem Flow.resyncs_scan {d : Dialect} {dir : Direction} {S : d.State → Prop}
    (measured : d.Measured dir) (lands : d.Lands dir S) (f : Flow) (patience : Nat)
    {c : Conversation d} (h : S c.state) :
    (f.scan dir patience c).findings.resyncs ≤ (f.scan dir patience c).findings.frames :=
  Nat.le_trans (Nat.le_add_right _ _) (Scan.resyncs_run (s := ⟨f, c, {}⟩) measured lands h)

namespace Connection

variable {d : Dialect}

/-- What a connection has heard when it reads a direction is something it can come to remember. -/
theorem reached_heard (measured : ∀ dir, d.Measured dir) (id : Nat) (settings : Settings)
    (actions : List Action) (dir : Direction) :
    d.Reached ((replay d id settings actions).heard dir).state := by
  have scanned : ∀ {c : Connection d} (dir : Direction), d.Reached (c.heard dir).state →
      d.Reached (c.scanned dir).conversation.state := by
    intro c dir h
    exact Flow.Scan.state_run (measured dir) (fun bs => .parse dir bs) h
  have heard : ∀ {c : Connection d}, d.Reached c.conversation.state →
      ∀ dir, d.Reached (c.heard dir).state := by
    intro c h dir
    cases dir with
    | request => exact h
    | response => exact scanned .request h
  have paired : ∀ (b : Backlog d.Frame) {σ : d.State}, d.Reached σ →
      d.Reached (Conversation.pairLanes d σ b).state := by
    intro b
    induction b with
    | nil => exact fun h => h
    | cons entry rest ih => exact fun h => ih (.pair entry.2 h)
  have act : ∀ {c : Connection d} (a : Action), d.Reached c.conversation.state →
      d.Reached (c.act a).conversation.state := by
    intro c a h
    cases a with
    | event e =>
      show d.Reached (c.add e).conversation.state
      unfold Connection.add
      cases e.direction <;> exact h
    | process => exact paired _ (scanned .response (heard h .response))
  refine heard ?_ dir
  unfold replay
  refine List.reverseRecOn actions ?_ ?_
  · exact .initial
  · intro before a ih
    rw [List.foldl_append]
    exact act a ih

end Connection

/-! ## The protocols -/

/-- What a protocol's search asks of the bytes from a position on. -/
def Protocol.accepts : (p : Protocol) → Direction → p.dialect.State → Bytes → Bool
  | .pgsql, dir, _ => Postgres.Message.credible dir
  | .cql, dir, _ => Cql.Frame.fits dir
  | .amqp, _, _ => Amqp.Frame.credible
  | .nats, dir, _ => Nats.Message.credible dir
  | .mysql, dir, _ => Mysql.Packet.starts dir
  | .kafka, dir, seen => Kafka.Packet.credible dir seen
  | .redis, dir, _ => Redis.Message.credible dir
  | .dns, dir, _ => Dns.Message.credible dir
  | .http, dir, _ => fun bs => (Http.Message.starts dir).any (startsWith · bs)
  | .http2, _, _ => Http2.Frame.isCredible
  | .mux, _, _ => Mux.Message.credible

theorem Protocol.boundary_eq (p : Protocol) (dir : Direction) (σ : p.dialect.State) (bs : Bytes)
    (start : Nat) :
    p.dialect.boundary dir σ bs start = Boundary.find (p.accepts dir σ) start bs := by
  cases p <;> rfl

/-- The searches that lead to whole frames, with what may be remembered. Kafka tells requests by
their header alone, behind which the client may still be unreadable. -/
def Protocol.Searched : (p : Protocol) → Direction → p.dialect.State → Prop
  | .pgsql, _, _ | .cql, _, _ | .mysql, _, _ | .mux, _, _ => True
  | .kafka, dir, seen => dir = .response ∧ Kafka.dialect.Reached seen
  | _, _, _ => False

theorem Protocol.complete_of_accepts {p : Protocol} {dir : Direction} {σ : p.dialect.State}
    (h : p.Searched dir σ) {bs : Bytes} (accepted : p.accepts dir σ bs = true) :
    ∃ frame n, (p.dialect.parse dir σ bs).1 = .complete frame n := by
  cases p with
  | pgsql =>
    obtain ⟨m, n, parsed, -⟩ := Postgres.Message.credible_iff.1 accepted
    exact ⟨m, n, parsed⟩
  | cql => exact Parsed.isComplete_iff.1 ((Cql.Frame.fits_eq dir bs).symm.trans accepted)
  | mysql =>
    obtain ⟨packet, n, parsed, -⟩ := Mysql.Packet.starts_iff.1 accepted
    exact ⟨packet, n, parsed⟩
  | mux =>
    obtain ⟨m, n, parsed, -⟩ := Mux.Message.credible_iff.1 accepted
    exact ⟨m, n, parsed⟩
  | kafka =>
    obtain ⟨rfl, reached⟩ := h
    obtain ⟨packet, n, parsed, -⟩ :=
      (Kafka.Packet.credible_response_iff (Kafka.le_maxCorrelation reached)).1 accepted
    exact ⟨packet, n, parsed⟩
  | amqp | nats | redis | dns | http | http2 => exact h.elim

theorem Protocol.lands (p : Protocol) (dir : Direction) : p.dialect.Lands dir (p.Searched dir) where
  found := by
    intro σ bs q h boundary
    rw [boundary_eq, Boundary.find_eq_some_iff] at boundary
    exact complete_of_accepts h boundary.2.2.1
  parse := by
    intro σ bs h
    cases p with
    | pgsql | cql | mysql | mux => trivial
    | kafka => exact ⟨h.1, .parse dir bs h.2⟩
    | amqp | nats | redis | dns | http | http2 => exact h.elim

/-- In every run of a connection, processing counts no more searches that found something than
frames that it reads. -/
theorem Protocol.resyncs_le_frames {p : Protocol} {dir : Direction}
    (h : ∀ σ, p.dialect.Reached σ → p.Searched dir σ) (id : Nat) (settings : Settings)
    (actions : List Connection.Action) :
    let scan := (Connection.replay p.dialect id settings actions).scanned dir
    scan.findings.resyncs ≤ scan.findings.frames := by
  have heard := h _ (Connection.reached_heard p.measured_run id settings actions dir)
  exact Flow.resyncs_scan (p.measured_run dir) (p.lands dir) _ _ heard

/-- **A search leads to a frame.** Wherever the search of one of these protocols leads, a frame can
be read, and no earlier position from the start on passes the search's test; for Cassandra it is the
first position at which a frame can be read, and there is none if the search gives none. A scan that
counts a search that found something therefore reads a frame at its next look. -/
theorem Protocol.resync_lands {p : Protocol} {dir : Direction} {σ : p.dialect.State}
    (h : p.Searched dir σ) :
    (∀ {bs : Bytes} {start q : Nat}, p.dialect.boundary dir σ bs start = some q →
      start ≤ q ∧ (p.dialect.parse dir σ (bs.drop q)).1.isComplete = true ∧
        ∀ k, start ≤ k → k < q → p.accepts dir σ (bs.drop k) = false) ∧
    (p = .cql → ∀ (bs : Bytes) (start : Nat),
      (∀ q, p.dialect.boundary dir σ bs start = some q ↔ IsLeast
        {k | start ≤ k ∧ (p.dialect.parse dir σ (bs.drop k)).1.isComplete = true} q) ∧
      (p.dialect.boundary dir σ bs start = none ↔
        ∀ k, start ≤ k → (p.dialect.parse dir σ (bs.drop k)).1.isComplete = false)) ∧
    ∀ {patience : Nat} {s t u : Flow.Scan p.dialect}, s.conversation.state = σ →
      Flow.Scan.Leads dir patience s t → t.step dir patience = .more u →
        u.findings.resyncs ≠ t.findings.resyncs →
          ∃ ρ v, u.reading? dir = some ρ ∧ u.step dir patience = .more v ∧
            Flow.Scan.Takes dir u ρ v := by
  refine ⟨?_, ?_, ?_⟩
  · intro bs start q boundary
    rw [boundary_eq, Boundary.find_eq_some_iff] at boundary
    obtain ⟨le, -, accepted, before⟩ := boundary
    exact ⟨le, Parsed.isComplete_iff.2 (complete_of_accepts h accepted), before⟩
  · rintro rfl bs start
    have test : Protocol.cql.accepts dir σ =
        fun bs => (Protocol.cql.dialect.parse dir σ bs).1.isComplete :=
      funext (Cql.Frame.fits_eq dir)
    have empty : Protocol.cql.accepts dir σ [] = false := rfl
    rw [boundary_eq]
    constructor
    · intro q
      rw [Boundary.find_eq_some_iff_isLeast empty, test]
    · rw [Boundary.find_eq_none_iff_forall empty, test]
  · rintro patience s t u rfl leads step counted
    have measured := p.measured_run dir
    exact Flow.Scan.reads_of_resync measured (p.lands dir)
      (Flow.Scan.state_leads measured (p.lands dir).parse h leads) step counted

/-- A request of the identifier 7, and bytes of the other direction: one that begins nothing, a
response to a request that was not seen, and the response to the request. -/
def metadata : Bytes := [0, 0, 0, 10, 0, 3, 0, 1, 0, 0, 0, 7, 255, 255]

def strayed : Bytes := [255, 0, 0, 0, 4, 0, 0, 0, 9, 0, 0, 0, 5, 0, 0, 0, 7, 1]

theorem Protocol.resync_lands_strayed :
    let seen := (Kafka.dialect.parse .request [] metadata).2
    Protocol.kafka.Searched .response seen ∧
      Kafka.dialect.boundary .response seen strayed 0 = some 9 ∧
      (Kafka.dialect.parse .response seen (strayed.drop 9)).1.isComplete = true ∧
      ∀ k, k < 9 → Protocol.kafka.accepts .response seen (strayed.drop k) = false := by
  intro seen
  have searched : Protocol.kafka.Searched .response seen := ⟨rfl, .parse .request metadata .initial⟩
  have boundary : Kafka.dialect.boundary .response seen strayed 0 = some 9 := by decide +kernel
  obtain ⟨-, complete, before⟩ := (resync_lands (p := .kafka) searched).1 boundary
  exact ⟨searched, boundary, complete, fun k => before k (Nat.zero_le k)⟩

end Dialogue
