import Mathlib
import Dialogue.Proofs.Contract
import Dialogue.Proofs.Delimited
import Dialogue.Proofs.Dns.Rows

/-!
The contract for formats whose frames say where they end.

The delicate part is the minimum that is asked for: a header that is cut must not ask for more than
the shortest frame takes up. Most formats tell the length of a frame in its first bytes
(`Announced`), and `Announced.frames` settles all of them at once; what is left for each is where
its length stands. Three of them open with something that has another header or none: for Postgres
and AMQP the first byte tells the two apart (`Frames.byFirst`), and a frame of HTTP/2 that could be
taken for the preface is longer than the preface. A DNS message is as long as the walk over its
sections, which begin behind the header.
-/
namespace Dialogue

section
variable {F : Type} {size : F → Nat} {read : Bytes → Parsed F}

/-- Frames whose first `header` bytes tell how many bytes they take up. -/
structure Announced (header : Nat) (length : Bytes → Nat) (size : F → Nat)
    (read : Bytes → Parsed F) : Prop where
  pos : 0 < header
  /-- A header that is there stays the same. -/
  steady : ∀ {bs : Bytes}, header ≤ bs.length → ∀ tail, length (bs ++ tail) = length bs
  waiting : ∀ {bs : Bytes} {m : Nat}, read bs = .needMore (some m) →
    (bs.length < header ∧ m = header) ∨
      (header ≤ bs.length ∧ bs.length < length bs ∧ m = length bs)
  complete : ∀ {bs : Bytes} {frame : F} {n : Nat}, read bs = .complete frame n →
    header ≤ n ∧ n ≤ bs.length ∧ n = length bs ∧ size frame = n

theorem Announced.frames {header : Nat} {length : Bytes → Nat}
    (h : Announced header length size read) : Frames size read where
  whole := by
    intro bs frame n complete
    obtain ⟨header_le, le, -, measured⟩ := h.complete complete
    have := h.pos
    exact ⟨by omega, le, measured⟩
  ahead := by
    intro bs m _ waiting
    rcases h.waiting waiting with ⟨short, rfl⟩ | ⟨-, short, rfl⟩
    · exact short
    · exact short
  least := by
    intro bs tail m n frame waiting complete
    obtain ⟨header_le, -, total, -⟩ := h.complete complete
    rcases h.waiting waiting with ⟨-, rfl⟩ | ⟨started, -, rfl⟩
    · exact header_le
    · rw [total, h.steady started]

/-- The first byte tells which of two readers is asked; where there is none yet, the second. -/
theorem Frames.byFirst {a b : Bytes → Parsed F} {p : Option UInt8 → Prop} [DecidablePred p]
    (ha : Frames size a) (hb : Frames size b) (none : ¬ p none)
    (least : ∀ {m n : Nat} {bs : Bytes} {frame : F}, b [] = .needMore (some m) →
      a bs = .complete frame n → m ≤ n) :
    Frames size fun bs => if p bs.head? then a bs else b bs where
  whole := by
    intro bs frame n complete
    split_ifs at complete
    · exact ha.whole complete
    · exact hb.whole complete
  ahead := by
    intro bs m fits waiting
    split_ifs at waiting
    · exact ha.ahead fits waiting
    · exact hb.ahead fits waiting
  least := by
    intro bs tail m n frame waiting complete
    rcases eq_or_ne bs [] with rfl | some
    · rw [List.head?_nil, if_neg none] at waiting
      split_ifs at complete
      · exact least waiting complete
      · exact hb.least waiting complete
    · -- Once there is a byte, the same reader is asked again.
      rw [List.head?_append_of_ne_nil _ some] at complete
      split_ifs at waiting complete
      · exact ha.least waiting complete
      · exact hb.least waiting complete

end

/-- The first bytes of a string that is long enough. -/
theorem exists_first {n : Nat} {bs : Bytes} (h : n ≤ bs.length) :
    ∃ (first : Fin n → UInt8) (rest : Bytes), bs = List.ofFn first ++ rest := by
  refine ⟨fun i => bs[i], bs.drop n, ?_⟩
  have taken : List.ofFn (fun i : Fin n => bs[i]) = bs.take n := by
    refine List.ext_getElem ?_ fun i _ _ => ?_
    · rw [List.length_ofFn, List.length_take, Nat.min_eq_left h]
    · rw [List.getElem_ofFn, List.getElem_take]
      rfl
  rw [taken, List.take_append_drop]

/-- A string that does not begin with `n` bytes is shorter. -/
theorem length_lt_of_ne {n : Nat} {bs : Bytes}
    (h : ∀ (first : Fin n → UInt8) (rest : Bytes), bs ≠ List.ofFn first ++ rest) :
    bs.length < n := by
  by_contra long
  obtain ⟨first, rest, same⟩ := exists_first (Nat.not_lt.1 long)
  exact h first rest same

theorem length_slice {bs : Bytes} {offset n : Nat} (h : offset + n ≤ bs.length) :
    (slice bs offset n).length = n := by
  rw [slice, List.length_take, List.length_drop]
  omega

/-! ## Postgres -/

namespace Postgres.Message

theorem announced_parseStartup :
    Announced minStartup (fun bs => bigEndian (slice bs 0 4)) size parseStartup where
  pos := by decide
  steady := fun {bs} h tail => by
    have : 0 + 4 ≤ bs.length := Nat.le_trans (by decide) h
    simp only [slice_append this]
  waiting := by
    intro bs m h
    unfold parseStartup at h
    split at h
    · dsimp only at h
      split_ifs at h with unknown range whole
      obtain rfl := Option.some.inj (Parsed.needMore.inj h)
      rw [atLeast_iff] at whole
      refine .inr ⟨by simp [minStartup], ?_, rfl⟩
      simp only [List.length_cons, slice, List.drop_zero, List.take_succ_cons, List.take_zero]
      omega
    · next short =>
      obtain rfl := Option.some.inj (Parsed.needMore.inj h)
      exact .inl ⟨length_lt_of_ne fun _ rest same => short _ _ _ _ _ _ _ _ rest same, rfl⟩
  complete := by
    intro bs frame n h
    unfold parseStartup at h
    split at h
    · dsimp only at h
      split_ifs at h with unknown range whole
      obtain ⟨rfl, rfl⟩ := Parsed.complete.inj h
      rw [atLeast_iff] at whole
      rw [not_or, Nat.not_lt] at range
      refine ⟨range.1, ?_, rfl, ?_⟩
      · simp only [List.length_cons]
        omega
      · simp only [size, if_true, length, List.length_cons, List.length_take, minStartup] at range ⊢
        omega
    · cases h

theorem startup_unknown (dir : Direction) : (Tag.known dir).contains Tag.startup = false := by
  cases dir <;> decide

theorem announced_parseTagged (dir : Direction) :
    Announced headerLength (fun bs => bigEndian (slice bs 1 4) + 1) size (parseTagged dir) where
  pos := by decide
  steady := fun {bs} h tail => by
    have : 1 + 4 ≤ bs.length := h
    simp only [slice_append this]
  waiting := by
    intro bs m h
    unfold parseTagged at h
    split at h
    · dsimp only at h
      split_ifs at h with unknown range whole
      obtain rfl := Option.some.inj (Parsed.needMore.inj h)
      rw [atLeast_iff] at whole
      refine .inr ⟨by simp [headerLength], ?_, rfl⟩
      simp only [List.length_cons, slice, List.drop_succ_cons, List.drop_zero, List.take_succ_cons,
        List.take_zero]
      omega
    · next short =>
      obtain rfl := Option.some.inj (Parsed.needMore.inj h)
      exact .inl ⟨length_lt_of_ne fun _ rest same => short _ _ _ _ _ rest same, rfl⟩
  complete := by
    intro bs frame n h
    unfold parseTagged at h
    split at h
    · next tag l₃ l₂ l₁ l₀ rest =>
      dsimp only at h
      split_ifs at h with unknown range whole
      obtain ⟨rfl, rfl⟩ := Parsed.complete.inj h
      rw [atLeast_iff] at whole
      rw [not_or, Nat.not_lt] at range
      -- Only a startup message has no byte for its tag, and no tag is like it.
      have tagged : tag ≠ Tag.startup := by
        rintro rfl
        rw [startup_unknown] at unknown
        exact unknown rfl
      refine ⟨by rw [headerLength]; omega, ?_, rfl, ?_⟩
      · simp only [List.length_cons]
        omega
      · simp only [size, if_neg tagged, length, List.length_take]
        omega
    · cases h

theorem frames_parse (dir : Direction) : Frames size (parse dir) := by
  cases dir with
  | response => exact (announced_parseTagged .response).frames
  | request =>
    have first : parse .request = fun bs =>
        if bs.head? = some 0 then parseStartup bs else parseTagged .request bs := by
      funext bs
      simp only [parse, true_and]
    rw [first]
    refine .byFirst (p := (· = some 0)) announced_parseStartup.frames
      (announced_parseTagged .request).frames (by decide) fun waiting complete => ?_
    obtain rfl := Option.some.inj (Parsed.needMore.inj waiting)
    exact Nat.le_trans (by decide) (announced_parseStartup.complete complete).1

end Postgres.Message

theorem Postgres.contract : Contract Postgres.dialect.size Postgres.dialect.parse :=
  .of_reader Postgres.Message.frames_parse

/-! ## Cassandra -/

theorem Cql.Frame.announced_parse (dir : Direction) :
    Announced Cql.Frame.headerLength (fun bs => Cql.Frame.headerLength + bigEndian (slice bs 5 4))
      Cql.Frame.size (Cql.Frame.parse dir) where
  pos := by decide
  steady := fun {bs} h tail => by
    have : 5 + 4 ≤ bs.length := h
    simp only [slice_append this]
  waiting := by
    intro bs m h
    unfold Cql.Frame.parse at h
    split at h
    · dsimp only at h
      split at h
      · cases h
      · split_ifs at h with whole
        obtain rfl := Option.some.inj (Parsed.needMore.inj h)
        rw [atLeast_iff] at whole
        refine .inr ⟨by simp [headerLength], ?_, rfl⟩
        simp only [List.length_cons, slice, List.drop_succ_cons, List.drop_zero,
          List.take_succ_cons, List.take_zero, headerLength]
        omega
    · next short =>
      obtain rfl := Option.some.inj (Parsed.needMore.inj h)
      exact .inl ⟨length_lt_of_ne fun _ rest same => short _ _ _ _ _ _ _ _ _ rest same, rfl⟩
  complete := by
    intro bs frame n h
    unfold Cql.Frame.parse at h
    split at h
    · dsimp only at h
      split at h
      · cases h
      · split_ifs at h with whole
        obtain ⟨rfl, rfl⟩ := Parsed.complete.inj h
        rw [atLeast_iff] at whole
        refine ⟨Nat.le_add_right .., ?_, rfl, ?_⟩
        · simp only [List.length_cons, headerLength]
          omega
        · rw [size, List.length_take, Nat.min_eq_left whole]
    · cases h

theorem Cql.contract : Contract Cql.dialect.size Cql.dialect.parse :=
  .of_reader fun dir => (Cql.Frame.announced_parse dir).frames

/-! ## AMQP -/

namespace Amqp.Frame

theorem frames_parseProtocolHeader : Frames Frame.length parseProtocolHeader where
  whole := by
    intro bs frame n h
    have bounds := delimits_parseProtocolHeader.bounded h
    unfold parseProtocolHeader at h
    dsimp only at h
    split_ifs at h
    obtain ⟨rfl, rfl⟩ := Parsed.complete.inj h
    exact ⟨bounds.1, bounds.2, rfl⟩
  ahead := by
    intro bs m _ h
    unfold parseProtocolHeader at h
    dsimp only at h
    split_ifs at h with bad short
    obtain rfl := Option.some.inj (Parsed.needMore.inj h)
    rw [List.length_take] at short
    omega
  least := by
    intro bs tail m n frame waiting complete
    unfold parseProtocolHeader at waiting complete
    dsimp only at waiting complete
    split_ifs at waiting complete
    obtain rfl := Option.some.inj (Parsed.needMore.inj waiting)
    obtain ⟨-, rfl⟩ := Parsed.complete.inj complete
    exact Nat.le_refl _

theorem announced_parseGeneral :
    Announced headerLength (fun bs => headerLength + bigEndian (slice bs 3 4) + 1) Frame.length
      parseGeneral where
  pos := by decide
  steady := fun {bs} h tail => by
    have : 3 + 4 ≤ bs.length := h
    simp only [slice_append this]
  waiting := by
    intro bs m h
    unfold parseGeneral at h
    split at h
    · split at h
      · cases h
      · next checked =>
        unfold parseRest at h
        dsimp only at h
        split_ifs at h with short
        · obtain rfl := Option.some.inj (Parsed.needMore.inj h)
          unfold checkHeader at checked
          split_ifs at checked
          obtain rfl := Except.ok.inj checked
          have short := length_lt_of_not short
          refine .inr ⟨by simp [headerLength], ?_, rfl⟩
          simp only [List.length_cons, slice, List.drop_succ_cons, List.drop_zero,
            List.take_succ_cons, List.take_zero, headerLength]
          omega
        · split at h <;> cases h
    · next short =>
      obtain rfl := Option.some.inj (Parsed.needMore.inj h)
      exact .inl ⟨length_lt_of_ne fun _ rest same => short _ _ _ _ _ _ _ rest same, rfl⟩
  complete := by
    intro bs frame n h
    have bounds := delimits_parseGeneral.bounded h
    unfold parseGeneral at h
    split at h
    · split at h
      · cases h
      · next checked =>
        unfold parseRest at h
        dsimp only at h
        split_ifs at h
        split at h
        · cases h
        · obtain ⟨rfl, rfl⟩ := Parsed.complete.inj h
          unfold checkHeader at checked
          split_ifs at checked
          obtain rfl := Except.ok.inj checked
          exact ⟨by omega, bounds.2, rfl, rfl⟩
    · cases h

theorem frames_parse : Frames Frame.length parse := by
  refine .byFirst (p := (· = protocolHeader.head?)) frames_parseProtocolHeader
    announced_parseGeneral.frames (by decide) fun {m n bs frame} waiting complete => ?_
  obtain rfl := Option.some.inj (Parsed.needMore.inj waiting)
  unfold parseProtocolHeader at complete
  dsimp only at complete
  split_ifs at complete
  obtain ⟨-, rfl⟩ := Parsed.complete.inj complete
  decide

end Amqp.Frame

theorem Amqp.contract : Contract Amqp.dialect.size Amqp.dialect.parse :=
  .of_reader fun _ => Amqp.Frame.frames_parse

/-! ## MySQL -/

theorem Mysql.Packet.announced_parse (dir : Direction) :
    Announced (Mysql.Packet.headerLength + 1)
      (fun bs => Mysql.Packet.headerLength + ((Mysql.Packet.header? dir bs).map (·.1)).getD 0)
      Mysql.Packet.size (Mysql.Packet.parse dir) where
  pos := by decide
  steady := fun h tail => by simp only [header?_append dir h]
  waiting := by
    intro bs m h
    unfold Mysql.Packet.parse at h
    split_ifs at h with short
    · obtain rfl := Option.some.inj (Parsed.needMore.inj h)
      exact .inl ⟨length_lt_of_not short, rfl⟩
    · have started := atLeast_iff.1 (atLeast_of_not short)
      split at h
      · cases h
      · next header =>
        split_ifs at h with whole
        obtain rfl := Option.some.inj (Parsed.needMore.inj h)
        rw [atLeast_iff, Nat.not_le] at whole
        simp only [header, Option.map_some, Option.getD_some]
        exact .inr ⟨started, whole, trivial⟩
  complete := by
    intro bs frame n h
    unfold Mysql.Packet.parse at h
    split_ifs at h
    split at h
    · cases h
    · next length sequence header =>
      split_ifs at h with whole
      obtain ⟨rfl, rfl⟩ := Parsed.complete.inj h
      rw [atLeast_iff] at whole
      have filled : 0 < length := by
        unfold header? at header
        split at header
        · dsimp only at header
          split_ifs at header with empty
          obtain ⟨rfl, -⟩ := Prod.mk.inj (Option.some.inj header)
          exact Nat.pos_of_ne_zero empty
        · cases header
      simp only [header, Option.map_some, Option.getD_some, size, length_slice whole]
      exact ⟨by omega, whole, trivial, trivial⟩

theorem Mysql.contract : Contract Mysql.dialect.size Mysql.dialect.parse :=
  .of_reader fun dir => (Mysql.Packet.announced_parse dir).frames

/-! ## Mux -/

theorem Mux.Message.announced_parse :
    Announced Mux.Message.headerLength (fun bs => ((Mux.Message.header? bs).map (·.1)).getD 0)
      Mux.Message.size Mux.Message.parse where
  pos := by decide
  steady := fun h tail => by simp only [header?_append h]
  waiting := by
    intro bs m h
    unfold Mux.Message.parse at h
    split_ifs at h with short
    · obtain rfl := Option.some.inj (Parsed.needMore.inj h)
      exact .inl ⟨length_lt_of_not short, rfl⟩
    · have started := atLeast_iff.1 (atLeast_of_not short)
      split at h
      · cases h
      · next header =>
        split_ifs at h with whole
        obtain rfl := Option.some.inj (Parsed.needMore.inj h)
        rw [atLeast_iff, Nat.not_le] at whole
        simp only [header, Option.map_some, Option.getD_some]
        exact .inr ⟨started, whole, trivial⟩
  complete := by
    intro bs frame n h
    unfold Mux.Message.parse at h
    split_ifs at h
    split at h
    · cases h
    · next length kind tag header =>
      split_ifs at h with whole
      obtain ⟨rfl, rfl⟩ := Parsed.complete.inj h
      rw [atLeast_iff] at whole
      have header_le := headerLength_le_of_header? header
      have body : headerLength + (length - headerLength) ≤ bs.length := by omega
      simp only [header, Option.map_some, Option.getD_some, size, length_slice body]
      exact ⟨header_le, whole, trivial, by omega⟩

theorem Mux.contract : Contract Mux.dialect.size Mux.dialect.parse :=
  .of_reader fun _ => Mux.Message.announced_parse.frames

/-! ## Kafka -/

namespace Kafka.Packet

/-- A client's name and what is behind it take up all but the two bytes of the name's length. -/
theorem length_client {bs rest : Bytes} {name : Option Bytes} (h : client bs = .ok (name, rest)) :
    2 + (name.getD []).length + rest.length = bs.length := by
  unfold client at h
  split at h
  · simp only [List.length_cons]
    split at h
    · cases h
      simp only [Option.getD_none, List.length_nil]
      omega
    · cases h
    · split_ifs at h with whole
      cases h
      rw [atLeast_iff] at whole
      simp only [Option.getD_some, List.length_take, List.length_drop]
      omega
  · cases h

theorem size_of_ofMessage {dir : Direction} {message : Bytes} {packet : Packet}
    (h : ofMessage dir message = .ok packet) (long : minMessage dir ≤ message.length) :
    packet.size = prefixLength + message.length := by
  cases dir with
  | request =>
    change ofRequest message = _ at h
    unfold ofRequest at h
    split at h
    · cases h
    · next operation version correlation _ =>
      cases named : client (message.drop 8) with
      | error reason => rw [named] at h; cases h
      | ok read =>
        rw [named] at h
        cases h
        have := length_client named
        rw [List.length_drop] at this
        simp only [size, minMessage] at long ⊢
        omega
  | response =>
    change ofResponse message = _ at h
    unfold ofResponse at h
    dsimp only at h
    split_ifs at h
    obtain rfl := Except.ok.inj h
    simp only [size, List.length_drop, minMessage] at long ⊢
    omega

theorem bounds_of_messageLength? {dir : Direction} {bs : Bytes} {length : Nat}
    (h : messageLength? dir bs = some length) : minMessage dir ≤ length := by
  unfold messageLength? at h
  split at h
  · dsimp only at h
    split_ifs at h with range
    obtain rfl := Option.some.inj h
    exact range.1
  · cases h

theorem announced_parse (dir : Direction) :
    Announced prefixLength (fun bs => prefixLength + (messageLength? dir bs).getD 0) size
      (parse dir) where
  pos := by decide
  steady := fun h tail => by simp only [messageLength?_append dir h]
  waiting := by
    intro bs m h
    unfold parse at h
    split_ifs at h with short
    · obtain rfl := Option.some.inj (Parsed.needMore.inj h)
      exact .inl ⟨length_lt_of_not short, rfl⟩
    · have started := atLeast_iff.1 (atLeast_of_not short)
      split at h
      · cases h
      · next announced =>
        split_ifs at h with cut
        · obtain rfl := Option.some.inj (Parsed.needMore.inj h)
          have cut := length_lt_of_not cut
          simp only [announced, Option.getD_some]
          exact .inr ⟨started, cut, trivial⟩
        · split at h <;> cases h
  complete := by
    intro bs frame n h
    unfold parse at h
    split_ifs at h
    split at h
    · cases h
    · next length announced =>
      split_ifs at h with cut
      split at h
      · cases h
      · next packet read =>
        obtain ⟨rfl, rfl⟩ := Parsed.complete.inj h
        have whole := atLeast_iff.1 (atLeast_of_not cut)
        have long := bounds_of_messageLength? announced
        have measured := size_of_ofMessage read (by rwa [length_slice whole])
        rw [length_slice whole] at measured
        simp only [announced, Option.getD_some]
        exact ⟨Nat.le_add_right .., whole, trivial, measured⟩

/-- Only a whole request is remembered. -/
theorem snd_parseAndRemember {dir : Direction} {seen : Seen} {bs : Bytes}
    (other : ∀ packet n, (parseAndRemember dir seen bs).1 ≠ .complete packet n) :
    (parseAndRemember dir seen bs).2 = seen := by
  rw [fst_parseAndRemember] at other
  unfold parseAndRemember
  dsimp only
  split
  · next packet n parsed => exact absurd parsed (other packet n)
  · rfl

end Kafka.Packet

theorem Kafka.frames (dir : Direction) (seen : Kafka.Seen) :
    Frames Kafka.Packet.size fun bs => (Kafka.Packet.parseAndRemember dir seen bs).1 := by
  have same : (fun bs => (Kafka.Packet.parseAndRemember dir seen bs).1) = Kafka.Packet.parse dir :=
    funext (Kafka.Packet.fst_parseAndRemember dir seen)
  rw [same]
  exact (Kafka.Packet.announced_parse dir).frames

theorem Kafka.contract : Contract Kafka.dialect.size Kafka.dialect.parse :=
  .of_frames Kafka.frames Kafka.Packet.snd_parseAndRemember

/-! ## HTTP/2 -/

namespace Http2.Frame

variable {Table : Type} (decode : Decoder Table) (dir : Direction) (state : State Table)

theorem announced_parseFramed :
    Announced FrameHeader.size
      (fun bs => ((FrameHeader.read? bs).map FrameHeader.frameLength).getD 0) Frame.length
      fun bs => (parseFramed decode dir state bs).1 where
  pos := by decide
  steady := fun {bs} h tail => by
    obtain ⟨first, rest, rfl⟩ := exists_first h
    rfl
  waiting := by
    intro bs m h
    unfold parseFramed at h
    split at h
    · next none =>
      obtain rfl := Option.some.inj (Parsed.needMore.inj h)
      refine .inl ⟨length_lt_of_ne fun first rest same => ?_, rfl⟩
      rw [same] at none
      cases none
    · next header read =>
      split at h
      · cases h
      · split_ifs at h with cut
        · obtain rfl := Option.some.inj (Parsed.needMore.inj h)
          have cut := length_lt_of_not cut
          simp only [read, Option.map_some, Option.getD_some]
          refine .inr ⟨?_, cut, trivial⟩
          unfold FrameHeader.read? at read
          split at read
          · simp [FrameHeader.size]
          · cases read
        · split at h <;> cases h
  complete := by
    intro bs frame n h
    unfold parseFramed at h
    split at h
    · cases h
    · next header read =>
      split at h
      · cases h
      · split_ifs at h with cut
        split at h
        · cases h
        · obtain ⟨rfl, rfl⟩ := Parsed.complete.inj h
          simp only [read, Option.map_some, Option.getD_some]
          exact ⟨Nat.le_add_right .., atLeast_iff.1 (atLeast_of_not cut), trivial, trivial⟩

/-- A frame that starts as the preface of a client does is longer than the preface. -/
theorem preface_le_of_parseFramed {rest : Bytes} {frame : Frame} {n : Nat}
    (h : (parseFramed decode dir state (0x50 :: rest)).1 = .complete frame n) :
    preface.length ≤ n := by
  obtain ⟨started, le, total, -⟩ := (announced_parseFramed decode dir state).complete h
  have long : 8 ≤ rest.length := by
    rw [List.length_cons] at le
    exact Nat.le_of_succ_le_succ (Nat.le_trans started le)
  obtain ⟨first, rest, rfl⟩ := exists_first long
  -- The first byte is the highest of the length, so the frame is a large one.
  have length : preface.length = 24 := by decide
  have large : n = FrameHeader.size + bigEndian [0x50, first 0, first 1] := total
  simp only [bigEndian, List.foldl_cons, List.foldl_nil] at large
  have : (0x50 : UInt8).toNat = 80 := by decide
  omega

theorem head?_of_prefix_preface {bs : Bytes} (some : bs ≠ []) (h : bs <+: preface) :
    ∃ rest, bs = 0x50 :: rest := by
  obtain ⟨b, rest, rfl⟩ := List.exists_cons_of_ne_nil some
  obtain ⟨tail, h⟩ := h
  have first : preface.head? = Option.some 0x50 := by decide
  rw [← h, List.cons_append, List.head?_cons] at first
  exact ⟨rest, by rw [Option.some.inj first]⟩

theorem frames_parse : Frames Frame.length fun bs => (parse decode dir state bs).1 where
  whole := by
    intro bs frame n h
    have bounds := bounded_parse decode dir state h
    unfold parse at h
    dsimp only at h
    split_ifs at h
    · obtain ⟨rfl, rfl⟩ := Parsed.complete.inj h
      exact ⟨bounds.1, bounds.2, rfl⟩
    · exact (announced_parseFramed decode dir state).frames.whole h
  ahead := by
    intro bs m fits h
    unfold parse at h
    dsimp only at h
    split_ifs at h with opens within
    · obtain rfl := Option.some.inj (Parsed.needMore.inj h)
      rw [List.isPrefixOf_iff_prefix] at within
      have le := within.2.length_le
      by_contra long
      have same := within.2.eq_of_length (by omega)
      refine opens ⟨within.1, ?_⟩
      rw [same, List.isPrefixOf_iff_prefix]
    · exact (announced_parseFramed decode dir state).frames.ahead fits h
  least := by
    intro bs tail m n frame waiting complete
    unfold parse at waiting complete
    dsimp only at waiting complete
    simp only [List.isPrefixOf_iff_prefix] at waiting complete
    have header_le : FrameHeader.size ≤ preface.length := by decide
    split_ifs at waiting with opens within
    · obtain rfl := Option.some.inj (Parsed.needMore.inj waiting)
      have some : bs ≠ [] := by simpa using within.1.2
      obtain ⟨rest, rfl⟩ := head?_of_prefix_preface some within.2
      split_ifs at complete
      · obtain ⟨-, rfl⟩ := Parsed.complete.inj complete
        exact Nat.le_refl _
      · exact preface_le_of_parseFramed decode dir state complete
    · split_ifs at complete with opens'
      · -- Bytes that do not start the preface do not come back to it, so there are none yet.
        obtain ⟨-, rfl⟩ := Parsed.complete.inj complete
        rcases eq_or_ne bs [] with rfl | some
        · rcases (announced_parseFramed decode dir state).waiting waiting with
            ⟨-, rfl⟩ | ⟨long, -, -⟩
          · exact header_le
          · exact absurd long (by decide)
        · have may : dir = .request ∧ bs.isEmpty = false := ⟨opens'.1.1, by simpa using some⟩
          rcases List.prefix_or_prefix_of_prefix opens'.2 (List.prefix_append bs tail) with h | h
          · exact absurd ⟨may, h⟩ opens
          · exact absurd ⟨may, h⟩ within
      · exact (announced_parseFramed decode dir state).frames.least waiting complete

theorem idle_of_not_complete {bs : Bytes}
    (other : ∀ frame n, (parse decode dir state bs).1 ≠ .complete frame n) :
    (parse decode dir state bs).2 = state := by
  unfold parse at other ⊢
  dsimp only at other ⊢
  split_ifs at other ⊢
  · exact absurd rfl (other _ _)
  · rfl
  · unfold parseFramed at other ⊢
    split
    · rfl
    · next read =>
      rw [read] at other
      dsimp only at other
      split
      · rfl
      · next sound =>
        rw [sound] at other
        dsimp only at other
        split_ifs at other ⊢
        · rfl
        · split
          · rfl
          · next taken =>
            rw [taken] at other
            exact absurd rfl (other _ _)

theorem contract_parse : Contract Frame.length (parse decode) :=
  .of_frames (frames_parse decode) fun other => idle_of_not_complete decode _ _ other

end Http2.Frame

/-! ## DNS -/

namespace Dns

variable {msg : Bytes} {position : Nat}

/-- A name ends behind its first part, wherever its pointers lead. -/
theorem nameFrom_lt {jumps stop : Nat} {name read : String}
    (h : nameFrom msg jumps name position = .ok (read, stop)) : position < stop := by
  obtain ⟨reach, rows⟩ := exists_nameRows h
  cases rows with
  | root row => exact labels_lt row
  | pointer row _ _ => exact labels_lt row

theorem queryAt_lt {query : Query} {stop : Nat} (h : queryAt msg position = .ok (query, stop)) :
    position < stop := by
  obtain ⟨behind, word, named, -, -, rfl⟩ := queryAt_ok_iff.1 h
  have := nameFrom_lt named
  omega

theorem recordAt_lt {name : String} {type start length : Nat}
    (h : recordAt msg position = .ok (name, type, start, length)) : position < start := by
  obtain ⟨behind, named, -, -, rfl, -⟩ := recordAt_ok_iff.1 h
  have := nameFrom_lt named
  omega

theorem answerAt_lt {answer : Answer} {stop : Nat}
    (h : answerAt msg position = .ok (answer, stop)) : position < stop := by
  obtain ⟨start, length, framed, -, rfl⟩ := answerAt_ok_iff.1 h
  have := recordAt_lt framed
  omega

theorem passRecord_lt {u : Unit} {stop : Nat} (h : passRecord msg position = .ok (u, stop)) :
    position < stop := by
  obtain ⟨name, type, start, length, framed, rfl⟩ := passRecord_ok_iff.1 h
  have := recordAt_lt framed
  omega

theorem entries_mono {α : Type} {entryAt : Nat → Walk (α × Nat)}
    (entry_lt : ∀ {position entry stop}, entryAt position = .ok (entry, stop) → position < stop)
    {n stop : Nat} {found : List α} (h : entries entryAt n position = .ok (found, stop)) :
    position ≤ stop := by
  induction n generalizing position found with
  | zero =>
    cases h
    exact Nat.le_refl _
  | succ n ih =>
    obtain ⟨entry, next, rest, first, others, -⟩ := entries_succ_ok_iff.1 h
    exact (entry_lt first).le.trans (ih others)

/-- The sections stand behind the header. -/
theorem headerLength_le_of_walk {dir : Direction} {message : Message}
    (h : walk dir msg = .ok message) : headerLength ≤ message.length := by
  obtain ⟨_, _, _, _, _, _, -, h⟩ := walk_ok_iff.1 h
  obtain ⟨behindQueries, behindAnswers, passed, hqueries, hanswers, hpassed, -⟩ :=
    sections_ok_iff.1 h
  calc headerLength ≤ behindQueries := entries_mono queryAt_lt hqueries
    _ ≤ behindAnswers := entries_mono answerAt_lt hanswers
    _ ≤ message.length := entries_mono passRecord_lt hpassed

theorem Message.frames_parse (dir : Direction) : Frames Message.length (Message.parse dir) where
  whole := by
    intro bs frame n h
    obtain ⟨walked, rfl⟩ := parse_complete_iff.1 h
    exact ⟨(walk_le walked).1, (walk_le walked).2, rfl⟩
  ahead := by
    intro bs m _ h
    unfold Message.parse at h
    split_ifs at h with short
    · obtain rfl := Option.some.inj (Parsed.needMore.inj h)
      exact length_lt_of_not short
    · split at h <;> cases h
  least := by
    intro bs tail m n frame waiting complete
    obtain ⟨walked, rfl⟩ := parse_complete_iff.1 complete
    unfold Message.parse at waiting
    split_ifs at waiting
    · obtain rfl := Option.some.inj (Parsed.needMore.inj waiting)
      exact headerLength_le_of_walk walked
    · split at waiting <;> cases waiting

theorem contract : Contract dialect.size dialect.parse := .of_reader Message.frames_parse

end Dns

end Dialogue
