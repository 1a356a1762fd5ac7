import Mathlib
import Dialogue.Amqp
import Dialogue.Cql
import Dialogue.Http2
import Dialogue.Kafka
import Dialogue.Mux
import Dialogue.Mysql
import Dialogue.Postgres

/-!
Formats whose frames say where they end.

Reading a `Delimited` dialect never guesses: once it has come to a frame or to a fault, more bytes
do not change that, a frame takes up some of the bytes that are there, and as long as it asks for
more it has learned nothing. So a frame is read the same from the bytes that it takes up alone, and
from any string that starts with them.
-/
namespace Dialogue

/-- The outcome of reading does not change when more bytes follow. -/
structure Dialect.Delimited (d : Dialect) : Prop where
  bounded : ∀ {dir : Direction} {σ : d.State} {bs : Bytes} {frame : d.Frame} {n : Nat},
    (d.parse dir σ bs).1 = .complete frame n → 0 < n ∧ n ≤ bs.length
  stable : ∀ {dir : Direction} {σ : d.State} {bs : Bytes},
    (∀ m, (d.parse dir σ bs).1 ≠ .needMore m) →
      ∀ tail, d.parse dir σ (bs ++ tail) = d.parse dir σ bs
  idle : ∀ {dir : Direction} {σ : d.State} {bs : Bytes} {m : Option Nat},
    (d.parse dir σ bs).1 = .needMore m → (d.parse dir σ bs).2 = σ

/-- The same for a reader that remembers nothing. -/
structure Delimits {F : Type} (read : Bytes → Parsed F) : Prop where
  bounded : ∀ {bs : Bytes} {frame : F} {n : Nat},
    read bs = .complete frame n → 0 < n ∧ n ≤ bs.length
  stable : ∀ {bs : Bytes}, (∀ m, read bs ≠ .needMore m) → ∀ tail, read (bs ++ tail) = read bs

section
variable {bs tail : Bytes} {n offset : Nat}

theorem atLeast_append (h : atLeast n bs = true) (tail : Bytes) :
    atLeast n (bs ++ tail) = true := by
  rw [atLeast_iff] at h ⊢
  rw [List.length_append]
  omega

theorem atLeast_of_not (h : ¬ (!atLeast n bs) = true) : atLeast n bs = true := by simpa using h

theorem length_lt_of_not (h : (!atLeast n bs) = true) : bs.length < n := by
  rw [Bool.not_eq_true', ← Bool.not_eq_true, atLeast_iff] at h
  exact Nat.not_le.1 h

theorem take_append_of_atLeast (h : atLeast n bs = true) (tail : Bytes) :
    (bs ++ tail).take n = bs.take n :=
  List.take_append_of_le_length (atLeast_iff.1 h)

theorem slice_append (h : offset + n ≤ bs.length) (tail : Bytes) :
    slice (bs ++ tail) offset n = slice bs offset n := by
  unfold slice
  rw [List.drop_append_of_le_length (by omega),
    List.take_append_of_le_length (by rw [List.length_drop]; omega)]

end

/-- A dialect whose reader neither uses nor changes what is remembered. -/
theorem Delimits.dialect {d : Dialect} {read : Direction → Bytes → Parsed d.Frame}
    (h : ∀ dir, Delimits (read dir)) (hparse : ∀ dir σ bs, d.parse dir σ bs = (read dir bs, σ)) :
    d.Delimited where
  bounded := by
    intro dir σ bs frame n hc
    rw [hparse] at hc
    exact (h dir).bounded hc
  stable := by
    intro dir σ bs more tail
    rw [hparse] at more
    rw [hparse, hparse, (h dir).stable more tail]
  idle := by
    intro dir σ bs m _
    rw [hparse]

/-! ## Postgres -/

namespace Postgres.Message

theorem delimits_parseStartup : Delimits parseStartup where
  bounded := by
    intro bs frame n h
    unfold parseStartup at h
    split at h
    · dsimp only at h
      split_ifs at h with unknown range whole
      obtain ⟨-, rfl⟩ := Parsed.complete.inj h
      rw [atLeast_iff] at whole
      simp only [minStartup, not_or, Nat.not_lt] at range
      simp only [List.length_cons]
      omega
    · cases h
  stable := by
    intro bs more tail
    unfold parseStartup at more ⊢
    split at more
    · -- the header is there, so only the test for the payload sees what follows
      simp only [List.cons_append] at more ⊢
      split_ifs at more with unknown range whole
      · rw [if_pos unknown, if_pos unknown]
      · rw [if_neg unknown, if_neg unknown, if_pos range, if_pos range]
      · rw [if_neg unknown, if_neg unknown, if_neg range, if_neg range, if_pos whole,
          if_pos (atLeast_append whole tail), take_append_of_atLeast whole]
      · exact absurd rfl (more _)
    · exact absurd rfl (more _)

theorem delimits_parseTagged (dir : Direction) : Delimits (parseTagged dir) where
  bounded := by
    intro bs frame n h
    unfold parseTagged at h
    split at h
    · dsimp only at h
      split_ifs at h with unknown range whole
      obtain ⟨-, rfl⟩ := Parsed.complete.inj h
      rw [atLeast_iff] at whole
      simp only [List.length_cons]
      omega
    · cases h
  stable := by
    intro bs more tail
    unfold parseTagged at more ⊢
    split at more
    · simp only [List.cons_append] at more ⊢
      split_ifs at more with unknown range whole
      · rw [if_pos unknown, if_pos unknown]
      · rw [if_neg unknown, if_neg unknown, if_pos range, if_pos range]
      · rw [if_neg unknown, if_neg unknown, if_neg range, if_neg range, if_pos whole,
          if_pos (atLeast_append whole tail), take_append_of_atLeast whole]
      · exact absurd rfl (more _)
    · exact absurd rfl (more _)

theorem delimits_parse (dir : Direction) : Delimits (parse dir) where
  bounded := by
    intro bs frame n h
    unfold parse at h
    split_ifs at h
    · exact delimits_parseStartup.bounded h
    · exact (delimits_parseTagged dir).bounded h
  stable := by
    intro bs more tail
    have hne : bs ≠ [] := by
      rintro rfl
      refine more (some headerLength) ?_
      simp [parse, parseTagged]
    unfold parse at more ⊢
    rw [List.head?_append_of_ne_nil _ hne]
    split_ifs at more ⊢
    · exact delimits_parseStartup.stable more tail
    · exact (delimits_parseTagged dir).stable more tail

end Postgres.Message

theorem Postgres.delimited : Postgres.dialect.Delimited :=
  Delimits.dialect Postgres.Message.delimits_parse fun _ _ _ => rfl

/-! ## Cassandra -/

theorem Cql.Frame.delimits_parse (dir : Direction) : Delimits (Cql.Frame.parse dir) where
  bounded := by
    intro bs frame n h
    unfold Cql.Frame.parse at h
    split at h
    · dsimp only at h
      split at h
      · cases h
      · split_ifs at h with whole
        obtain ⟨-, rfl⟩ := Parsed.complete.inj h
        rw [atLeast_iff] at whole
        simp only [List.length_cons, Cql.Frame.headerLength]
        omega
    · cases h
  stable := by
    intro bs more tail
    unfold Cql.Frame.parse at more ⊢
    split at more
    · simp only [List.cons_append] at more ⊢
      split at more
      · rfl
      · split_ifs at more with whole
        · rw [if_pos whole, if_pos (atLeast_append whole tail), take_append_of_atLeast whole]
        · exact absurd rfl (more _)
    · exact absurd rfl (more _)

theorem Cql.delimited : Cql.dialect.Delimited :=
  Delimits.dialect Cql.Frame.delimits_parse fun _ _ _ => rfl

/-! ## AMQP -/

namespace Amqp.Frame

theorem delimits_parseProtocolHeader : Delimits parseProtocolHeader where
  bounded := by
    intro bs frame n h
    unfold parseProtocolHeader at h
    dsimp only at h
    split_ifs at h with bad short
    obtain ⟨-, rfl⟩ := Parsed.complete.inj h
    rw [List.length_take, Nat.not_lt] at short
    have : 0 < protocolHeader.length := by decide
    omega
  stable := by
    intro bs more tail
    by_cases long : protocolHeader.length ≤ bs.length
    · have hstart : (bs ++ tail).take protocolHeader.length = bs.take protocolHeader.length :=
        List.take_append_of_le_length long
      unfold parseProtocolHeader
      rw [hstart]
    · -- fewer bytes than the header has are a fault only if they differ from it already
      have hall : bs.take protocolHeader.length = bs := List.take_of_length_le (by omega)
      have hbad : ¬ bs <+: protocolHeader := by
        intro same
        refine more (some protocolHeader.length) ?_
        unfold parseProtocolHeader
        dsimp only
        rw [hall, if_neg (not_not_intro (List.prefix_iff_eq_take.1 same)), if_pos (by omega)]
      have hbad' : ¬ (bs ++ tail).take protocolHeader.length <+: protocolHeader := by
        intro same
        refine hbad (List.IsPrefix.trans ?_ same)
        exact List.prefix_take_iff.2 ⟨List.prefix_append bs tail, by omega⟩
      rw [List.prefix_iff_eq_take] at hbad hbad'
      unfold parseProtocolHeader
      dsimp only
      rw [if_pos hbad', hall, if_pos hbad]

theorem parseRest_append {type : UInt8} {channel length : Nat} {rest : Bytes}
    (more : ∀ m, parseRest type channel length rest ≠ .needMore m) (tail : Bytes) :
    parseRest type channel length (rest ++ tail) = parseRest type channel length rest := by
  have whole : atLeast (length + 1) rest = true := by
    by_contra short
    refine more (some (headerLength + length + 1)) ?_
    unfold parseRest
    exact if_pos (by simpa using short)
  have hlength : length + 1 ≤ rest.length := atLeast_iff.1 whole
  unfold parseRest
  simp only [whole, atLeast_append whole tail]
  have mark : rest.drop length ≠ [] := by
    rw [Ne, List.drop_eq_nil_iff]
    omega
  rw [List.drop_append_of_le_length (by omega), List.head?_append_of_ne_nil _ mark,
    List.take_append_of_le_length (by omega)]

theorem delimits_parseGeneral : Delimits parseGeneral where
  bounded := by
    intro bs frame n h
    unfold parseGeneral at h
    split at h
    · split at h
      · cases h
      · unfold parseRest at h
        dsimp only at h
        split_ifs at h with short mark
        split at h
        · cases h
        · obtain ⟨-, rfl⟩ := Parsed.complete.inj h
          have whole := atLeast_iff.1 (atLeast_of_not short)
          simp only [List.length_cons, headerLength]
          omega
    · cases h
  stable := by
    intro bs more tail
    unfold parseGeneral at more ⊢
    split at more
    · simp only [List.cons_append] at more ⊢
      split at more
      · rfl
      · exact parseRest_append more tail
    · exact absurd rfl (more _)

theorem delimits_parse : Delimits parse where
  bounded := by
    intro bs frame n h
    unfold parse at h
    split_ifs at h
    · exact delimits_parseProtocolHeader.bounded h
    · exact delimits_parseGeneral.bounded h
  stable := by
    intro bs more tail
    have hne : bs ≠ [] := by
      rintro rfl
      exact more (some headerLength) rfl
    unfold parse at more ⊢
    rw [List.head?_append_of_ne_nil _ hne]
    split_ifs at more ⊢
    · exact delimits_parseProtocolHeader.stable more tail
    · exact delimits_parseGeneral.stable more tail

end Amqp.Frame

theorem Amqp.delimited : Amqp.dialect.Delimited :=
  Delimits.dialect (fun _ => Amqp.Frame.delimits_parse) fun _ _ _ => rfl

/-! ## MySQL -/

namespace Mysql.Packet

theorem header?_append (dir : Direction) {bs : Bytes} (h : 5 ≤ bs.length) (tail : Bytes) :
    header? dir (bs ++ tail) = header? dir bs := by
  -- four bytes of header and the command, which is looked at as well
  match bs, h with
  | _ :: _ :: _ :: _ :: _ :: _, _ => rfl

theorem delimits_parse (dir : Direction) : Delimits (parse dir) where
  bounded := by
    intro bs frame n h
    unfold parse at h
    split_ifs at h with short
    split at h
    · cases h
    · split_ifs at h with whole
      obtain ⟨-, rfl⟩ := Parsed.complete.inj h
      rw [atLeast_iff] at whole
      simp only [headerLength] at whole ⊢
      omega
  stable := by
    intro bs more tail
    unfold parse at more ⊢
    split_ifs at more with short
    · exact absurd rfl (more _)
    · have started := atLeast_of_not short
      simp only [started, atLeast_append started tail]
      rw [header?_append dir (atLeast_iff.1 started)]
      split at more
      · rfl
      · split_ifs at more with whole
        · simp only [whole, atLeast_append whole tail, slice_append (atLeast_iff.1 whole) tail]
        · exact absurd rfl (more _)

end Mysql.Packet

theorem Mysql.delimited : Mysql.dialect.Delimited :=
  Delimits.dialect Mysql.Packet.delimits_parse fun _ _ _ => rfl

/-! ## Mux -/

namespace Mux.Message

theorem header?_append {bs : Bytes} (h : headerLength ≤ bs.length) (tail : Bytes) :
    header? (bs ++ tail) = header? bs := by
  match bs, h with
  | _ :: _ :: _ :: _ :: _ :: _ :: _ :: _ :: _, _ => rfl

/-- A header counts at least itself. -/
theorem headerLength_le_of_header? {bs : Bytes} {length : Nat} {kind : Kind} {tag : Nat}
    (h : header? bs = some (length, kind, tag)) : headerLength ≤ length := by
  unfold header? at h
  split at h
  · simp only [Option.bind_eq_bind, Option.bind_eq_some_iff, Option.guard_eq_some', Option.pure_def,
      Option.some.injEq, Prod.mk.injEq] at h
    obtain ⟨-, range, -, -, rfl, -⟩ := h
    simp only [minSize, headerLength] at range ⊢
    omega
  · cases h

theorem delimits_parse : Delimits parse where
  bounded := by
    intro bs frame n h
    unfold parse at h
    split_ifs at h with short
    split at h
    · cases h
    · next hheader =>
      split_ifs at h with whole
      obtain ⟨-, rfl⟩ := Parsed.complete.inj h
      rw [atLeast_iff] at whole
      have := headerLength_le_of_header? hheader
      simp only [headerLength] at this
      omega
  stable := by
    intro bs more tail
    unfold parse at more ⊢
    split_ifs at more with short
    · exact absurd rfl (more _)
    · have started := atLeast_of_not short
      simp only [started, atLeast_append started tail]
      rw [header?_append (atLeast_iff.1 started)]
      split at more
      · rfl
      · next hheader =>
        split_ifs at more with whole
        · have := headerLength_le_of_header? hheader
          have := atLeast_iff.1 whole
          simp only [whole, atLeast_append whole tail]
          rw [slice_append (by omega)]
        · exact absurd rfl (more _)

end Mux.Message

theorem Mux.delimited : Mux.dialect.Delimited :=
  Delimits.dialect (fun _ => Mux.Message.delimits_parse) fun _ _ _ => rfl

/-! ## Kafka -/

namespace Kafka.Packet

theorem messageLength?_append (dir : Direction) {bs : Bytes} (h : prefixLength ≤ bs.length)
    (tail : Bytes) : messageLength? dir (bs ++ tail) = messageLength? dir bs := by
  match bs, h with
  | _ :: _ :: _ :: _ :: _, _ => rfl

theorem delimits_parse (dir : Direction) : Delimits (parse dir) where
  bounded := by
    intro bs frame n h
    unfold parse at h
    split_ifs at h with short
    split at h
    · cases h
    · split_ifs at h with cut
      split at h
      · cases h
      · obtain ⟨-, rfl⟩ := Parsed.complete.inj h
        have whole := atLeast_iff.1 (atLeast_of_not cut)
        simp only [prefixLength] at whole ⊢
        omega
  stable := by
    intro bs more tail
    unfold parse at more ⊢
    split_ifs at more with short
    · exact absurd rfl (more _)
    · have started := atLeast_of_not short
      simp only [started, atLeast_append started tail]
      rw [messageLength?_append dir (atLeast_iff.1 started)]
      split at more
      · rfl
      · split_ifs at more with cut
        · exact absurd rfl (more _)
        · have whole := atLeast_of_not cut
          simp only [whole, atLeast_append whole tail, slice_append (atLeast_iff.1 whole) tail]

theorem fst_parseAndRemember (dir : Direction) (seen : Seen) (bs : Bytes) :
    (parseAndRemember dir seen bs).1 = parse dir bs := by
  unfold parseAndRemember
  dsimp only
  split <;> rfl

end Kafka.Packet

/-- The identifiers change with a whole request only. -/
theorem Kafka.delimited : Kafka.dialect.Delimited where
  bounded := by
    intro dir seen bs frame n h
    have hparse := Kafka.Packet.fst_parseAndRemember dir seen bs
    exact (Kafka.Packet.delimits_parse dir).bounded (hparse.symm.trans h)
  stable := by
    intro dir seen bs more tail
    have hsame := (Kafka.Packet.delimits_parse dir).stable
      (fun m => Kafka.Packet.fst_parseAndRemember dir seen bs ▸ more m) tail
    show Kafka.Packet.parseAndRemember dir seen (bs ++ tail)
      = Kafka.Packet.parseAndRemember dir seen bs
    unfold Kafka.Packet.parseAndRemember
    rw [hsame]
  idle := by
    intro dir seen bs m h
    have hmore : Kafka.Packet.parse dir bs = .needMore m :=
      (Kafka.Packet.fst_parseAndRemember dir seen bs).symm.trans h
    show (Kafka.Packet.parseAndRemember dir seen bs).2 = seen
    unfold Kafka.Packet.parseAndRemember
    rw [hmore]
    cases dir <;> rfl

/-! ## HTTP/2 -/

namespace Http2.Frame

variable {Table : Type} (decode : Decoder Table) (dir : Direction) (state : State Table)

theorem read?_append {bs : Bytes} {h : FrameHeader} (hread : FrameHeader.read? bs = some h)
    (tail : Bytes) : FrameHeader.read? (bs ++ tail) = some h := by
  unfold FrameHeader.read? at hread ⊢
  split at hread
  · exact hread
  · cases hread

theorem parseFramed_append {bs : Bytes}
    (more : ∀ m, (parseFramed decode dir state bs).1 ≠ .needMore m) (tail : Bytes) :
    parseFramed decode dir state (bs ++ tail) = parseFramed decode dir state bs := by
  unfold parseFramed at more ⊢
  split at more
  · exact absurd rfl (more _)
  · next h hread =>
    rw [read?_append hread tail]
    dsimp only
    split at more
    · rfl
    · split_ifs at more with cut
      · exact absurd rfl (more _)
      · have whole := atLeast_of_not cut
        simp only [whole, atLeast_append whole tail]
        rw [slice_append (atLeast_iff.1 whole)]

theorem bounded_parseFramed {bs : Bytes} {frame : Frame} {n : Nat}
    (h : (parseFramed decode dir state bs).1 = .complete frame n) : 0 < n ∧ n ≤ bs.length := by
  unfold parseFramed at h
  split at h
  · cases h
  · split at h
    · cases h
    · split_ifs at h with cut
      split at h
      · cases h
      · obtain ⟨-, rfl⟩ := Parsed.complete.inj h
        have whole := atLeast_iff.1 (atLeast_of_not cut)
        simp only [FrameHeader.frameLength, FrameHeader.size] at whole ⊢
        omega

theorem idle_parseFramed {bs : Bytes} {m : Option Nat}
    (h : (parseFramed decode dir state bs).1 = .needMore m) :
    (parseFramed decode dir state bs).2 = state := by
  unfold parseFramed at h ⊢
  split at h
  · rfl
  · split at h
    · cases h
    · split_ifs at h ⊢
      · rfl
      · split at h <;> cases h

/-- Bytes that have parted from the preface of a client do not come back to it. -/
theorem preface_append {bs : Bytes} (past : ¬ preface <+: bs) (ahead : ¬ bs <+: preface)
    (tail : Bytes) : ¬ preface <+: bs ++ tail ∧ ¬ bs ++ tail <+: preface := by
  constructor
  · intro h
    rcases List.prefix_or_prefix_of_prefix h (List.prefix_append bs tail) with h | h
    · exact past h
    · exact ahead h
  · intro h
    exact ahead ((List.prefix_append bs tail).trans h)

theorem parse_append {bs : Bytes} (more : ∀ m, (parse decode dir state bs).1 ≠ .needMore m)
    (tail : Bytes) : parse decode dir state (bs ++ tail) = parse decode dir state bs := by
  have hne : bs ≠ [] := by
    rintro rfl
    refine more (some FrameHeader.size) ?_
    simp [parse, parseFramed, FrameHeader.read?]
  have hempty : bs.isEmpty = false := by rwa [List.isEmpty_eq_false_iff]
  have hempty' : (bs ++ tail).isEmpty = false := by simp [hne]
  unfold parse at more ⊢
  dsimp only at more ⊢
  simp only [hempty, hempty', and_true, List.isPrefixOf_iff_prefix] at more ⊢
  split_ifs at more with opens within
  · rw [if_pos opens, if_pos ⟨opens.1, opens.2.trans (List.prefix_append bs tail)⟩]
  · exact absurd rfl (more _)
  · -- No more bytes turn these into the preface, so the same reader is asked again.
    rw [if_neg opens, if_neg within]
    by_cases hdir : dir = .request
    · obtain ⟨past, ahead⟩ :=
        preface_append (fun h => opens ⟨hdir, h⟩) (fun h => within ⟨hdir, h⟩) tail
      rw [if_neg (fun h => past h.2), if_neg (fun h => ahead h.2)]
      exact parseFramed_append decode dir state more tail
    · rw [if_neg (fun h => hdir h.1), if_neg (fun h => hdir h.1)]
      exact parseFramed_append decode dir state more tail

theorem bounded_parse {bs : Bytes} {frame : Frame} {n : Nat}
    (h : (parse decode dir state bs).1 = .complete frame n) : 0 < n ∧ n ≤ bs.length := by
  unfold parse at h
  dsimp only at h
  split_ifs at h with opens within
  · obtain ⟨-, rfl⟩ := Parsed.complete.inj h
    exact ⟨by decide, (List.isPrefixOf_iff_prefix.1 opens.2).length_le⟩
  · exact bounded_parseFramed decode dir state h

theorem idle_parse {bs : Bytes} {m : Option Nat}
    (h : (parse decode dir state bs).1 = .needMore m) : (parse decode dir state bs).2 = state := by
  unfold parse at h ⊢
  dsimp only at h ⊢
  split_ifs at h ⊢
  · rfl
  · exact idle_parseFramed decode dir state h

end Http2.Frame

theorem Http2.delimited (d : Http2.Decompressor) : (Http2.dialect d).Delimited where
  bounded := Http2.Frame.bounded_parse _ _ _
  stable := Http2.Frame.parse_append _ _ _
  idle := Http2.Frame.idle_parse _ _ _

end Dialogue
