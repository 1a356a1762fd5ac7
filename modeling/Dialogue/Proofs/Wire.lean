import Mathlib
import Dialogue.Proofs.Announced
import Dialogue.Proofs.Intake
import Dialogue.Proofs.Wire.Words

/-!
Frames as they are written.

A `Wire` says which frames a direction may carry and how each of them is written, from its fields
alone. A dialect is `Lossless` if its reader and such a wire undo each other: frames written one
behind the other are read back to the last byte, and a frame that was read is written with the very
bytes it was read from. Since these readers are `Delimited`, it is enough to read one frame alone
(`Lossless.of_frames`). The carried frames are then exactly those that can be read, so none of the
limits is stricter or looser than the reader's.
-/
namespace Dialogue

/-- How the frames of a protocol are written. -/
structure Wire (F : Type) where
  /-- The frames that a direction may carry. -/
  Carries : Direction → F → Prop
  write : Direction → F → Bytes

/-- The frames read one behind the other from a byte string, as long as one can be read; the bytes
that are left over, and what is remembered then. -/
def Dialect.unpack (d : Dialect) (dir : Direction) (σ : d.State) (bs : Bytes) :
    List d.Frame × Bytes × d.State :=
  match d.parse dir σ bs with
  | (.complete frame n, σ') =>
    if h : 0 < n ∧ n ≤ bs.length then
      have : (bs.drop n).length < bs.length := by
        rw [List.length_drop]
        omega
      let later := d.unpack dir σ' (bs.drop n)
      (frame :: later.1, later.2)
    else ([], bs, σ)
  | _ => ([], bs, σ)
termination_by bs.length

section
variable {d : Dialect} {dir : Direction} {σ σ' : d.State}

/-- A frame that stands in front is read first. -/
theorem Dialect.unpack_append {m rest : Bytes} {frame : d.Frame} (some : m ≠ [])
    (read : d.parse dir σ (m ++ rest) = (.complete frame m.length, σ')) :
    d.unpack dir σ (m ++ rest) =
      (frame :: (d.unpack dir σ' rest).1, (d.unpack dir σ' rest).2) := by
  have within : 0 < m.length ∧ m.length ≤ (m ++ rest).length := by
    rw [List.length_append]
    exact ⟨List.length_pos_of_ne_nil some, Nat.le_add_right ..⟩
  rw [unpack, read]
  dsimp only
  rw [dif_pos within, List.drop_left]

/-- Where no frame can be read from no bytes, nothing is. -/
theorem Dialect.unpack_nil (nothing : ∀ frame n, (d.parse dir σ []).1 ≠ .complete frame n) :
    d.unpack dir σ [] = ([], [], σ) := by
  rw [unpack]
  split
  · next parsed => exact absurd (congrArg Prod.fst parsed) (nothing _ _)
  · rfl

end

/-- Reading and writing undo each other. -/
structure Dialect.Lossless (d : Dialect) (w : Wire d.Frame) : Prop where
  /-- Frames written one behind the other are read back, and no byte is left over. -/
  unpack_write : ∀ (dir : Direction) (σ : d.State) (frames : List d.Frame),
    (∀ f ∈ frames, w.Carries dir f) →
      (d.unpack dir σ (frames.flatMap (w.write dir))).1 = frames ∧
        (d.unpack dir σ (frames.flatMap (w.write dir))).2.1 = []
  /-- A frame that was read is one that may be carried, written as it was read. -/
  write_of_parse : ∀ (dir : Direction) (σ : d.State) (bs : Bytes) (frame : d.Frame) (n : Nat),
    (d.parse dir σ bs).1 = .complete frame n → w.Carries dir frame ∧ w.write dir frame = bs.take n

theorem Dialect.Lossless.of_frames {d : Dialect} {w : Wire d.Frame} (hd : d.Delimited)
    (read : ∀ {dir : Direction} (σ : d.State) {frame : d.Frame}, w.Carries dir frame →
      (d.parse dir σ (w.write dir frame)).1 = .complete frame (w.write dir frame).length)
    (written : ∀ {dir : Direction} {σ : d.State} {bs : Bytes} {frame : d.Frame} {n : Nat},
      (d.parse dir σ bs).1 = .complete frame n →
        w.Carries dir frame ∧ w.write dir frame = bs.take n) : d.Lossless w where
  unpack_write := by
    intro dir σ frames carried
    induction frames generalizing σ with
    | nil =>
      have nothing : ∀ frame n, (d.parse dir σ []).1 ≠ .complete frame n := by
        intro frame n complete
        have bounds := hd.bounded complete
        simp at bounds
        omega
      rw [List.flatMap_nil, unpack_nil nothing]
      exact ⟨rfl, rfl⟩
    | cons f fs ih =>
      have first := read σ (carried f List.mem_cons_self)
      have some : w.write dir f ≠ [] := List.ne_nil_of_length_pos (hd.bounded first).1
      -- What follows a frame does not change how it is read.
      have parsed : d.parse dir σ (w.write dir f ++ fs.flatMap (w.write dir)) =
          (.complete f (w.write dir f).length, (d.parse dir σ (w.write dir f)).2) := by
        rw [hd.parse_append first]
        exact Prod.ext first rfl
      have later := ih (d.parse dir σ (w.write dir f)).2 fun g hg =>
        carried g (List.mem_cons_of_mem f hg)
      rw [List.flatMap_cons, unpack_append some parsed, later.1]
      exact ⟨rfl, later.2⟩
  write_of_parse := fun _ _ _ _ _ => written

theorem exists_bigBytes_two (value : Nat) : ∃ a b, bigBytes 2 value = [a, b] := ⟨_, _, rfl⟩

theorem exists_bigBytes_three (value : Nat) : ∃ a b c, bigBytes 3 value = [a, b, c] :=
  ⟨_, _, _, rfl⟩

theorem exists_bigBytes_four (value : Nat) : ∃ a b c d, bigBytes 4 value = [a, b, c, d] :=
  ⟨_, _, _, _, rfl⟩

theorem exists_four_of_le {bs : Bytes} (long : 4 ≤ bs.length) :
    ∃ a b c d rest, bs = a :: b :: c :: d :: rest := by
  rcases bs with _ | ⟨a, _ | ⟨b, _ | ⟨c, _ | ⟨d, rest⟩⟩⟩⟩
  case cons.cons.cons.cons => exact ⟨a, b, c, d, rest, rfl⟩
  all_goals simp at long

/-- What begins with a header and is long enough is cut behind the header. -/
theorem take_header {header : Bytes} {k : Nat} (long : header.length ≤ k) (rest : Bytes) :
    (header ++ rest).take k = header ++ rest.take (k - header.length) := by
  rw [List.take_append, List.take_of_length_le long]

theorem atLeast_length (bs : Bytes) : atLeast bs.length bs = true := atLeast_iff.2 (Nat.le_refl _)

/-! ## Postgres -/

namespace Postgres.Message

/-- The messages that a direction may carry: those with a tag of the direction, and what a client
sends first. -/
inductive Carried : Direction → Message → Prop
  | tagged {dir : Direction} {m : Message} (known : m.tag ∈ Tag.known dir)
      (fits : m.length ≤ maxLength) : Carried dir m
  | startup {m : Message} (untagged : m.tag = Tag.startup)
      (code : bigEndian (m.payload.take 4) ∈ startupCodes) (lower : minStartup ≤ m.length)
      (upper : m.length ≤ maxStartup) : Carried .request m

/-- A message as it is written; the tag of a startup message is left out. -/
def write (m : Message) : Bytes :=
  (if m.tag = Tag.startup then [] else [m.tag]) ++ bigBytes 4 m.length ++ m.payload

def wire : Wire Message where
  Carries := Carried
  write _ := write

theorem ne_startup_of_known {dir : Direction} {tag : UInt8} (known : tag ∈ Tag.known dir) :
    tag ≠ Tag.startup := by
  rintro rfl
  have unknown := startup_unknown dir
  rw [List.contains_eq_mem, decide_eq_false_iff_not] at unknown
  exact unknown known

theorem parse_write {dir : Direction} {m : Message} (carried : Carried dir m) :
    parse dir m.write = .complete m m.write.length := by
  obtain ⟨l₃, l₂, l₁, l₀, digits⟩ := exists_bigBytes_four m.length
  have number (fits : m.length < 256 ^ 4) : bigEndian [l₃, l₂, l₁, l₀] = m.length := by
    rw [← digits, bigEndian_bigBytes fits]
  cases carried with
  | tagged known fits =>
    have tagged := ne_startup_of_known known
    have first : m.write = m.tag :: l₃ :: l₂ :: l₁ :: l₀ :: m.payload := by
      rw [write, if_neg tagged, digits]
      rfl
    have number := number (Nat.lt_of_le_of_lt fits (by decide))
    have range : ¬ (m.length < 4 ∨ maxLength < m.length) := by
      simp only [length] at fits ⊢
      omega
    have rest : m.length - 4 = m.payload.length := Nat.add_sub_cancel ..
    rw [first, parse, if_neg (by rintro ⟨-, same⟩; exact tagged (Option.some.inj same)),
      parseTagged]
    simp only [number, List.contains_eq_mem, known, range, rest, atLeast_length, List.take_length,
      List.length_cons, decide_true, Bool.not_true, Bool.false_eq_true, if_false, if_true]
    rfl
  | startup untagged code lower upper =>
    have long : 4 ≤ m.payload.length := by
      unfold minStartup length at lower
      omega
    obtain ⟨c₃, c₂, c₁, c₀, payload, hpayload⟩ := exists_four_of_le long
    have first : m.write = l₃ :: l₂ :: l₁ :: l₀ :: c₃ :: c₂ :: c₁ :: c₀ :: payload := by
      rw [write, if_pos untagged, digits, hpayload]
      rfl
    have number := number (Nat.lt_of_le_of_lt upper (by decide))
    -- A startup message is so short that the first byte of its length is zero.
    have zero : l₃ = 0 := by
      have short : bigEndian [l₃, l₂, l₁, l₀] ≤ maxStartup := number ▸ upper
      simp only [bigEndian, List.foldl_cons, List.foldl_nil, maxStartup] at short
      apply UInt8.toNat_inj.1
      show l₃.toNat = 0
      omega
    have code : bigEndian [c₃, c₂, c₁, c₀] ∈ startupCodes := by
      rw [hpayload] at code
      exact code
    have range : ¬ (m.length < minStartup ∨ maxStartup < m.length) := by omega
    have rest : m.length - 8 = payload.length := by
      rw [length, hpayload]
      simp only [List.length_cons]
      omega
    have size : m.length = (l₃ :: l₂ :: l₁ :: l₀ :: m.payload).length := rfl
    rw [first, parse, if_pos ⟨rfl, by rw [zero]; rfl⟩, parseStartup]
    simp only [number, List.contains_eq_mem, code, range, rest, atLeast_length, List.take_length,
      decide_true, Bool.not_true, Bool.false_eq_true, if_false, if_true]
    rw [← hpayload, ← size, ← untagged]

theorem write_of_parseTagged {dir : Direction} {bs : Bytes} {m : Message} {n : Nat}
    (h : parseTagged dir bs = .complete m n) : Carried dir m ∧ m.write = bs.take n := by
  unfold parseTagged at h
  split at h
  · next tag l₃ l₂ l₁ l₀ rest =>
    dsimp only at h
    split_ifs at h with unknown range whole
    obtain ⟨rfl, rfl⟩ := Parsed.complete.inj h
    have known : tag ∈ Tag.known dir := by simpa using unknown
    have size : length ⟨tag, rest.take (bigEndian [l₃, l₂, l₁, l₀] - 4)⟩ =
        bigEndian [l₃, l₂, l₁, l₀] := by
      rw [atLeast_iff] at whole
      simp only [length, List.length_take]
      omega
    refine ⟨.tagged known (by omega), ?_⟩
    obtain ⟨k, total⟩ : ∃ k, bigEndian [l₃, l₂, l₁, l₀] = k + 4 :=
      ⟨_, (Nat.sub_add_cancel (by omega)).symm⟩
    have digits : bigBytes 4 (bigEndian [l₃, l₂, l₁, l₀]) = [l₃, l₂, l₁, l₀] :=
      bigBytes_bigEndian rfl
    rw [write, if_neg (ne_startup_of_known known), size, digits, total]
    rfl
  · cases h

theorem write_of_parseStartup {bs : Bytes} {m : Message} {n : Nat}
    (h : parseStartup bs = .complete m n) : Carried .request m ∧ m.write = bs.take n := by
  unfold parseStartup at h
  split at h
  · next l₃ l₂ l₁ l₀ c₃ c₂ c₁ c₀ rest =>
    dsimp only at h
    split_ifs at h with unknown range whole
    obtain ⟨rfl, rfl⟩ := Parsed.complete.inj h
    have code : bigEndian [c₃, c₂, c₁, c₀] ∈ startupCodes := by simpa using unknown
    have size : length ⟨Tag.startup,
        c₃ :: c₂ :: c₁ :: c₀ :: rest.take (bigEndian [l₃, l₂, l₁, l₀] - 8)⟩ =
          bigEndian [l₃, l₂, l₁, l₀] := by
      rw [atLeast_iff] at whole
      simp only [length, List.length_cons, List.length_take, minStartup] at range ⊢
      omega
    refine ⟨.startup rfl code (by omega) (by omega), ?_⟩
    obtain ⟨k, total⟩ : ∃ k, bigEndian [l₃, l₂, l₁, l₀] = k + 8 := by
      refine ⟨_, (Nat.sub_add_cancel ?_).symm⟩
      rw [not_or, Nat.not_lt] at range
      exact range.1
    have digits : bigBytes 4 (bigEndian [l₃, l₂, l₁, l₀]) = [l₃, l₂, l₁, l₀] :=
      bigBytes_bigEndian rfl
    rw [write, if_pos rfl, size, digits, total]
    rfl
  · cases h

theorem write_of_parse {dir : Direction} {bs : Bytes} {m : Message} {n : Nat}
    (h : parse dir bs = .complete m n) : Carried dir m ∧ m.write = bs.take n := by
  unfold parse at h
  split_ifs at h with opens
  · obtain ⟨rfl, -⟩ := opens
    exact write_of_parseStartup h
  · exact write_of_parseTagged h

end Postgres.Message

theorem Postgres.lossless : Postgres.dialect.Lossless Postgres.Message.wire :=
  .of_frames Postgres.delimited (fun _ => Postgres.Message.parse_write)
    Postgres.Message.write_of_parse

/-! ## Cassandra -/

namespace Cql.Frame

/-- The frames that a direction may carry. -/
structure Carried (dir : Direction) (f : Frame) : Prop where
  version : 3 ≤ f.version ∧ f.version ≤ 5
  stream : -0x8000 ≤ f.stream ∧ f.stream < 0x8000
  opcode : f.opcode.direction = dir
  fits : f.body.length ≤ maxBody

/-- The first byte of a frame, whose top bit tells the direction. -/
def firstByte (version : UInt8) : Direction → UInt8
  | .request => version
  | .response => version ||| 0x80

def write (dir : Direction) (f : Frame) : Bytes :=
  [firstByte f.version dir, f.flags] ++ bigBytes 2 (word 16 f.stream) ++ [f.opcode.code] ++
    bigBytes 4 f.body.length ++ f.body

def wire : Wire Frame where
  Carries := Carried
  write := write

theorem firstByte_spec (dir : Direction) :
    ∀ version : UInt8, 3 ≤ version ∧ version ≤ 5 →
      directionOf (firstByte version dir) = dir ∧ firstByte version dir &&& 0x7F = version := by
  cases dir <;> decide +kernel

theorem firstByte_directionOf :
    ∀ first : UInt8, firstByte (first &&& 0x7F) (directionOf first) = first := by
  decide +kernel

theorem checkHeader_write {dir : Direction} {f : Frame} (carried : Carried dir f) :
    checkHeader dir (firstByte f.version dir) f.opcode.code f.body.length = .ok f.opcode := by
  obtain ⟨direction, version⟩ := firstByte_spec dir f.version carried.version
  have supported : ¬ (f.version < 3 ∨ 5 < f.version) := by
    rw [not_or, UInt8.not_lt, UInt8.not_lt]
    exact carried.version
  unfold checkHeader
  rw [direction, version, if_neg (not_not_intro rfl), if_neg supported, Opcode.ofCode?_code]
  dsimp only
  rw [if_neg (not_not_intro carried.opcode), if_neg (Nat.not_lt.2 carried.fits)]

theorem parse_write {dir : Direction} {f : Frame} (carried : Carried dir f) :
    parse dir (f.write dir) = .complete f (f.write dir).length := by
  obtain ⟨s₁, s₀, stream⟩ := exists_bigBytes_two (word 16 f.stream)
  obtain ⟨l₃, l₂, l₁, l₀, digits⟩ := exists_bigBytes_four f.body.length
  have number : bigEndian [l₃, l₂, l₁, l₀] = f.body.length := by
    rw [← digits, bigEndian_bigBytes (Nat.lt_of_le_of_lt carried.fits (by decide))]
  have signed : twosComplement 16 (bigEndian [s₁, s₀]) = f.stream := by
    rw [← stream, bigEndian_bigBytes (word_lt carried.stream.1 carried.stream.2 (by decide)),
      twosComplement_word carried.stream.1 carried.stream.2 (by decide)]
  have first : f.write dir = firstByte f.version dir :: f.flags :: s₁ :: s₀ :: f.opcode.code ::
      l₃ :: l₂ :: l₁ :: l₀ :: f.body := by
    rw [write, stream, digits]
    rfl
  have version := (firstByte_spec dir f.version carried.version).2
  rw [first, parse]
  simp only [number, checkHeader_write carried, atLeast_length, if_true, List.take_length, signed,
    version, List.length_cons, headerLength]
  congr 1
  omega

theorem carried_of_checkHeader {dir : Direction} {first code : UInt8} {length : Nat}
    {opcode : Opcode} (h : checkHeader dir first code length = .ok opcode) :
    directionOf first = dir ∧ (3 ≤ first &&& 0x7F ∧ first &&& 0x7F ≤ 5) ∧ opcode.code = code ∧
      opcode.direction = dir ∧ length ≤ maxBody := by
  unfold checkHeader at h
  split at h
  · cases h
  · next direction =>
    split at h
    · cases h
    · next version =>
      split at h
      · cases h
      · next found =>
        split_ifs at h with sends long
        obtain rfl := Except.ok.inj h
        rw [not_or, UInt8.not_lt, UInt8.not_lt] at version
        have same := List.find?_some found
        rw [beq_iff_eq] at same
        exact ⟨not_not.1 direction, version, same, not_not.1 sends, Nat.not_lt.1 long⟩

theorem write_of_parse {dir : Direction} {bs : Bytes} {f : Frame} {n : Nat}
    (h : parse dir bs = .complete f n) : Carried dir f ∧ f.write dir = bs.take n := by
  unfold parse at h
  split at h
  · next first flags s₁ s₀ code l₃ l₂ l₁ l₀ rest =>
    dsimp only at h
    split at h
    · cases h
    · next opcode checked =>
      split_ifs at h with whole
      obtain ⟨rfl, rfl⟩ := Parsed.complete.inj h
      rw [atLeast_iff] at whole
      obtain ⟨rfl, version, rfl, sends, fits⟩ := carried_of_checkHeader checked
      have short : bigEndian [s₁, s₀] < 2 ^ 16 := by simpa using bigEndian_lt [s₁, s₀]
      have signed : -0x8000 ≤ twosComplement 16 (bigEndian [s₁, s₀]) ∧
          twosComplement 16 (bigEndian [s₁, s₀]) < 0x8000 := by
        simpa using twosComplement_bounds short (by decide)
      have size : (rest.take (bigEndian [l₃, l₂, l₁, l₀])).length = bigEndian [l₃, l₂, l₁, l₀] := by
        rw [List.length_take, Nat.min_eq_left whole]
      have stream : bigBytes 2 (word 16 (twosComplement 16 (bigEndian [s₁, s₀]))) = [s₁, s₀] := by
        rw [word_twosComplement short (by decide)]
        exact bigBytes_bigEndian rfl
      have digits : bigBytes 4 (bigEndian [l₃, l₂, l₁, l₀]) = [l₃, l₂, l₁, l₀] :=
        bigBytes_bigEndian rfl
      refine ⟨⟨version, signed, sends, by rwa [size]⟩, ?_⟩
      simp only [write, firstByte_directionOf, size, stream, digits, headerLength, Nat.add_comm 9,
        List.take_succ_cons]
      rfl
  · cases h

end Cql.Frame

theorem Cql.lossless : Cql.dialect.Lossless Cql.Frame.wire :=
  .of_frames Cql.delimited (fun _ => Cql.Frame.parse_write) Cql.Frame.write_of_parse

/-! ## MySQL -/

namespace Mysql.Packet

/-- The packets that a direction may carry: the first of a command names it. -/
structure Carried (dir : Direction) (p : Packet) : Prop where
  filled : p.payload ≠ []
  fits : p.payload.length < 2 ^ 24
  command : dir = .request → p.sequence = 0 → ∀ c, p.payload.head? = some c → c ≤ Command.last

def write (p : Packet) : Bytes := littleBytes 3 p.payload.length ++ [p.sequence] ++ p.payload

def wire : Wire Packet where
  Carries := Carried
  write _ := write

theorem parse_write {dir : Direction} {p : Packet} (carried : Carried dir p) :
    parse dir p.write = .complete p p.write.length := by
  obtain ⟨l₀, l₁, l₂, digits⟩ : ∃ l₀ l₁ l₂, littleBytes 3 p.payload.length = [l₀, l₁, l₂] :=
    ⟨_, _, _, rfl⟩
  have number : littleEndian [l₀, l₁, l₂] = p.payload.length := by
    rw [← digits, littleEndian_littleBytes carried.fits]
  have pos : 0 < p.payload.length := List.length_pos_of_ne_nil carried.filled
  have first : p.write = l₀ :: l₁ :: l₂ :: p.sequence :: p.payload := by
    rw [write, digits]
    rfl
  have size : p.write.length = headerLength + p.payload.length := by
    rw [first, headerLength]
    simp only [List.length_cons]
    omega
  have header : header? dir p.write = some (p.payload.length, p.sequence) := by
    have named : ¬ (dir = .request ∧ p.sequence = 0 ∧
        p.payload.head?.any (Command.last < ·) = true) := by
      rintro ⟨asked, starts, unknown⟩
      rw [Option.any_eq_true] at unknown
      obtain ⟨c, hc, later⟩ := unknown
      have known := carried.command asked starts c hc
      exact absurd (of_decide_eq_true later) (UInt8.not_lt.2 known)
    rw [first, header?]
    simp only [number, Nat.ne_of_gt pos, named, if_false]
  have body : slice p.write headerLength p.payload.length = p.payload := by
    rw [first]
    exact List.take_length
  have started : atLeast (headerLength + 1) p.write = true := atLeast_iff.2 (by omega)
  have whole : atLeast (headerLength + p.payload.length) p.write = true := atLeast_iff.2 (by omega)
  simp only [parse, started, header, whole, body, size, Bool.not_true, Bool.false_eq_true, if_false,
    if_true]

/-- A credible header stands for a packet that may be carried, as far as it tells. -/
theorem header?_spec {dir : Direction} {bs : Bytes} {length : Nat} {sequence : UInt8}
    (h : header? dir bs = some (length, sequence)) :
    ∃ rest, bs = littleBytes 3 length ++ [sequence] ++ rest ∧ 0 < length ∧ length < 2 ^ 24 ∧
      (dir = .request → sequence = 0 → ∀ c, rest.head? = some c → c ≤ Command.last) := by
  unfold header? at h
  split at h
  · next l₀ l₁ l₂ first rest =>
    dsimp only at h
    split_ifs at h with empty unknown
    obtain ⟨rfl, rfl⟩ := Prod.mk.inj (Option.some.inj h)
    have digits : littleBytes 3 (littleEndian [l₀, l₁, l₂]) = [l₀, l₁, l₂] :=
      littleBytes_littleEndian [l₀, l₁, l₂]
    refine ⟨rest, by rw [digits]; rfl, Nat.pos_of_ne_zero empty, ?_, ?_⟩
    · simpa using littleEndian_lt [l₀, l₁, l₂]
    · intro asked starts c hc
      by_contra later
      refine unknown ⟨asked, starts, ?_⟩
      rw [hc]
      exact decide_eq_true (UInt8.not_le.1 later)
  · cases h

theorem write_of_parse {dir : Direction} {bs : Bytes} {p : Packet} {n : Nat}
    (h : parse dir bs = .complete p n) : Carried dir p ∧ p.write = bs.take n := by
  unfold parse at h
  split_ifs at h
  split at h
  · cases h
  · next length sequence header =>
    split_ifs at h with whole
    obtain ⟨rfl, rfl⟩ := Parsed.complete.inj h
    rw [atLeast_iff] at whole
    obtain ⟨rest, rfl, pos, fits, command⟩ := header?_spec header
    have before : (littleBytes 3 length ++ [sequence]).length = headerLength := by
      rw [List.length_append, length_littleBytes]
      rfl
    have body : slice (littleBytes 3 length ++ [sequence] ++ rest) headerLength length =
        rest.take length := by
      rw [slice, ← before, List.drop_left]
    have long : length ≤ rest.length := by
      rw [List.length_append, before] at whole
      omega
    have size : (rest.take length).length = length := by rw [List.length_take, Nat.min_eq_left long]
    have head : (rest.take length).head? = rest.head? := by
      rw [List.head?_take, if_neg (Nat.ne_of_gt pos)]
    rw [body]
    refine ⟨⟨?_, by rwa [size], ?_⟩, ?_⟩
    · rw [← List.length_pos_iff, size]
      exact pos
    · rw [head]
      exact command
    · rw [write, size, take_header (by omega), before, Nat.add_sub_cancel_left]

end Mysql.Packet

theorem Mysql.lossless : Mysql.dialect.Lossless Mysql.Packet.wire :=
  .of_frames Mysql.delimited (fun _ => Mysql.Packet.parse_write) Mysql.Packet.write_of_parse

/-! ## Mux -/

namespace Mux.Message

/-- The messages that may be carried, in either direction. -/
structure Carried (m : Message) : Prop where
  tag : m.tag < 2 ^ 24
  fits : (m.body.length : Int) + 4 ≤ maxSize

def write (m : Message) : Bytes :=
  bigBytes 4 (m.body.length + 4) ++ [UInt8.ofNat (word 8 m.kind.code)] ++ bigBytes 3 m.tag ++ m.body

def wire : Wire Message where
  Carries _ := Carried
  write _ := write

theorem twosComplement_code (k : Kind) :
    twosComplement 8 (UInt8.ofNat (word 8 k.code)).toNat = k.code := by
  cases k <;> decide

theorem parse_write {m : Message} (carried : Carried m) :
    parse m.write = .complete m m.write.length := by
  obtain ⟨l₃, l₂, l₁, l₀, digits⟩ := exists_bigBytes_four (m.body.length + 4)
  obtain ⟨t₂, t₁, t₀, tag⟩ := exists_bigBytes_three m.tag
  have small : m.body.length + 4 ≤ 16 * 1024 * 1024 := by
    have fits := carried.fits
    unfold maxSize at fits
    omega
  have number : twosComplement 32 (bigEndian [l₃, l₂, l₁, l₀]) = (m.body.length + 4 : Nat) := by
    rw [← digits, bigEndian_bigBytes (by omega), twosComplement_of_lt (by omega)]
  have tagged : bigEndian [t₂, t₁, t₀] = m.tag := by
    rw [← tag, bigEndian_bigBytes carried.tag]
  have first : m.write = l₃ :: l₂ :: l₁ :: l₀ :: UInt8.ofNat (word 8 m.kind.code) :: t₂ :: t₁ ::
      t₀ :: m.body := by
    rw [write, digits, tag]
    rfl
  have size : m.write.length = headerLength + m.body.length := by
    rw [first, headerLength]
    simp only [List.length_cons]
    omega
  have header : header? m.write = some (headerLength + m.body.length, m.kind, m.tag) := by
    have range : minSize ≤ ((m.body.length + 4 : Nat) : Int) ∧
        ((m.body.length + 4 : Nat) : Int) ≤ maxSize := by
      refine ⟨?_, by exact_mod_cast carried.fits⟩
      unfold minSize
      omega
    have total : 4 + (m.body.length + 4) = headerLength + m.body.length := by
      rw [headerLength]
      omega
    rw [first, header?]
    simp only [number, twosComplement_code, Kind.ofCode?_code, tagged, range, guard, and_self,
      if_true, Int.toNat_natCast, total]
    rfl
  have body :
      slice m.write headerLength (headerLength + m.body.length - headerLength) = m.body := by
    rw [first, Nat.add_sub_cancel_left]
    exact List.take_length
  have started : atLeast headerLength m.write = true := atLeast_iff.2 (by omega)
  have whole : atLeast (headerLength + m.body.length) m.write = true := atLeast_iff.2 (by omega)
  simp only [parse, started, header, whole, body, size, Bool.not_true, Bool.false_eq_true, if_false,
    if_true]

/-- A credible header stands for a message that may be carried. -/
theorem header?_spec {bs : Bytes} {length tag : Nat} {kind : Kind}
    (h : header? bs = some (length, kind, tag)) :
    ∃ rest, bs = bigBytes 4 (length - 4) ++ [UInt8.ofNat (word 8 kind.code)] ++ bigBytes 3 tag ++
        rest ∧ headerLength ≤ length ∧ (length : Int) - 4 ≤ maxSize ∧ tag < 2 ^ 24 := by
  have long := headerLength_le_of_header? h
  unfold header? at h
  split at h
  · next a b c e t x y z rest =>
    simp only [Option.bind_eq_bind, Option.bind_eq_some_iff, Option.guard_eq_some', Option.pure_def,
      Option.some.injEq, Prod.mk.injEq] at h
    obtain ⟨-, ⟨lower, upper⟩, kind, found, rfl, rfl, rfl⟩ := h
    unfold minSize at lower
    have wide : bigEndian [a, b, c, e] < 2 ^ 32 := by simpa using bigEndian_lt [a, b, c, e]
    have narrow : t.toNat < 2 ^ 8 := t.toNat_lt
    have same : kind.code = twosComplement 8 t.toNat := by simpa using List.find?_some found
    have letter : UInt8.ofNat (word 8 kind.code) = t := by
      rw [same, word_twosComplement narrow (by decide)]
      exact UInt8.ofNat_toNat
    -- No size that is believed has its top bit set.
    have positive :
        (twosComplement 32 (bigEndian [a, b, c, e])).toNat = bigEndian [a, b, c, e] := by
      have unsigned := word_twosComplement wide (by decide)
      unfold word at unsigned
      rwa [if_neg (by omega)] at unsigned
    have digits : bigBytes 4 (bigEndian [a, b, c, e]) = [a, b, c, e] := bigBytes_bigEndian rfl
    have tag : bigBytes 3 (bigEndian [x, y, z]) = [x, y, z] := bigBytes_bigEndian rfl
    refine ⟨rest, ?_, long, by omega, by simpa using bigEndian_lt [x, y, z]⟩
    rw [Nat.add_sub_cancel_left, positive, digits, tag, letter]
    rfl
  · cases h

theorem write_of_parse {bs : Bytes} {m : Message} {n : Nat} (h : parse bs = .complete m n) :
    Carried m ∧ m.write = bs.take n := by
  unfold parse at h
  split_ifs at h
  split at h
  · cases h
  · next length kind tag header =>
    split_ifs at h with whole
    obtain ⟨rfl, rfl⟩ := Parsed.complete.inj h
    rw [atLeast_iff] at whole
    obtain ⟨rest, hbs, long, fits, small⟩ := header?_spec header
    have before : (bigBytes 4 (length - 4) ++ [UInt8.ofNat (word 8 kind.code)] ++
        bigBytes 3 tag).length = headerLength := by
      simp only [List.length_append, length_bigBytes]
      rfl
    have body :
        slice bs headerLength (length - headerLength) = rest.take (length - headerLength) := by
      rw [slice, hbs, ← before, List.drop_left]
    have size : (rest.take (length - headerLength)).length + 4 = length - 4 := by
      have := congrArg List.length hbs
      rw [List.length_append, before] at this
      simp only [headerLength] at long this ⊢
      rw [List.length_take]
      omega
    rw [body]
    refine ⟨⟨small, ?_⟩, ?_⟩
    · show ((rest.take (length - headerLength)).length : Int) + 4 ≤ maxSize
      simp only [headerLength] at long
      omega
    · rw [write, size, hbs, take_header (by omega), before]

end Mux.Message

theorem Mux.lossless : Mux.dialect.Lossless Mux.Message.wire :=
  .of_frames Mux.delimited (fun _ => Mux.Message.parse_write) Mux.Message.write_of_parse

/-! ## Kafka -/

namespace Kafka.Packet

/-- What a direction says of its packets: requests name an operation, and perhaps a client. -/
def Headed : Direction → Option RequestHeader → Prop
  | .request, some h =>
    h.operation ≤ maxOperation ∧ h.version ≤ maxVersion ∧
      ∀ name, h.client = some name → name.length ≤ 0x7FFF
  | .response, none => True
  | _, _ => False

/-- The packets that a direction may carry. -/
structure Carried (dir : Direction) (p : Packet) : Prop where
  correlation : p.correlation ≤ maxCorrelation
  header : Headed dir p.header
  fits : p.size ≤ prefixLength + maxMessage

/-- A client's name behind its length. -/
def writeClient : Option Bytes → Bytes
  | none => bigBytes 2 (word 16 (-1))
  | some name => bigBytes 2 name.length ++ name

/-- What stands before the body of a message. -/
def writeHeader (p : Packet) : Bytes :=
  match p.header with
  | none => bigBytes 4 p.correlation
  | some h =>
    bigBytes 2 h.operation ++ bigBytes 2 h.version ++ bigBytes 4 p.correlation ++
      writeClient h.client

def writeMessage (p : Packet) : Bytes := p.writeHeader ++ p.body

def write (p : Packet) : Bytes := bigBytes 4 p.writeMessage.length ++ p.writeMessage

def wire : Wire Packet where
  Carries := Carried
  write _ := write

theorem length_writeClient (name : Option Bytes) :
    (writeClient name).length = 2 + (name.getD []).length := by
  cases name with
  | none => rfl
  | some name => rw [writeClient, List.length_append, length_bigBytes, Option.getD_some]

theorem length_writeMessage (p : Packet) : prefixLength + p.writeMessage.length = p.size := by
  obtain ⟨correlation, header, body⟩ := p
  rw [writeMessage, List.length_append]
  cases header with
  | none =>
    simp only [writeHeader, size, length_bigBytes]
    omega
  | some h =>
    simp only [writeHeader, size, List.length_append, length_bigBytes, length_writeClient]
    omega

theorem client_write {name : Option Bytes} (short : ∀ n, name = some n → n.length ≤ 0x7FFF)
    (body : Bytes) : client (writeClient name ++ body) = .ok (name, body) := by
  cases name with
  | none => rfl
  | some name =>
    have short := short name rfl
    obtain ⟨l₁, l₀, digits⟩ := exists_bigBytes_two name.length
    have number : twosComplement 16 (bigEndian [l₁, l₀]) = Int.ofNat name.length := by
      rw [← digits, bigEndian_bigBytes (by omega), twosComplement_of_lt (by omega)]
      rfl
    have whole : atLeast name.length (name ++ body) = true := by
      rw [atLeast_iff, List.length_append]
      omega
    have first : writeClient (some name) ++ body = l₁ :: l₀ :: (name ++ body) := by
      rw [writeClient, digits]
      rfl
    rw [first, client]
    simp only [number, whole, if_true, List.take_left, List.drop_left]

theorem ofMessage_write {dir : Direction} {p : Packet} (carried : Carried dir p) :
    ofMessage dir p.writeMessage = .ok p := by
  obtain ⟨correlation, header, body⟩ := p
  obtain ⟨correlated, headed, -⟩ := carried
  obtain ⟨c₃, c₂, c₁, c₀, digits⟩ := exists_bigBytes_four correlation
  have number : bigEndian [c₃, c₂, c₁, c₀] = correlation := by
    rw [← digits, bigEndian_bigBytes (Nat.lt_of_le_of_lt correlated (by decide))]
  cases dir with
  | response =>
    cases header with
    | some h => exact headed.elim
    | none =>
      have first : writeMessage ⟨correlation, none, body⟩ = c₃ :: c₂ :: c₁ :: c₀ :: body := by
        rw [writeMessage, writeHeader, digits]
        rfl
      have taken : (c₃ :: c₂ :: c₁ :: c₀ :: body).take 4 = [c₃, c₂, c₁, c₀] := rfl
      rw [first, ofMessage, ofResponse, taken, number]
      exact if_pos correlated
  | request =>
    cases header with
    | none => exact headed.elim
    | some h =>
      obtain ⟨operation, version, name⟩ := h
      obtain ⟨operated, versioned, short⟩ := headed
      obtain ⟨o₁, o₀, operationDigits⟩ := exists_bigBytes_two operation
      obtain ⟨v₁, v₀, versionDigits⟩ := exists_bigBytes_two version
      have operationNumber : bigEndian [o₁, o₀] = operation := by
        rw [← operationDigits, bigEndian_bigBytes (Nat.lt_of_le_of_lt operated (by decide))]
      have versionNumber : bigEndian [v₁, v₀] = version := by
        rw [← versionDigits, bigEndian_bigBytes (Nat.lt_of_le_of_lt versioned (by decide))]
      have first : writeMessage ⟨correlation, some ⟨operation, version, name⟩, body⟩ =
          o₁ :: o₀ :: v₁ :: v₀ :: c₃ :: c₂ :: c₁ :: c₀ :: (writeClient name ++ body) := by
        simp only [writeMessage, writeHeader, operationDigits, versionDigits, digits,
          List.append_assoc]
        rfl
      have fields :
          requestFields? (writeMessage ⟨correlation, some ⟨operation, version, name⟩, body⟩) =
            some (operation, version, correlation) := by
        rw [first, requestFields?]
        simp only [operationNumber, versionNumber, number]
        exact if_pos ⟨operated, versioned, correlated⟩
      have behind : (writeMessage ⟨correlation, some ⟨operation, version, name⟩, body⟩).drop 8 =
          writeClient name ++ body := by
        rw [first]
        rfl
      simp only [ofMessage, ofRequest, fields, behind, client_write short body]
      rfl

theorem parse_write {dir : Direction} {p : Packet} (carried : Carried dir p) :
    parse dir p.write = .complete p p.write.length := by
  have fits : p.writeMessage.length ≤ maxMessage := by
    have := length_writeMessage p
    have := carried.fits
    omega
  obtain ⟨l₃, l₂, l₁, l₀, digits⟩ := exists_bigBytes_four p.writeMessage.length
  have number : bigEndian [l₃, l₂, l₁, l₀] = p.writeMessage.length := by
    rw [← digits, bigEndian_bigBytes (Nat.lt_of_le_of_lt fits (by decide))]
  have first : p.write = l₃ :: l₂ :: l₁ :: l₀ :: p.writeMessage := by
    rw [write, digits]
    rfl
  have size : p.write.length = prefixLength + p.writeMessage.length := by
    rw [write, List.length_append, length_bigBytes, prefixLength]
  have long : minMessage dir ≤ p.writeMessage.length := by
    have sized := length_writeMessage p
    have headed := carried.header
    unfold Kafka.Packet.size at sized
    cases dir with
    | response =>
      split at sized <;> (simp only [minMessage]; omega)
    | request =>
      cases h : p.header with
      | none =>
        rw [h] at headed
        exact headed.elim
      | some header =>
        rw [h] at sized
        simp only [minMessage] at sized ⊢
        omega
  have length : messageLength? dir p.write = some p.writeMessage.length := by
    rw [first, messageLength?]
    simp only [number]
    exact if_pos ⟨long, fits⟩
  have message : slice p.write prefixLength p.writeMessage.length = p.writeMessage := by
    rw [first]
    exact List.take_length
  have started : atLeast prefixLength p.write = true := atLeast_iff.2 (by omega)
  have whole : atLeast (prefixLength + p.writeMessage.length) p.write = true :=
    atLeast_iff.2 (by omega)
  simp only [parse, started, length, whole, message, ofMessage_write carried, size, Bool.not_true,
    Bool.false_eq_true, if_false]

/-- A length that is believed is one that may be carried. -/
theorem messageLength?_spec {dir : Direction} {bs : Bytes} {length : Nat}
    (h : messageLength? dir bs = some length) :
    ∃ rest, bs = bigBytes 4 length ++ rest ∧ minMessage dir ≤ length ∧ length ≤ maxMessage := by
  unfold messageLength? at h
  split at h
  · next l₃ l₂ l₁ l₀ rest =>
    dsimp only at h
    split_ifs at h with range
    obtain rfl := Option.some.inj h
    have digits : bigBytes 4 (bigEndian [l₃, l₂, l₁, l₀]) = [l₃, l₂, l₁, l₀] :=
      bigBytes_bigEndian rfl
    exact ⟨rest, by rw [digits]; rfl, range⟩
  · cases h

theorem requestFields?_spec {message : Bytes} {operation version correlation : Nat}
    (h : requestFields? message = some (operation, version, correlation)) :
    message = bigBytes 2 operation ++ bigBytes 2 version ++ bigBytes 4 correlation ++
        message.drop 8 ∧
      operation ≤ maxOperation ∧ version ≤ maxVersion ∧ correlation ≤ maxCorrelation := by
  unfold requestFields? at h
  split at h
  · next o₁ o₀ v₁ v₀ c₃ c₂ c₁ c₀ rest =>
    dsimp only at h
    split_ifs at h with range
    simp only [Option.some.injEq, Prod.mk.injEq] at h
    obtain ⟨rfl, rfl, rfl⟩ := h
    have operation : bigBytes 2 (bigEndian [o₁, o₀]) = [o₁, o₀] := bigBytes_bigEndian rfl
    have version : bigBytes 2 (bigEndian [v₁, v₀]) = [v₁, v₀] := bigBytes_bigEndian rfl
    have correlation : bigBytes 4 (bigEndian [c₃, c₂, c₁, c₀]) = [c₃, c₂, c₁, c₀] :=
      bigBytes_bigEndian rfl
    exact ⟨by rw [operation, version, correlation]; rfl, range⟩
  · cases h

theorem client_spec {bs body : Bytes} {name : Option Bytes} (h : client bs = .ok (name, body)) :
    bs = writeClient name ++ body ∧ ∀ n, name = some n → n.length ≤ 0x7FFF := by
  unfold client at h
  split at h
  · next l₁ l₀ rest =>
    have short : bigEndian [l₁, l₀] < 2 ^ 16 := by simpa using bigEndian_lt [l₁, l₀]
    have digits : bigBytes 2 (word 16 (twosComplement 16 (bigEndian [l₁, l₀]))) = [l₁, l₀] := by
      rw [word_twosComplement short (by decide)]
      exact bigBytes_bigEndian rfl
    have bounds := (twosComplement_bounds short (by decide)).2
    split at h
    · next unnamed =>
      obtain ⟨rfl, rfl⟩ := Prod.mk.inj (Except.ok.inj h)
      rw [unnamed] at digits
      refine ⟨?_, by simp⟩
      show _ = bigBytes 2 (word 16 (-1)) ++ rest
      exact congrArg (· ++ rest) digits.symm
    · cases h
    · next n named =>
      split_ifs at h with whole
      obtain ⟨rfl, rfl⟩ := Prod.mk.inj (Except.ok.inj h)
      rw [atLeast_iff] at whole
      rw [named] at digits bounds
      have size : (rest.take n).length = n := by rw [List.length_take, Nat.min_eq_left whole]
      have unsigned : word 16 (.ofNat n) = n := if_neg (Int.not_lt.2 (Int.natCast_nonneg n))
      rw [unsigned] at digits
      constructor
      · rw [writeClient, size, digits, List.append_assoc, List.take_append_drop]
        rfl
      · intro name same
        obtain rfl := Option.some.inj same
        rw [size]
        simp only [Int.ofNat_eq_natCast] at bounds
        omega
  · cases h

theorem ofMessage_spec {dir : Direction} {message : Bytes} {p : Packet}
    (long : minMessage dir ≤ message.length) (h : ofMessage dir message = .ok p) :
    message = p.writeMessage ∧ p.correlation ≤ maxCorrelation ∧ Headed dir p.header := by
  cases dir with
  | response =>
    unfold ofMessage ofResponse at h
    dsimp only at h
    split_ifs at h with correlated
    obtain rfl := Except.ok.inj h
    have digits : bigBytes 4 (bigEndian (message.take 4)) = message.take 4 := by
      apply bigBytes_bigEndian
      exact List.length_take_of_le long
    refine ⟨?_, correlated, trivial⟩
    rw [writeMessage, writeHeader, digits, List.take_append_drop]
  | request =>
    unfold ofMessage ofRequest at h
    dsimp only at h
    split at h
    · cases h
    · next operation version correlation fields =>
      obtain ⟨split, operated, versioned, correlated⟩ := requestFields?_spec fields
      cases named : client (message.drop 8) with
      | error reason =>
        rw [named] at h
        cases h
      | ok found =>
        obtain ⟨name, body⟩ := found
        rw [named] at h
        obtain rfl := Except.ok.inj h
        obtain ⟨behind, short⟩ := client_spec named
        refine ⟨?_, correlated, operated, versioned, short⟩
        rw [behind] at split
        rw [split]
        simp only [writeMessage, writeHeader, List.append_assoc]

theorem write_of_parse {dir : Direction} {bs : Bytes} {p : Packet} {n : Nat}
    (h : parse dir bs = .complete p n) : Carried dir p ∧ p.write = bs.take n := by
  unfold parse at h
  split_ifs at h
  split at h
  · cases h
  · next length believed =>
    split_ifs at h with whole
    split at h
    · cases h
    · next packet read =>
      obtain ⟨rfl, rfl⟩ := Parsed.complete.inj h
      obtain ⟨rest, rfl, long, fits⟩ := messageLength?_spec believed
      have before : (bigBytes 4 length).length = prefixLength := length_bigBytes 4 length
      have message : slice (bigBytes 4 length ++ rest) prefixLength length = rest.take length := by
        rw [slice, ← before, List.drop_left]
      have size : (rest.take length).length = length := by
        rw [Bool.not_eq_true', Bool.not_eq_false, atLeast_iff, List.length_append, before] at whole
        rw [List.length_take]
        omega
      rw [message] at read
      obtain ⟨same, correlated, headed⟩ := ofMessage_spec (long.trans_eq size.symm) read
      have total := length_writeMessage packet
      rw [← same, size] at total
      refine ⟨⟨correlated, headed, by omega⟩, ?_⟩
      rw [write, ← same, size, take_header (by omega), before, Nat.add_sub_cancel_left]

end Kafka.Packet

theorem Kafka.lossless : Kafka.dialect.Lossless Kafka.Packet.wire :=
  .of_frames Kafka.delimited
    (fun seen _ carried => (Kafka.Packet.fst_parseAndRemember _ seen _).trans
      (Kafka.Packet.parse_write carried))
    (fun h => Kafka.Packet.write_of_parse ((Kafka.Packet.fst_parseAndRemember ..).symm.trans h))

/-! ## All of them -/

/-- **What these protocols write is what they read.** The reader of each of the five binary
protocols undoes its wire form, and the wire form undoes the reader, whatever is remembered. -/
theorem Protocol.framing_lossless :
    Postgres.dialect.Lossless Postgres.Message.wire ∧ Cql.dialect.Lossless Cql.Frame.wire ∧
      Mysql.dialect.Lossless Mysql.Packet.wire ∧ Mux.dialect.Lossless Mux.Message.wire ∧
        Kafka.dialect.Lossless Kafka.Packet.wire :=
  ⟨Postgres.lossless, Cql.lossless, Mysql.lossless, Mux.lossless, Kafka.lossless⟩

end Dialogue
