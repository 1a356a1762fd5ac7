import Mathlib
import Dialogue.Proofs.Wire

/-!
Header blocks that come in pieces.

A header block is decoded as a whole and exactly once, however it was cut into frames. The argument
goes from a single frame to a run of them.

1. Reading a direction needs and changes what is remembered of that direction only (`parse_eq`), so
   of a run with both directions in it each sees its own bytes alone (`readAll_side`).
2. A frame as it is sent is read whatever stands behind it (`parseSide_bytes`). One that opens a
   block hands over its piece without padding, priority or promised stream (`takeFrame_lead`); a
   continuation appends its piece to those before (`takeFrame_continuation`).
3. By induction on the continuations, the block that waits consists of all pieces so far
   (`readSide_between`), and the last one has it decoded as if it had come at once
   (`blocks_reassembled`).

The decoder of header blocks is any function of its table and a block.
-/
namespace Dialogue.Http2

variable {Table : Type} {decode : Decoder Table} {d : Direction}

/-! ## One direction at a time -/

namespace State

variable (σ : State Table) (side : Side Table)

@[simp] theorem side_withSide (d : Direction) : (σ.withSide side d).side d = side := by
  cases d <;> rfl

theorem side_withSide_of_ne {d e : Direction} (ne : e ≠ d) :
    (σ.withSide side d).side e = σ.side e := by
  cases d <;> cases e
  · exact absurd rfl ne
  · rfl
  · rfl
  · exact absurd rfl ne

@[simp] theorem withSide_side (d : Direction) : σ.withSide (σ.side d) d = σ := by
  cases d <;> rfl

end State

/-- Reads the frame at the start of a byte string, with what is remembered of its direction. -/
def parseSide (decode : Decoder Table) (d : Direction) (side : Side Table) (bs : Bytes) :
    Parsed Frame × Side Table :=
  let read := Frame.parse decode d ⟨side, side⟩ bs
  (read.1, read.2.side d)

/-- Reading needs and changes what is remembered of its own direction only. -/
theorem parse_eq (σ : State Table) (bs : Bytes) :
    Frame.parse decode d σ bs =
      ((parseSide decode d (σ.side d) bs).1,
        σ.withSide (parseSide decode d (σ.side d) bs).2 d) := by
  have both (side : Side Table) : (⟨side, side⟩ : State Table).side d = side := by
    cases d <;> rfl
  unfold parseSide Frame.parse Frame.parseFramed
  dsimp only
  rw [both]
  split_ifs
  · simp [both]
  · simp [both]
  · split
    · simp [both]
    · split
      · simp [both]
      · split_ifs
        · simp [both]
        · split
          · simp [both]
          · simp

/-- Bytes of a direction from which a frame is to be read. -/
structure Call where
  direction : Direction
  bytes : Bytes

/-- Reads for each call the frame at the start of its bytes: what each comes to, with its
direction, and what is remembered at the end. -/
def readAll (decode : Decoder Table) (σ : State Table) :
    List Call → List (Direction × Parsed Frame) × State Table
  | [] => ([], σ)
  | call :: later =>
    let read := Frame.parse decode call.direction σ call.bytes
    let rest := readAll decode read.2 later
    ((call.direction, read.1) :: rest.1, rest.2)

/-- The same for calls of one direction. -/
def readSide (decode : Decoder Table) (d : Direction) (side : Side Table) :
    List Bytes → List (Parsed Frame) × Side Table
  | [] => ([], side)
  | bs :: later =>
    let read := parseSide decode d side bs
    let rest := readSide decode d read.2 later
    (read.1 :: rest.1, rest.2)

/-- The bytes of the calls of a direction. -/
def bytesOf (d : Direction) (calls : List Call) : List Bytes :=
  (calls.filter (·.direction = d)).map (·.bytes)

/-- What the calls of a direction come to. -/
def outcomesOf (d : Direction) (results : List (Direction × Parsed Frame)) : List (Parsed Frame) :=
  (results.filter (·.1 = d)).map (·.2)

/-- Of a run with calls of both directions, each direction sees its own. -/
theorem readAll_side (decode : Decoder Table) (d : Direction) (σ : State Table)
    (calls : List Call) :
    outcomesOf d (readAll decode σ calls).1 =
        (readSide decode d (σ.side d) (bytesOf d calls)).1 ∧
      (readAll decode σ calls).2.side d = (readSide decode d (σ.side d) (bytesOf d calls)).2 := by
  induction calls generalizing σ with
  | nil => exact ⟨rfl, rfl⟩
  | cons call later ih =>
    rw [readAll, parse_eq]
    dsimp only
    obtain ⟨outcomes, side⟩ := ih (σ.withSide
      (parseSide decode call.direction (σ.side call.direction) call.bytes).2 call.direction)
    by_cases own : call.direction = d
    · subst own
      rw [State.side_withSide] at outcomes side
      constructor
      · simpa [outcomesOf, bytesOf, readSide] using outcomes
      · simpa [bytesOf, readSide] using side
    · rw [State.side_withSide_of_ne _ _ (Ne.symm own)] at outcomes side
      constructor
      · simpa [outcomesOf, bytesOf, own] using outcomes
      · simpa [bytesOf, own] using side

theorem readSide_append (side : Side Table) (first second : List Bytes) :
    readSide decode d side (first ++ second) =
      let before := readSide decode d side first
      let after := readSide decode d before.2 second
      (before.1 ++ after.1, after.2) := by
  induction first generalizing side with
  | nil => rfl
  | cons bs first ih => simp only [List.cons_append, readSide, ih]

/-! ## Frames as they are sent -/

/-- A frame as it is sent. -/
structure Sent where
  /-- The number of its kind. -/
  code : UInt8
  flags : UInt8
  stream : Nat
  /-- The bit before the stream, which has no meaning. -/
  reserved : Bool
  payload : Bytes

namespace Sent

def header (f : Sent) : FrameHeader := ⟨f.payload.length, Kind.ofCode f.code, f.flags, f.stream⟩

def bytes (f : Sent) : Bytes :=
  bigBytes 3 f.payload.length ++ f.code :: f.flags ::
    bigBytes 4 (f.stream + if f.reserved then 0x80000000 else 0) ++ f.payload

/-- The frame that is read, with what it contributes. -/
def toFrame (f : Sent) (body : Body) : Frame :=
  ⟨f.stream, Kind.ofCode f.code, f.flags, body, f.bytes.length⟩

/-- What the fields of a frame have room for, and no fault in its header. -/
structure Sound (f : Sent) : Prop where
  stream : f.stream < 0x80000000
  payload : f.payload.length < 0x1000000
  header : f.header.fault? = none

variable {f : Sent}

theorem length_bytes (f : Sent) : f.bytes.length = f.header.frameLength := by
  simp [bytes, FrameHeader.frameLength, FrameHeader.size, header]
  omega

theorem read?_bytes (sound : f.Sound) (behind : Bytes) :
    FrameHeader.read? (f.bytes ++ behind) = some f.header := by
  obtain ⟨l₂, l₁, l₀, length⟩ := exists_bigBytes_three f.payload.length
  obtain ⟨s₃, s₂, s₁, s₀, stream⟩ :=
    exists_bigBytes_four (f.stream + if f.reserved then 0x80000000 else 0)
  have low := sound.stream
  have lengthRead : bigEndian [l₂, l₁, l₀] = f.payload.length := by
    rw [← length]
    exact bigEndian_bigBytes (by simpa using sound.payload)
  have streamRead : bigEndian [s₃, s₂, s₁, s₀] % 0x80000000 = f.stream := by
    rw [← stream, bigEndian_bigBytes (by split <;> omega)]
    split <;> omega
  rw [bytes, length, stream]
  simp only [List.cons_append, List.nil_append, FrameHeader.read?, lengthRead, streamRead, header]

/-- The payload stands behind the header. -/
theorem slice_bytes (f : Sent) (behind : Bytes) :
    slice (f.bytes ++ behind) FrameHeader.size f.header.length = f.payload := by
  have front : (bigBytes 3 f.payload.length ++ f.code :: f.flags ::
      bigBytes 4 (f.stream + if f.reserved then 0x80000000 else 0)).length = FrameHeader.size := by
    simp [FrameHeader.size]
  unfold slice bytes header
  rw [List.append_assoc, List.drop_left' front, List.take_left]

/-- No kind of frame makes it look like the beginning of the bytes that open a connection. -/
theorem parted_bytes (sound : f.Sound) (behind : Bytes) :
    ¬ Frame.preface <+: f.bytes ++ behind ∧ ¬ f.bytes ++ behind <+: Frame.preface := by
  have fourth : (f.bytes ++ behind)[3]? = some f.code := by
    obtain ⟨l₂, l₁, l₀, length⟩ := exists_bigBytes_three f.payload.length
    rw [bytes, length]
    rfl
  have opening : Frame.preface[3]? = some 0x20 := by decide
  have other : f.code ≠ 0x20 := by
    intro same
    have fault := sound.header
    rw [header, same] at fault
    cases fault
  have long : 3 < (f.bytes ++ behind).length := by
    rw [List.length_append, length_bytes, FrameHeader.frameLength, FrameHeader.size]
    omega
  constructor
  · intro before
    have same := List.prefix_iff_getElem?.1 before 3 (by decide)
    rw [fourth] at same
    exact other (Option.some.inj same)
  · intro before
    have same := List.prefix_iff_getElem?.1 before 3 long
    rw [opening, ← List.getElem?_eq_getElem, fourth] at same
    exact other (Option.some.inj same).symm

/-- A frame that is sent is read, whatever stands behind it. -/
theorem parseSide_bytes {side after : Side Table} {body : Body} (sound : f.Sound)
    (taken : side.takeFrame decode f.header f.payload = .ok (body, after)) (behind : Bytes) :
    parseSide decode d side (f.bytes ++ behind) =
      (.complete (f.toFrame body) f.bytes.length, after) := by
  have both : (⟨side, side⟩ : State Table).side d = side := by cases d <;> rfl
  have whole : atLeast f.header.frameLength (f.bytes ++ behind) = true := by
    rw [atLeast_iff, ← length_bytes, List.length_append]
    exact Nat.le_add_right ..
  obtain ⟨past, ahead⟩ := parted_bytes sound behind
  unfold parseSide Frame.parse
  simp only [List.isPrefixOf_iff_prefix, past, ahead, and_false, if_false]
  unfold Frame.parseFramed
  simp only [read?_bytes sound, sound.header, whole, slice_bytes, both, taken, toFrame,
    length_bytes, Bool.not_true, Bool.false_eq_true, if_false, State.side_withSide]
  rfl

end Sent

/-! ## Frames that open a block -/

/-- What a frame that opens a header block says besides its piece of the block. -/
structure Lead where
  /-- Whether it promises a stream rather than giving headers. -/
  isPromise : Bool
  flags : UInt8
  stream : Nat
  reserved : Bool
  /-- The priority of the stream, or the stream that is promised. -/
  fields : Bytes
  padding : Bytes
  stream_pos : 0 < stream
  stream_lt : stream < 0x80000000
  length_fields : fields.length = if isPromise then 4 else if flags &&& 0x20 != 0 then 5 else 0
  length_padding : padding.length ≤ if flags &&& 0x08 != 0 then 255 else 0

namespace Lead

variable (l : Lead) (piece : Bytes)

def endsStream : Bool := l.flags &&& 0x01 != 0

/-- Whether the block is complete with the piece of this frame. -/
def endsHeaders : Bool := l.flags &&& 0x04 != 0

/-- The frame with a piece of the block. -/
def frame : Sent where
  code := if l.isPromise then 5 else 1
  flags := l.flags
  stream := l.stream
  reserved := l.reserved
  payload := (if l.flags &&& 0x08 != 0 then [UInt8.ofNat l.padding.length] else []) ++
    (l.fields ++ piece ++ l.padding)

/-- The block that starts with a piece. A promise does not end its stream. -/
def block : Block := ⟨l.stream, piece, !l.isPromise && l.endsStream, l.isPromise⟩

/-- What the block contributes when it is complete. -/
def body (headers : List Header) : Body :=
  if l.isPromise then .control else .headers headers l.endsStream

/-- A block that is not complete waits. -/
theorem takeBlock_open (side : Side Table) :
    side.takeBlock decode (l.block piece) false =
      (.control, { side with pending := some (l.block piece) }) := rfl

/-- A block that is complete is decoded. -/
theorem takeBlock_complete (side : Side Table) :
    side.takeBlock decode (l.block piece) true =
      (l.body (decode side.table piece).1, { side with table := (decode side.table piece).2 }) := by
  unfold Side.takeBlock block body
  cases l.isPromise <;> rfl

theorem length_payload_le : (l.frame piece).payload.length ≤ piece.length + 261 := by
  have fields := l.length_fields
  have padding := l.length_padding
  simp only [frame, List.length_append]
  split_ifs at fields padding ⊢ <;> simp <;> omega

theorem sound_frame (le : piece.length ≤ maxBlock) : (l.frame piece).Sound where
  stream := l.stream_lt
  payload := by
    have := l.length_payload_le piece
    unfold maxBlock at le
    omega
  header := by
    have pos := l.stream_pos.ne'
    unfold frame Sent.header FrameHeader.fault?
    cases l.isPromise <;>
      simp [Kind.ofCode, Kind.needsStream, Kind.forbidsStream, Kind.lengthFault?, pos]

/-- The padding and its length go. -/
theorem unpad_frame :
    (l.frame piece).header.unpad (l.frame piece).payload = .ok (l.fields ++ piece) := by
  have padding := l.length_padding
  unfold FrameHeader.unpad FrameHeader.isPadded Sent.header frame
  dsimp only
  by_cases padded : (l.flags &&& 0x08 != 0) = true
  · rw [if_pos padded] at padding ⊢
    have length : (UInt8.ofNat l.padding.length).toNat = l.padding.length := by
      rw [UInt8.toNat_ofNat']
      omega
    have whole : atLeast l.padding.length (l.fields ++ piece ++ l.padding) = true := by
      rw [atLeast_iff, List.length_append]
      exact Nat.le_add_left ..
    simp only [padded, Bool.not_true, Bool.false_eq_true, if_false, List.cons_append,
      List.nil_append, length, whole, if_true]
    rw [List.length_append, Nat.add_sub_cancel, List.take_left]
  · rw [if_neg padded] at padding
    have none : l.padding = [] := List.eq_nil_of_length_eq_zero (Nat.le_zero.1 padding)
    simp [padded, none]

/-- A frame that opens a block hands its piece over. -/
theorem takeFrame_lead (decode : Decoder Table) (side : Side Table) :
    side.takeFrame decode (l.frame piece).header (l.frame piece).payload =
      .ok (side.takeBlock decode (l.block piece) l.endsHeaders) := by
  have unpadded := l.unpad_frame piece
  have fields := l.length_fields
  have skipped (n : Nat) (reason : String) (length : l.fields.length = n) :
      FrameHeader.skip n reason (l.fields ++ piece) = .ok piece := by
    have whole : atLeast n (l.fields ++ piece) = true := by
      rw [atLeast_iff, List.length_append, length]
      exact Nat.le_add_right ..
    rw [FrameHeader.skip, if_pos whole, List.drop_left' length]
  unfold Side.takeFrame
  cases promise : l.isPromise with
  | true =>
    have kind : (l.frame piece).header.kind = .pushPromise := by
      simp [frame, Sent.header, promise, Kind.ofCode]
    rw [promise, if_pos rfl] at fields
    have fragment : (l.frame piece).header.promiseFragment (l.frame piece).payload =
        .ok piece := by
      unfold FrameHeader.promiseFragment
      rw [unpadded]
      exact skipped 4 _ fields
    rw [kind]
    simp only [fragment]
    simp [block, promise]
    rfl
  | false =>
    have kind : (l.frame piece).header.kind = .headers := by
      simp [frame, Sent.header, promise, Kind.ofCode]
    rw [promise, if_neg Bool.false_ne_true] at fields
    have fragment : (l.frame piece).header.headersFragment (l.frame piece).payload =
        .ok piece := by
      unfold FrameHeader.headersFragment
      rw [unpadded]
      by_cases priority : (l.flags &&& 0x20 != 0) = true
      · rw [if_pos priority] at fields
        show (if l.flags &&& 0x20 != 0 then _ else _) = _
        rw [if_pos priority, skipped 5 _ fields]
      · rw [if_neg priority] at fields
        show (if l.flags &&& 0x20 != 0 then _ else _) = _
        rw [if_neg priority, List.eq_nil_of_length_eq_zero fields, List.nil_append]
    rw [kind]
    simp only [fragment]
    simp [block, promise]
    rfl

end Lead

/-! ## Continuations -/

/-- A further piece of a block. -/
structure Continuation where
  flags : UInt8
  reserved : Bool
  piece : Bytes

namespace Continuation

variable (c : Continuation)

/-- Whether the block is complete with this piece. -/
def endsHeaders : Bool := c.flags &&& 0x04 != 0

/-- The frame on a stream. -/
def frame (stream : Nat) : Sent := ⟨9, c.flags, stream, c.reserved, c.piece⟩

theorem sound_frame {stream : Nat} (pos : 0 < stream) (lt : stream < 0x80000000)
    (le : c.piece.length ≤ maxBlock) : (c.frame stream).Sound where
  stream := lt
  payload := by
    unfold maxBlock at le
    show c.piece.length < _
    omega
  header := by
    simp [frame, Sent.header, FrameHeader.fault?, Kind.ofCode, Kind.needsStream,
      Kind.forbidsStream, Kind.lengthFault?, pos.ne']

/-- A continuation appends its piece to those that wait. -/
theorem takeFrame_continuation (decode : Decoder Table) (table : Table) (l : Lead) {pieces : Bytes}
    (le : (pieces ++ c.piece).length ≤ maxBlock) :
    (⟨table, some (l.block pieces)⟩ : Side Table).takeFrame decode (c.frame l.stream).header
        c.piece =
      .ok ((⟨table, none⟩ : Side Table).takeBlock decode (l.block (pieces ++ c.piece))
        c.endsHeaders) := by
  rw [List.length_append] at le
  simp [Side.takeFrame, frame, Sent.header, Kind.ofCode, Side.continueBlock, Nat.not_lt.2 le,
    Lead.block, endsHeaders, FrameHeader.endsHeaders]

end Continuation

/-- While continuations do not complete a block, it waits with all their pieces. -/
theorem readSide_between (decode : Decoder Table) (d : Direction) (table : Table) {l : Lead}
    {pieces : Bytes} {between : List Continuation} {bss : List Bytes}
    (goesOn : ∀ c ∈ between, c.endsHeaders = false)
    (le : (pieces ++ between.flatMap (·.piece)).length ≤ maxBlock)
    (own : List.Forall₂ (fun bs f => f.bytes <+: bs) bss (between.map (·.frame l.stream))) :
    readSide decode d ⟨table, some (l.block pieces)⟩ bss =
      ((between.map (·.frame l.stream)).map fun f =>
          .complete (f.toFrame .control) f.bytes.length,
        ⟨table, some (l.block (pieces ++ between.flatMap (·.piece)))⟩) := by
  induction between generalizing pieces bss with
  | nil =>
    cases own
    simp [readSide]
  | cons c between ih =>
    obtain ⟨_, later, ⟨behind, rfl⟩, others, rfl⟩ := List.forall₂_cons_right_iff.1 own
    rw [List.flatMap_cons, ← List.append_assoc] at le ⊢
    have appended : (pieces ++ c.piece).length ≤ maxBlock := by
      rw [List.length_append] at le
      omega
    have alone : c.piece.length ≤ maxBlock := by
      rw [List.length_append] at appended
      omega
    -- The piece is appended, and the block goes on waiting.
    have taken := c.takeFrame_continuation decode table l appended
    rw [goesOn c List.mem_cons_self, l.takeBlock_open] at taken
    have rest := ih (fun e he => goesOn e (List.mem_cons_of_mem c he)) le others
    rw [readSide, Sent.parseSide_bytes (c.sound_frame l.stream_pos l.stream_lt alone) taken, rest]
    rfl

/-! ## Blocks in pieces -/

/-- A header block that is sent in pieces: a frame that opens it, and continuations of which only
the last one completes it. -/
structure Cut where
  lead : Lead
  first : Bytes
  between : List Continuation
  last : Continuation
  opens : lead.endsHeaders = false
  goesOn : ∀ c ∈ between, c.endsHeaders = false
  ends : last.endsHeaders = true

namespace Cut

variable (cut : Cut)

/-- The whole block. -/
def block : Bytes := cut.first ++ cut.between.flatMap (·.piece) ++ cut.last.piece

/-- The frames before the last. -/
def earlier : List Sent :=
  cut.lead.frame cut.first :: cut.between.map (·.frame cut.lead.stream)

def final : Sent := cut.last.frame cut.lead.stream

/-- Reading the frames of a cut decodes the block once, with the last of them. -/
theorem readSide_cut {side : Side Table} {bss : List Bytes} (idle : side.pending = none)
    (le : cut.block.length ≤ maxBlock)
    (own : List.Forall₂ (fun bs f => f.bytes <+: bs) bss (cut.earlier ++ [cut.final])) :
    readSide decode d side bss =
      (cut.earlier.map (fun f => .complete (f.toFrame .control) f.bytes.length) ++
          [.complete (cut.final.toFrame (cut.lead.body (decode side.table cut.block).1))
            cut.final.bytes.length],
        ⟨(decode side.table cut.block).2, none⟩) := by
  obtain ⟨table, pending⟩ := side
  obtain rfl : pending = none := idle
  have most : (cut.first ++ cut.between.flatMap (·.piece)).length ≤ maxBlock := by
    rw [block, List.length_append] at le
    omega
  have alone : cut.first.length ≤ maxBlock ∧ cut.last.piece.length ≤ maxBlock := by
    rw [block, List.length_append, List.length_append] at le
    omega
  -- The frame that opens the block, those between, and the one that completes it.
  rw [earlier, List.cons_append] at own
  obtain ⟨_, later, ⟨behind, rfl⟩, others, rfl⟩ := List.forall₂_cons_right_iff.1 own
  have between := List.forall₂_take_append _ _ _ others
  have completes := List.forall₂_drop_append _ _ _ others
  rw [← List.take_append_drop (cut.between.map (·.frame cut.lead.stream)).length later]
  generalize later.take _ = middle at between ⊢
  generalize later.drop _ = final at completes ⊢
  obtain ⟨_, _, ⟨rest, rfl⟩, none, rfl⟩ := List.forall₂_cons_right_iff.1 completes
  cases none
  have opened := cut.lead.takeFrame_lead cut.first decode ⟨table, none⟩
  rw [cut.opens, cut.lead.takeBlock_open] at opened
  have waiting := readSide_between decode d table cut.goesOn most between
  have completed := cut.last.takeFrame_continuation decode table cut.lead le
  rw [cut.ends, cut.lead.takeBlock_complete] at completed
  have sound := cut.last.sound_frame cut.lead.stream_pos cut.lead.stream_lt alone.2
  rw [readSide, Sent.parseSide_bytes (cut.lead.sound_frame _ alone.1) opened, readSide_append,
    waiting]
  dsimp only
  rw [readSide, readSide, final, Sent.parseSide_bytes sound completed]
  rfl

end Cut

/-- **Header blocks do not depend on how they are cut.** Let no block wait in a direction, and let a
block of that direction come in pieces, each at the beginning of some bytes, with any bytes of the
other direction read in between. Then every frame is read; all but the last contribute nothing, and
the last one contributes the headers of the whole block, decoded with the table from before, and
ends the stream if the frame that opened the block says so; that of a promise contributes nothing
either. What is then remembered of the direction is what one frame with the whole block leaves: the
table after decoding it once, and no block that waits. -/
theorem blocks_reassembled (decode : Decoder Table) (d : Direction) (σ : State Table)
    (idle : (σ.side d).pending = none) (cut : Cut) (le : cut.block.length ≤ maxBlock)
    (calls : List Call)
    (own : List.Forall₂ (fun bs f => f.bytes <+: bs) (bytesOf d calls)
      (cut.earlier ++ [cut.final]))
    (whole : Lead) (complete : whole.endsHeaders = true) (bs : Bytes)
    (alone : (whole.frame cut.block).bytes <+: bs) :
    let pieces := readAll decode σ calls
    let once := Frame.parse decode d σ bs
    let headers := (decode (σ.side d).table cut.block).1
    outcomesOf d pieces.1 =
        cut.earlier.map (fun f => .complete (f.toFrame .control) f.bytes.length) ++
          [.complete (cut.final.toFrame (cut.lead.body headers)) cut.final.bytes.length] ∧
      once.1 = .complete ((whole.frame cut.block).toFrame (whole.body headers))
        (whole.frame cut.block).bytes.length ∧
      pieces.2.side d = ⟨(decode (σ.side d).table cut.block).2, none⟩ ∧
      once.2.side d = pieces.2.side d := by
  intro pieces once headers
  obtain ⟨outcomes, side⟩ := readAll_side decode d σ calls
  rw [cut.readSide_cut idle le own] at outcomes side
  have opened := whole.takeFrame_lead cut.block decode (σ.side d)
  rw [complete, whole.takeBlock_complete] at opened
  obtain ⟨behind, rfl⟩ := alone
  have read : once = _ := parse_eq σ _
  rw [Sent.parseSide_bytes (whole.sound_frame _ le) opened] at read
  refine ⟨outcomes, ?_, side, ?_⟩
  · rw [read]
  · rw [read, State.side_withSide, side, idle]

/-- A field that is learned, cut in the middle of its name, behind padding and a priority. -/
def greeting : Cut where
  lead := ⟨false, 0x29, 5, true, [0, 0, 0, 0, 16], [0, 0], by decide, by decide, rfl, by decide⟩
  first := [0x82, 0x40, 1]
  between := [⟨0, false, [0x61, 1]⟩]
  last := ⟨0x04, false, [0x62]⟩
  opens := rfl
  goesOn := by decide
  ends := rfl

/-- The frame that carries the block of the greeting at once. -/
def outright : Lead := ⟨false, 0x05, 5, false, [], [], by decide, by decide, rfl, by decide⟩

/-- The frames of the greeting, each with something behind it, and what the server sends. -/
def braid : List Call :=
  [⟨.request, (greeting.lead.frame greeting.first).bytes ++ [0]⟩, ⟨.response, [1, 2]⟩,
    ⟨.request, (greeting.earlier[1]).bytes⟩,
    ⟨.response, ((Continuation.mk 0x04 false [0x82]).frame 5).bytes⟩,
    ⟨.request, greeting.final.bytes ++ [0]⟩]

theorem blocks_reassembled_greeting :
    (dialect.initial.side .request).pending = none ∧ greeting.block.length ≤ maxBlock ∧
      List.Forall₂ (fun bs f => f.bytes <+: bs) (bytesOf .request braid)
        (greeting.earlier ++ [greeting.final]) ∧
      outright.endsHeaders = true ∧
      outcomesOf .request (readAll (decodeHeaders .hpack) dialect.initial braid).1 =
        greeting.earlier.map (fun f => .complete (f.toFrame .control) f.bytes.length) ++
          [.complete ⟨5, .continuation, 0x04, .headers [(":method", "GET"), ("a", "b")] true, 10⟩
            10] ∧
      (readAll (decodeHeaders .hpack) dialect.initial braid).2.side .request =
        ⟨{ entries := [(ascii "a", ascii "b")] }, none⟩ := by
  have decoded : decodeHeaders .hpack {} greeting.block =
      ([(":method", "GET"), ("a", "b")], { entries := [(ascii "a", ascii "b")] }) := by
    decide +kernel
  have idle : (dialect.initial.side .request).pending = none := rfl
  have le : greeting.block.length ≤ maxBlock := by decide
  have own : List.Forall₂ (fun bs f => f.bytes <+: bs) (bytesOf .request braid)
      (greeting.earlier ++ [greeting.final]) := by decide +kernel
  obtain ⟨outcomes, -, side, -⟩ := blocks_reassembled (decodeHeaders .hpack) .request
    dialect.initial idle greeting le braid own outright rfl (outright.frame greeting.block).bytes
    List.prefix_rfl
  have table : (dialect.initial.side .request).table = {} := rfl
  rw [table, decoded] at outcomes side
  exact ⟨idle, le, own, rfl, outcomes, side⟩

end Dialogue.Http2
