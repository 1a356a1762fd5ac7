import Dialogue.Proofs.Dns.Rows
import Dialogue.Proofs.Text

/-!
Messages are read as they are written, in whatever way their names are compressed.

A name is written as a row of labels that ends with the root or with a pointer to a place: a label
boundary of a name that was written before. One message can be written in many ways; `Laid` says
which of them are allowed, piece by piece and with the places that there are by then. What carries
the proof is that a place stays readable: from there just the labels are read that it stands for,
over just its number of pointers (`Place.Readable`). So a name behind readable places is read in
full, its own boundaries are readable in turn, and by induction over the pieces so are all names of
a message (`Stands.name`). The parts of a message are then read piece by piece, and the message that
was written is the one that is read, whatever stands behind it (`Draft.parse_written`).
-/
namespace Dialogue.Dns

/-! ## Names -/

/-- A label boundary of a name that was written: where it is, the labels from there on, and how many
pointers they are read over. -/
structure Place where
  position : Nat
  labels : List String
  jumps : Nat
deriving DecidableEq

/-- A name as it is written: a row of labels up to the root, or up to a pointer to a place. -/
structure Name where
  row : List String
  onward : Option Place

namespace Name

def labels (name : Name) : List String := name.row ++ name.onward.elim [] Place.labels

def jumps (name : Name) : Nat := name.onward.elim 0 (·.jumps + 1)

/-- The name in full. -/
def text (name : Name) : String := ".".intercalate name.labels

def write (name : Name) : Bytes :=
  writeRow (name.row.map Text.encode) (name.onward.map Place.position)

/-- The name without its first `k` labels. -/
def drop (name : Name) (k : Nat) : Name := { name with row := name.row.drop k }

/-- The label boundaries of a name that is written at a position; the last one is the root or the
pointer at its end. -/
def places (name : Name) (position : Nat) : List Place :=
  (List.range (name.row.length + 1)).map fun k =>
    ⟨position + ((name.row.take k).flatMap fun label => writeLabel (Text.encode label)).length,
      (name.drop k).labels, name.jumps⟩

/-- A name that can be written where there are the given places. -/
structure Fits (places : List Place) (name : Name) : Prop where
  labels : ∀ label ∈ name.labels, 1 ≤ label.utf8ByteSize ∧ label.utf8ByteSize ≤ 63
  size : name.text.utf8ByteSize ≤ maxName
  jumps : name.jumps ≤ maxJumps
  onward : ∀ place ∈ name.onward, place ∈ places ∧ place.position < 0x4000

instance (places : List Place) (name : Name) : Decidable (name.Fits places) :=
  decidable_of_iff
    ((∀ label ∈ name.labels, 1 ≤ label.utf8ByteSize ∧ label.utf8ByteSize ≤ 63) ∧
      name.text.utf8ByteSize ≤ maxName ∧ name.jumps ≤ maxJumps ∧
      ∀ place ∈ name.onward, place ∈ places ∧ place.position < 0x4000)
    ⟨fun h => ⟨h.1, h.2.1, h.2.2.1, h.2.2.2⟩, fun h => ⟨h.labels, h.size, h.jumps, h.onward⟩⟩

end Name

/-! ## Pieces -/

/-- What a message is written from. -/
inductive Piece where
  | bytes (bs : Bytes)
  | name (name : Name)

namespace Piece

def write : Piece → Bytes
  | .bytes bs => bs
  | .name n => n.write

/-- The label boundaries that a piece brings in. -/
def places (position : Nat) : Piece → List Place
  | .bytes _ => []
  | .name n => n.places position

def Fits (places : List Place) : Piece → Prop
  | .bytes _ => True
  | .name n => n.Fits places

instance (places : List Place) : (piece : Piece) → Decidable (piece.Fits places)
  | .bytes _ => inferInstanceAs (Decidable True)
  | .name n => inferInstanceAs (Decidable (n.Fits places))

end Piece

/-- What is written for some pieces. -/
def writeAll (pieces : List Piece) : Bytes := pieces.flatMap Piece.write

/-- Every name among the pieces can be written where it comes. -/
def Laid : (position : Nat) → (places : List Place) → List Piece → Prop
  | _, _, [] => True
  | position, places, piece :: pieces =>
    piece.Fits places ∧
      Laid (position + piece.write.length) (piece.places position ++ places) pieces

instance decidableLaid : (position : Nat) → (places : List Place) → (pieces : List Piece) →
    Decidable (Laid position places pieces)
  | _, _, [] => inferInstanceAs (Decidable True)
  | position, places, piece :: pieces =>
    have := decidableLaid (position + piece.write.length) (piece.places position ++ places) pieces
    inferInstanceAs (Decidable (_ ∧ _))

/-! ## Messages -/

/-- A number of two bytes. -/
def wordPiece (n : Nat) : Piece := .bytes (bigBytes 2 n)

structure Question where
  name : Name
  type : UInt16
  network : UInt16

namespace Question

def pieces (q : Question) : List Piece :=
  [.name q.name, wordPiece q.type.toNat, wordPiece q.network.toNat]

def query (q : Question) : Query := ⟨q.name.text, q.type.toNat⟩

end Question

/-- The type of a record and its data: an address, the name that an alias stands for, or anything
else. -/
inductive Content where
  | ipv4 (octets : Vector UInt8 4)
  | ipv6 (octets : Vector UInt8 16)
  | canonical (name : Name)
  | other (type : UInt16) (pieces : List Piece)

namespace Content

def type : Content → Nat
  | .ipv4 _ => 1
  | .ipv6 _ => 28
  | .canonical _ => 5
  | .other type _ => type.toNat

def pieces : Content → List Piece
  | .ipv4 octets => [.bytes octets.toList]
  | .ipv6 octets => [.bytes octets.toList]
  | .canonical name => [.name name]
  | .other _ pieces => pieces

def size (c : Content) : Nat := (writeAll c.pieces).length

/-- What is read of the content. -/
def data : Content → Data
  | .ipv4 octets => .ipv4 octets.toList
  | .ipv6 octets => .ipv6 octets.toList
  | .canonical name => .alias name.text
  | .other _ _ => .other

/-- The record has room for the content, and what is called other content is neither an address nor
an alias. -/
structure Fits (c : Content) : Prop where
  room : c.size < 65536
  other : c.data = .other →
    ¬ (c.type = 1 ∧ c.size = 4) ∧ ¬ (c.type = 28 ∧ c.size = 16) ∧ c.type ≠ 5

instance (c : Content) : Decidable c.Fits :=
  decidable_of_iff
    (c.size < 65536 ∧ (c.data = .other →
      ¬ (c.type = 1 ∧ c.size = 4) ∧ ¬ (c.type = 28 ∧ c.size = 16) ∧ c.type ≠ 5))
    ⟨fun h => ⟨h.1, h.2⟩, fun h => ⟨h.room, h.other⟩⟩

end Content

structure Record where
  name : Name
  network : UInt16
  lifetime : UInt32
  content : Content

namespace Record

def pieces (r : Record) : List Piece :=
  [.name r.name, wordPiece r.content.type, wordPiece r.network.toNat,
    .bytes (bigBytes 4 r.lifetime.toNat), wordPiece r.content.size] ++ r.content.pieces

def answer (r : Record) : Answer := ⟨r.name.text, r.content.type, r.content.data⟩

end Record

/-- A message that is to be written. -/
structure Draft where
  transaction : UInt16
  flags : UInt16
  questions : List Question
  answers : List Record
  authorities : List Record
  extras : List Record

namespace Draft

/-- How many entries the sections have. -/
def counts (d : Draft) : List Nat :=
  [d.questions.length, d.answers.length, d.authorities.length, d.extras.length]

def pieces (d : Draft) : List Piece :=
  wordPiece d.transaction.toNat :: wordPiece d.flags.toNat :: d.counts.map wordPiece ++
    (d.questions.flatMap Question.pieces ++ (d.answers.flatMap Record.pieces ++
      (d.authorities ++ d.extras).flatMap Record.pieces))

def write (d : Draft) : Bytes := writeAll d.pieces

/-- The message with its names in full. -/
def message (d : Draft) : Message :=
  ⟨d.transaction.toNat, d.flags.toNat, d.questions.map Question.query, d.answers.map Record.answer,
    d.write.length⟩

/-- A draft that is a message of a direction. -/
structure Fits (dir : Direction) (d : Draft) : Prop where
  direction : directionOf d.flags.toNat = dir
  operation : d.flags.toNat / 2048 % 16 ≤ maxOperation
  few : ∀ n ∈ d.counts, n ≤ maxEntries
  contents : ∀ r ∈ d.answers ++ (d.authorities ++ d.extras), r.content.Fits
  laid : Laid 0 [] d.pieces

instance (dir : Direction) (d : Draft) : Decidable (d.Fits dir) :=
  decidable_of_iff
    (directionOf d.flags.toNat = dir ∧ d.flags.toNat / 2048 % 16 ≤ maxOperation ∧
      (∀ n ∈ d.counts, n ≤ maxEntries) ∧
      (∀ r ∈ d.answers ++ (d.authorities ++ d.extras), r.content.Fits) ∧ Laid 0 [] d.pieces)
    ⟨fun h => ⟨h.1, h.2.1, h.2.2.1, h.2.2.2.1, h.2.2.2.2⟩,
      fun h => ⟨h.direction, h.operation, h.few, h.contents, h.laid⟩⟩

end Draft

/-! ## Names in full -/

/-- The texts of labels, one behind the other, are the dotted name. -/
theorem addLabels_encode {name : String} (named : name ≠ "") (labels : List String) :
    addLabels name (labels.map Text.encode) = ".".intercalate (name :: labels) := by
  induction labels generalizing name with
  | nil => exact String.intercalate_singleton.symm
  | cons label labels ih =>
    have longer : addLabel name (Text.encode label) = name ++ "." ++ label := by
      rw [addLabel, Text.lossy_encode, if_neg (by rwa [String.isEmpty_iff])]
    have named : name ++ "." ++ label ≠ "" := by
      intro empty
      have size := congrArg String.utf8ByteSize empty
      simp [String.utf8ByteSize_append] at size
    rw [List.map_cons, addLabels_cons, longer, ih named, String.intercalate_cons_cons]
    -- The dots stand between labels, so the last label has none behind it.
    cases labels with
    | nil => rw [String.intercalate_singleton, String.intercalate_singleton]
    | cons next labels =>
      rw [String.intercalate_cons_cons, String.intercalate_cons_cons]
      simp only [String.append_assoc]

theorem Name.Fits.text_eq {places : List Place} {name : Name} (h : name.Fits places) :
    addLabels "" (name.labels.map Text.encode) = name.text := by
  have sized := h.labels
  rw [Name.text]
  generalize name.labels = labels at sized
  cases labels with
  | nil => rfl
  | cons label labels =>
    have named : label ≠ "" := by
      rintro rfl
      exact absurd (sized "" List.mem_cons_self).1 (by decide)
    have first : addLabel "" (Text.encode label) = label := Text.lossy_encode label
    rw [List.map_cons, addLabels_cons, first, addLabels_encode named]

/-! ## Names that stand in a message -/

variable {msg : Bytes} {position size : Nat} {places : List Place}

/-- What is read from a position on are the given labels, over `jumps` pointers. -/
def Spells (msg : Bytes) (position : Nat) (labels : List String) (jumps stop : Nat) : Prop :=
  ∀ (allowed : Nat) (before : String), jumps ≤ allowed →
    (addLabels before (labels.map Text.encode)).utf8ByteSize ≤ maxName →
    nameFrom msg allowed before position = .ok (addLabels before (labels.map Text.encode), stop)

/-- The labels of a place are read from there. -/
def Place.Readable (msg : Bytes) (place : Place) : Prop :=
  ∃ stop, Spells msg place.position place.labels place.jumps stop

/-- All places are readable and stand before a position. -/
def Readable (msg : Bytes) (position : Nat) (places : List Place) : Prop :=
  ∀ place ∈ places, place.position < position ∧ place.Readable msg

theorem prefix_behind {a b : Bytes} (h : a ++ b <+: msg.drop position) :
    b <+: msg.drop (position + a.length) := by
  obtain ⟨tail, h⟩ := h
  exact ⟨tail, by rw [← List.drop_drop, ← h, List.append_assoc, List.drop_left]⟩

namespace Name

theorem Fits.rowFits {name : Name} (fits : name.Fits places) :
    RowFits (name.row.map Text.encode) (name.onward.map Place.position) where
  labels := by
    simp only [List.forall_mem_map, Text.length_encode]
    exact fun label here => fits.labels label (List.mem_append_left _ here)
  onward := by
    simp only [Option.map_eq_some_iff]
    rintro _ ⟨place, onward, rfl⟩
    exact (fits.onward place onward).2

/-- A name behind readable places is read in full and ends where it was written to. -/
theorem spells {name : Name}
    (fits : RowFits (name.row.map Text.encode) (name.onward.map Place.position))
    (readable : ∀ place ∈ name.onward, place.position < position ∧ place.Readable msg)
    (bytes : name.write <+: msg.drop position) :
    Spells msg position name.labels name.jumps (position + name.write.length) := by
  intro allowed before enough short
  obtain ⟨tail, bytes⟩ := bytes
  obtain ⟨row, onward⟩ := name
  simp only [Name.labels, List.map_append, addLabels_append] at short ⊢
  have first : Dns.labels before position (msg.drop position) =
      .ok (addLabels before (row.map Text.encode),
        position + (writeRow (row.map Text.encode) (onward.map Place.position)).length,
        onward.map Place.position) := by
    rw [← bytes]
    exact labels_writeRow fits (.inr ((size_le_addLabels _ _).trans short)) tail
  cases onward with
  | none => exact nameFrom_root first
  | some place =>
    obtain ⟨back, stop, rest⟩ := readable place rfl
    -- The pointer takes one of the jumps and leaves as many as the place needs.
    obtain ⟨jumps, rfl⟩ := Nat.exists_eq_add_of_le' enough
    have length := length_writeRow (row.map Text.encode) (some place.position)
    have two : (writeOnward (some place.position)).length = 2 := rfl
    refine nameFrom_pointer first ?_ (rest _ _ (Nat.le_add_left _ _) short)
    show _ < position + (writeRow (row.map Text.encode) (some place.position)).length
    omega

theorem write_eq (name : Name) (k : Nat) :
    name.write = ((name.row.take k).flatMap fun label => writeLabel (Text.encode label)) ++
      (name.drop k).write := by
  unfold Name.write Name.drop writeRow
  rw [List.flatMap_map, List.flatMap_map, ← List.append_assoc, ← List.flatMap_append,
    List.take_append_drop]

theorem length_write_pos (name : Name) : 0 < name.write.length := by
  rw [Name.write, length_writeRow]
  exact Nat.add_pos_right _ (length_writeOnward_pos _)

theorem readable_places {name : Name}
    (fits : RowFits (name.row.map Text.encode) (name.onward.map Place.position))
    (readable : ∀ place ∈ name.onward, place.position < position ∧ place.Readable msg)
    (bytes : name.write <+: msg.drop position) :
    Readable msg (position + name.write.length) (name.places position) := by
  intro place here
  obtain ⟨k, -, rfl⟩ := List.mem_map.1 here
  -- What is written from the boundary on is a name too, and leads to the same place.
  have split := name.write_eq k
  have behind := (name.drop k).length_write_pos
  rw [split] at bytes ⊢
  have later : RowFits ((name.drop k).row.map Text.encode) (name.onward.map Place.position) :=
    ⟨fun label here => fits.labels label (by
      rw [Name.drop, List.map_drop] at here
      exact List.mem_of_mem_drop here), fits.onward⟩
  refine ⟨by rw [List.length_append]; dsimp only; omega, _, (name.drop k).spells later ?_
    (prefix_behind bytes)⟩
  intro place onward
  obtain ⟨back, readable⟩ := readable place onward
  exact ⟨Nat.lt_add_right _ back, readable⟩

end Name

/-- The pieces stand at a position of a message, which ends with them at `size`. -/
structure Stands (msg : Bytes) (size position : Nat) (pieces : List Piece) : Prop where
  ends : position + (writeAll pieces).length = size
  bytes : writeAll pieces <+: msg.drop position
  laid : ∃ places, Readable msg position places ∧ Laid position places pieces

namespace Stands

variable {piece : Piece} {pieces rest : List Piece} {written : Name}

/-- A name among the pieces is read in full. -/
theorem name (h : Stands msg size position (.name written :: rest)) :
    nameAt msg position = .ok (written.text, position + written.write.length) := by
  obtain ⟨places, readable, fits, -⟩ := h.laid
  have fits : written.Fits places := fits
  have spelled := Name.spells fits.rowFits
    (fun place onward => readable place (fits.onward place onward).1)
    ((List.prefix_append _ _).trans h.bytes)
  have whole := spelled maxJumps "" fits.jumps (by rw [fits.text_eq]; exact fits.size)
  rwa [fits.text_eq] at whole

/-- Behind a piece stand the others, and the names among these have its places too. -/
theorem next (h : Stands msg size position (piece :: rest)) :
    Stands msg size (position + piece.write.length) rest where
  ends := by
    have ends := h.ends
    rw [writeAll, List.flatMap_cons, List.length_append] at ends
    rw [writeAll, Nat.add_assoc, ends]
  bytes := prefix_behind h.bytes
  laid := by
    obtain ⟨places, readable, fits, laid⟩ := h.laid
    refine ⟨_, ?_, laid⟩
    -- The places from before stay where they are; a name brings in its own boundaries.
    have before : Readable msg (position + piece.write.length) places := fun place here =>
      ⟨Nat.lt_add_right _ (readable place here).1, (readable place here).2⟩
    cases piece with
    | bytes bs => exact before
    | name name =>
      have fits : name.Fits places := fits
      have own := Name.readable_places fits.rowFits
        (fun place onward => readable place (fits.onward place onward).1)
        ((List.prefix_append _ _).trans h.bytes)
      exact fun place here => (List.mem_append.1 here).elim (own place) (before place)

theorem skip (h : Stands msg size position (pieces ++ rest)) :
    Stands msg size (position + (writeAll pieces).length) rest := by
  induction pieces generalizing position with
  | nil => exact h
  | cons piece pieces ih =>
    rw [writeAll, List.flatMap_cons, List.length_append, ← Nat.add_assoc]
    exact ih h.next

theorem word {n : Nat} (h : Stands msg size position (.bytes (bigBytes 2 n) :: rest))
    (fits : n < 65536) : wordAt msg position = .ok n := by
  obtain ⟨tail, bytes⟩ := (List.prefix_append _ _).trans h.bytes
  have number : bigEndian (bigBytes 2 n) = n := bigEndian_bigBytes fits
  exact wordAt_ok_iff.2 ⟨_, _, tail, bytes.symm, number⟩

/-- Entries are read one by one where they were written one by one. -/
theorem entries {α γ : Type} {entryAt : Nat → Walk (α × Nat)} {write : γ → List Piece}
    {xs : List γ} (value : γ → α)
    (each : ∀ x ∈ xs, ∀ {position rest}, Stands msg size position (write x ++ rest) →
      ∃ next, entryAt position = .ok (value x, next) ∧ Stands msg size next rest)
    (h : Stands msg size position (xs.flatMap write ++ rest)) :
    ∃ next, entries entryAt xs.length position = .ok (xs.map value, next) ∧
      Stands msg size next rest := by
  induction xs generalizing position with
  | nil => exact ⟨position, rfl, h⟩
  | cons x xs ih =>
    rw [List.flatMap_cons, List.append_assoc] at h
    obtain ⟨next, first, behind⟩ := each x List.mem_cons_self h
    obtain ⟨last, others, behind⟩ := ih (fun x here => each x (List.mem_cons_of_mem _ here)) behind
    exact ⟨last, entries_succ_ok_iff.2 ⟨_, next, _, first, others, rfl⟩, behind⟩

end Stands

/-! ## Reading a message -/

namespace Content

theorem type_lt (c : Content) : c.type < 65536 := by
  cases c with
  | ipv4 octets => exact (by decide : 1 < 65536)
  | ipv6 octets => exact (by decide : 28 < 65536)
  | canonical name => exact (by decide : 5 < 65536)
  | other type pieces => exact type.toNat_lt

end Content

namespace Stands

variable {rest : List Piece}

theorem queryAt (q : Question) (h : Stands msg size position (q.pieces ++ rest)) :
    ∃ next, queryAt msg position = .ok (q.query, next) ∧ Stands msg size next rest := by
  have typed := h.next.word q.type.toNat_lt
  have classed := h.next.next.word q.network.toNat_lt
  have behind := h.next.next.next
  exact ⟨_, queryAt_ok_iff.2 ⟨_, _, h.name, typed, classed, rfl⟩, behind⟩

theorem le_length {pieces : List Piece} (h : Stands msg size position (pieces ++ rest))
    (within : position ≤ msg.length) : position + (writeAll pieces).length ≤ msg.length := by
  have bytes := h.bytes.length_le
  rw [writeAll, List.flatMap_append, List.length_append, List.length_drop] at bytes
  have whole : (pieces.flatMap Piece.write).length = (writeAll pieces).length := rfl
  omega

theorem octets {n : Nat} {octets : Vector UInt8 n}
    (h : Stands msg size position (.bytes octets.toList :: rest)) :
    slice msg position n = octets.toList ∧ (writeAll [.bytes octets.toList]).length = n := by
  obtain ⟨tail, bytes⟩ := (List.prefix_append _ _).trans h.bytes
  have length : (Piece.bytes octets.toList).write.length = n := octets.length_toList
  refine ⟨?_, ?_⟩
  · rw [slice, ← bytes, List.take_append_of_le_length length.ge, List.take_of_length_le length.le]
    rfl
  · rw [writeAll, List.flatMap_singleton, length]

theorem dataAt {c : Content} (fits : c.Fits) (h : Stands msg size position (c.pieces ++ rest)) :
    dataAt msg c.type position c.size = .ok c.data := by
  cases c with
  | ipv4 octets =>
    obtain ⟨read, length⟩ := h.octets
    rw [Content.size, Content.pieces, length]
    exact congrArg (Except.ok ∘ Data.ipv4) read
  | ipv6 octets =>
    obtain ⟨read, length⟩ := h.octets
    rw [Content.size, Content.pieces, length]
    exact congrArg (Except.ok ∘ Data.ipv6) read
  | canonical name =>
    exact dataAt_alias_ok_iff.2 ⟨_, h.name, rfl⟩
  | other type pieces =>
    obtain ⟨ipv4, ipv6, aliased⟩ := fits.other rfl
    rw [Dns.dataAt, if_neg ipv4, if_neg ipv6, if_neg aliased]
    rfl

/-- A record is read with its name in full, and the others stand behind its data. -/
theorem recordAt {r : Record} (fits : r.content.Fits)
    (h : Stands msg size position (r.pieces ++ rest)) :
    ∃ start, recordAt msg position = .ok (r.name.text, r.content.type, start, r.content.size) ∧
      Stands msg size start (r.content.pieces ++ rest) := by
  -- Behind the name come the type, the class, the lifetime and the length.
  have typed := h.next.word r.content.type_lt
  have sized := h.next.next.next.next.word fits.room
  have content := h.next.next.next.next.next
  refine ⟨_, recordAt_ok_iff.2 ⟨_, h.name, typed, ?_, rfl, ?_⟩, content⟩
  · exact sized
  · exact content.le_length (wordAt_le sized)

theorem answerAt {r : Record} (fits : r.content.Fits)
    (h : Stands msg size position (r.pieces ++ rest)) :
    ∃ next, answerAt msg position = .ok (r.answer, next) ∧ Stands msg size next rest := by
  obtain ⟨start, framed, content⟩ := h.recordAt fits
  exact ⟨_, answerAt_ok_iff.2 ⟨start, _, framed, content.dataAt fits, rfl⟩, content.skip⟩

theorem passRecord {r : Record} (fits : r.content.Fits)
    (h : Stands msg size position (r.pieces ++ rest)) :
    ∃ next, passRecord msg position = .ok ((), next) ∧ Stands msg size next rest := by
  obtain ⟨start, framed, content⟩ := h.recordAt fits
  exact ⟨_, passRecord_ok_iff.2 ⟨_, _, start, _, framed, rfl⟩, content.skip⟩

end Stands

namespace Draft

variable {dir : Direction} {d : Draft}

theorem stands (fits : d.Fits dir) (tail : Bytes) :
    Stands (d.write ++ tail) d.write.length 0 d.pieces where
  ends := Nat.zero_add _
  bytes := List.prefix_append _ _
  laid := ⟨[], List.forall_mem_nil _, fits.laid⟩

theorem walk_written (fits : d.Fits dir) (tail : Bytes) :
    walk dir (d.write ++ tail) = .ok d.message := by
  have few : ∀ n ∈ d.counts, n < 65536 := fun n here =>
    (fits.few n here).trans_lt (by decide)
  simp only [counts, List.forall_mem_cons] at few
  obtain ⟨asked, answered, authorities, extras, -⟩ := few
  have h0 := stands fits tail
  have h2 := h0.next
  have h4 := h2.next
  have h6 := h4.next
  have h8 := h6.next
  have h10 := h8.next
  have header : Header dir (d.write ++ tail) d.transaction.toNat d.flags.toNat d.questions.length
      d.answers.length d.authorities.length d.extras.length :=
    { transaction_word := h0.word d.transaction.toNat_lt
      flags_word := h2.word d.flags.toNat_lt
      asked_word := h4.word asked
      answered_word := h6.word answered
      authorities_word := h8.word authorities
      extras_word := h10.word extras
      direction := fits.direction
      operation := fits.operation
      few := fits.few }
  obtain ⟨behindQueries, queries, h⟩ := h10.next.entries Question.query fun q _ => Stands.queryAt q
  obtain ⟨behindAnswers, answers, h⟩ := h.entries Record.answer fun r here =>
    Stands.answerAt (fits.contents r (List.mem_append_left _ here))
  -- The records of the last two sections are passed over in one go, and nothing comes behind them.
  rw [← List.append_nil (List.flatMap _ _)] at h
  obtain ⟨last, passed, h⟩ := h.entries (fun _ => ()) fun r here =>
    Stands.passRecord (fits.contents r (List.mem_append_right _ here))
  have ends : last = d.write.length := h.ends
  rw [ends, List.length_append] at passed
  exact walk_ok_iff.2 ⟨_, _, _, _, _, _, header,
    sections_ok_iff.2 ⟨behindQueries, behindAnswers, _, queries, answers, passed, rfl, rfl⟩⟩

/-- A message is read back as it was written, with its names in full, whatever follows it. -/
theorem parse_written (fits : d.Fits dir) (tail : Bytes) :
    Message.parse dir (d.write ++ tail) = .complete d.message d.write.length :=
  Message.parse_complete_iff.2 ⟨walk_written fits tail, rfl⟩

/-- A response with an alias and an address, in which names go on over up to two pointers. -/
def compressedReply : Draft where
  transaction := 7
  flags := 0x8180
  questions := [⟨⟨["www", "example", "com"], none⟩, 5, 1⟩]
  answers :=
    [⟨⟨[], some ⟨12, ["www", "example", "com"], 0⟩⟩, 1, 60,
        .canonical ⟨["cdn"], some ⟨16, ["example", "com"], 0⟩⟩⟩,
      ⟨⟨[], some ⟨45, ["cdn", "example", "com"], 1⟩⟩, 1, 60, .ipv4 #v[10, 0, 0, 1]⟩]
  authorities :=
    [⟨⟨[], some ⟨16, ["example", "com"], 0⟩⟩, 1, 60,
      .other 2 [.name ⟨["ns"], some ⟨49, ["example", "com"], 1⟩⟩]⟩]
  extras := []

theorem parse_compressedReply :
    Message.parse .response (compressedReply.write ++ [0xC0, 12]) =
      .complete ⟨7, 0x8180, [⟨"www.example.com", 5⟩],
        [⟨"www.example.com", 5, .alias "cdn.example.com"⟩,
          ⟨"cdn.example.com", 1, .ipv4 [10, 0, 0, 1]⟩], 84⟩ 84 := by
  have fits : compressedReply.Fits .response := by decide +kernel
  have message : compressedReply.message = ⟨7, 0x8180, [⟨"www.example.com", 5⟩],
      [⟨"www.example.com", 5, .alias "cdn.example.com"⟩,
        ⟨"cdn.example.com", 1, .ipv4 [10, 0, 0, 1]⟩], 84⟩ := by decide +kernel
  have length : compressedReply.write.length = 84 := by decide +kernel
  have read := parse_written fits [0xC0, 12]
  rwa [message, length] at read

end Draft

end Dialogue.Dns
