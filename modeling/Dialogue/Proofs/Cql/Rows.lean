import Mathlib
import Dialogue.Cql.Body
import Dialogue.Proofs.Fields

/-!
Results of the Cassandra query protocol as they are written.

The number of rows stands behind the description of the columns, which says where the next page
begins, of which tables the columns are, and what their names and types are; flags tell which of
this is there. Types hold others, and are passed over by an induction on the levels
(`reads_skipType`). What is passed over has no bearing on the number of rows (`Rows.count_exact`).
-/
namespace Dialogue.Cql

open Dialogue.Field

/-! ## Types of columns -/

/-- A text that a string has room for. -/
abbrev ShortText := { bs : Bytes // bs.length < 2 ^ 16 }

/-- The identifiers of the types that are described further. -/
def describedIds : List UInt16 := [0x0000, 0x0020, 0x0021, 0x0022, 0x0030, 0x0031]

/-- The type of a column. -/
inductive ColumnType where
  | simple (id : UInt16) (plain : id ∉ describedIds)
  | custom (name : ShortText)
  | list (item : ColumnType)
  | set (item : ColumnType)
  | map (key value : ColumnType)
  | record (keyspace name : ShortText) (fields : List (ShortText × ColumnType))
  | tuple (items : List ColumnType)

/-- A string: its length and its bytes. -/
def writeShort (text : ShortText) : Bytes := bigBytes 2 text.val.length ++ text.val

namespace ColumnType

mutual

/-- The description of a type. -/
def write : ColumnType → Bytes
  | simple id _ => bigBytes 2 id.toNat
  | custom name => bigBytes 2 0x0000 ++ writeShort name
  | list item => bigBytes 2 0x0020 ++ item.write
  | set item => bigBytes 2 0x0022 ++ item.write
  | map key value => bigBytes 2 0x0021 ++ (key.write ++ value.write)
  | record keyspace name fields =>
    bigBytes 2 0x0030 ++ (writeShort keyspace ++ (writeShort name ++
      (bigBytes 2 fields.length ++ writeFields fields)))
  | tuple items => bigBytes 2 0x0031 ++ (bigBytes 2 items.length ++ writeItems items)

/-- The descriptions of the types of a tuple. -/
def writeItems : List ColumnType → Bytes
  | [] => []
  | item :: rest => item.write ++ writeItems rest

/-- The names of fields and the descriptions of their types. -/
def writeFields : List (ShortText × ColumnType) → Bytes
  | [] => []
  | (name, type) :: rest => (writeShort name ++ type.write) ++ writeFields rest

end

mutual

/-- How deep the types within a type lie, where the type itself lies at depth 0. -/
def depth : ColumnType → Nat
  | simple .. => 0
  | custom _ => 0
  | list item => item.depth + 1
  | set item => item.depth + 1
  | map key value => max key.depth value.depth + 1
  | record _ _ fields => depthFields fields
  | tuple items => depthItems items

/-- How deep the deepest type of a tuple lies. -/
def depthItems : List ColumnType → Nat
  | [] => 0
  | item :: rest => max (item.depth + 1) (depthItems rest)

/-- How deep the deepest type of some fields lies. -/
def depthFields : List (ShortText × ColumnType) → Nat
  | [] => 0
  | (_, type) :: rest => max (type.depth + 1) (depthFields rest)

end

/-- The types that the format has room for: records and tuples of up to 65535 members. -/
inductive Fits : ColumnType → Prop where
  | simple {id : UInt16} {plain : id ∉ describedIds} : Fits (.simple id plain)
  | custom {name : ShortText} : Fits (.custom name)
  | list {item : ColumnType} (each : Fits item) : Fits (.list item)
  | set {item : ColumnType} (each : Fits item) : Fits (.set item)
  | map {key value : ColumnType} (keys : Fits key) (values : Fits value) : Fits (.map key value)
  | record {keyspace name : ShortText} {fields : List (ShortText × ColumnType)}
      (few : fields.length < 2 ^ 16) (each : ∀ f ∈ fields, Fits f.2) :
      Fits (.record keyspace name fields)
  | tuple {items : List ColumnType} (few : items.length < 2 ^ 16) (each : ∀ t ∈ items, Fits t) :
      Fits (.tuple items)

theorem writeItems_eq (items : List ColumnType) : writeItems items = items.flatMap write := by
  induction items with
  | nil => rfl
  | cons item rest ih => rw [writeItems, ih, List.flatMap_cons]

theorem writeFields_eq (fields : List (ShortText × ColumnType)) :
    writeFields fields = fields.flatMap fun f => writeShort f.1 ++ f.2.write := by
  induction fields with
  | nil => rfl
  | cons f rest ih => rw [writeFields, ih, List.flatMap_cons]

theorem depthFields_eq (fields : List (ShortText × ColumnType)) :
    depthFields fields = depthItems (fields.map Prod.snd) := by
  induction fields with
  | nil => rfl
  | cons f rest ih => rw [depthFields, ih, List.map_cons, depthItems]

theorem depth_lt_of_mem_items {t : ColumnType} {items : List ColumnType} (h : t ∈ items) :
    t.depth < depthItems items := by
  induction items with
  | nil => cases h
  | cons first rest ih =>
    rw [depthItems]
    rcases List.mem_cons.1 h with rfl | later
    · exact Nat.lt_of_succ_le (Nat.le_max_left _ _)
    · exact Nat.lt_of_lt_of_le (ih later) (Nat.le_max_right _ _)

end ColumnType

/-! ## Passing over a type -/

theorem reads_short (text : ShortText) : short.Reads (writeShort text) text.val :=
  (reads_u16 text.property).bind (reads_bytes rfl)

/-- A type is passed over where it is nested less deep than there are levels. -/
theorem reads_skipType {levels : Nat} {t : ColumnType} (fits : t.Fits)
    (shallow : t.depth < levels) : (skipType levels).Reads t.write () := by
  induction levels generalizing t with
  | zero => cases shallow
  | succ levels ih =>
    rw [skipType]
    cases fits with
    | @simple id plain =>
      have other (n : UInt16) (mem : n ∈ describedIds) : id.toNat ≠ n.toNat :=
        fun same => plain (UInt16.toNat_inj.1 same ▸ mem)
      refine (reads_u16 id.toNat_lt).last ?_
      split
      · next same => exact absurd same (other 0x0000 (by decide))
      · next same => exact absurd same (other 0x0020 (by decide))
      · next same => exact absurd same (other 0x0022 (by decide))
      · next same => exact absurd same (other 0x0021 (by decide))
      · next same => exact absurd same (other 0x0030 (by decide))
      · next same => exact absurd same (other 0x0031 (by decide))
      · rfl
    | @custom name =>
      exact (reads_u16 (n := 0x0000) (by decide)).bind ((reads_short name).last rfl)
    | @list item each =>
      exact (reads_u16 (n := 0x0020) (by decide)).bind (ih each (Nat.lt_of_succ_lt_succ shallow))
    | @set item each =>
      exact (reads_u16 (n := 0x0022) (by decide)).bind (ih each (Nat.lt_of_succ_lt_succ shallow))
    | @map key value keys values =>
      rw [ColumnType.depth] at shallow
      refine (reads_u16 (n := 0x0021) (by decide)).bind ?_
      exact (ih keys (by omega)).bind (ih values (by omega))
    | @record keyspace name fields few each =>
      rw [ColumnType.depth] at shallow
      refine (reads_u16 (n := 0x0030) (by decide)).bind ?_
      refine (reads_short keyspace).bind ((reads_short name).bind ((reads_u16 few).bind ?_))
      rw [ColumnType.writeFields_eq]
      refine (reads_times (f := fun _ => ()) fun f mem => ?_).last rfl
      have within := ColumnType.depth_lt_of_mem_items (List.mem_map_of_mem (f := Prod.snd) mem)
      rw [← ColumnType.depthFields_eq] at within
      exact (reads_short f.1).bind (ih (each f mem) (by omega))
    | @tuple items few each =>
      rw [ColumnType.depth] at shallow
      refine (reads_u16 (n := 0x0031) (by decide)).bind ((reads_u16 few).bind ?_)
      rw [ColumnType.writeItems_eq]
      refine (reads_times (f := fun _ => ()) fun t mem => ?_).last rfl
      have within := ColumnType.depth_lt_of_mem_items mem
      exact ih (each t mem) (by omega)

/-! ## The description of the columns -/

/-- A keyspace and a table in it. -/
structure Table where
  keyspace : ShortText
  name : ShortText

/-- A column of a result. -/
structure Column where
  name : ShortText
  type : ColumnType
  fits : type.Fits
  shallow : type.depth ≤ 16 := by decide

/-- What is said of the columns of a result. -/
inductive Heading where
  /-- Only their number; a table may be announced all the same. -/
  | omitted (global : Bool) (columns : Nat) (few : columns < 2 ^ 31)
  /-- The columns, all of one table. -/
  | shared (table : Table) (columns : List Column) (few : columns.length < 2 ^ 31)
  /-- The columns, each with its table. -/
  | apart (columns : List (Table × Column)) (few : columns.length < 2 ^ 31)

/-- Where the rows to come continue. -/
inductive Paging where
  /-- Nowhere, which is a negative length. -/
  | null (length : Int) (lower : -2 ^ 31 ≤ length := by decide) (negative : length < 0 := by decide)
  | state (bytes : Bytes) (short : bytes.length < 2 ^ 31 := by decide)

/-- A result up to its rows. -/
structure Rows where
  paging : Option Paging
  heading : Heading
  count : Int
  lower : -2 ^ 31 ≤ count := by decide
  upper : count < 2 ^ 31 := by decide

def Table.write (t : Table) : Bytes := writeShort t.keyspace ++ writeShort t.name

def Column.write (c : Column) : Bytes := writeShort c.name ++ c.type.write

def Paging.write : Paging → Bytes
  | null length _ _ => bigBytes 4 (word 32 length)
  | state bytes _ => bigBytes 4 bytes.length ++ bytes

namespace Heading

/-- The number of columns. -/
def columns : Heading → Nat
  | omitted _ columns _ => columns
  | shared _ columns _ => columns.length
  | apart columns _ => columns.length

/-- Whether one table for all columns is announced. -/
def isGlobal : Heading → Bool
  | omitted global _ _ => global
  | shared .. => true
  | apart .. => false

/-- Whether the columns are left out. -/
def isOmitted : Heading → Bool
  | omitted .. => true
  | _ => false

def write : Heading → Bytes
  | omitted .. => []
  | shared table columns _ => table.write ++ columns.flatMap Column.write
  | apart columns _ => columns.flatMap fun c => c.1.write ++ c.2.write

end Heading

/-- The flags of a result: bit 0 for one table, bit 1 for a paging state, bit 2 for columns that are
left out. -/
def flagBits (global paged omitted : Bool) : Nat :=
  global.toNat + 2 * paged.toNat + 4 * omitted.toNat

/-- The result behind its kind: the description of the columns and the number of rows. -/
def Rows.write (r : Rows) : Bytes :=
  bigBytes 4 (flagBits r.heading.isGlobal r.paging.isSome r.heading.isOmitted) ++
    (bigBytes 4 r.heading.columns ++ (r.paging.elim [] Paging.write ++
      (r.heading.write ++ bigBytes 4 (word 32 r.count))))

theorem flagBits_spec : ∀ global paged omitted : Bool,
    let flags := flagBits global paged omitted
    flags < 2 ^ 32 ∧ flags.testBit 0 = global ∧ flags.testBit 1 = paged ∧
      flags.testBit 2 = omitted := by decide

theorem reads_skipTable (t : Table) : skipTable.Reads t.write () :=
  (reads_short t.keyspace).bind ((reads_short t.name).last rfl)

/-! ## The parts of a result -/

/-- Passes over the paging state, where the flags announce one. -/
def skipPaging (flags : Nat) : Field Unit := do
  if flags.testBit 1 then
    let length ← Field.i32
    if 0 < length then Field.skip length.toNat

/-- Passes over a column, with its table where there is not one for all. -/
def skipColumn (global : Bool) : Field Unit := do
  if !global then skipTable
  let _ ← short
  skipType typeLevels

/-- Passes over the description of the columns. -/
def skipHeading (flags : Nat) (columns : Int) : Field Unit := do
  if !flags.testBit 2 then
    if flags.testBit 0 then skipTable
    let _ ← Field.times columns.toNat (skipColumn (flags.testBit 0))

theorem skipPaging_bind {α : Type} (flags : Nat) (rest : Field α) :
    (do skipPaging flags; rest) =
      if flags.testBit 1 then do
        let length ← Field.i32
        if 0 < length then do Field.skip length.toNat; rest else rest
      else rest := by
  unfold skipPaging
  by_cases paged : flags.testBit 1 = true
  · rw [if_pos paged, if_pos paged, bind_assoc]
    refine bind_congr fun length => ?_
    split
    · rfl
    · exact pure_bind () _
  · rw [if_neg paged, if_neg paged, pure_bind]

theorem skipHeading_bind {α : Type} (flags : Nat) (columns : Int) (rest : Field α) :
    (do skipHeading flags columns; rest) =
      if !flags.testBit 2 then
        if flags.testBit 0 then do
          skipTable
          let _ ← Field.times columns.toNat (skipColumn (flags.testBit 0))
          rest
        else do
          let _ ← Field.times columns.toNat (skipColumn (flags.testBit 0))
          rest
      else rest := by
  unfold skipHeading
  by_cases described : (!flags.testBit 2) = true
  · rw [if_pos described, if_pos described]
    split <;> simp only [bind_assoc, pure_bind]
  · rw [if_neg described, if_neg described, pure_bind]

/-- The parts of a result, one behind the other. -/
theorem rowCount_eq : rowCount = (do
    let flags ← Field.u32
    let columns ← Field.i32
    skipPaging flags
    skipHeading flags columns
    Field.i32) := by
  unfold rowCount
  refine bind_congr fun flags => bind_congr fun columns => ?_
  rw [skipPaging_bind, skipHeading_bind]
  rfl

/-! ## Passing over the parts -/

section
variable {flags : Nat}

theorem reads_skipPaging {paging : Option Paging} (announced : flags.testBit 1 = paging.isSome) :
    (skipPaging flags).Reads (paging.elim [] Paging.write) () := by
  unfold skipPaging
  rw [announced]
  rcases paging with _ | ⟨length, lower, negative⟩ | ⟨bytes, short⟩
  · exact .pure ()
  · refine (reads_i32 lower (by omega)).last ?_
    exact if_neg (by omega)
  · refine (reads_i32_natCast short).bind ?_
    split
    · exact reads_skip rfl
    · next empty =>
      obtain rfl : bytes = [] := List.eq_nil_of_length_eq_zero (by omega)
      exact .pure ()

theorem reads_skipColumn_shared (c : Column) : (skipColumn true).Reads c.write () :=
  (reads_short c.name).bind (reads_skipType c.fits (Nat.lt_succ_of_le c.shallow))

theorem reads_skipColumn_apart (c : Table × Column) :
    (skipColumn false).Reads (c.1.write ++ c.2.write) () :=
  (reads_skipTable c.1).bind (reads_skipColumn_shared c.2)

theorem reads_skipHeading {heading : Heading} (global : flags.testBit 0 = heading.isGlobal)
    (omitted : flags.testBit 2 = heading.isOmitted) :
    (skipHeading flags heading.columns).Reads heading.write () := by
  unfold skipHeading
  rw [global, omitted]
  cases heading with
  | omitted global columns few => exact .pure ()
  | shared table columns few =>
    refine (reads_skipTable table).bind ?_
    exact (reads_times (f := fun _ => ()) fun c _ => reads_skipColumn_shared c).last rfl
  | apart columns few =>
    exact (reads_times (f := fun _ => ()) fun c _ => reads_skipColumn_apart c).last rfl

end

theorem columns_lt (heading : Heading) : heading.columns < 2 ^ 31 := by
  cases heading <;> assumption

/-- The number of rows is read behind any description of the columns. -/
theorem reads_rowCount (r : Rows) : rowCount.Reads r.write r.count := by
  obtain ⟨bounded, global, paged, omitted⟩ :=
    flagBits_spec r.heading.isGlobal r.paging.isSome r.heading.isOmitted
  have columns := reads_i32_natCast (columns_lt r.heading)
  rw [rowCount_eq]
  refine (reads_u32 bounded).bind (columns.bind ((reads_skipPaging paged).bind ?_))
  exact (reads_skipHeading global omitted).bind (reads_i32 r.lower r.upper)

/-! ## Results -/

/-- The body of a result: its kind, the description of the columns and the number of rows. -/
def Rows.body (r : Rows) : Bytes := bigBytes 4 2 ++ r.write

/-- What is shown of a result. -/
def Rows.text (r : Rows) : Bytes :=
  Text.encode s!"Response type = ROWS\nNumber of rows = {r.count}"

theorem reads_result (r : Rows) : (responseField .result).Reads r.body r.text := by
  have result : resultField.Reads r.body s!"Response type = ROWS\nNumber of rows = {r.count}" :=
    (reads_i32_natCast (n := 2) (by decide)).bind
      ((reads_rowCount r).map fun rows => s!"Response type = ROWS\nNumber of rows = {rows}")
  exact result.map Text.encode

/-- **The number of rows is read behind any description of the columns**: with or without a paging
state, with the columns left out, with one table for all of them or a table for each, and whatever
their names and types are. It is read whatever rows follow, and of a beginning that ends before it
no number is read, but an error says that it is cut short. So a frame shows the number of its rows,
and a frame cut short shows nothing. -/
theorem Rows.count_exact (r : Rows) :
    (∀ owner offset data, rowCount ⟨owner, offset, r.write ++ data⟩ =
      .ok (r.count, ⟨owner, offset + r.write.length, data⟩)) ∧
    (∀ owner offset n, n < r.write.length →
      ∃ e, rowCount ⟨owner, offset, r.write.take n⟩ = .error e ∧ e.CutShort owner (offset + n)) ∧
    ∀ version flags stream,
      (∀ data, renderResponse ⟨version, flags, stream, .result, r.body ++ data⟩ = r.text) ∧
      ∀ n < r.body.length,
        renderResponse ⟨version, flags, stream, .result, r.body.take n⟩ = [] := by
  refine ⟨(reads_rowCount r).whole, (reads_rowCount r).cut, fun version flags stream => ⟨?_, ?_⟩⟩
  · intro data
    rw [renderResponse, render, (reads_result r).read]
  · intro n short
    obtain ⟨e, failed, -⟩ := (reads_result r).read_cut "cql" short
    rw [renderResponse, render, failed]

/-- A tuple of a map to lists of a custom type and a record with a set. -/
def nestedType : ColumnType :=
  .tuple [.map (.simple 9 (by decide)) (.list (.custom ⟨ascii "C", by decide⟩)),
    .record ⟨ascii "ks", by decide⟩ ⟨[], by decide⟩
      [(⟨ascii "f", by decide⟩, .set (.simple 13 (by decide)))]]

theorem fits_nestedType : nestedType.Fits := by
  refine .tuple (by decide) ?_
  simp only [List.forall_mem_cons, List.not_mem_nil, false_imp_iff, implies_true, and_true]
  refine ⟨.map .simple (.list .custom), .record (by decide) ?_⟩
  simp only [List.forall_mem_cons, List.not_mem_nil, false_imp_iff, implies_true, and_true]
  exact .set .simple

/-- Two rows of a column of this type, and no further pages. -/
def nested : Rows where
  paging := some (.null (-1))
  heading := .apart [(⟨⟨ascii "ks", by decide⟩, ⟨ascii "t", by decide⟩⟩,
    { name := ⟨ascii "v", by decide⟩, type := nestedType, fits := fits_nestedType })] (by decide)
  count := 2

/-- Its bytes, its number of rows with a row behind them, and nothing without the last of them. -/
theorem Rows.count_exact_nested :
    nested.write = [0, 0, 0, 2, 0, 0, 0, 1, 255, 255, 255, 255, 0, 2, 107, 115, 0, 1, 116,
        0, 1, 118, 0, 49, 0, 2, 0, 33, 0, 9, 0, 32, 0, 0, 0, 1, 67, 0, 48, 0, 2, 107, 115, 0, 0,
        0, 1, 0, 1, 102, 0, 34, 0, 13, 0, 0, 0, 2] ∧
      rowCount ⟨"cql", 4, nested.write ++ [0]⟩ = .ok (2, ⟨"cql", 4 + nested.write.length, [0]⟩) ∧
      (∃ e, rowCount ⟨"cql", 4, nested.write.take 57⟩ = .error e ∧ e.CutShort "cql" 61) ∧
      renderResponse ⟨4, 0, 1, .result, nested.body.take 61⟩ = [] := by
  obtain ⟨whole, cut, shown⟩ := Rows.count_exact nested
  exact ⟨by decide, whole "cql" 4 [0], cut "cql" 4 57 (by decide),
    (shown 4 0 1).2 61 (by decide)⟩

end Dialogue.Cql
