import Mathlib
import Dialogue.Postgres.Payload
import Dialogue.Proofs.Fields

/-!
Payloads of PostgreSQL messages as they are written.

Row descriptions and rows are counted lists; the fields of an error and the parameters of a startup
message are lists that end with a zero byte. Each is written as its members are, one behind the
other, and a member is read where it is written. So reading undoes writing, whatever is behind the
payload, and of no payload that is cut short a shorter list is read (`undoes_writing`).
-/
namespace Dialogue.Postgres.Payload

open Dialogue.Field

/-- The most members that a counted list may have. -/
def maxCount : Nat := 32767

/-- A column as it is described: its name and what stands behind it. -/
structure Column where
  name : Bytes
  attributes : Bytes
  plain : 0 ∉ name := by decide
  complete : attributes.length = columnAttributes := by decide

/-- A field of an error. -/
structure ErrorText where
  code : UInt8
  text : Bytes
  coded : code ≠ 0 := by decide
  plain : 0 ∉ text := by decide

/-- A parameter of a startup message. -/
structure Parameter where
  name : Bytes
  value : Bytes
  named : name ≠ [] := by decide
  plainName : 0 ∉ name := by decide
  plainValue : 0 ∉ value := by decide

/-! ## The formats -/

/-- A string and the zero byte that ends it. -/
def writeString (text : Bytes) : Bytes := text ++ [0]

/-- The number of members of a list, and the members. -/
def writeCounted {α : Type} (write : α → Bytes) (members : List α) : Bytes :=
  bigBytes 2 members.length ++ members.flatMap write

def Column.write (c : Column) : Bytes := writeString c.name ++ c.attributes

def writeRowDescription (columns : List Column) : Bytes := writeCounted Column.write columns

/-- The length of a value and its bytes, or minus one for null. -/
def writeValue : Option Bytes → Bytes
  | none => bigBytes 4 (word 32 (-1))
  | some bs => bigBytes 4 bs.length ++ bs

def writeDataRow (values : List (Option Bytes)) : Bytes := writeCounted writeValue values

def ErrorText.write (f : ErrorText) : Bytes := f.code :: writeString f.text

def writeErrorFields (fields : List ErrorText) : Bytes := fields.flatMap ErrorText.write ++ [0]

def Parameter.write (p : Parameter) : Bytes := writeString p.name ++ writeString p.value

/-- A version and the parameters. -/
def writeStartup (version : Nat) (parameters : List Parameter) : Bytes :=
  bigBytes 4 version ++ (parameters.flatMap Parameter.write ++ writeString [])

/-! ## Counted lists -/

theorem reads_count {n : Nat} (few : n ≤ maxCount) (name : String) :
    (count name).Reads (bigBytes 2 n) n := by
  refine (reads_i16_natCast (Nat.lt_succ_of_le few)).last ?_
  rw [if_neg (by omega)]
  rfl

theorem reads_counted {α β : Type} {member : Field β} {write : α → Bytes} {f : α → β}
    {members : List α} (few : members.length ≤ maxCount)
    (each : ∀ m ∈ members, member.Reads (write m) (f m)) (name : String) :
    Reads (do times (← count name) member) (writeCounted write members) (members.map f) :=
  (reads_count few name).bind (reads_times each)

theorem reads_column (c : Column) : column.Reads c.write c.name := by
  refine (reads_zeroEnded c.plain).bind ?_
  exact (reads_skip c.complete).last rfl

theorem reads_value {v : Option Bytes} (short : ∀ bs ∈ v, bs.length < 2 ^ 31) :
    value.Reads (writeValue v) v := by
  cases v with
  | none =>
    refine (reads_i32 (i := -1) (by decide) (by decide)).last ?_
    rw [if_pos (by decide)]
  | some bs =>
    refine (reads_i32_natCast (short bs rfl)).bind ?_
    rw [if_neg (by omega)]
    exact (reads_bytes rfl).map some

/-! ## Lists with a zero byte at the end -/

theorem reads_errorField (f : ErrorText) : errorField.Reads f.write (some (f.code, f.text)) := by
  refine (reads_u8 f.code).bind ?_
  have nonzero : f.code.toNat ≠ 0 := fun zero => f.coded (UInt8.toNat_inj.1 zero)
  rw [if_neg nonzero, UInt8.ofNat_toNat]
  exact (reads_zeroEnded f.plain).map fun text => some (f.code, text)

theorem reads_errorField_end : errorField.Reads [0] none := (reads_u8 0).last rfl

theorem reads_parameter (p : Parameter) : parameter.Reads p.write (some (p.name, p.value)) := by
  refine (reads_zeroEnded p.plainName).bind ?_
  rw [if_neg (by simpa using p.named)]
  exact (reads_zeroEnded p.plainValue).map fun value => some (p.name, value)

theorem reads_parameter_end : parameter.Reads (writeString []) none :=
  (reads_zeroEnded List.not_mem_nil).last rfl

/-! ## Payloads -/

/-- A format undoes what has been written: it reads the value, whatever is behind it, and of every
beginning it says that it is cut short. -/
structure Undoes {α : Type} (format : Field α) (written : Bytes) (a : α) : Prop where
  whole : ∀ behind, read format (written ++ behind) = .ok a
  cut : ∀ n < written.length,
    ∃ e, read format (written.take n) = .error e ∧ e.CutShort "pgsql" n

theorem Undoes.of_reads {α : Type} {format : Field α} {written : Bytes} {a : α}
    (h : format.Reads written a) : Undoes format written a :=
  ⟨h.read "pgsql", fun _ short => h.read_cut "pgsql" short⟩

/-- **Reading a payload undoes writing it.** This holds of the names of up to 32767 columns with any
attributes, of up to 32767 values or nulls, of any fields of an error and of any parameters behind
any version: the list is read whatever is behind the payload, and a payload that ends before its end
gives an error that says so. -/
theorem undoes_writing :
    (∀ columns : List Column, columns.length ≤ maxCount →
      Undoes rowDescription (writeRowDescription columns) (columns.map (·.name))) ∧
    (∀ row : List (Option Bytes), row.length ≤ maxCount →
      (∀ bs, some bs ∈ row → bs.length < 2 ^ 31) → Undoes dataRow (writeDataRow row) row) ∧
    (∀ fields : List ErrorText,
      Undoes errorFields (writeErrorFields fields) (fields.map fun f => (f.code, f.text))) ∧
    ∀ (version : Nat) (parameters : List Parameter),
      Undoes startupParameters (writeStartup version parameters)
        (parameters.map fun p => (p.name, p.value)) := by
  refine ⟨fun columns few => ?_, fun row few short => ?_, fun fields => ?_,
    fun version parameters => ?_⟩
  · exact .of_reads (reads_counted few (fun c _ => reads_column c) "field count")
  · have values := reads_counted (f := id) few
      (fun v mem => reads_value fun bs some => short bs (some ▸ mem)) "column count"
    rw [List.map_id] at values
    exact .of_reads values
  · have long (f : ErrorText) : f.write ≠ [] := List.cons_ne_nil _ _
    exact .of_reads (reads_untilNone (fun f _ => reads_errorField f) (fun f _ => long f)
      reads_errorField_end)
  · have long (p : Parameter) : p.write ≠ [] := by simp [Parameter.write, writeString]
    exact .of_reads ((reads_skip (length_bigBytes 4 version)).bind
      (reads_untilNone (fun p _ => reads_parameter p) (fun p _ => long p) reads_parameter_end))

/-- Two columns, of which one has no name. -/
def twoColumns : List Column :=
  [{ name := ascii "Name", attributes := List.replicate 18 0 },
    { name := [], attributes := List.replicate 18 255 }]

/-- A value, null and an empty value. -/
def mixedRow : List (Option Bytes) := [some [0, 1], none, some []]

def fatal : List ErrorText :=
  [{ code := byte 'S', text := ascii "FATAL" }, { code := 1, text := [] }]

def userOnly : List Parameter := [{ name := ascii "user", value := [] }]

/-- The four payloads, read with bytes behind them and read without their last bytes. -/
theorem undoes_writing_mixed :
    twoColumns.length ≤ maxCount ∧ mixedRow.length ≤ maxCount ∧
      (∀ bs, some bs ∈ mixedRow → bs.length < 2 ^ 31) ∧
      writeDataRow mixedRow = [0, 3, 0, 0, 0, 2, 0, 1, 255, 255, 255, 255, 0, 0, 0, 0] ∧
      read rowDescription (writeRowDescription twoColumns ++ [9]) = .ok [ascii "Name", []] ∧
      read dataRow (writeDataRow mixedRow ++ [9]) = .ok mixedRow ∧
      (∃ e, read dataRow ((writeDataRow mixedRow).take 12) = .error e ∧ e.CutShort "pgsql" 12) ∧
      (∃ e, read errorFields ((writeErrorFields fatal).take 9) = .error e ∧
        e.CutShort "pgsql" 9) ∧
      ∃ e, read startupParameters ((writeStartup 196608 userOnly).take 10) = .error e ∧
        e.CutShort "pgsql" 10 := by
  obtain ⟨described, rows, failed, started⟩ := undoes_writing
  have few : twoColumns.length ≤ maxCount := by decide
  have values : mixedRow.length ≤ maxCount := by decide
  have short : ∀ bs, some bs ∈ mixedRow → bs.length < 2 ^ 31 := by
    intro bs mem
    have either : bs = [0, 1] ∨ bs = [] := by simpa [mixedRow] using mem
    rcases either with rfl | rfl <;> decide
  exact ⟨few, values, short, by decide, (described twoColumns few).whole [9],
    (rows mixedRow values short).whole [9], (rows mixedRow values short).cut 12 (by decide),
    (failed fatal).cut 9 (by decide), (started 196608 userOnly).cut 10 (by decide)⟩

end Dialogue.Postgres.Payload
