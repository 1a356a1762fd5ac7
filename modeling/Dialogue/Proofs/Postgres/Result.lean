import Mathlib
import Dialogue.Postgres

/-!
The text that a PostgreSQL result is shown as.

A `Sheet` is what the payloads of a result say: the columns, the rows and how the command ended. The
text of a result is the lines of its sheet with line feeds between them, less the empty lines at the
start (`shows_sheet`). A line feed is written where something has been written before, not where a
line has been, so rows of one empty value and results without columns leave no line as long as
nothing but such lines stands before them (`empty_lines_lost`).
-/
namespace Dialogue.Postgres

/-! ## Lines -/

/-- Lines with line feeds between them, the empty ones too. -/
def joined (lines : List Bytes) : Bytes := [10].intercalate lines

@[simp] theorem joined_nil : joined [] = [] := rfl

@[simp] theorem joined_singleton (l : Bytes) : joined [l] = l := List.intercalate_singleton

theorem joined_cons_cons (l l' : Bytes) (lines : List Bytes) :
    joined (l :: l' :: lines) = l ++ 10 :: joined (l' :: lines) := by
  simp [joined, List.intercalate_cons_cons]

/-- Empty lines that are left out at the start make no text longer. -/
theorem length_joined_dropWhile (lines : List Bytes) :
    (joined (lines.dropWhile (·.isEmpty))).length ≤ (joined lines).length := by
  induction lines with
  | nil => exact Nat.le_refl _
  | cons l rest ih =>
    cases l with
    | cons b l => exact Nat.le_refl _
    | nil =>
      cases rest with
      | nil => exact Nat.le_refl _
      | cons l' rest =>
        rw [joined_cons_cons, List.length_append, List.length_cons]
        exact Nat.le_trans ih (by omega)

/-- Leaving out the empty lines at the start changes nothing exactly where there is none, or no
other line. -/
theorem joinLines_eq_joined_iff (lines : List Bytes) :
    joinLines lines = joined lines ↔ lines.length ≤ 1 ∨ lines.head? ≠ some [] := by
  show joined (lines.dropWhile (·.isEmpty)) = joined lines ↔ _
  cases lines with
  | nil => simp
  | cons l rest =>
    cases l with
    | cons b l => simp
    | nil =>
      cases rest with
      | nil => simp
      | cons l' rest =>
        have shorter := length_joined_dropWhile (l' :: rest)
        constructor
        · intro same
          have lengths := congrArg List.length same
          rw [joined_cons_cons, List.length_append, List.length_cons] at lengths
          change (joined ((l' :: rest).dropWhile (·.isEmpty))).length = _ at lengths
          omega
        · intro few
          simp at few

/-! ## Sheets -/

/-- The values of a row, none for null. -/
abbrev Row := List (Option Bytes)

/-- The line of a row. -/
def Row.text (row : Row) : Bytes := line (row.map (·.getD nullText))

/-- What the payloads of a result say. -/
structure Sheet where
  /-- The rows that come before the columns are named. -/
  early : List Row := []
  /-- The names of the columns, where they are named. -/
  columns : Option (List Bytes) := none
  rows : List Row := []
  /-- How the command ended, in one line or none. -/
  ending : List Bytes := []

namespace Sheet

/-- The lines of a sheet: the columns, each row and how the command ended. -/
def lines (x : Sheet) : List Bytes :=
  x.columns.toList.map line ++ (x.early ++ x.rows).map Row.text ++ x.ending

/-- The lines in the order in which they have come. -/
def arrival (x : Sheet) : List Bytes :=
  x.early.map Row.text ++ x.columns.toList.map line ++ x.rows.map Row.text ++ x.ending

theorem arrival_eq_lines {x : Sheet} (h : x.early = [] ∨ x.columns = none) :
    x.arrival = x.lines := by
  unfold arrival lines
  rcases h with none | none <;> simp [none]

end Sheet

/-- Whether a message names columns. -/
def Message.describes (m : Message) : Bool := m.tag == Tag.rowDescription

/-- The rows among some messages decode to these. -/
def ReadsRows (ms : List Message) (rows : List Row) : Prop :=
  List.Forall₂ (fun m row => Payload.read Payload.dataRow m.payload = .ok row)
    (ms.filter (·.tag == Tag.dataRow)) rows

/-- The payloads of a result decode to a sheet. Where columns are known beforehand, no message is
asked for them; else the first that names columns is. -/
structure Decodes (known : List Bytes) (body : List Message) (terminal : Message) (x : Sheet) :
    Prop where
  early : ReadsRows (if known.isEmpty then body.takeWhile (!·.describes) else []) x.early
  columns : if known.isEmpty then
      (body.find? (·.describes)).map (fun m => Payload.read Payload.rowDescription m.payload) =
        x.columns.map .ok
    else x.columns = some known
  rows : ReadsRows (if known.isEmpty then body.dropWhile (!·.describes) else body) x.rows
  failed : terminal.tag = Tag.error →
    ∃ text, Payload.renderError terminal.payload = .ok text ∧ x.ending = [text]
  completed : terminal.tag ≠ Tag.error →
    x.ending = if terminal.payload = [] then [] else [terminal.text]

section
variable {m : Message} {body : List Message} {rows early : List Row}

theorem rowLine_of_read {row : Row} (read : Payload.read Payload.dataRow m.payload = .ok row) :
    rowLine m.payload = .ok row.text := by
  unfold rowLine
  rw [read]
  rfl

theorem columnsLine_of_read {names : List Bytes}
    (read : Payload.read Payload.rowDescription m.payload = .ok names) :
    columnsLine m.payload = .ok (line names) := by
  unfold columnsLine
  rw [read]
  rfl

theorem readsRows_cons_of_row (row : m.tag = Tag.dataRow) :
    ReadsRows (m :: body) rows ↔ ∃ first later, rows = first :: later ∧
      Payload.read Payload.dataRow m.payload = .ok first ∧ ReadsRows body later := by
  unfold ReadsRows
  rw [List.filter_cons_of_pos (by simpa using row)]
  constructor
  · intro reads
    obtain ⟨first, later, read, rest, rfl⟩ := List.forall₂_cons_left_iff.1 reads
    exact ⟨first, later, rfl, read, rest⟩
  · rintro ⟨first, later, rfl, read, rest⟩
    exact .cons read rest

theorem readsRows_cons_of_ne (other : m.tag ≠ Tag.dataRow) :
    ReadsRows (m :: body) rows ↔ ReadsRows body rows := by
  unfold ReadsRows
  rw [List.filter_cons_of_neg (by simpa using other)]

/-! ## The lines that are written -/

/-- Once the columns are named, there is a line for each row. -/
theorem bodyLines_headed (reads : ReadsRows body rows) :
    bodyLines true body = .ok (rows.map Row.text) := by
  induction body generalizing rows with
  | nil =>
    obtain rfl : rows = [] := List.forall₂_nil_left_iff.1 reads
    rfl
  | cons m body ih =>
    rw [bodyLines, if_neg (by simp)]
    by_cases row : m.tag = Tag.dataRow
    · obtain ⟨first, later, rfl, read, rest⟩ := (readsRows_cons_of_row row).1 reads
      rw [if_pos row, rowLine_of_read read, ih rest]
      rfl
    · rw [if_neg row]
      exact ih ((readsRows_cons_of_ne row).1 reads)

/-- Before that, the first message that names columns gives a line of its own. -/
theorem bodyLines_unheaded {columns : Option (List Bytes)}
    (reads : ReadsRows (body.takeWhile (!·.describes)) early)
    (named : (body.find? (·.describes)).map
      (fun m => Payload.read Payload.rowDescription m.payload) = columns.map .ok)
    (later : ReadsRows (body.dropWhile (!·.describes)) rows) :
    bodyLines false body =
      .ok (early.map Row.text ++ columns.toList.map line ++ rows.map Row.text) := by
  induction body generalizing early with
  | nil =>
    obtain rfl : early = [] := List.forall₂_nil_left_iff.1 reads
    obtain rfl : rows = [] := List.forall₂_nil_left_iff.1 later
    obtain rfl : columns = none := by simpa using named
    rfl
  | cons m body ih =>
    have unlike : Tag.rowDescription ≠ Tag.dataRow := by decide
    rw [bodyLines]
    by_cases describes : m.tag = Tag.rowDescription
    · have first : m.describes = true := by simpa [Message.describes] using describes
      rw [List.takeWhile_cons_of_neg (by simp [first])] at reads
      rw [List.find?_cons_of_pos first] at named
      rw [List.dropWhile_cons_of_neg (by simp [first]),
        readsRows_cons_of_ne (by rwa [describes])] at later
      obtain rfl : early = [] := List.forall₂_nil_left_iff.1 reads
      obtain ⟨names, rfl, read⟩ := Option.map_eq_some_iff.1 named.symm
      rw [if_pos ⟨describes, by simp⟩, columnsLine_of_read read.symm, bodyLines_headed later]
      rfl
    · have first : m.describes = false := by simpa [Message.describes] using describes
      rw [List.takeWhile_cons_of_pos (by simp [first])] at reads
      rw [List.find?_cons_of_neg (by simp [first])] at named
      rw [List.dropWhile_cons_of_pos (by simp [first])] at later
      rw [if_neg (by simp [describes])]
      by_cases row : m.tag = Tag.dataRow
      · obtain ⟨head, tail, rfl, read, rest⟩ := (readsRows_cons_of_row row).1 reads
        rw [if_pos row, rowLine_of_read read, ih rest named later]
        rfl
      · rw [if_neg row]
        exact ih ((readsRows_cons_of_ne row).1 reads) named later

/-- The text of a result is that of its sheet. -/
theorem resultText_of_decodes {known : List Bytes} {terminal : Message} {x : Sheet}
    (h : Decodes known body terminal x) :
    resultText known body terminal = .ok (joinLines x.arrival) := by
  have ended : terminalLines terminal = .ok x.ending := by
    unfold terminalLines
    split
    · next failed =>
      obtain ⟨text, rendered, same⟩ := h.failed failed
      rw [rendered, same]
      rfl
    · next completed => simp [h.completed completed]
  obtain ⟨early, columns, rows, -, -⟩ := h
  unfold resultText
  rw [ended]
  cases known with
  | nil =>
    rw [List.isEmpty_nil, if_pos rfl] at early columns rows
    show (bodyLines false body >>= fun lines => _) = _
    rw [bodyLines_unheaded early columns rows]
    simp [Sheet.arrival, bind, Except.bind, pure, Except.pure]
  | cons name known =>
    rw [List.isEmpty_cons, if_neg Bool.false_ne_true] at early columns rows
    have none : x.early = [] := List.forall₂_nil_left_iff.1 early
    show (bodyLines true body >>= fun lines => _) = _
    rw [bodyLines_headed rows]
    simp [Sheet.arrival, none, columns, bind, Except.bind, pure, Except.pure]

end

/-! ## Groups -/

/-- A message that may stand before the end of a result, and does not end it. -/
def Inside (ends : List UInt8) (m : Message) : Prop :=
  m.tag ∉ ends ∧ (m.tag ∈ Tag.inResult ∨ m.tag ∈ Tag.unasked)

section
variable {ends : List UInt8} {ms : List (Stamped Message)} {terminal : Stamped Message}

/-- A result is found up to its end, whatever follows. -/
theorem extent_of_inside (inside : ∀ m ∈ ms, Inside ends m.value)
    (ended : terminal.value.tag ∈ ends) (before later : List (Stamped Message)) :
    extent ends before (ms ++ terminal :: later) = .found (before.reverse ++ ms) terminal := by
  induction ms generalizing before with
  | nil => simp [extent, ended]
  | cons m ms ih =>
    obtain ⟨goes, stays⟩ := inside m List.mem_cons_self
    rw [List.cons_append, extent, if_neg (by simpa using goes), if_pos (by simpa using stays),
      ih fun m' h => inside m' (List.mem_cons_of_mem m h)]
    simp

end

/-- **A result is shown line by line, but empty lines at the start are lost.** The messages of a
result whose payloads decode are taken, whatever follows them, and shown as the lines of their sheet
in the order in which they have come, less the empty lines at the start. Where no row comes before
the columns are named, this is every line of the sheet exactly if the first line is not empty or
there is no other. -/
theorem shows_sheet {known : List Bytes} {ends : List UInt8} {body : List (Stamped Message)}
    {terminal : Stamped Message} {x : Sheet} (inside : ∀ m ∈ body, Inside ends m.value)
    (ended : terminal.value.tag ∈ ends)
    (decodes : Decodes known (body.map (·.value)) terminal.value x)
    (later : List (Stamped Message)) :
    ∃ text,
      takeResult known ends (body ++ terminal :: later) =
        .done ⟨(body.headD terminal).time, terminal.value.tag, terminal.value.length, text⟩
          (body.length + 1) ∧
      text = joined (x.arrival.dropWhile (·.isEmpty)) ∧
      (x.early = [] ∨ x.columns = none →
        (text = joined x.lines ↔ x.lines.length ≤ 1 ∨ x.lines.head? ≠ some [])) := by
  refine ⟨joinLines x.arrival, ?_, rfl, fun ordered => ?_⟩
  · have found : extent ends [] (body ++ terminal :: later) = .found body terminal :=
      extent_of_inside inside ended [] later
    rw [takeResult, found]
    dsimp only
    rw [resultText_of_decodes decodes]
  · rw [Sheet.arrival_eq_lines ordered]
    exact joinLines_eq_joined_iff x.lines

/-- One row of a result without columns, as `SELECT;` gives it. -/
def bare : List (Stamped Message) :=
  [⟨2, Tag.rowDescription, [0, 0]⟩, ⟨2, Tag.dataRow, [0, 0]⟩]

def bareEnd : Stamped Message := ⟨2, Tag.commandComplete, ascii "SELECT 1" ++ [0]⟩

def bareSheet : Sheet := { columns := some [], rows := [[]], ending := [ascii "SELECT 1"] }

theorem decodes_bare : Decodes [] (bare.map (·.value)) bareEnd.value bareSheet where
  early := .nil
  columns := by decide +kernel
  rows := .cons rfl .nil
  failed failed := absurd failed (by decide)
  completed _ := by decide

theorem inside_bare : ∀ m ∈ bare, Inside queryEnds m.value := by
  unfold Inside
  decide

/-- The columns and the row are two empty lines. -/
theorem shows_sheet_bare :
    (∀ m ∈ bare, Inside queryEnds m.value) ∧ bareEnd.value.tag ∈ queryEnds ∧
      bareSheet.lines = [[], [], ascii "SELECT 1"] ∧
      ∃ text,
        takeResult [] queryEnds (bare ++ [bareEnd]) = .done ⟨2, Tag.commandComplete, 13, text⟩ 3 ∧
        text = joined [ascii "SELECT 1"] ∧
        (text = joined bareSheet.lines ↔
          bareSheet.lines.length ≤ 1 ∨ bareSheet.lines.head? ≠ some []) := by
  have ended : bareEnd.value.tag ∈ queryEnds := by decide
  obtain ⟨text, taken, shown, whole⟩ := shows_sheet inside_bare ended decodes_bare []
  exact ⟨inside_bare, ended, by decide, text, taken, shown, whole (.inl rfl)⟩

/-- Of the three lines, the last one alone is shown. -/
theorem empty_lines_lost :
    Decodes [] (bare.map (·.value)) bareEnd.value bareSheet ∧
      bareSheet.lines = [[], [], ascii "SELECT 1"] ∧
      takeResult [] queryEnds (bare ++ [bareEnd]) =
        .done ⟨2, Tag.commandComplete, 13, ascii "SELECT 1"⟩ 3 ∧
      ascii "SELECT 1" ≠ joined bareSheet.lines :=
  ⟨decodes_bare, by decide, by rfl, by decide⟩

end Dialogue.Postgres
