import Mathlib
import Dialogue.Proofs.Lines
import Dialogue.Proofs.Wire.Numerals

/-!
Values of the Redis serialization protocol as they are written.

`Value.write` is the format. A reader `Recovers` what a byte string stands for if it does so
whatever follows and asks for more wherever the string is cut short; this goes through composition
(`Recovers.bind`), and a value is written as its parts are, one behind the other. The induction is
on the levels at which arrays may lie.
-/
namespace Dialogue.Redis.Value

/-! ## The format -/

/-- A letter, a text and the end of the line. -/
def letterLine (type : Char) (text : Bytes) : Bytes := type.toUInt8 :: (text ++ Line.ending)

mutual

/-- The bytes that stand for a value. -/
def write : Value → Bytes
  | simple bytes => letterLine '+' bytes
  | error bytes => letterLine '-' bytes
  | integer n => letterLine ':' (Text.decimal n)
  | bulk bytes => letterLine '$' (Text.decimal bytes.length) ++ (bytes ++ Line.ending)
  | nullBulk => letterLine '$' (Text.decimal (-1))
  | array items => letterLine '*' (Text.decimal items.length) ++ writeItems items
  | nullArray => letterLine '*' (Text.decimal (-1))

/-- The bytes that stand for the members of an array. -/
def writeItems : List Value → Bytes
  | [] => []
  | item :: rest => write item ++ writeItems rest

end

mutual

/-- How deep the members of arrays lie, where the value itself lies at depth 0. -/
def depth : Value → Nat
  | array items => depthItems items
  | _ => 0

/-- How deep the deepest of some members lies. -/
def depthItems : List Value → Nat
  | [] => 0
  | item :: rest => max (depth item + 1) (depthItems rest)

end

theorem depth_lt_of_mem {item : Value} {items : List Value} (h : item ∈ items) :
    item.depth < (array items).depth := by
  rw [depth]
  induction items with
  | nil => cases h
  | cons first rest ih =>
    rw [depthItems]
    rcases List.mem_cons.1 h with rfl | later
    · exact Nat.lt_of_succ_le (Nat.le_max_left _ _)
    · exact Nat.lt_of_lt_of_le (ih later) (Nat.le_max_right _ _)

/-- The values that the format has room for: texts without a line ending, numbers of 64 bits, bulk
strings of up to 512 MiB, and arrays of up to 2^20 members. -/
inductive Fits : Value → Prop where
  | simple {bytes : Bytes} (plain : Line.Plain bytes) (short : bytes.length ≤ 65535) :
      Fits (.simple bytes)
  | error {bytes : Bytes} (plain : Line.Plain bytes) (short : bytes.length ≤ 65535) :
      Fits (.error bytes)
  | integer {n : Int} (low : -(2 ^ 63) ≤ n) (high : n < 2 ^ 63) : Fits (.integer n)
  | bulk {bytes : Bytes} (short : bytes.length ≤ 512 * 1024 * 1024) : Fits (.bulk bytes)
  | nullBulk : Fits .nullBulk
  | array {items : List Value} (few : items.length ≤ 2 ^ 20) (each : ∀ item ∈ items, Fits item) :
      Fits (.array items)
  | nullArray : Fits .nullArray

/-! ## Readers -/

variable {α β : Type} {position : Nat}

/-- A reader recovers what a byte string stands for: it reads the whole string, whatever follows,
and of a string cut short it says that it is incomplete. -/
structure Recovers (position : Nat) (read : Bytes → Reading α) (written : Bytes) (a : α) :
    Prop where
  whole : ∀ rest, read (written ++ rest) = .ok (a, position + written.length, rest)
  cut : ∀ n < written.length, ∃ minimum, read (written.take n) = .error (.incomplete minimum)

namespace Recovers

theorem done (a : α) : Recovers position (fun bs => .ok (a, position, bs)) [] a :=
  ⟨fun _ => rfl, fun _ short => absurd short (Nat.not_lt_zero _)⟩

/-- What two readers recover that stand one behind the other. -/
theorem bind {first : Bytes → Reading α} {written later : Bytes} {a : α} {b : β}
    (hfirst : Recovers position first written a) (second : α → Nat → Bytes → Reading β)
    (hsecond : Recovers (position + written.length) (second a (position + written.length))
      later b) :
    Recovers position (fun bs => (first bs).bind fun r => second r.1 r.2.1 r.2.2)
      (written ++ later) b where
  whole rest := by
    rw [List.append_assoc, hfirst.whole, List.length_append, ← Nat.add_assoc]
    exact hsecond.whole rest
  cut n short := by
    rw [List.take_append]
    by_cases within : n < written.length
    · obtain ⟨minimum, incomplete⟩ := hfirst.cut n within
      refine ⟨minimum, ?_⟩
      rw [Nat.sub_eq_zero_of_le (Nat.le_of_lt within), List.take_zero, List.append_nil, incomplete]
      rfl
    · have behind : written.length ≤ n := Nat.not_lt.1 within
      rw [List.length_append] at short
      obtain ⟨minimum, incomplete⟩ := hsecond.cut (n - written.length) (by omega)
      refine ⟨minimum, ?_⟩
      rw [List.take_of_length_le behind, hfirst.whole]
      exact incomplete

theorem congr {read other : Bytes → Reading α} {written : Bytes} {a : α}
    (h : Recovers position read written a) (same : ∀ bs, other bs = read bs) :
    Recovers position other written a :=
  (funext same : other = read) ▸ h

end Recovers

theorem recovers_letterAt (type : UInt8) : Recovers position (letterAt position) [type] type where
  whole _ := rfl
  cut n short := by
    have none : n = 0 := Nat.lt_one_iff.1 short
    rw [none]
    exact ⟨_, rfl⟩

theorem recovers_lineAt {line : Bytes} (plain : Line.Plain line) (short : line.length ≤ 65535) :
    Recovers position (lineAt position) (line ++ Line.ending) line where
  whole rest := by
    rw [lineAt, Line.split?_plain plain, List.length_append, ← Nat.add_assoc]
  cut n cut := by
    rw [lineAt, Line.split?_take plain cut]
    dsimp only
    have within : ¬ atLeast (maxLine + 1) ((line ++ Line.ending).take n) = true := by
      rw [atLeast_iff, List.length_take]
      rw [List.length_append, Line.length_ending] at *
      unfold maxLine
      omega
    rw [if_neg within]
    exact ⟨none, rfl⟩

theorem recovers_bulkAt (bytes : Bytes) :
    Recovers position (bulkAt bytes.length position) (bytes ++ Line.ending) (.bulk bytes) where
  whole rest := by
    have there : atLeast (bytes.length + Line.ending.length)
        (bytes ++ Line.ending ++ rest) = true := by
      rw [atLeast_iff, List.length_append, List.length_append]
      exact Nat.le_add_right _ _
    have ended : slice (bytes ++ Line.ending ++ rest) bytes.length Line.ending.length =
        Line.ending := by
      rw [slice, List.append_assoc, List.drop_left, List.take_left]
    unfold bulkAt
    dsimp only
    rw [there, ended, ← List.length_append, List.drop_left, List.append_assoc, List.take_left]
    rfl
  cut n cut := by
    have missing : ¬ atLeast (bytes.length + Line.ending.length)
        ((bytes ++ Line.ending).take n) = true := by
      rw [atLeast_iff, List.length_take]
      rw [List.length_append] at *
      omega
    unfold bulkAt
    dsimp only
    rw [Bool.eq_false_of_not_eq_true missing]
    exact ⟨_, rfl⟩

theorem recovers_itemsAt {item : Nat → Bytes → Reading Value} {items : List Value}
    (each : ∀ x ∈ items, ∀ position, Recovers position (item position) (write x) x)
    (found : List Value) (position : Nat) :
    Recovers position (itemsAt item found items.length position) (writeItems items)
      (.array (found.reverse ++ items)) := by
  induction items generalizing found position with
  | nil =>
    rw [List.append_nil]
    exact .done _
  | cons x rest ih =>
    have later := ih (fun y hy => each y (List.mem_cons_of_mem x hy)) (x :: found)
      (position + (write x).length)
    rw [List.reverse_cons, List.append_assoc, List.singleton_append] at later
    refine ((each x List.mem_cons_self position).bind
      (fun x position => itemsAt item (x :: found) rest.length position) later).congr ?_
    intro bs
    rw [List.length_cons, itemsAt]
    cases item position bs <;> rfl

/-! ## Values -/

theorem recovers_letterLine {levels : Nat} {type : Char}
    (known : types.contains type.toUInt8 = true) {line tail : Bytes} (plain : Line.Plain line)
    (short : line.length ≤ 65535) {value : Value}
    (behind : ∀ stop, Recovers stop (ofLine (parseAt levels) type.toUInt8 line stop) tail value) :
    Recovers position (parseAt (levels + 1) position) (letterLine type line ++ tail) value := by
  have first : Recovers (position + 1) (lineAt (position + 1)) (line ++ Line.ending) line :=
    recovers_lineAt plain short
  have line := first.bind (ofLine (parseAt levels) type.toUInt8) (behind _)
  refine ((recovers_letterAt type.toUInt8).bind (fun type position bs =>
    if !types.contains type then .error (.invalid "unknown type byte")
    else (lineAt position bs).bind fun l => ofLine (parseAt levels) type l.1 l.2.1 l.2.2)
    ?_).congr (parseAt_succ levels position)
  rw [known]
  exact line

theorem number_decimal {n : Int} (low : -(2 ^ 63) ≤ n) (high : n < 2 ^ 63) :
    number (Text.decimal n) = .ok n := by
  rw [number, Text.integer?_decimal low high]

theorem plain_decimal (n : Int) : Line.Plain (Text.decimal n) := by
  intro inside
  have byte := Text.mem_decimal (inside.subset (List.mem_cons_self : (13 : UInt8) ∈ [13, 10]))
  revert byte
  decide

section
variable {item : Nat → Bytes → Reading Value} {line : Bytes} {stop n : Nat} {bs : Bytes}

theorem ofLine_bulk (read : number line = .ok (n : Int)) (short : (n : Int) ≤ maxBulk) :
    ofLine item '$'.toUInt8 line stop bs = bulkAt n stop bs :=
  calc ofLine item '$'.toUInt8 line stop bs
      = if (n : Int) = -1 then .ok (.nullBulk, stop, bs)
        else if 0 ≤ (n : Int) ∧ n ≤ maxBulk then bulkAt (n : Int).toNat stop bs
        else .error (.invalid "bad bulk length") := by
          show (number line >>= fun n => _) = _
          rw [read]
          rfl
    _ = bulkAt n stop bs := by
          rw [if_neg (by omega), if_pos ⟨by omega, short⟩]
          rfl

theorem ofLine_array (read : number line = .ok (n : Int)) (few : (n : Int) ≤ maxItems) :
    ofLine item '*'.toUInt8 line stop bs = itemsAt item [] n stop bs :=
  calc ofLine item '*'.toUInt8 line stop bs
      = if (n : Int) = -1 then .ok (.nullArray, stop, bs)
        else if 0 ≤ (n : Int) ∧ n ≤ maxItems then itemsAt item [] (n : Int).toNat stop bs
        else .error (.invalid "bad array length") := by
          show (number line >>= fun n => _) = _
          rw [read]
          rfl
    _ = itemsAt item [] n stop bs := by
          rw [if_neg (by omega), if_pos ⟨by omega, few⟩]
          rfl

end

/-- A line that holds a number, and what the number announces. -/
theorem recovers_numbered {levels : Nat} {type : Char} (known : types.contains type.toUInt8 = true)
    {n : Int} (low : -(2 ^ 63) ≤ n) (high : n < 2 ^ 63) {tail : Bytes} {value : Value}
    {announced : Nat → Bytes → Reading Value}
    (given : ∀ line stop bs, number line = .ok n →
      ofLine (parseAt levels) type.toUInt8 line stop bs = announced stop bs)
    (behind : ∀ stop, Recovers stop (announced stop) tail value) :
    Recovers position (parseAt (levels + 1) position) (letterLine type (Text.decimal n) ++ tail)
      value := by
  refine recovers_letterLine known (plain_decimal n) ?_ fun stop => ?_
  · exact (Text.length_decimal_le low high).trans (by decide)
  · exact (behind stop).congr fun bs => given _ stop bs (number_decimal low high)

/-- By induction on the levels at which arrays may lie. -/
theorem recovers_parseAt {value : Value} (fits : value.Fits) {levels : Nat}
    (shallow : value.depth < levels) (position : Nat) :
    Recovers position (parseAt levels position) value.write value := by
  induction levels generalizing value position with
  | zero => exact absurd shallow (Nat.not_lt_zero _)
  | succ levels ih =>
    cases fits with
    | simple plain short =>
      rw [write, ← List.append_nil (letterLine _ _)]
      exact recovers_letterLine (by decide) plain short fun stop => .done _
    | error plain short =>
      rw [write, ← List.append_nil (letterLine _ _)]
      exact recovers_letterLine (by decide) plain short fun stop => .done _
    | integer low high =>
      rw [write, ← List.append_nil (letterLine _ _)]
      refine recovers_numbered (by decide) low high ?_ fun stop => .done _
      intro line stop bs read
      show (number line >>= fun n => _) = _
      rw [read]
      rfl
    | @bulk bytes short =>
      have within : (bytes.length : Int) ≤ maxBulk := by
        unfold maxBulk
        omega
      rw [write]
      exact recovers_numbered (by decide) (by omega) (by omega)
        (fun line stop bs read => ofLine_bulk read within) fun stop => recovers_bulkAt bytes
    | nullBulk =>
      rw [write, ← List.append_nil (letterLine _ _)]
      refine recovers_numbered (by decide) (by decide) (by decide) ?_ fun stop => .done _
      intro line stop bs read
      show (number line >>= fun n => _) = _
      rw [read]
      rfl
    | @array items few each =>
      have within : (items.length : Int) ≤ maxItems := by
        unfold maxItems
        omega
      have members : ∀ item ∈ items, ∀ position,
          Recovers position (parseAt levels position) item.write item := by
        intro item hitem position
        have := depth_lt_of_mem hitem
        exact ih (each item hitem) (by omega) position
      rw [write]
      exact recovers_numbered (by decide) (by omega) (by omega)
        (fun line stop bs read => ofLine_array read within) (recovers_itemsAt members [])
    | nullArray =>
      rw [write, ← List.append_nil (letterLine _ _)]
      refine recovers_numbered (by decide) (by decide) (by decide) ?_ fun stop => .done _
      intro line stop bs read
      show (number line >>= fun n => _) = _
      rw [read]
      rfl

/-- **A value is read as it was written**: of what `write` gives, whatever stands behind it, the
reader takes the whole and gives back the value, and wherever it is cut short the reader waits for
more. It does so for every value that the format has room for and that holds nothing deeper than 16
arrays. -/
theorem parse_of_write {value : Value} (fits : value.Fits) (shallow : value.depth ≤ 16) :
    (∀ rest, parse (value.write ++ rest) = .ok (value, value.write.length, rest)) ∧
      ∀ n < value.write.length,
        ∃ minimum, parse (value.write.take n) = .error (.incomplete minimum) := by
  have recovered := recovers_parseAt fits (Nat.lt_succ_of_le shallow) 0
  refine ⟨fun rest => ?_, recovered.cut⟩
  have whole := recovered.whole rest
  rwa [Nat.zero_add] at whole

/-- A reply with a bulk string that holds a line ending, a null and a number two arrays deep. -/
def nested : Value :=
  .array [.bulk (ascii "a\r\n*1"), .array [.integer (-7), .nullArray], .simple (ascii "OK"),
    .nullBulk]

theorem parse_of_write_nested :
    nested.Fits ∧ nested.depth ≤ 16 ∧
      (parse (nested.write ++ ascii "+")).map (·.2) = .ok (nested.write.length, ascii "+") ∧
      ∀ n < nested.write.length,
        ∃ minimum, parse (nested.write.take n) = .error (.incomplete minimum) := by
  have fits : nested.Fits := by
    apply Fits.array (by decide)
    simp only [List.forall_mem_cons, List.not_mem_nil, false_implies, implies_true, and_true]
    refine ⟨.bulk (by decide), .array (by decide) ?_, .simple (by unfold Line.Plain; decide)
      (by decide), .nullBulk⟩
    simp only [List.forall_mem_cons, List.not_mem_nil, false_implies, implies_true, and_true]
    exact ⟨.integer (by decide) (by decide), .nullArray⟩
  have shallow : nested.depth ≤ 16 := by decide
  obtain ⟨whole, cut⟩ := parse_of_write fits shallow
  refine ⟨fits, shallow, ?_, cut⟩
  rw [whole]
  rfl

end Dialogue.Redis.Value
