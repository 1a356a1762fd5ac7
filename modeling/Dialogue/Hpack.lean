import Dialogue.Hpack.Huffman
import Dialogue.Hpack.Table

/-!
Compressed header blocks.

This is the decompressor that is run; the rules of HTTP/2 are given for any. A block is a sequence
of instructions. Each names a field by its index in the table or spells it out, may enter it into
the table, or limits the table. The table is shared by all blocks of a direction, so what an
instruction did to it stays even if the block is malformed further on.
-/
namespace Dialogue.Hpack

/-- The most bytes of an integer behind the first. -/
def maxContinuation : Nat := 4

/-- The bytes of an integer behind the first, at most `n`: each holds seven bits, the least
significant first, and says by its top bit whether another follows. -/
def continueInteger? (value weight : Nat) : Nat → Bytes → Option (Nat × Bytes)
  | 0, _ => none
  | _ + 1, [] => none
  | n + 1, b :: rest =>
    let value := value + b.toNat % 128 * weight
    if b < 128 then some (value, rest) else continueInteger? value (weight * 128) n rest

/-- An integer that starts in the low `bits` bits of a byte. -/
def integer? (bits : Nat) : Bytes → Option (Nat × Bytes)
  | [] => none
  | b :: rest =>
    let low := b.toNat % (1 <<< bits)
    if low < (1 <<< bits) - 1 then some (low, rest) else continueInteger? low 1 maxContinuation rest

/-- A string with its length before it; the top bit says whether it is Huffman coded. -/
def string? (bs : Bytes) : Option (Bytes × Bytes) :=
  match integer? 7 bs with
  | none => none
  | some (length, rest) =>
    if !atLeast length rest then none
    else if bs.head?.any (128 ≤ ·) then
      (Huffman.decode? (rest.take length)).map (·, rest.drop length)
    else some (rest.take length, rest.drop length)

/-- How an instruction names a field. -/
inductive Name where
  | indexed (index : Nat)
  | spelled (name : Bytes)
deriving DecidableEq

inductive Instruction where
  /-- A field of the table. -/
  | indexed (index : Nat)
  /-- A field spelled out; `learn` says whether to enter it into the table. -/
  | literal (name : Name) (value : Bytes) (learn : Bool)
  /-- A new limit of the table. -/
  | resize (limit : Nat)
deriving DecidableEq

/-- An index, or a string where the index is 0. -/
def name? (bits : Nat) (bs : Bytes) : Option (Name × Bytes) :=
  match integer? bits bs with
  | none => none
  | some (0, rest) => (string? rest).map fun (name, rest) => (.spelled name, rest)
  | some (index, rest) => some (.indexed index, rest)

/-- A name and a value. -/
def literal? (bits : Nat) (learn : Bool) (bs : Bytes) : Option (Instruction × Bytes) :=
  match name? bits bs with
  | none => none
  | some (name, rest) => (string? rest).map fun (value, rest) => (.literal name value learn, rest)

/-- The instruction at the start of a block, and the bytes behind it. -/
def instruction? : Bytes → Option (Instruction × Bytes)
  | [] => none
  | b :: rest =>
    let bs := b :: rest
    if 128 ≤ b then (integer? 7 bs).map fun (index, rest) => (.indexed index, rest)
    else if 64 ≤ b then literal? 6 true bs
    else if 32 ≤ b then (integer? 5 bs).map fun (limit, rest) => (.resize limit, rest)
    else literal? 4 false bs

/-- The bytes of a name. -/
def Name.resolve? (t : Table) : Name → Option Bytes
  | indexed index => (t.lookup? index).map (·.1)
  | spelled name => some name

/-- Carries out an instruction: the field that it stands for, if any, and the table after it. -/
def Instruction.execute? (t : Table) : Instruction → Option (Option Field × Table)
  | indexed index => (t.lookup? index).map fun f => (some f, t)
  | literal name value learn =>
    (name.resolve? t).map fun name =>
      (some (name, value), if learn then t.insert (name, value) else t)
  | resize limit => some (none, t.resize limit)

theorem length_continueInteger_le {value weight n m : Nat} {bs rest : Bytes}
    (h : continueInteger? value weight n bs = some (m, rest)) : rest.length ≤ bs.length := by
  induction n generalizing value weight bs with
  | zero => simp [continueInteger?] at h
  | succ n ih =>
    cases bs with
    | nil => simp [continueInteger?] at h
    | cons b bs =>
      simp only [continueInteger?] at h
      split at h
      · obtain ⟨-, rfl⟩ := Prod.mk.inj (Option.some.inj h)
        simp
      · exact Nat.le_succ_of_le (ih h)

theorem length_integer_lt {bits m : Nat} {bs rest : Bytes}
    (h : integer? bits bs = some (m, rest)) : rest.length < bs.length := by
  cases bs with
  | nil => simp [integer?] at h
  | cons b bs =>
    simp only [integer?] at h
    split at h
    · obtain ⟨-, rfl⟩ := Prod.mk.inj (Option.some.inj h)
      simp
    · exact Nat.lt_succ_of_le (length_continueInteger_le h)

theorem length_string_lt {bs text rest : Bytes} (h : string? bs = some (text, rest)) :
    rest.length < bs.length := by
  simp only [string?] at h
  split at h
  · exact absurd h (by simp)
  · next length after hi =>
    have := length_integer_lt hi
    have drop (k : Nat) : (after.drop k).length < bs.length := by
      rw [List.length_drop]
      omega
    split at h
    · exact absurd h (by simp)
    · split at h
      · obtain ⟨_, -, he⟩ := Option.map_eq_some_iff.1 h
        obtain ⟨-, rfl⟩ := Prod.mk.inj he
        exact drop _
      · obtain ⟨-, rfl⟩ := Prod.mk.inj (Option.some.inj h)
        exact drop _

theorem length_name_lt {bits : Nat} {bs rest : Bytes} {name : Name}
    (h : name? bits bs = some (name, rest)) : rest.length < bs.length := by
  simp only [name?] at h
  split at h
  · exact absurd h (by simp)
  · next hi =>
    obtain ⟨⟨_, _⟩, hs, he⟩ := Option.map_eq_some_iff.1 h
    obtain ⟨-, rfl⟩ := Prod.mk.inj he
    exact Nat.lt_trans (length_string_lt hs) (length_integer_lt hi)
  · next hi =>
    obtain ⟨-, rfl⟩ := Prod.mk.inj (Option.some.inj h)
    exact length_integer_lt hi

theorem length_literal_lt {bits : Nat} {learn : Bool} {bs rest : Bytes} {i : Instruction}
    (h : literal? bits learn bs = some (i, rest)) : rest.length < bs.length := by
  simp only [literal?] at h
  split at h
  · exact absurd h (by simp)
  · next hn =>
    obtain ⟨⟨_, _⟩, hs, he⟩ := Option.map_eq_some_iff.1 h
    obtain ⟨-, rfl⟩ := Prod.mk.inj he
    exact Nat.lt_trans (length_string_lt hs) (length_name_lt hn)

/-- An instruction takes up at least one byte. -/
theorem length_instruction_lt {bs rest : Bytes} {i : Instruction}
    (h : instruction? bs = some (i, rest)) : rest.length < bs.length := by
  cases bs with
  | nil => simp [instruction?] at h
  | cons b bs =>
    simp only [instruction?] at h
    split at h
    · obtain ⟨⟨_, _⟩, hi, he⟩ := Option.map_eq_some_iff.1 h
      obtain ⟨-, rfl⟩ := Prod.mk.inj he
      exact length_integer_lt hi
    · split at h
      · exact length_literal_lt h
      · split at h
        · obtain ⟨⟨_, _⟩, hi, he⟩ := Option.map_eq_some_iff.1 h
          obtain ⟨-, rfl⟩ := Prod.mk.inj he
          exact length_integer_lt hi
        · exact length_literal_lt h

/-- Carries out the instructions of a block; `found` holds the fields before, last first. -/
def decodeFrom (found : List Field) (t : Table) (bs : Bytes) : Option (List Field) × Table :=
  if bs.isEmpty then (some found.reverse, t)
  else
    match h : instruction? bs with
    | none => (none, t)
    | some (i, rest) =>
      have := length_instruction_lt h
      match i.execute? t with
      | none => (none, t)
      | some (field, t) => decodeFrom (field.toList ++ found) t rest
termination_by bs.length

/-- The fields of a block, unless it is malformed, and the table after it. -/
def decode (t : Table) (block : Bytes) : Option (List Field) × Table := decodeFrom [] t block

end Dialogue.Hpack
