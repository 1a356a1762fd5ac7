import Mathlib
import Dialogue.Proofs.Dns
import Dialogue.Proofs.Wire.Words

/-!
Rows of labels.

A name is read off rows: labels one behind the other, and behind the last one the root or a pointer
to the next row. `writeRow` is how a row is written. What `labels` reads are just the rows that can
be written (`labels_writeRow`, `exists_row`), so where a row ends and what bytes it is read from is
known from what is written there. `NameRows` follows a name row after row.
-/
namespace Dialogue.Dns

/-! ## The format -/

def writeLabel (label : Bytes) : Bytes := UInt8.ofNat label.length :: label

/-- What stands behind the last label of a row: the root, or a pointer to a place. -/
def writeOnward (onward : Option Nat) : Bytes :=
  onward.elim [0] fun target => bigBytes 2 (0xC000 + target)

/-- A row of labels as it is written. -/
def writeRow (row : List Bytes) (onward : Option Nat) : Bytes :=
  row.flatMap writeLabel ++ writeOnward onward

/-- The format has room for a row: labels have 1 to 63 bytes, a place it points to has 14 bits. -/
structure RowFits (row : List Bytes) (onward : Option Nat) : Prop where
  labels : ∀ label ∈ row, 1 ≤ label.length ∧ label.length ≤ 63
  onward : ∀ target, onward = some target → target < 0x4000

/-- A name with more labels behind it. -/
def addLabels (name : String) (row : List Bytes) : String := row.foldl addLabel name

variable {name : String} {position : Nat} {row : List Bytes} {onward : Option Nat}

theorem addLabels_cons (name : String) (label : Bytes) (row : List Bytes) :
    addLabels name (label :: row) = addLabels (addLabel name label) row := rfl

theorem addLabels_append (name : String) (row rest : List Bytes) :
    addLabels name (row ++ rest) = addLabels (addLabels name row) rest := List.foldl_append

theorem size_le_addLabel (name : String) (label : Bytes) :
    name.utf8ByteSize ≤ (addLabel name label).utf8ByteSize := by
  unfold addLabel
  split
  · next empty =>
    rw [String.isEmpty_iff] at empty
    rw [empty]
    exact Nat.zero_le _
  · rw [String.utf8ByteSize_append, String.utf8ByteSize_append, Nat.add_assoc]
    exact Nat.le_add_right _ _

theorem size_le_addLabels (name : String) (row : List Bytes) :
    name.utf8ByteSize ≤ (addLabels name row).utf8ByteSize := by
  induction row generalizing name with
  | nil => exact Nat.le_refl _
  | cons label row ih => exact (size_le_addLabel name label).trans (ih _)

theorem writeRow_cons (label : Bytes) (row : List Bytes) (onward : Option Nat) :
    writeRow (label :: row) onward = writeLabel label ++ writeRow row onward :=
  List.append_assoc ..

theorem length_writeLabel (label : Bytes) : (writeLabel label).length = label.length + 1 := rfl

theorem length_writeRow (row : List Bytes) (onward : Option Nat) :
    (writeRow row onward).length =
      (row.flatMap writeLabel).length + (writeOnward onward).length := List.length_append

/-! ## Reading rows -/

/-- The two bytes of a pointer: the upper two bits of the first one are set. -/
theorem writeOnward_some {target : Nat} (fits : target < 0x4000) :
    ∃ high low : UInt8, writeOnward (some target) = [high, low] ∧ 192 ≤ high.toNat ∧
      256 * (high.toNat - 192) + low.toNat = target := by
  have upper : (UInt8.ofNat ((0xC000 + target) / 256)).toNat = (0xC000 + target) / 256 :=
    UInt8.toNat_ofNat_of_lt (by show _ < 256; omega)
  have lower : (UInt8.ofNat (0xC000 + target)).toNat = (0xC000 + target) % 256 :=
    UInt8.toNat_ofNat'
  refine ⟨_, _, rfl, ?_, ?_⟩
  · show 192 ≤ (UInt8.ofNat ((0xC000 + target) / 256)).toNat
    omega
  · show 256 * ((UInt8.ofNat ((0xC000 + target) / 256)).toNat - 192) +
      (UInt8.ofNat (0xC000 + target)).toNat = target
    omega

theorem labels_writeOnward (fits : RowFits [] onward) (name : String) (position : Nat)
    (tail : Bytes) :
    labels name position (writeOnward onward ++ tail) =
      .ok (name, position + (writeOnward onward).length, onward) := by
  cases onward with
  | none => rw [labels.eq_def]; rfl
  | some target =>
    obtain ⟨high, low, written, pointer, value⟩ := writeOnward_some (fits.onward target rfl)
    have zero : ¬ high = 0 := fun h => by simp [h] at pointer
    have label : ¬ high < 64 := by
      rw [UInt8.lt_iff_toNat_lt]
      exact fun h => by simp at h; omega
    have reserved : ¬ high < 192 := by
      rw [UInt8.lt_iff_toNat_lt]
      exact Nat.not_lt.2 pointer
    rw [written, List.cons_append, labels.eq_def]
    simp only [if_neg zero, if_neg label, if_neg reserved, List.singleton_append, value]
    rfl

/-- A row is read as it was written, whatever stands behind it. -/
theorem labels_writeRow (fits : RowFits row onward)
    (short : row = [] ∨ (addLabels name row).utf8ByteSize ≤ maxName) (tail : Bytes) :
    labels name position (writeRow row onward ++ tail) =
      .ok (addLabels name row, position + (writeRow row onward).length, onward) := by
  induction row generalizing name position with
  | nil => exact labels_writeOnward fits name position tail
  | cons label row ih =>
    obtain ⟨first, later⟩ := List.forall_mem_cons.1 fits.labels
    have whole := short.resolve_left (List.cons_ne_nil label row)
    have size : (UInt8.ofNat label.length).toNat = label.length :=
      UInt8.toNat_ofNat_of_lt (by show _ < 256; omega)
    have zero : ¬ UInt8.ofNat label.length = 0 := fun h => by
      rw [← UInt8.toNat_inj, size] at h
      have none : label.length = 0 := h
      omega
    have below : UInt8.ofNat label.length < 64 := by
      rw [UInt8.lt_iff_toNat_lt, size]
      exact Nat.lt_succ_of_le first.2
    have there : atLeast (UInt8.ofNat label.length).toNat (label ++ (writeRow row onward ++ tail)) =
        true := by
      rw [atLeast_iff, size, List.length_append]
      exact Nat.le_add_right _ _
    have within : ¬ maxName < (addLabel name label).utf8ByteSize :=
      Nat.not_lt.2 ((size_le_addLabels _ row).trans whole)
    rw [writeRow_cons, List.append_assoc, writeLabel, List.cons_append,
      labels_cons zero below there, size, List.take_left, List.drop_left, if_neg within,
      ih ⟨later, fits.onward⟩ (.inr whole), addLabels_cons]
    simp only [List.length_cons, List.length_append, Except.ok.injEq, Prod.mk.injEq, true_and,
      and_true]
    omega

theorem RowFits.nil (h : ∀ target, onward = some target → target < 0x4000) :
    RowFits [] onward := ⟨List.forall_mem_nil _, h⟩

/-- What is read is a row that was written there. -/
theorem exists_row {bs : Bytes} {stop : Nat} {read : String}
    (h : labels name position bs = .ok (read, stop, onward)) :
    ∃ row tail, RowFits row onward ∧ bs = writeRow row onward ++ tail ∧
      read = addLabels name row ∧ (row = [] ∨ read.utf8ByteSize ≤ maxName) ∧
      stop = position + (writeRow row onward).length := by
  induction name, position, bs using labels.induct with
  | case1 name position => cases (labels.eq_def ..).symm.trans h
  | case2 name position rest =>
    rw [labels.eq_def] at h
    cases h
    exact ⟨[], rest, .nil (by simp), rfl, rfl, .inl rfl, rfl⟩
  | case3 name position b rest hzero hlabel short =>
    rw [labels.eq_def] at h
    simp only [if_neg hzero, if_pos hlabel, if_pos short] at h
    cases h
  | case4 name position b rest hzero hlabel short _ long =>
    rw [labels_cons hzero hlabel (atLeast_of_not short)] at h
    cases (if_pos long).symm.trans h
  | case5 name position b rest hzero hlabel short _ within ih =>
    have fits := atLeast_of_not short
    rw [labels_cons hzero hlabel fits, if_neg within] at h
    obtain ⟨row, tail, rowFits, behind, rfl, whole, rfl⟩ := ih h
    have length : (rest.take b.toNat).length = b.toNat :=
      List.length_take_of_le (atLeast_iff.1 fits)
    have size : UInt8.ofNat (rest.take b.toNat).length = b := by rw [length, UInt8.ofNat_toNat]
    have range : 1 ≤ b.toNat ∧ b.toNat ≤ 63 := by
      rw [UInt8.lt_iff_toNat_lt] at hlabel
      have pos : b.toNat ≠ 0 := fun h => hzero (UInt8.toNat_inj.1 h)
      exact ⟨Nat.pos_of_ne_zero pos, Nat.le_of_lt_succ hlabel⟩
    refine ⟨rest.take b.toNat :: row, tail, ⟨?_, rowFits.onward⟩, ?_, rfl, .inr ?_, ?_⟩
    · exact List.forall_mem_cons.2 ⟨by rwa [length], rowFits.labels⟩
    · rw [writeRow_cons, writeLabel, size, List.cons_append, List.cons_append, List.append_assoc,
        ← behind, List.take_append_drop]
    · rcases whole with rfl | whole
      · exact Nat.not_lt.1 within
      · exact whole
    · rw [writeRow_cons, List.length_append, length_writeLabel, length]
      omega
  | case6 name position b rest hzero hlabel reserved =>
    rw [labels.eq_def] at h
    simp only [if_neg hzero, if_neg hlabel, if_pos reserved] at h
    cases h
  | case7 name position b hzero hlabel pointer =>
    rw [labels.eq_def] at h
    simp only [if_neg hzero, if_neg hlabel, if_neg pointer] at h
    cases h
  | case8 name position b hzero hlabel pointer low rest =>
    rw [labels.eq_def] at h
    simp only [if_neg hzero, if_neg hlabel, if_neg pointer] at h
    cases h
    have upper : b.toNat < 256 := b.toNat_lt
    have lower : low.toNat < 256 := low.toNat_lt
    have high : 192 ≤ b.toNat := by
      rw [UInt8.lt_iff_toNat_lt] at pointer
      exact Nat.not_lt.1 pointer
    refine ⟨[], rest, .nil ?_, ?_, rfl, .inl rfl, rfl⟩
    · rintro _ ⟨⟩
      omega
    · have number : 0xC000 + (256 * (b.toNat - 192) + low.toNat) = bigEndian [b, low] := by
        simp only [bigEndian, List.foldl_cons, List.foldl_nil]
        omega
      have digits : bigBytes 2 (bigEndian [b, low]) = [b, low] := bigBytes_bigEndian rfl
      show b :: low :: rest = bigBytes 2 (0xC000 + (256 * (b.toNat - 192) + low.toNat)) ++ rest
      rw [number, digits]
      rfl

/-! ## Rows in a piece of the bytes -/

/-- A row can still be read where the bytes are cut behind it. -/
theorem labels_take {bs : Bytes} {stop k : Nat} {read : String}
    (h : labels name position bs = .ok (read, stop, onward)) (le : stop ≤ position + k) :
    labels name position (bs.take k) = .ok (read, stop, onward) := by
  obtain ⟨row, tail, fits, rfl, rfl, short, rfl⟩ := exists_row h
  rw [List.take_append, List.take_of_length_le (by omega)]
  exact labels_writeRow fits short _

/-- A row ends within the bytes that it is read from. -/
theorem labels_le {bs : Bytes} {stop : Nat} {read : String}
    (h : labels name position bs = .ok (read, stop, onward)) : stop ≤ position + bs.length := by
  obtain ⟨row, tail, -, rfl, -, -, rfl⟩ := exists_row h
  rw [List.length_append]
  omega

theorem length_writeOnward_pos (onward : Option Nat) : 0 < (writeOnward onward).length := by
  cases onward <;> exact Nat.succ_pos _

/-- There are bytes to every row, even to one without labels. -/
theorem labels_lt {bs : Bytes} {stop : Nat} {read : String}
    (h : labels name position bs = .ok (read, stop, onward)) : position < stop := by
  obtain ⟨row, tail, -, -, -, -, rfl⟩ := exists_row h
  rw [length_writeRow]
  exact Nat.lt_add_of_pos_right (Nat.add_pos_right _ (length_writeOnward_pos onward))

/-! ## Names -/

variable {msg : Bytes} {jumps stop : Nat} {read : String}

/-- A row that ends with the root is a whole name. -/
theorem nameFrom_root (row : labels name position (msg.drop position) = .ok (read, stop, none)) :
    nameFrom msg jumps name position = .ok (read, stop) := by
  rw [nameFrom.eq_def]
  simp only [row]

/-- A row that ends with a pointer goes on where that leads, and ends where the pointer does. -/
theorem nameFrom_pointer {target behind : Nat} {further : String}
    (row : labels name position (msg.drop position) = .ok (further, stop, some target))
    (back : target + 2 < stop) (rest : nameFrom msg jumps further target = .ok (read, behind)) :
    nameFrom msg (jumps + 1) name position = .ok (read, stop) := by
  rw [nameFrom.eq_def]
  simp only [row, if_neg (Nat.not_le.2 back), rest]
  rfl

/-- A name is read row after row. The first row stands at `position` and ends at `stop`, and no row
goes beyond `reach`. -/
inductive NameRows (msg : Bytes) : (jumps : Nat) → (name : String) → (position : Nat) →
    (read : String) → (stop reach : Nat) → Prop where
  | root {jumps position stop : Nat} {name read : String}
      (row : labels name position (msg.drop position) = .ok (read, stop, none)) :
      NameRows msg jumps name position read stop stop
  | pointer {jumps position stop target behind reach : Nat} {name further read : String}
      (row : labels name position (msg.drop position) = .ok (further, stop, some target))
      (back : target + 2 < stop) (rest : NameRows msg jumps further target read behind reach) :
      NameRows msg (jumps + 1) name position read stop (max stop reach)

theorem exists_nameRows (h : nameFrom msg jumps name position = .ok (read, stop)) :
    ∃ reach, NameRows msg jumps name position read stop reach := by
  -- Behind a pointer there is one jump less; where it leads does not matter.
  induction jumps generalizing name position stop with
  | zero =>
    unfold nameFrom at h
    split at h
    · cases h
    · next row =>
      cases h
      exact ⟨_, .root row⟩
    · cases h
  | succ jumps ih =>
    unfold nameFrom at h
    split at h
    · cases h
    · next row =>
      cases h
      exact ⟨_, .root row⟩
    · next further behind target row =>
      dsimp only at h
      split_ifs at h with back
      cases rest : nameFrom msg jumps further target with
      | error fault =>
        rw [rest] at h
        cases h
      | ok found =>
        rw [rest] at h
        cases h
        obtain ⟨reach, rows⟩ := ih rest
        exact ⟨_, .pointer row (Nat.not_le.1 back) rows⟩

theorem NameRows.nameFrom {far : Nat} (h : NameRows msg jumps name position read stop far) :
    nameFrom msg jumps name position = .ok (read, stop) := by
  induction h with
  | root row => exact nameFrom_root row
  | pointer row back _ ih => exact nameFrom_pointer row back ih

end Dialogue.Dns
