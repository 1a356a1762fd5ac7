import Mathlib
import Dialogue.Proofs.Text
import Dialogue.Text.Hex
import Dialogue.Text.Numeral

/-!
Numbers written in digits.

`decimal` writes a number in base ten and is undone by the readers of numerals. What it writes is
short and holds nothing but digits and a sign, so it never ends a line. Others may spell a number in
more than one way, with zeros in front or, in base sixteen, with capital letters (`SpellsHex`); each
spelling is read as that number.
-/
namespace Dialogue.Text

/-- The digits of a number in base ten, with a minus sign in front of a negative one. -/
def decimal (n : Int) : Bytes := ascii (toString n)

/-! ## Digits -/

theorem bounds_of_isDigit {c : Char} (h : c.isDigit = true) : 48 ≤ c.toNat ∧ c.toNat ≤ 57 := by
  simp only [Char.isDigit, Bool.and_eq_true, decide_eq_true_eq] at h
  exact h

theorem toNat_of_isDigit {c : Char} (h : c.isDigit = true) :
    (UInt8.ofNat c.toNat).toNat = c.toNat := by
  have bounds := bounds_of_isDigit h
  rw [UInt8.toNat_ofNat']
  omega

theorem digit?_of_isDigit {c : Char} (h : c.isDigit = true) :
    digit? 10 (UInt8.ofNat c.toNat) = some (c.toNat - '0'.toNat) := by
  have bounds := bounds_of_isDigit h
  have same := toNat_of_isDigit h
  have digit : 48 ≤ UInt8.ofNat c.toNat ∧ UInt8.ofNat c.toNat ≤ 57 := by
    rw [UInt8.le_iff_toNat_le, UInt8.le_iff_toNat_le, same]
    exact bounds
  unfold digit?
  dsimp only
  rw [if_pos digit, same, if_pos (by omega)]
  rfl

theorem foldl_digits {cs : List Char} (digits : ∀ c ∈ cs, c.isDigit = true) (n : Nat) :
    (cs.map fun c => UInt8.ofNat c.toNat).foldl
        (fun n b => n.bind fun n => (digit? 10 b).map (10 * n + ·)) (some n) =
      some (Nat.ofDigitChars 10 cs n) := by
  induction cs generalizing n with
  | nil => rfl
  | cons c cs ih =>
    rw [List.map_cons, List.foldl_cons, Option.bind_some,
      digit?_of_isDigit (digits c List.mem_cons_self), Option.map_some,
      ih fun c hc => digits c (List.mem_cons_of_mem _ hc)]
    rfl

theorem isDigit_of_mem {n : Nat} {c : Char} (h : c ∈ Nat.toDigits 10 n) : c.isDigit = true :=
  Nat.isDigit_of_mem_toDigits (by decide) (by decide) h

theorem ascii_toString (n : Nat) :
    ascii (toString n) = (Nat.toDigits 10 n).map fun c => UInt8.ofNat c.toNat := by
  rw [ascii, Nat.toString_eq_ofList_toDigits, String.toList_ofList]

theorem mem_ascii_toString {n : Nat} {b : UInt8} (h : b ∈ ascii (toString n)) :
    48 ≤ b.toNat ∧ b.toNat ≤ 57 := by
  rw [ascii_toString, List.mem_map] at h
  obtain ⟨c, hc, rfl⟩ := h
  rw [toNat_of_isDigit (isDigit_of_mem hc)]
  exact bounds_of_isDigit (isDigit_of_mem hc)

theorem length_ascii_toString_le {n : Nat} (small : n < 10 ^ 19) :
    (ascii (toString n)).length ≤ 19 := by
  rw [ascii_toString, List.length_map]
  exact (Nat.length_toDigits_le_iff (by decide) (by decide)).2 small

/-- A numeral is read as the number that it writes. -/
theorem natural?_of_isDigit {cs : List Char} (some : cs ≠ [])
    (digits : ∀ c ∈ cs, c.isDigit = true) :
    natural? 10 (ascii (String.ofList cs)) = .some (Nat.ofDigitChars 10 cs 0) := by
  have written : ascii (String.ofList cs) = cs.map fun c => UInt8.ofNat c.toNat := by
    rw [ascii, String.toList_ofList]
  have full : (cs.map fun c => UInt8.ofNat c.toNat).isEmpty = false := by simpa using some
  rw [written, natural?, full, if_neg Bool.false_ne_true, foldl_digits digits]

/-- The digits of a number are read as that number. -/
theorem natural?_toString (n : Nat) : natural? 10 (ascii (toString n)) = some n := by
  rw [Nat.toString_eq_ofList_toDigits,
    natural?_of_isDigit Nat.toDigits_ne_nil fun _ => isDigit_of_mem,
    Nat.ofDigitChars_toDigits (by decide) (by decide)]

/-- A numeral without a sign is read as it stands. -/
theorem unsigned?_encode {bits base n : Nat} {s : String}
    (plain : ∀ c ∈ s.toList, 48 ≤ c.toNat ∧ c.toNat < 0x80)
    (read : natural? base (ascii s) = some n) (fits : n < 2 ^ bits) :
    unsigned? bits base (encode s) = some n := by
  have bare : (ascii s).head? ≠ some 43 := by
    intro sign
    obtain ⟨c, hc, plus⟩ := List.mem_map.1 (List.mem_of_head? sign)
    have bounds := plain c hc
    have value := toNat_byte (show c.toNat < 256 by omega)
    rw [plus] at value
    have number : (43 : UInt8).toNat = 43 := rfl
    omega
  rw [encode_eq_ascii fun c hc => (plain c hc).2, unsigned?, if_neg bare, read, Option.filter_some,
    if_pos (by simpa [Nat.one_shiftLeft])]

/-! ## Base sixteen -/

theorem toNat_toLower (c : Char) :
    c.toLower.toNat = if 65 ≤ c.toNat ∧ c.toNat ≤ 90 then c.toNat + 32 else c.toNat := by
  have capital : (c.val ≥ 'A'.val ∧ c.val ≤ 'Z'.val) ↔ 65 ≤ c.toNat ∧ c.toNat ≤ 90 := Iff.rfl
  unfold Char.toLower
  simp only [capital]
  split_ifs with h
  · show (c.val + ('a'.val - 'A'.val)).toNat = c.val.toNat + 32
    have bound : c.val.toNat ≤ 90 := h.2
    have step : ('a'.val - 'A'.val).toNat = 32 := rfl
    rw [UInt32.toNat_add]
    omega
  · rfl

theorem toNat_digitChar {d : Nat} (small : d < 16) :
    d.digitChar.toNat = if d < 10 then 48 + d else 87 + d := by
  interval_cases d <;> rfl

/-- The digit `d`, in a capital or a small letter. -/
theorem toNat_of_toLower {c : Char} {d : Nat} (small : d < 16) (same : c.toLower = d.digitChar) :
    (d < 10 ∧ c.toNat = 48 + d) ∨ (10 ≤ d ∧ (c.toNat = 55 + d ∨ c.toNat = 87 + d)) := by
  have number := congrArg Char.toNat same
  rw [toNat_toLower, toNat_digitChar small] at number
  split_ifs at number <;> omega

theorem digit?_of_toLower {c : Char} {d : Nat} (small : d < 16) (same : c.toLower = d.digitChar) :
    digit? 16 (UInt8.ofNat c.toNat) = some d := by
  have shape := toNat_of_toLower small same
  have byte : (UInt8.ofNat c.toNat).toNat = c.toNat :=
    UInt8.toNat_ofNat_of_lt (show c.toNat < 256 by omega)
  have value : (if 48 ≤ c.toNat ∧ c.toNat ≤ 57 then c.toNat - 48
      else if 97 ≤ c.toNat ∧ c.toNat ≤ 122 then c.toNat - 87
      else if 65 ≤ c.toNat ∧ c.toNat ≤ 90 then c.toNat - 55 else 16) = d := by
    split_ifs <;> omega
  unfold digit?
  simp only [UInt8.le_iff_toNat_le, byte, UInt8.reduceToNat]
  rw [value, if_pos small]

theorem exists_digitChar_of_mem {n : Nat} {c : Char} (h : c ∈ Nat.toDigits 16 n) :
    ∃ d < 16, c = d.digitChar := by
  induction n using Nat.strongRecOn with
  | ind n ih =>
    rw [Nat.toDigits_eq_if (by decide)] at h
    split_ifs at h with small
    · exact ⟨n, small, List.mem_singleton.1 h⟩
    · rcases List.mem_append.1 h with h | h
      · exact ih (n / 16) (by omega) h
      · exact ⟨n % 16, Nat.mod_lt _ (by decide), List.mem_singleton.1 h⟩

theorem foldl_hex {n : Nat} {cs : List Char} (spelled : cs.map Char.toLower = Nat.toDigits 16 n) :
    (cs.map fun c => UInt8.ofNat c.toNat).foldl
      (fun n b => n.bind fun n => (digit? 16 b).map (16 * n + ·)) (some 0) = some n := by
  -- The last digit is read behind those of the number without it.
  induction n using Nat.strongRecOn generalizing cs with
  | ind n ih =>
    rw [Nat.toDigits_eq_if (by decide)] at spelled
    split_ifs at spelled with small
    · obtain ⟨c, rfl, same⟩ := List.map_eq_singleton_iff.1 spelled
      simp [digit?_of_toLower small same]
    · obtain ⟨front, last, rfl, higher, lowest⟩ := List.map_eq_append_iff.1 spelled
      obtain ⟨c, rfl, same⟩ := List.map_eq_singleton_iff.1 lowest
      have read := ih (n / 16) (by omega) higher
      rw [List.map_append, List.foldl_append, read]
      simp [digit?_of_toLower (Nat.mod_lt n (by decide)) same]
      omega

theorem foldl_zeros {cs : List Char} (zeros : ∀ c ∈ cs, c.toLower = '0') :
    (cs.map fun c => UInt8.ofNat c.toNat).foldl
      (fun n b => n.bind fun n => (digit? 16 b).map (16 * n + ·)) (some 0) = some 0 := by
  induction cs with
  | nil => rfl
  | cons c cs ih =>
    have zero := digit?_of_toLower (d := 0) (by decide) (zeros c List.mem_cons_self)
    rw [List.map_cons, List.foldl_cons, Option.bind_some, zero]
    exact ih fun c hc => zeros c (List.mem_cons_of_mem _ hc)

/-- How a number is spelled in base sixteen: by its digits in capital or small letters, with or
without zeros in front. -/
def SpellsHex (text : String) (n : Nat) : Prop :=
  ∃ width, text.toList.map Char.toLower = (hexNumber width n).toList

section
variable {text : String} {n : Nat}

/-- A spelling is made of digits. -/
theorem SpellsHex.digit (spelled : SpellsHex text n) {c : Char} (h : c ∈ text.toList) :
    ∃ d < 16, c.toLower = d.digitChar := by
  obtain ⟨width, same⟩ := spelled
  have mem : c.toLower ∈ (hexNumber width n).toList := same ▸ List.mem_map_of_mem h
  rw [hexNumber, String.toList_ofList] at mem
  rcases List.mem_append.1 mem with zero | digit
  · exact ⟨0, by decide, List.eq_of_mem_replicate zero⟩
  · exact exists_digitChar_of_mem digit

/-- Each spelling of a number is read as that number. -/
theorem SpellsHex.natural? (spelled : SpellsHex text n) : natural? 16 (ascii text) = some n := by
  obtain ⟨width, same⟩ := spelled
  rw [hexNumber, String.toList_ofList] at same
  obtain ⟨zeros, digits, split, front, number⟩ := List.map_eq_append_iff.1 same
  have zero : ∀ c ∈ zeros, c.toLower = '0' := by
    intro c hc
    have mem : c.toLower ∈ zeros.map Char.toLower := List.mem_map_of_mem hc
    rw [front] at mem
    exact List.eq_of_mem_replicate mem
  have full : (ascii text).isEmpty = false := by
    have some : digits ≠ [] := by
      rintro rfl
      exact Nat.toDigits_ne_nil number.symm
    simp [ascii, split, some]
  rw [Text.natural?, full, if_neg Bool.false_ne_true, ascii, split, List.map_append,
    List.foldl_append, foldl_zeros zero, foldl_hex number]

end

/-! ## Signed numbers -/

theorem decimal_negSucc (n : Nat) : decimal (Int.negSucc n) = 45 :: ascii (toString (n + 1)) := by
  show ascii ("-" ++ Nat.repr (n + 1)) = _
  rw [ascii, String.toList_append]
  rfl

section
variable {n : Int}

/-- A number of 64 bits is read back. -/
theorem integer?_decimal (low : -(2 ^ 63) ≤ n) (high : n < 2 ^ 63) :
    integer? 64 (decimal n) = some n := by
  cases n with
  | ofNat n =>
    have fits : decide (n < 1 <<< 63) = true := by
      rw [decide_eq_true_eq, Nat.one_shiftLeft]
      exact Int.ofNat_lt.1 high
    have unsigned (sign : UInt8) (below : sign.toNat < 48) :
        (ascii (toString n)).head? ≠ some sign := by
      intro h
      have := (mem_ascii_toString (List.mem_of_head? h)).1
      omega
    have minus := unsigned 45 (by decide)
    show integer? 64 (ascii (toString n)) = _
    unfold integer?
    split
    · next digits same => exact absurd (congrArg List.head? same) minus
    · rw [unsigned?, if_neg (unsigned _ (by decide)), natural?_toString, Option.filter_some,
        if_pos fits]
      rfl
  | negSucc n =>
    have fits : decide (n + 1 ≤ 1 <<< 63) = true := by
      rw [decide_eq_true_eq, Nat.one_shiftLeft]
      omega
    rw [decimal_negSucc, integer?, natural?_toString, Option.filter_some, if_pos fits]
    rfl

theorem mem_decimal {b : UInt8} (h : b ∈ decimal n) : b = 45 ∨ 48 ≤ b.toNat ∧ b.toNat ≤ 57 := by
  cases n with
  | ofNat n => exact .inr (mem_ascii_toString h)
  | negSucc n =>
    rw [decimal_negSucc] at h
    exact (List.mem_cons.1 h).imp id mem_ascii_toString

theorem length_decimal_le (low : -(2 ^ 63) ≤ n) (high : n < 2 ^ 63) : (decimal n).length ≤ 20 := by
  cases n with
  | ofNat n =>
    have small : n < 2 ^ 63 := Int.ofNat_lt.1 high
    exact (length_ascii_toString_le (by omega)).trans (by decide)
  | negSucc n =>
    rw [decimal_negSucc, List.length_cons]
    exact Nat.succ_le_succ (length_ascii_toString_le (by omega))

end

end Dialogue.Text
