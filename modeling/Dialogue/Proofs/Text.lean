import Mathlib
import Dialogue.Text
import Dialogue.Text.Blank

/-!
Texts are read as they are written.

`encode` writes a character in one to four bytes. The first of them says how many follow, and a
reading that has seen it waits for just these (`lead_two`, `lead_three`, `lead_four`); since no
shorter form and no surrogate is ever written, the bytes stand within the bounds that the reading
sets (`foldl_encodeChar`). So what has been written reads back as the text, without a fault. Bytes
below 128 stand for themselves only (`not_mem_encode`), and trimming a text takes off the blanks
around it and nothing else (`trim_padded`).
-/
namespace Dialogue.Text

section
variable {found : List (Option Char)} {n value count : Nat} {low high : UInt8}

theorem toNat_byte (h : n < 256) : (UInt8.ofNat n).toNat = n := UInt8.toNat_ofNat_of_lt h

/-! ## The first byte of a character -/

theorem lead_one (h : n < 0x80) :
    Reading.lead found (UInt8.ofNat n) = ⟨some (Char.ofNat n) :: found, .none⟩ := by
  have byte := toNat_byte (show n < 256 by omega)
  simp [Reading.lead, UInt8.lt_iff_toNat_lt, byte, h]

theorem lead_two (lower : 0xC2 ≤ n) (upper : n < 0xE0) :
    Reading.lead found (UInt8.ofNat n) = ⟨found, .tail (n - 0xC0) 1 0x80 0xBF⟩ := by
  have byte := toNat_byte (show n < 256 by omega)
  simp only [Reading.lead, UInt8.lt_iff_toNat_lt, byte, UInt8.reduceToNat]
  rw [if_neg (by omega), if_neg (by omega), if_pos upper]

theorem lead_three (lower : 0xE0 ≤ n) (upper : n < 0xF0) :
    ∃ low high : UInt8, low.toNat = (if n = 0xE0 then 0xA0 else 0x80) ∧
      high.toNat = (if n = 0xED then 0x9F else 0xBF) ∧
      Reading.lead found (UInt8.ofNat n) = ⟨found, .tail (n - 0xE0) 2 low high⟩ := by
  have byte := toNat_byte (show n < 256 by omega)
  refine ⟨if n = 0xE0 then 0xA0 else 0x80, if n = 0xED then 0x9F else 0xBF, ?_, ?_, ?_⟩
  · split <;> rfl
  · split <;> rfl
  · simp only [Reading.lead, UInt8.lt_iff_toNat_lt, ← UInt8.toNat_inj, byte, UInt8.reduceToNat]
    rw [if_neg (by omega), if_neg (by omega), if_neg (by omega), if_pos upper]

theorem lead_four (lower : 0xF0 ≤ n) (upper : n < 0xF5) :
    ∃ low high : UInt8, low.toNat = (if n = 0xF0 then 0x90 else 0x80) ∧
      high.toNat = (if n = 0xF4 then 0x8F else 0xBF) ∧
      Reading.lead found (UInt8.ofNat n) = ⟨found, .tail (n - 0xF0) 3 low high⟩ := by
  have byte := toNat_byte (show n < 256 by omega)
  refine ⟨if n = 0xF0 then 0x90 else 0x80, if n = 0xF4 then 0x8F else 0xBF, ?_, ?_, ?_⟩
  · split <;> rfl
  · split <;> rfl
  · simp only [Reading.lead, UInt8.lt_iff_toNat_lt, ← UInt8.toNat_inj, byte, UInt8.reduceToNat]
    rw [if_neg (by omega), if_neg (by omega), if_neg (by omega), if_neg (by omega), if_pos upper]

/-! ## The bytes behind it -/

/-- A byte within the bounds adds six bits. -/
theorem step_tail (fits : n < 64) (lower : low.toNat ≤ n + 0x80) (upper : n + 0x80 ≤ high.toNat) :
    Reading.step ⟨found, .tail value count low high⟩ (UInt8.ofNat (n + 0x80)) =
      if count ≤ 1 then ⟨some (Char.ofNat (64 * value + n)) :: found, .none⟩
      else ⟨found, .tail (64 * value + n) (count - 1) 0x80 0xBF⟩ := by
  have byte := toNat_byte (show n + 0x80 < 256 by omega)
  simp only [Reading.step, UInt8.le_iff_toNat_le, byte]
  rw [if_pos ⟨lower, upper⟩, Nat.add_sub_cancel]

end

/-- The bytes of a character are read as the character, whatever was read before. -/
theorem foldl_encodeChar (c : Char) (found : List (Option Char)) :
    (String.utf8EncodeChar c).foldl Reading.step ⟨found, .none⟩ = ⟨some c :: found, .none⟩ := by
  have valid : c.val.toNat < 0xD800 ∨ 0xDFFF < c.val.toNat ∧ c.val.toNat < 0x110000 := c.valid
  have number : Char.ofNat c.val.toNat = c := Char.ofNat_toNat c
  unfold String.utf8EncodeChar
  generalize c.val.toNat = v at valid number
  dsimp only
  split_ifs with one two three
  · show Reading.lead found _ = _
    rw [lead_one (by omega), number]
  · have digits : 64 * (v / 64 % 32 + 192 - 0xC0) + v % 64 = v := by omega
    show Reading.step (Reading.lead found _) _ = _
    rw [lead_two (by omega) (by omega), step_tail (by omega) (by simp) (by simp; omega), digits,
      number]
    rfl
  · obtain ⟨low, high, lower, upper, lead⟩ := @lead_three found (v / 4096 % 16 + 224) (by omega)
      (by omega)
    have digits : 64 * (64 * (v / 4096 % 16 + 224 - 0xE0) + v / 64 % 64) + v % 64 = v := by omega
    show Reading.step (Reading.step (Reading.lead found _) _) _ = _
    rw [lead, step_tail (by omega) (by rw [lower]; split <;> omega)
      (by rw [upper]; split <;> omega)]
    show Reading.step ⟨found, .tail _ 1 0x80 0xBF⟩ _ = _
    rw [step_tail (by omega) (by simp) (by simp; omega), digits, number]
    rfl
  · obtain ⟨low, high, lower, upper, lead⟩ := @lead_four found (v / 262144 % 8 + 240) (by omega)
      (by omega)
    have digits : 64 * (64 * (64 * (v / 262144 % 8 + 240 - 0xF0) + v / 4096 % 64) + v / 64 % 64) +
        v % 64 = v := by omega
    show Reading.step (Reading.step (Reading.step (Reading.lead found _) _) _) _ = _
    rw [lead, step_tail (by omega) (by rw [lower]; split <;> omega)
      (by rw [upper]; split <;> omega)]
    show Reading.step (Reading.step ⟨found, .tail _ 2 0x80 0xBF⟩ _) _ = _
    rw [step_tail (by omega) (by simp) (by simp; omega)]
    show Reading.step ⟨found, .tail _ 1 0x80 0xBF⟩ _ = _
    rw [step_tail (by omega) (by simp) (by simp; omega), digits, number]
    rfl

theorem foldl_encode (cs : List Char) (found : List (Option Char)) :
    (cs.flatMap String.utf8EncodeChar).foldl Reading.step ⟨found, .none⟩ =
      ⟨(cs.map some).reverse ++ found, .none⟩ := by
  induction cs generalizing found with
  | nil => rfl
  | cons c cs ih =>
    rw [List.flatMap_cons, List.foldl_append, foldl_encodeChar, ih, List.map_cons,
      List.reverse_cons, List.append_assoc, List.singleton_append]

theorem decode_encode (s : String) : decode (encode s) = s.toList.map some := by
  rw [decode, encode, foldl_encode, List.append_nil]
  exact List.reverse_reverse _

/-- A text that was written reads back. -/
theorem lossy_encode (s : String) : lossy (encode s) = s := by
  rw [lossy, decode_encode, List.map_map]
  have same : (Option.getD · '\uFFFD') ∘ some = (id : Char → Char) := rfl
  rw [same, List.map_id, String.ofList_toList]

theorem strict?_encode (s : String) : strict? (encode s) = some s := by
  unfold strict?
  rw [decode_encode]
  simp

/-- A text takes up as many bytes as its size says. -/
theorem length_encode (s : String) : (encode s).length = s.utf8ByteSize := by
  rw [String.utf8ByteSize, ← String.utf8Encode_toList, List.utf8Encode, List.size_toByteArray]
  rfl

/-! ## Bytes below 128 -/

/-- A byte below 128 is the whole of a character. -/
theorem mem_encodeChar {c : Char} {b : UInt8} (h : b ∈ String.utf8EncodeChar c)
    (small : b.toNat < 0x80) : c.toNat = b.toNat := by
  have value : c.val.toNat = c.toNat := rfl
  unfold String.utf8EncodeChar at h
  rw [value] at h
  generalize c.toNat = v at h
  dsimp only at h
  split_ifs at h with one two three
  all_goals simp only [List.mem_cons, List.not_mem_nil, or_false] at h
  · rw [h, toNat_byte (by omega)]
  · rcases h with rfl | rfl <;> (rw [toNat_byte (by omega)] at small; omega)
  · rcases h with rfl | rfl | rfl <;> (rw [toNat_byte (by omega)] at small; omega)
  · rcases h with rfl | rfl | rfl | rfl <;> (rw [toNat_byte (by omega)] at small; omega)

/-- A byte below 128 that stands for no character of a text is not written for any. -/
theorem not_mem_encode {s : String} {b : UInt8} (small : b.toNat < 0x80)
    (absent : ∀ c ∈ s.toList, c.toNat ≠ b.toNat) : b ∉ encode s := by
  intro mem
  obtain ⟨c, hc, hb⟩ := List.mem_flatMap.1 mem
  exact absent c hc (mem_encodeChar hb small)

theorem encode_eq_ascii {s : String} (small : ∀ c ∈ s.toList, c.toNat < 0x80) :
    encode s = ascii s := by
  have single : ∀ c ∈ s.toList, String.utf8EncodeChar c = [UInt8.ofNat c.toNat] := by
    intro c hc
    have one : c.val.toNat ≤ 0x7f := Nat.le_of_lt_succ (small c hc)
    unfold String.utf8EncodeChar
    dsimp only
    rw [if_pos one]
    rfl
  rw [encode, ascii, List.flatMap_congr single, List.map_eq_flatMap]

/-! ## Blanks around a text -/

/-- Whether a text has no blank at its ends. -/
def Trimmed (s : String) : Prop :=
  (∀ c ∈ s.toList.head?, isBlank c = false) ∧ ∀ c ∈ s.toList.getLast?, isBlank c = false

theorem dropWhile_isBlank {before text : List Char} (blank : ∀ c ∈ before, isBlank c = true)
    (first : ∀ c ∈ text.head?, isBlank c = false) :
    (before ++ text).dropWhile isBlank = text := by
  rw [List.dropWhile_append_of_pos blank]
  cases text with
  | nil => rfl
  | cons c rest => exact List.dropWhile_cons_of_neg (by simpa using first c rfl)

/-- The blanks around a text go, and nothing else. -/
theorem trim_padded {before after s : String} (leading : ∀ c ∈ before.toList, isBlank c = true)
    (trailing : ∀ c ∈ after.toList, isBlank c = true) (trimmed : Trimmed s) :
    trim (before ++ s ++ after) = s := by
  obtain ⟨first, last⟩ := trimmed
  apply String.toList_inj.1
  by_cases empty : s.toList = []
  · -- Nothing stands between the blanks, so all of them go from the front.
    have blank : ∀ c ∈ before.toList ++ after.toList, isBlank c = true := by
      intro c hc
      exact (List.mem_append.1 hc).elim (leading c) (trailing c)
    have nothing : (before.toList ++ after.toList).dropWhile isBlank = [] :=
      List.dropWhile_eq_nil_iff.2 blank
    simp [trim, empty, nothing]
  · have front : (before.toList ++ (s.toList ++ after.toList)).dropWhile isBlank =
        s.toList ++ after.toList := by
      apply dropWhile_isBlank leading
      rwa [List.head?_append_of_ne_nil _ empty]
    have back : (after.toList.reverse ++ s.toList.reverse).dropWhile isBlank =
        s.toList.reverse := by
      apply dropWhile_isBlank
      · simpa using trailing
      · rwa [List.head?_reverse]
    simp [trim, front, back]

/-- A text without blanks at its ends stays as it is. -/
theorem trim_of_trimmed {s : String} (trimmed : Trimmed s) : trim s = s := by
  have padded : trim ("" ++ s ++ "") = s := trim_padded (by simp) (by simp) trimmed
  simpa using padded

end Dialogue.Text
