import Mathlib
import Dialogue.Bytes

/-!
Numbers written in bytes.

`littleBytes` and `bigBytes` write a number in a fixed number of bytes, and `word` gives the word
that stands for a signed number. Each undoes its reader in `Dialogue.Bytes` and is undone by it: a
number that fits is read back, and bytes that were read are written again.
-/
namespace Dialogue

/-- The lowest `n` base 256 digits of a number, least significant first. -/
def littleBytes : Nat → Nat → Bytes
  | 0, _ => []
  | n + 1, value => UInt8.ofNat value :: littleBytes n (value / 256)

/-- The lowest `n` base 256 digits of a number, most significant first. -/
def bigBytes (n value : Nat) : Bytes := (littleBytes n value).reverse

/-- The `bits` wide word that stands for an integer: of a negative one, its two's complement. -/
def word (bits : Nat) (i : Int) : Nat := if i < 0 then (i + (2 ^ bits : Nat)).toNat else i.toNat

/-! ## Least significant first -/

@[simp] theorem length_littleBytes (n value : Nat) : (littleBytes n value).length = n := by
  induction n generalizing value with
  | zero => rfl
  | succ n ih => rw [littleBytes, List.length_cons, ih]

theorem littleEndian_cons (b : UInt8) (bs : Bytes) :
    littleEndian (b :: bs) = b.toNat + 256 * littleEndian bs := rfl

theorem littleEndian_lt (bs : Bytes) : littleEndian bs < 256 ^ bs.length := by
  induction bs with
  | nil => decide
  | cons b bs ih =>
    have digit : b.toNat < 256 := b.toNat_lt
    rw [littleEndian_cons, List.length_cons, Nat.pow_succ]
    omega

theorem littleEndian_littleBytes {n value : Nat} (fits : value < 256 ^ n) :
    littleEndian (littleBytes n value) = value := by
  induction n generalizing value with
  | zero =>
    rw [Nat.pow_zero, Nat.lt_one_iff] at fits
    rw [fits]
    rfl
  | succ n ih =>
    have digit : (UInt8.ofNat value).toNat = value % 256 := UInt8.toNat_ofNat'
    have higher : value / 256 < 256 ^ n := by
      rw [Nat.pow_succ] at fits
      omega
    rw [littleBytes, littleEndian_cons, ih higher, digit]
    omega

theorem littleBytes_littleEndian (bs : Bytes) : littleBytes bs.length (littleEndian bs) = bs := by
  induction bs with
  | nil => rfl
  | cons b bs ih =>
    have digit : b.toNat < 256 := b.toNat_lt
    have higher : littleEndian (b :: bs) / 256 = littleEndian bs := by
      rw [littleEndian_cons]
      omega
    have lowest : UInt8.ofNat (littleEndian (b :: bs)) = b := by
      apply UInt8.toNat_inj.1
      rw [UInt8.toNat_ofNat', littleEndian_cons]
      omega
    rw [List.length_cons, littleBytes, higher, lowest, ih]

/-! ## Most significant first -/

@[simp] theorem length_bigBytes (n value : Nat) : (bigBytes n value).length = n := by
  rw [bigBytes, List.length_reverse, length_littleBytes]

/-- The two orders read the same digits from opposite ends. -/
theorem bigEndian_eq (bs : Bytes) : bigEndian bs = littleEndian bs.reverse := by
  unfold bigEndian littleEndian
  rw [List.foldl_eq_foldr_reverse]
  congr 1
  funext b n
  exact Nat.add_comm _ _

theorem bigEndian_lt (bs : Bytes) : bigEndian bs < 256 ^ bs.length := by
  rw [bigEndian_eq, ← List.length_reverse]
  exact littleEndian_lt bs.reverse

theorem bigEndian_bigBytes {n value : Nat} (fits : value < 256 ^ n) :
    bigEndian (bigBytes n value) = value := by
  rw [bigEndian_eq, bigBytes, List.reverse_reverse, littleEndian_littleBytes fits]

theorem bigBytes_bigEndian {n : Nat} {bs : Bytes} (h : bs.length = n) :
    bigBytes n (bigEndian bs) = bs := by
  rw [bigEndian_eq, bigBytes, ← h, ← List.length_reverse, littleBytes_littleEndian,
    List.reverse_reverse]

/-! ## Signed numbers -/

section
variable {bits n : Nat} {i : Int}

theorem two_pow_eq (pos : 0 < bits) : 2 ^ bits = 2 * 2 ^ (bits - 1) := by
  rw [← Nat.pow_succ']
  congr 1
  omega

theorem word_lt (lower : -(2 ^ (bits - 1) : Nat) ≤ i) (upper : i < (2 ^ (bits - 1) : Nat))
    (pos : 0 < bits) : word bits i < 2 ^ bits := by
  have double := two_pow_eq pos
  unfold word
  split <;> omega

theorem twosComplement_word (lower : -(2 ^ (bits - 1) : Nat) ≤ i)
    (upper : i < (2 ^ (bits - 1) : Nat)) (pos : 0 < bits) :
    twosComplement bits (word bits i) = i := by
  have double := two_pow_eq pos
  unfold twosComplement word
  simp only [Nat.one_shiftLeft]
  split <;> split <;> omega

theorem word_natCast (n : Nat) : word bits n = n := if_neg (Int.not_lt.2 (Int.natCast_nonneg n))

theorem word_twosComplement (fits : n < 2 ^ bits) (pos : 0 < bits) :
    word bits (twosComplement bits n) = n := by
  have double := two_pow_eq pos
  unfold twosComplement word
  simp only [Nat.one_shiftLeft]
  split <;> split <;> omega

theorem twosComplement_bounds (fits : n < 2 ^ bits) (pos : 0 < bits) :
    -(2 ^ (bits - 1) : Nat) ≤ twosComplement bits n ∧
      twosComplement bits n < (2 ^ (bits - 1) : Nat) := by
  have double := two_pow_eq pos
  unfold twosComplement
  simp only [Nat.one_shiftLeft]
  split <;> omega

/-- A word whose top bit is not set stands for itself. -/
theorem twosComplement_of_lt (h : n < 2 ^ (bits - 1)) : twosComplement bits n = n := by
  unfold twosComplement
  rw [Nat.one_shiftLeft, if_pos h]

end

end Dialogue
