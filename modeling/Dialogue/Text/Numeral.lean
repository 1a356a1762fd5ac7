import Dialogue.Bytes

/-!
Numerals as network protocols write them: digits of a base with an optional sign, within a range.

A numeral has at least one digit and nothing else around its digits; letters stand for the digits
from ten on in either case. `natural?` reads bare digits, `unsigned?` allows a plus sign and
`integer?` either sign, and both refuse a number that does not fit the given width.
-/
namespace Dialogue.Text

/-- The value of a digit below `base`. -/
def digit? (base : Nat) (b : UInt8) : Option Nat :=
  let value := if 48 ≤ b ∧ b ≤ 57 then b.toNat - 48
    else if 97 ≤ b ∧ b ≤ 122 then b.toNat - 87
    else if 65 ≤ b ∧ b ≤ 90 then b.toNat - 55
    else base
  if value < base then some value else none

/-- The number that one or more digits write. -/
def natural? (base : Nat) (digits : Bytes) : Option Nat :=
  if digits.isEmpty then none
  else digits.foldl (fun n b => n.bind fun n => (digit? base b).map (base * n + ·)) (some 0)

/-- A number below `2 ^ bits`, with or without a plus sign. -/
def unsigned? (bits base : Nat) (bs : Bytes) : Option Nat :=
  (natural? base (if bs.head? = some 43 then bs.tail else bs)).filter (· < 1 <<< bits)

/-- A decimal number of `bits` bits, with or without a sign. -/
def integer? (bits : Nat) (bs : Bytes) : Option Int :=
  match bs with
  | 45 :: digits => ((natural? 10 digits).filter (· ≤ 1 <<< (bits - 1))).map fun n => -(n : Int)
  | _ => (unsigned? (bits - 1) 10 bs).map Int.ofNat

end Dialogue.Text
