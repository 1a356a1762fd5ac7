import Dialogue.Bytes

/-!
Hexadecimal text: the digits of numbers and of byte strings, in small letters.
-/
namespace Dialogue.Text

/-- The digit of a number below sixteen. -/
def hexDigit (n : Nat) : Char := Char.ofNat (if n < 10 then 48 + n else 87 + n)

/-- The digits of a number, most significant first, with zeros in front up to `width` digits. -/
def hexNumber (width n : Nat) : String :=
  let digits := Nat.toDigits 16 n
  String.ofList (List.replicate (width - digits.length) '0' ++ digits)

/-- Two digits for each byte. -/
def hexBytes (bs : Bytes) : String :=
  String.ofList (bs.flatMap fun b => [hexDigit (b.toNat / 16), hexDigit (b.toNat % 16)])

end Dialogue.Text
