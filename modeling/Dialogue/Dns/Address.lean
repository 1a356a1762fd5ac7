import Dialogue.Bytes
import Dialogue.Text.Hex

/-!
Internet addresses as text: four decimal numbers with points, or eight hexadecimal groups with
colons, of which the longest run of zero groups is left out.
-/
namespace Dialogue.Dns

/-- The text of an address of four bytes. -/
def ipv4Text (octets : Bytes) : String := ".".intercalate (octets.map fun b => toString b.toNat)

/-- The numbers of two bytes each. -/
def groups : Bytes → List Nat
  | a :: b :: rest => bigEndian [a, b] :: groups rest
  | _ => []

/-- Where the longest run of zeros starts and how long it is; of two such runs the first counts.
`index` is the place of the list's first member, `current` the length of the run that ends before
it. -/
def longestZeros (index current : Nat) (best : Nat × Nat) : List Nat → Nat × Nat
  | [] => best
  | 0 :: rest =>
    let current := current + 1
    let best := if best.2 < current then (index + 1 - current, current) else best
    longestZeros (index + 1) current best rest
  | _ :: rest => longestZeros (index + 1) 0 best rest

def groupsText (gs : List Nat) : String := ":".intercalate (gs.map (Text.hexNumber 1))

/-- The text of an address of sixteen bytes. One that stands for an address of four bytes shows
it. -/
def ipv6Text (octets : Bytes) : String :=
  let gs := groups octets
  if gs.take 6 == [0, 0, 0, 0, 0, 0xFFFF] then "::ffff:" ++ ipv4Text (octets.drop 12)
  else
    let (start, length) := longestZeros 0 0 (0, 0) gs
    if length < 2 then groupsText gs
    else groupsText (gs.take start) ++ "::" ++ groupsText (gs.drop (start + length))

end Dialogue.Dns
