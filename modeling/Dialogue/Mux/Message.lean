import Dialogue.Boundary
import Dialogue.Frame

/-!
Mux messages: a 32 bit size, an 8 bit signed type, a 24 bit tag and a body.

Types above zero are sent to have something done (T), the opposite of a type answers it (R), and
Rerr answers any. The size counts what follows it. Two types have an older code that is still in
use. `Message.parse` reads one message and `Message.boundary` finds the next credible one.
-/
namespace Dialogue.Mux

/-- The message types. -/
inductive Kind where
  | treq | rreq | tdispatch | rdispatch | tdrain | rdrain | tping | rping | tdiscarded | rdiscarded
  | tlease | tinit | rinit | rerr
  /-- Rerr under its older code. -/
  | oldRerr
  /-- Tdiscarded under its older code. -/
  | oldTdiscarded
deriving DecidableEq, Repr

namespace Kind

def all : List Kind :=
  [treq, rreq, tdispatch, rdispatch, tdrain, rdrain, tping, rping, tdiscarded, rdiscarded, tlease,
    tinit, rinit, rerr, oldRerr, oldTdiscarded]

/-- The signed code that stands in a message. -/
def code : Kind → Int
  | treq => 1
  | rreq => -1
  | tdispatch => 2
  | rdispatch => -2
  | tdrain => 64
  | rdrain => -64
  | tping => 65
  | rping => -65
  | tdiscarded => 66
  | rdiscarded => -66
  | tlease => 67
  | tinit => 68
  | rinit => -68
  | rerr => -128
  | oldRerr => 127
  | oldTdiscarded => -62

def ofCode? (n : Int) : Option Kind := all.find? (·.code == n)

theorem ofCode?_code (k : Kind) : ofCode? k.code = some k := by cases k <;> decide

def name : Kind → String
  | treq => "Treq"
  | rreq => "Rreq"
  | tdispatch => "Tdispatch"
  | rdispatch => "Rdispatch"
  | tdrain => "Tdrain"
  | rdrain => "Rdrain"
  | tping => "Tping"
  | rping => "Rping"
  | tdiscarded | oldTdiscarded => "Tdiscarded"
  | rdiscarded => "Rdiscarded"
  | tlease => "Tlease"
  | tinit => "Tinit"
  | rinit => "Rinit"
  | rerr | oldRerr => "Rerr"

/-- The name of a code, known or not. -/
def nameOfCode (n : Int) : String := ((ofCode? n).map name).getD "Unknown"

/-- Whether a message reports an error, which answers a request of any type. -/
def isError : Kind → Bool
  | rerr | oldRerr => true
  | _ => false

/-- Whether a message answers another one. -/
def isReply (k : Kind) : Bool := k.isError || (k.code < 0 && k != oldTdiscarded)

/-- Whether a message of this type answers a request of type `asked`. -/
def answers (k asked : Kind) : Bool := k.isError || k.code == -asked.code

end Kind

/-- A message. -/
structure Message where
  kind : Kind
  tag : Nat
  body : Bytes
deriving DecidableEq

namespace Message

/-- The bytes of size, type and tag. -/
def headerLength : Nat := 8

/-- The sizes that a message may give. -/
def minSize : Int := 4
def maxSize : Int := 16 * 1024 * 1024

/-- The bytes that a message takes up. -/
def size (m : Message) : Nat := headerLength + m.body.length

/-- The header at the start of a byte string: the length of its message, the type and the tag. -/
def header? : Bytes → Option (Nat × Kind × Nat)
  | a :: b :: c :: d :: t :: x :: y :: z :: _ => do
    let size := twosComplement 32 (bigEndian [a, b, c, d])
    guard (minSize ≤ size ∧ size ≤ maxSize)
    let kind ← Kind.ofCode? (twosComplement 8 t.toNat)
    return (4 + size.toNat, kind, bigEndian [x, y, z])
  | _ => none

/-- Reads the message at the start of a byte string. -/
def parse (bs : Bytes) : Parsed Message :=
  if !atLeast headerLength bs then .needMore (some headerLength)
  else
    match header? bs with
    | none => .invalid "implausible frame header"
    | some (length, kind, tag) =>
      if atLeast length bs then
        .complete ⟨kind, tag, slice bs headerLength (length - headerLength)⟩ length
      else .needMore (some length)

/-- Whether a message begins here, and another one behind it as far as can be seen. -/
def credible (bs : Bytes) : Bool :=
  match header? bs with
  | none => false
  | some (length, _, _) =>
    atLeast length bs &&
      let rest := bs.drop length
      (!atLeast headerLength rest || (header? rest).isSome)

/-- The earliest position at which a message plausibly begins. -/
def boundary (bs : Bytes) (start : Nat) : Option Nat := Boundary.find credible start bs

end Message

end Dialogue.Mux
