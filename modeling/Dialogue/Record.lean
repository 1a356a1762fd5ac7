import Dialogue.Error
import Dialogue.Frame

/-!
The records that are handed out: exchanges in a form that does not depend on the protocol.
-/
namespace Dialogue

/-- One exchange of a connection. -/
structure Record where
  connection : Nat
  protocol : Protocol
  key : Int
  /-- The time of the request, or of the response where there is no request. -/
  time : Nat
  /-- The time from the request to the response where there are both. -/
  latency : Option Nat
  request : Bytes
  response : Bytes
deriving DecidableEq

/-- The record of an exchange. -/
def Summary.toRecord (x : Summary) (connection : Nat) (protocol : Protocol) (key : Int) :
    Record where
  connection := connection
  protocol := protocol
  key := key
  time := (x.requestTime.or x.responseTime).getD 0
  latency := match x.requestTime, x.responseTime with
    | some asked, some answered => some (answered - asked)
    | _, _ => none
  request := x.request
  response := x.response

/-- What one pass over a connection has found. -/
structure Harvest where
  records : List Record := []
  errors : Nat := 0
deriving DecidableEq

namespace Harvest

def isEmpty (h : Harvest) : Bool := h.records.isEmpty && h.errors == 0

/-- Both harvests, one after the other. -/
def append (a b : Harvest) : Harvest := ⟨a.records ++ b.records, a.errors + b.errors⟩

end Harvest

end Dialogue
