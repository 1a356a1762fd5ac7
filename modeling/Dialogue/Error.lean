import Dialogue.Protocol

/-!
Everything that can be reported as wrong, by cause, and the wording of each cause.

Damaged or incomplete traffic never stops the reconstruction: it is counted. A `DecodeError` says
why a payload cannot be read, a `PairingError` why a frame stays without a counterpart, and an
`Error` is what a caller of the library can meet.
-/
namespace Dialogue

/-- Why a payload cannot be read. -/
inductive DecodeError where
  /-- A field would end at `needed`, past the `size` bytes that there are. -/
  | tooShort (owner : String) (needed size : Nat)
  /-- A field holds a value that its format forbids. -/
  | invalidField (owner field reason : String)
deriving DecidableEq, Repr

/-- Why a frame stays without a counterpart. -/
inductive PairingError where
  | unmatchedResponse (owner : String)
  | unmatchedRequest (owner : String)
  /-- The parts of a response could not be put together. -/
  | incompleteResponse (owner reason : String)
deriving DecidableEq, Repr

/-- What a caller can be told. -/
inductive Error where
  | decode (cause : DecodeError)
  | pairing (cause : PairingError)
  | unknownProtocol (name : String)
  /-- The connection is followed as `tracked`, and the fragment was said to be `requested`. -/
  | protocolMismatch (connection : Nat) (tracked requested : Protocol)
  /-- As many connections are followed as are allowed. -/
  | connectionLimit (limit : Nat)
deriving DecidableEq, Repr

def DecodeError.message : DecodeError → String
  | tooShort owner needed size => s!"{owner}: packet too short (need {needed} bytes, have {size})"
  | invalidField owner field reason => s!"{owner}: invalid {field}: {reason}"

def PairingError.message : PairingError → String
  | unmatchedResponse owner => s!"{owner}: response without a pending request"
  | unmatchedRequest owner => s!"{owner}: request dropped without a matching response"
  | incompleteResponse owner reason => s!"{owner}: incomplete response: {reason}"

def Error.message : Error → String
  | decode cause => s!"Protocol parse error: {cause.message}"
  | pairing cause => s!"Stitch error: {cause.message}"
  | unknownProtocol name => s!"Unknown protocol: {name}"
  | protocolMismatch connection tracked requested =>
    s!"Connection {connection} is tracked as {tracked.name}, got event for {requested.name}"
  | connectionLimit limit => s!"Connection limit reached ({limit})"

/-- The protocol of an identifier, or the error that names it. -/
def Protocol.ofName (s : String) : Except Error Protocol :=
  match ofName? s with
  | some p => .ok p
  | none => .error (.unknownProtocol s)

end Dialogue
