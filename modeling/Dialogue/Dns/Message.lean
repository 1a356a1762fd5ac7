import Dialogue.Dns.Address
import Dialogue.Frame
import Dialogue.Text

/-!
DNS messages: questions and answers about names, and how they are shown.
-/
namespace Dialogue.Dns

/-- The name of a type of record. -/
def typeName : Nat → String
  | 1 => "A"
  | 2 => "NS"
  | 5 => "CNAME"
  | 6 => "SOA"
  | 12 => "PTR"
  | 15 => "MX"
  | 16 => "TXT"
  | 28 => "AAAA"
  | 33 => "SRV"
  | 41 => "OPT"
  | 65 => "HTTPS"
  | _ => "UNKNOWN"

/-- A question. -/
structure Query where
  name : String
  type : Nat
deriving DecidableEq

/-- What a record says of its name. -/
inductive Data where
  | ipv4 (octets : Bytes)
  | ipv6 (octets : Bytes)
  | alias (name : String)
  | other
deriving DecidableEq

/-- An answer. -/
structure Answer where
  name : String
  type : Nat
  data : Data
deriving DecidableEq

/-- A message; `length` is the number of bytes it takes up. -/
structure Message where
  transaction : Nat
  flags : Nat
  queries : List Query
  answers : List Answer
  length : Nat
deriving DecidableEq

namespace Data

/-- The text of an address. -/
def address? : Data → Option String
  | ipv4 octets => some (ipv4Text octets)
  | ipv6 octets => some (ipv6Text octets)
  | _ => none

end Data

/-- A member of an object, both of them texts. -/
def shownField (key value : String) : String := "\"" ++ key ++ "\": \"" ++ value ++ "\""

/-- An object. -/
def shownObject (fields : List String) : String := "\x7b" ++ ", ".intercalate fields ++ "\x7d"

/-- An object whose one member is a list. -/
def shownList (key : String) (entries : List String) : String :=
  shownObject ["\"" ++ key ++ "\": [" ++ ", ".intercalate entries ++ "]"]

def Query.shown (q : Query) : String :=
  shownObject [shownField "name" q.name, shownField "type" (typeName q.type)]

/-- An answer that gives an address or another name; others are not shown. -/
def Answer.shown? (a : Answer) : Option String :=
  match a.data, a.data.address? with
  | .alias target, _ =>
    some (shownObject
      [shownField "name" a.name, shownField "type" "CNAME", shownField "cname" target])
  | _, some address =>
    some (shownObject
      [shownField "name" a.name, shownField "type" (typeName a.type),
        shownField "addr" address])
  | _, none => none

namespace Message

/-- The response code. -/
def code (m : Message) : Nat := m.flags % 16

/-- What is shown of a message that asks. -/
def shownQueries (m : Message) : Bytes :=
  Text.encode (shownList "queries" (m.queries.map Query.shown))

/-- What is shown of a message that answers. -/
def shownAnswers (m : Message) : Bytes :=
  Text.encode (shownList "answers" (m.answers.filterMap Answer.shown?))

end Message

end Dialogue.Dns
