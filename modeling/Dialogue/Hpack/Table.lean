import Dialogue.Bytes

/-!
The tables by which header fields are named: a fixed one, and behind it one that grows with what
is sent. An index counts from 1 through both.
-/
namespace Dialogue.Hpack

/-- A name and a value. -/
abbrev Field := Bytes × Bytes

/-- The fields that every connection knows. -/
def staticFields : List Field :=
  ([(":authority", ""), (":method", "GET"), (":method", "POST"), (":path", "/"),
    (":path", "/index.html"), (":scheme", "http"), (":scheme", "https"), (":status", "200"),
    (":status", "204"), (":status", "206"), (":status", "304"), (":status", "400"),
    (":status", "404"), (":status", "500"), ("accept-", ""),
    ("accept-encoding", "gzip, deflate"), ("accept-language", ""), ("accept-ranges", ""),
    ("accept", ""), ("access-control-allow-origin", ""), ("age", ""), ("allow", ""),
    ("authorization", ""), ("cache-control", ""), ("content-disposition", ""),
    ("content-encoding", ""), ("content-language", ""), ("content-length", ""),
    ("content-location", ""), ("content-range", ""), ("content-type", ""), ("cookie", ""),
    ("date", ""), ("etag", ""), ("expect", ""), ("expires", ""), ("from", ""), ("host", ""),
    ("if-match", ""), ("if-modified-since", ""), ("if-none-match", ""), ("if-range", ""),
    ("if-unmodified-since", ""), ("last-modified", ""), ("link", ""), ("location", ""),
    ("max-forwards", ""), ("proxy-authenticate", ""), ("proxy-authorization", ""),
    ("range", ""), ("referer", ""), ("refresh", ""), ("retry-after", ""), ("server", ""),
    ("set-cookie", ""), ("strict-transport-security", ""), ("transfer-encoding", ""),
    ("user-agent", ""), ("vary", ""), ("via", ""), ("www-authenticate", "")] :
    List (String × String)).map fun f => (ascii f.1, ascii f.2)

/-- The fields that a connection has learned, newest first. -/
structure Table where
  limit : Nat := 4096
  entries : List Field := []
deriving DecidableEq

namespace Table

/-- What a field counts for in the size of a table. -/
def fieldSize (f : Field) : Nat := f.1.length + f.2.length + 32

/-- The newest fields whose sizes add up to no more than `room`. -/
def newest (room : Nat) : List Field → List Field
  | [] => []
  | f :: rest => if fieldSize f ≤ room then f :: newest (room - fieldSize f) rest else []

/-- Enters a field; the oldest ones give way to it, and it may itself be too large. -/
def insert (t : Table) (f : Field) : Table :=
  { t with entries := newest t.limit (f :: t.entries) }

/-- Changes the limit, to which the oldest fields may have to give way. -/
def resize (t : Table) (limit : Nat) : Table := ⟨limit, newest limit t.entries⟩

/-- The field of an index. -/
def lookup? (t : Table) (index : Nat) : Option Field :=
  if index = 0 then none
  else if index ≤ staticFields.length then staticFields[index - 1]?
  else t.entries[index - 1 - staticFields.length]?

end Table

end Dialogue.Hpack
