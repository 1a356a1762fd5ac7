import Dialogue.Boundary
import Dialogue.Frame
import Dialogue.Http.Chunked
import Dialogue.Http.Head

/-!
HTTP/1 messages: a head and the body that its headers declare.

A response to HEAD declares a body that it does not have. So the requests are remembered for which
no final response was read, with whether they were HEAD. Some statuses have no body either. How
messages are read is the same whatever reads their heads, so the reader of heads is a parameter.
-/
namespace Dialogue.Http

/-- A message, its body without the framing of chunks; `length` is the number of bytes it takes
up. -/
structure Message where
  start : StartLine
  minor : Nat
  headers : List Header
  body : Bytes
  length : Nat
deriving DecidableEq

/-- Whether each request without a final response was HEAD, oldest first. -/
abbrev Awaited := List Bool

namespace Awaited

/-- How many requests are remembered. -/
def limit : Nat := 1024

/-- Remembers a request; the oldest is forgotten where there are too many. -/
def push (a : Awaited) (isHead : Bool) : Awaited :=
  (if limit ≤ a.length then a.tail else a) ++ [isHead]

end Awaited

/-- A reader of heads: the head at the start of a byte string, or why there is none. -/
abbrev HeadReader := Direction → Bytes → Except Head.Stop Head

/-- Whether a response precedes the final one. -/
def isInterim (status : Nat) : Bool := 100 ≤ status && status < 200 && status != 101

/-- Whether responses of a status never have a body. -/
def isBodiless (status : Nat) : Bool :=
  (100 ≤ status && status < 200) || status == 204 || status == 304

namespace Message

/-- The length up to which the end of a head is waited for. -/
def maxHead : Nat := 64 * 1024

/-- The greatest number of bytes that is asked for. -/
def maxRequest : Nat := 0xFFFFFFFFFFFFFFFF

/-- The value of the first header of a name. -/
def header? (headers : List Header) (name : String) : Option String := headers.lookup name

def status? (m : Message) : Option Nat :=
  match m.start with
  | .response status _ => some status
  | .request .. => none

/-- What is shown of a message: its start line and its body. -/
def render (m : Message) : Bytes :=
  let line := match m.start with
    | .request method path => s!"{method} {path}"
    | .response status reason => s!"{status} {reason}"
  Text.encode line ++ if m.body.isEmpty then [] else ascii "\n" ++ m.body

/-- Whether a word stands somewhere in a text. -/
def holds (word : List Char) : List Char → Bool
  | [] => word.isEmpty
  | c :: rest => word.isPrefixOf (c :: rest) || holds word rest

/-- Whether the body is sent in chunks. -/
def isChunked (headers : List Header) : Bool :=
  headers.any fun h =>
    h.1 == "transfer-encoding" && holds "chunked".toList (h.2.toList.map Char.toLower)

/-- The length that the headers give to the body. -/
def contentLength (headers : List Header) : Except String (Option Nat) :=
  match header? headers "content-length" with
  | none => .ok none
  | some text =>
    match Text.unsigned? 64 10 (Text.encode (Text.trim text)) with
    | some n => .ok (some n)
    | none => .error "malformed Content-Length"

/-- Reads the body behind a head; `rest` starts with it. A message that gives no length has no
body. -/
def parseBody (head : Head) (hasBody : Bool) (rest : Bytes) : Parsed Message :=
  let complete (body : Bytes) (length : Nat) : Parsed Message :=
    .complete ⟨head.start, head.minor, head.headers, body, head.length + length⟩
      (head.length + length)
  if !hasBody then complete [] 0
  else if isChunked head.headers then
    match Chunked.read rest with
    | .complete content length => complete content length
    | .incomplete => .needMore none
    | .malformed => .invalid "malformed chunked body"
  else
    match contentLength head.headers with
    | .error reason => .invalid reason
    | .ok none => complete [] 0
    | .ok (some length) =>
      if atLeast length rest then complete (rest.take length) length
      else .needMore (some (min (head.length + length) maxRequest))

/-- What a direction's messages are called. -/
def kindName : Direction → String
  | .request => "request"
  | .response => "response"

/-- Reads a message whose body is there if `hasBody` says so of its head. -/
def parseWith (read : HeadReader) (d : Direction) (hasBody : Head → Bool) (bs : Bytes) :
    Parsed Message :=
  match read d bs with
  | .error .malformed => .invalid ("not an HTTP " ++ kindName d)
  | .error .unfinished =>
    if atLeast (maxHead + 1) bs then .invalid (kindName d ++ " head too large") else .needMore none
  | .ok head => parseBody head (hasBody head) (bs.drop head.length)

/-- Whether the body that a response declares is there, given what is awaited. -/
def responseHasBody (awaited : Awaited) (head : Head) : Bool :=
  match head.start with
  | .response status _ =>
    !isBodiless status && (isInterim status || awaited.head? != some true)
  | .request .. => true

/-- What is awaited after a message. -/
def learn (awaited : Awaited) (m : Message) : Awaited :=
  match m.start with
  | .request method _ => awaited.push (method == "HEAD")
  | .response status _ => if isInterim status then awaited else awaited.tail

/-- Whether the body that a message declares is there. -/
def hasBody (d : Direction) (awaited : Awaited) (head : Head) : Bool :=
  match d with
  | .request => true
  | .response => responseHasBody awaited head

/-- Reads the message at the start of a byte string. -/
def parse (read : HeadReader) (d : Direction) (awaited : Awaited) (bs : Bytes) :
    Parsed Message × Awaited :=
  if bs.isEmpty then (.needMore (some 1), awaited)
  else
    let parsed := parseWith read d (hasBody d awaited) bs
    match parsed with
    | .complete m _ => (parsed, learn awaited m)
    | _ => (parsed, awaited)

/-- The bytes by which the start of a message is known. -/
def starts : Direction → List Bytes
  | .request =>
    ["GET ", "POST ", "PUT ", "DELETE ", "HEAD ", "OPTIONS ", "PATCH ", "CONNECT ",
      "TRACE "].map ascii
  | .response => [Head.versionStart]

/-- The earliest position at which a message may start. -/
def boundary (d : Direction) (bs : Bytes) (start : Nat) : Option Nat :=
  Boundary.find (fun suffix => (starts d).any (startsWith · suffix)) start bs

end Message

end Dialogue.Http
