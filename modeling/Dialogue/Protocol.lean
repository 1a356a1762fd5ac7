import Dialogue.Bytes

/-!
The wire protocols whose dialogues can be followed, and the two sides of a dialogue.
-/
namespace Dialogue

/-- The side of a dialogue that a byte stream carries. -/
inductive Direction where
  /-- From the client to the server. -/
  | request
  /-- From the server to the client. -/
  | response
deriving DecidableEq, Repr

/-- The wire protocols. -/
inductive Protocol where
  | pgsql | cql | amqp | nats | mysql | kafka | redis | dns | http | http2 | mux
deriving DecidableEq, Repr

namespace Protocol

/-- Every protocol, in the order in which they are listed to users. -/
def all : List Protocol :=
  [pgsql, cql, amqp, nats, mysql, kafka, redis, dns, http, http2, mux]

theorem mem_all (p : Protocol) : p ∈ all := by cases p <;> decide

/-- The identifier by which a protocol is asked for. -/
def name : Protocol → String
  | pgsql => "pgsql"
  | cql => "cql"
  | amqp => "amqp"
  | nats => "nats"
  | mysql => "mysql"
  | kafka => "kafka"
  | redis => "redis"
  | dns => "dns"
  | http => "http"
  | http2 => "http2"
  | mux => "mux"

/-- The name shown to people. -/
def displayName : Protocol → String
  | pgsql => "PostgreSQL"
  | cql => "Cassandra CQL"
  | amqp => "AMQP 0-9-1"
  | nats => "NATS"
  | mysql => "MySQL"
  | kafka => "Kafka"
  | redis => "Redis"
  | dns => "DNS"
  | http => "HTTP/1.x"
  | http2 => "HTTP/2"
  | mux => "Mux"

/-- Whether a connection carries several dialogues at a time, told apart by a key in each frame. -/
def isMultiplexed : Protocol → Bool
  | cql | amqp | kafka | dns | http2 | mux => true
  | pgsql | nats | mysql | redis | http => false

/-- The protocol of an identifier, in capital or small letters. -/
def ofName? (s : String) : Option Protocol :=
  all.find? fun p => p.name.toList == s.toList.map Char.toLower

end Protocol

end Dialogue
