import Dialogue.Amqp
import Dialogue.Cql
import Dialogue.Dns
import Dialogue.Http
import Dialogue.Http2
import Dialogue.Kafka
import Dialogue.Mux
import Dialogue.Mysql
import Dialogue.Nats
import Dialogue.Postgres
import Dialogue.Redis

/-!
The rules of every protocol.

Two of them rest on libraries: one reads the heads of HTTP/1 messages, and one decompresses the
header blocks of HTTP/2. The rules are given for any such libraries.
-/
namespace Dialogue

/-- The libraries that protocols rest on; by default those that are run. -/
structure Libraries where
  heads : Http.HeadReader := Http.Head.read
  headers : Http2.Decompressor := .hpack

/-- The rules of a protocol. -/
def Protocol.dialect (p : Protocol) (libraries : Libraries := {}) : Dialect :=
  match p with
  | pgsql => Postgres.dialect
  | cql => Cql.dialect
  | amqp => Amqp.dialect
  | nats => Nats.dialect
  | mysql => Mysql.dialect
  | kafka => Kafka.dialect
  | redis => Redis.dialect
  | dns => Dns.dialect
  | http => Http.dialect libraries.heads
  | http2 => Http2.dialect libraries.headers
  | mux => Mux.dialect

/-- Each protocol's rules carry its own name. -/
theorem Protocol.protocol_dialect (p : Protocol) (libraries : Libraries) :
    (p.dialect libraries).protocol = p := by
  cases p <;> rfl

end Dialogue
