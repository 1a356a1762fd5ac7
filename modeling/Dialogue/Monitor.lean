import Dialogue.Connection
import Dialogue.Dialects

/-!
Many connections at a time, each under its number.

A connection is followed from its first event on and keeps the protocol that this event named. No
operation on one connection looks at another, apart from the limit on their number. Nor does it
matter what the rules of the protocols are, so `dialects` gives them.
-/
namespace Dialogue

/-- How connections are followed. -/
structure Policy where
  settings : Settings := {}
  /-- The nanoseconds without an event after which a connection is idle. -/
  idleTimeout : Nat := 300_000_000_000
  maxConnections : Nat := 65536

/-- A connection with the protocol that it was started with. -/
structure Tracked (dialects : Protocol → Dialect) where
  protocol : Protocol
  connection : Connection (dialects protocol)

variable {dialects : Protocol → Dialect}

namespace Tracked

/-- A connection without events. -/
def fresh (p : Protocol) (id : Nat) (settings : Settings) : Tracked dialects :=
  ⟨p, Connection.fresh (dialects p) id settings⟩

/-- Takes in a captured event. -/
def add (t : Tracked dialects) (e : Event) : Tracked dialects := ⟨t.protocol, t.connection.add e⟩

/-- Reads and pairs what was captured. -/
def process (t : Tracked dialects) : Harvest × Tracked dialects :=
  let (harvest, connection) := t.connection.process
  (harvest, ⟨t.protocol, connection⟩)

/-- Whether the last event is longer ago than the timeout. -/
def isIdle (t : Tracked dialects) (timeout now : Nat) : Bool :=
  timeout < now - t.connection.lastEvent

end Tracked

/-- The connections that are followed, by ascending number. -/
structure Monitor (dialects : Protocol → Dialect := fun p => p.dialect) where
  policy : Policy := {}
  connections : List (Nat × Tracked dialects) := []

namespace Monitor

/-- Sets the entry of a number, in its place. -/
def put (id : Nat) (t : Tracked dialects) :
    List (Nat × Tracked dialects) → List (Nat × Tracked dialects)
  | [] => [(id, t)]
  | (i, u) :: rest =>
    if id < i then (id, t) :: (i, u) :: rest
    else if id = i then (id, t) :: rest
    else (i, u) :: put id t rest

/-- The connection of a number. -/
def find? (m : Monitor dialects) (id : Nat) : Option (Tracked dialects) := m.connections.lookup id

/-- The number of connections. -/
def count (m : Monitor dialects) : Nat := m.connections.length

/-- The bytes held for all connections. -/
def memory (m : Monitor dialects) : Nat := total (fun c => c.2.connection.memory) m.connections

/-- Sets the connection of a number. -/
def set (m : Monitor dialects) (id : Nat) (t : Tracked dialects) : Monitor dialects :=
  { m with connections := put id t m.connections }

/-- Takes in an event of a connection, which is followed from its first event on. -/
def add (m : Monitor dialects) (id : Nat) (p : Protocol) (e : Event) :
    Except Error (Monitor dialects) :=
  match m.find? id with
  | some t =>
    if t.protocol = p then .ok (m.set id (t.add e))
    else .error (.protocolMismatch id t.protocol p)
  | none =>
    if m.policy.maxConnections ≤ m.count then .error (.connectionLimit m.policy.maxConnections)
    else .ok (m.set id ((Tracked.fresh p id m.policy.settings).add e))

/-- Processes one connection. -/
def process (m : Monitor dialects) (id : Nat) : Option Harvest × Monitor dialects :=
  match m.find? id with
  | none => (none, m)
  | some t =>
    let (harvest, t) := t.process
    (some harvest, m.set id t)

/-- Processes every connection, by ascending number. -/
def processAll (m : Monitor dialects) : Harvest × Monitor dialects :=
  let processed := m.connections.map fun c => (c.1, c.2.process)
  ((processed.map fun c => c.2.1).foldl Harvest.append {},
    { m with connections := processed.map fun c => (c.1, c.2.2) })

/-- Ends a connection; its final counters are handed out. -/
def close (m : Monitor dialects) (id : Nat) : Option Report × Monitor dialects :=
  ((m.find? id).map fun t => t.connection.close,
    { m with connections := m.connections.filter fun c => c.1 != id })

/-- Ends the connections that are idle, by ascending number. -/
def cleanup (m : Monitor dialects) (now : Nat) : List (Nat × Report) × Monitor dialects :=
  let isIdle (c : Nat × Tracked dialects) : Bool := c.2.isIdle m.policy.idleTimeout now
  ((m.connections.filter isIdle).map fun c => (c.1, c.2.connection.close),
    { m with connections := m.connections.filter (!isIdle ·) })

end Monitor

end Dialogue
