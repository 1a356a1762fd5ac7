import Dialogue.Flow
import Dialogue.Record

/-!
One connection: captured events go in, records of exchanges come out.

Events are reassembled by direction. Processing reads what has become contiguous, requests first so
that the reading of responses can rely on what the requests taught, and then pairs the frames of
every dialogue.
-/
namespace Dialogue

/-- How a connection is followed. -/
structure Settings where
  limits : Limits := {}
  /-- The failed searches in a row after which bytes that cannot be read are dropped. -/
  patience : Nat := 3

/-- A captured piece of one direction. -/
structure Event where
  direction : Direction
  fragment : Fragment

/-- The counters of a connection. -/
structure Totals where
  requestFrames : Nat := 0
  responseFrames : Nat := 0
  records : Nat := 0
  /-- The anomalies of reading and pairing, and the frames discarded at the end. -/
  errors : Nat := 0
  resyncs : Nat := 0
  skipped : Nat := 0
  discarded : Nat := 0
deriving DecidableEq

/-- The counters of a connection with those of its two directions. -/
structure Report where
  totals : Totals
  requests : Tally
  responses : Tally
deriving DecidableEq

/-- A connection that speaks the dialect `d`. -/
structure Connection (d : Dialect) where
  id : Nat
  settings : Settings
  requests : Flow
  responses : Flow
  conversation : Conversation d := {}
  totals : Totals := {}
  /-- The latest capture time of an event. -/
  lastEvent : Nat := 0

namespace Connection

variable {d : Dialect}

/-- A connection without events. -/
def fresh (d : Dialect) (id : Nat) (settings : Settings) : Connection d where
  id := id
  settings := settings
  requests := { reassembly := { limits := settings.limits } }
  responses := { reassembly := { limits := settings.limits } }

/-- Takes in a captured event. -/
def add (c : Connection d) (e : Event) : Connection d :=
  let enter (f : Flow) : Flow := { f with reassembly := f.reassembly.add e.fragment }
  let c := { c with lastEvent := max c.lastEvent e.fragment.time }
  match e.direction with
  | .request => { c with requests := enter c.requests }
  | .response => { c with responses := enter c.responses }

/-- Reads both directions and pairs what waits. -/
def process (c : Connection d) : Harvest × Connection d :=
  let asked := c.requests.scan .request c.settings.patience c.conversation
  let answered := c.responses.scan .response c.settings.patience asked.conversation
  let round := answered.conversation.pairAll
  let harvest : Harvest :=
    { records := round.exchanges.map fun x => (d.summary x.2).toRecord c.id d.protocol x.1
      errors := round.errors + (asked.findings.errors + answered.findings.errors) }
  let totals := { c.totals with
    requestFrames := c.totals.requestFrames + asked.findings.frames
    responseFrames := c.totals.responseFrames + answered.findings.frames
    records := c.totals.records + harvest.records.length
    errors := c.totals.errors + harvest.errors
    resyncs := c.totals.resyncs + (asked.findings.resyncs + answered.findings.resyncs)
    skipped := c.totals.skipped + (asked.findings.skipped + answered.findings.skipped) }
  (harvest, { c with
    requests := asked.flow
    responses := answered.flow
    conversation := { backlog := round.backlog, state := round.state }
    totals := totals })

/-- The number of frames that wait for a counterpart. -/
def queuedFrames (c : Connection d) : Nat := c.conversation.backlog.frameCount

/-- The bytes held, in order, out of order and in waiting frames. -/
def memory (c : Connection d) : Nat :=
  c.requests.reassembly.memory + c.responses.reassembly.memory + c.conversation.queuedBytes

def report (c : Connection d) : Report :=
  ⟨c.totals, c.requests.reassembly.tally, c.responses.reassembly.tally⟩

/-- The final counters; each frame that still waits is an error. -/
def close (c : Connection d) : Report :=
  let left := c.queuedFrames
  { c.report with
    totals := { c.totals with
      discarded := c.totals.discarded + left, errors := c.totals.errors + left } }

end Connection

end Dialogue
