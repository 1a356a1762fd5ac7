import Dialogue.Monitor
import Dialogue.Proofs.Reassembly.Held
import Dialogue.Proofs.Reassembly.Moves
import Dialogue.Proofs.Reassembly.Provenance
import Dialogue.Proofs.Reassembly.Reordering
import Dialogue.Proofs.Reassembly.Footprint
import Dialogue.Proofs.Reassembly.Advance
import Dialogue.Proofs.Reassembly.Losses
import Dialogue.Proofs.Reassembly.Window
import Dialogue.Proofs.Reassembly.Layout
import Dialogue.Proofs.Reassembly.Arithmetic
import Dialogue.Proofs.Reassembly.Consuming
import Dialogue.Proofs.Reassembly.Contiguous
import Dialogue.Proofs.Reading
import Dialogue.Proofs.Connection
import Dialogue.Proofs.Schedule
import Dialogue.Proofs.Delimited
import Dialogue.Proofs.Dns
import Dialogue.Proofs.Intake
import Dialogue.Proofs.Draining
import Dialogue.Proofs.Contract
import Dialogue.Proofs.Announced
import Dialogue.Proofs.Lines
import Dialogue.Proofs.Http
import Dialogue.Proofs.Readers
import Dialogue.Proofs.Monitor
import Dialogue.Proofs.Wire.Words
import Dialogue.Proofs.Wire
import Dialogue.Proofs.Resync
import Dialogue.Proofs.Pairing
import Dialogue.Proofs.Causality
import Dialogue.Proofs.Amqp
import Dialogue.Proofs.OnePass
import Dialogue.Proofs.Backlog
import Dialogue.Proofs.Separation
import Dialogue.Proofs.Accounting
import Dialogue.Proofs.Memory
import Dialogue.Proofs.Statements
import Dialogue.Proofs.Wire.Numerals
import Dialogue.Proofs.Wire.Values
import Dialogue.Proofs.Polling
import Dialogue.Proofs.Text
import Dialogue.Proofs.Dns.Extent
import Dialogue.Proofs.Dns.Writing
import Dialogue.Proofs.Batches
import Dialogue.Proofs.Patience
import Dialogue.Proofs.Postgres.Result
import Dialogue.Proofs.Postgres.Recovery
import Dialogue.Proofs.Passes
import Dialogue.Proofs.Nats.Cuts
import Dialogue.Proofs.Mysql.ResultSet
import Dialogue.Proofs.Redis.Subscriptions
import Dialogue.Proofs.Rounds
import Dialogue.Proofs.Cql.Prepared
import Dialogue.Proofs.Nats.Framing
import Dialogue.Proofs.Nats.Accounts
import Dialogue.Proofs.Http.Chunks
import Dialogue.Proofs.Http.Pipelining
import Dialogue.Proofs.Http2.Blocks
import Dialogue.Proofs.Http2.Halves
import Dialogue.Proofs.Amqp.Accounts
import Dialogue.Proofs.Amqp.Assembly
import Dialogue.Proofs.Fields
import Dialogue.Proofs.Mux.Accounts
import Dialogue.Proofs.Cql.Rows
import Dialogue.Proofs.Postgres.Payloads
