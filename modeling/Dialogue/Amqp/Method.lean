/-!
The methods of AMQP 0-9-1: their names, which of them the server answers and by which, and which
carry content.
-/
namespace Dialogue.Amqp

/-- A method: the number of its class and its number in the class. -/
structure Method where
  classId : Nat
  methodId : Nat
deriving DecidableEq

namespace Method

/-- The methods with their names. -/
def names : List (Method × String) :=
  [(⟨10, 10⟩, "Connection.Start"), (⟨10, 11⟩, "Connection.StartOk"),
    (⟨10, 20⟩, "Connection.Secure"), (⟨10, 21⟩, "Connection.SecureOk"),
    (⟨10, 30⟩, "Connection.Tune"), (⟨10, 31⟩, "Connection.TuneOk"),
    (⟨10, 40⟩, "Connection.Open"), (⟨10, 41⟩, "Connection.OpenOk"),
    (⟨10, 50⟩, "Connection.Close"), (⟨10, 51⟩, "Connection.CloseOk"),
    (⟨10, 60⟩, "Connection.Blocked"), (⟨10, 61⟩, "Connection.Unblocked"),
    (⟨20, 10⟩, "Channel.Open"), (⟨20, 11⟩, "Channel.OpenOk"),
    (⟨20, 20⟩, "Channel.Flow"), (⟨20, 21⟩, "Channel.FlowOk"),
    (⟨20, 40⟩, "Channel.Close"), (⟨20, 41⟩, "Channel.CloseOk"),
    (⟨40, 10⟩, "Exchange.Declare"), (⟨40, 11⟩, "Exchange.DeclareOk"),
    (⟨40, 20⟩, "Exchange.Delete"), (⟨40, 21⟩, "Exchange.DeleteOk"),
    (⟨40, 30⟩, "Exchange.Bind"), (⟨40, 31⟩, "Exchange.BindOk"),
    (⟨40, 40⟩, "Exchange.Unbind"), (⟨40, 51⟩, "Exchange.UnbindOk"),
    (⟨50, 10⟩, "Queue.Declare"), (⟨50, 11⟩, "Queue.DeclareOk"),
    (⟨50, 20⟩, "Queue.Bind"), (⟨50, 21⟩, "Queue.BindOk"),
    (⟨50, 30⟩, "Queue.Purge"), (⟨50, 31⟩, "Queue.PurgeOk"),
    (⟨50, 40⟩, "Queue.Delete"), (⟨50, 41⟩, "Queue.DeleteOk"),
    (⟨50, 50⟩, "Queue.Unbind"), (⟨50, 51⟩, "Queue.UnbindOk"),
    (⟨60, 10⟩, "Basic.Qos"), (⟨60, 11⟩, "Basic.QosOk"),
    (⟨60, 20⟩, "Basic.Consume"), (⟨60, 21⟩, "Basic.ConsumeOk"),
    (⟨60, 30⟩, "Basic.Cancel"), (⟨60, 31⟩, "Basic.CancelOk"),
    (⟨60, 40⟩, "Basic.Publish"), (⟨60, 50⟩, "Basic.Return"), (⟨60, 60⟩, "Basic.Deliver"),
    (⟨60, 70⟩, "Basic.Get"), (⟨60, 71⟩, "Basic.GetOk"), (⟨60, 72⟩, "Basic.GetEmpty"),
    (⟨60, 80⟩, "Basic.Ack"), (⟨60, 90⟩, "Basic.Reject"), (⟨60, 100⟩, "Basic.RecoverAsync"),
    (⟨60, 110⟩, "Basic.Recover"), (⟨60, 111⟩, "Basic.RecoverOk"), (⟨60, 120⟩, "Basic.Nack"),
    (⟨85, 10⟩, "Confirm.Select"), (⟨85, 11⟩, "Confirm.SelectOk"),
    (⟨90, 10⟩, "Tx.Select"), (⟨90, 11⟩, "Tx.SelectOk"),
    (⟨90, 20⟩, "Tx.Commit"), (⟨90, 21⟩, "Tx.CommitOk"),
    (⟨90, 30⟩, "Tx.Rollback"), (⟨90, 31⟩, "Tx.RollbackOk")]

def name (m : Method) : String := (names.lookup m).getD "Unknown"

/-- The methods of a client that the server answers, each with the methods that answer it. -/
def calls : List (Method × List Method) :=
  let one (c m r : Nat) : Method × List Method := (⟨c, m⟩, [⟨c, r⟩])
  [one 10 40 41, one 10 50 51, one 20 10 11, one 20 20 21, one 20 40 41, one 40 10 11,
    one 40 20 21, one 40 30 31, one 40 40 51, one 50 10 11, one 50 20 21, one 50 30 31,
    one 50 40 41, one 50 50 51, one 60 10 11, one 60 20 21, one 60 30 31,
    (⟨60, 70⟩, [⟨60, 71⟩, ⟨60, 72⟩]), one 60 110 111, one 85 10 11, one 90 10 11, one 90 20 21,
    one 90 30 31]

/-- The methods that answer a method; none if the server answers it with nothing. -/
def replies? (m : Method) : Option (List Method) := calls.lookup m

/-- Whether the server answers a method. -/
def isCall (m : Method) : Bool := m.replies?.isSome

/-- Whether a method answers another one. -/
def isReply (m : Method) : Bool := calls.any fun c => c.2.contains m

/-- Whether a method answers `asked`. -/
def answers (m asked : Method) : Bool := asked.replies?.any (·.contains m)

/-- Whether content stands behind a method: publishing, returning, delivering and getting. -/
def hasContent (m : Method) : Bool :=
  m.classId == 60 && (m.methodId == 40 || m.methodId == 50 || m.methodId == 60 || m.methodId == 71)

end Method

end Dialogue.Amqp
