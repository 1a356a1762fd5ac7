import Mathlib
import Dialogue.Dialects
import Dialogue.Proofs.Passes

/-!
Subscriptions: what the server sends while channels are confirmed and messages published.

The server answers the commands turn by turn (`Turn`): a subscription to `n` channels brings `n`
confirmations, any other command one reply. Between the replies stand the messages that others
publish, wherever they happen to come. `records_arrivals` says what is recorded of such a dialogue,
whether it is paired in one pass or in several. The argument:

 1. `Follows` is what the server may send with so many confirmations owed. A turn begins and ends
    with none owed (`Turn.Sound.follows`), so a script of turns does (`follows_turns`), and messages
    published in between change nothing (`Follows.interleave`).
 2. Taking in what follows records one exchange for each answer and each published message, and
    leaves the count of what is then owed (`foldl_answer`).
 3. What follows can be cut anywhere (`Follows.cut`): a pass leaves the count and the commands that
    are still unanswered, and the next pass goes on from there (`passes_follows`).
-/
namespace Dialogue.Redis

/-- What comes from the server, told apart by what it is sent for. -/
inductive Arrival where
  /-- A message that someone has published. -/
  | published (message : Stamped Message)
  /-- The first reply to a command. -/
  | answer (command reply : Stamped Message)
  /-- The confirmation of a further channel. -/
  | further (reply : Stamped Message)

namespace Arrival

/-- What is captured. -/
def message : Arrival → Stamped Message
  | published message => message
  | answer _ reply => reply
  | further reply => reply

/-- The command that is answered. -/
def command? : Arrival → Option (Stamped Message)
  | answer command _ => some command
  | _ => none

/-- What is to be recorded. -/
def exchange? : Arrival → Option (Matched Message)
  | published message => some ⟨pushRequest message.time, message⟩
  | answer command reply => some ⟨command, reply⟩
  | further _ => none

/-- Whether it is sent for a command. -/
def isReply : Arrival → Bool
  | published _ => false
  | _ => true

end Arrival

/-- The commands that are answered, in order. -/
def answered (arrivals : List Arrival) : List (Stamped Message) :=
  arrivals.filterMap Arrival.command?

/-- The exchanges to be recorded, in order. -/
def recorded (arrivals : List Arrival) : List (Matched Message) :=
  arrivals.filterMap Arrival.exchange?

@[simp] theorem answered_append (first second : List Arrival) :
    answered (first ++ second) = answered first ++ answered second := List.filterMap_append

@[simp] theorem recorded_append (first second : List Arrival) :
    recorded (first ++ second) = recorded first ++ recorded second := List.filterMap_append

/-- A command and the replies to it: the first, and those behind it. -/
structure Turn where
  command : Stamped Message
  first : Stamped Message
  further : List (Stamped Message) := []

namespace Turn

/-- What is to be recorded of the turn. -/
def exchange (t : Turn) : Matched Message := ⟨t.command, t.first⟩

/-- The replies as they arrive. -/
def arrivals (t : Turn) : List Arrival :=
  .answer t.command t.first :: t.further.map .further

/-- A subscription brings one confirmation for each of its channels, which are its arguments, and
any other command one reply that is not taken for a published message. So does a subscription to no
channel, which is refused. -/
inductive Sound (t : Turn) : Prop where
  | subscription (subscribes : t.command.value.isSubscription = true)
      (channels : t.command.value.argumentCount = (t.first :: t.further).length)
      (confirmed : ∀ reply ∈ t.first :: t.further, reply.value.isConfirmation = true)
      (le : t.command.time ≤ t.first.time)
  | ordinary
      (other : t.command.value.isSubscription = false ∨ t.command.value.argumentCount = 0)
      (push : t.first.value.isPush = false) (alone : t.further = [])
      (le : t.command.time ≤ t.first.time)

end Turn

/-- The server answers the commands of some turns in order, and what stands between the replies are
published messages. -/
structure Dealing (turns : List Turn) (arrivals : List Arrival) : Prop where
  sound : ∀ t ∈ turns, t.Sound
  replies : arrivals.filter Arrival.isReply = turns.flatMap Turn.arrivals
  published : ∀ a ∈ arrivals, a.isReply = false → a.message.value.isPush = true

/-- The frames that come between two passes. -/
structure Batch where
  commands : List (Stamped Message) := []
  arrivals : List Arrival := []

namespace Batch

/-- The frames as they are queued. -/
def lane (b : Batch) : Lane Message := ⟨b.commands, b.arrivals.map Arrival.message⟩

/-- Each command comes no later than the batch of its first reply. -/
def InTime (batches : List Batch) : Prop :=
  ∀ earlier, earlier <+: batches →
    answered (earlier.flatMap (·.arrivals)) <+: earlier.flatMap (·.commands)

end Batch

/-! ## What the server may send -/

/-- With so many confirmations owed at the beginning and at the end: published messages at any time,
a further confirmation where one is owed, and otherwise the answer to a command. -/
inductive Follows : Owed → List Arrival → Owed → Prop where
  | done (owed : Owed) : Follows owed [] owed
  | published {owed last : Owed} {m : Stamped Message} {rest : List Arrival}
      (push : m.value.isPush = true) (behind : Follows owed rest last) :
      Follows owed (.published m :: rest) last
  | answer {last : Owed} {command reply : Stamped Message} {rest : List Arrival}
      (push : reply.value.isPush = false) (le : command.time ≤ reply.time)
      (behind : Follows (furtherConfirmations command.value) rest last) :
      Follows 0 (.answer command reply :: rest) last
  | further {owed last : Owed} {reply : Stamped Message} {rest : List Arrival}
      (push : reply.value.isPush = false) (confirmed : reply.value.isConfirmation = true)
      (behind : Follows owed rest last) : Follows (owed + 1) (.further reply :: rest) last

/-- A confirmation is no published message. -/
theorem not_push_of_confirmation {m : Message} (h : m.isConfirmation = true) :
    m.isPush = false := by
  unfold Message.isConfirmation at h
  unfold Message.isPush
  cases first : m.firstWord? with
  | none => rfl
  | some word =>
    -- No confirmation begins with one of the words of published messages.
    rw [first, Option.any_some] at h
    have apart : ∀ w ∈ Message.confirmations,
        w ≠ ascii "message" ∧ w ≠ ascii "smessage" ∧ w ≠ ascii "pmessage" := by decide
    obtain ⟨plain, sharded, pattern⟩ := apart word (List.contains_iff_mem.1 h)
    simp [plain, sharded, pattern]

namespace Follows

variable {owed middle last : Owed} {first second arrivals : List Arrival}

theorem append (h : Follows owed first middle) (h' : Follows middle second last) :
    Follows owed (first ++ second) last := by
  induction h with
  | done => exact h'
  | published push _ ih => exact .published push (ih h')
  | answer push le _ ih => exact .answer push le (ih h')
  | further push confirmed _ ih => exact .further push confirmed (ih h')

/-- What follows can be cut anywhere. -/
theorem cut (h : Follows owed (first ++ second) last) :
    ∃ middle, Follows owed first middle ∧ Follows middle second last := by
  induction first generalizing owed with
  | nil => exact ⟨owed, .done owed, h⟩
  | cons a first ih =>
    cases h with
    | published push behind =>
      obtain ⟨middle, before, after⟩ := ih behind
      exact ⟨middle, .published push before, after⟩
    | answer push le behind =>
      obtain ⟨middle, before, after⟩ := ih behind
      exact ⟨middle, .answer push le before, after⟩
    | further push confirmed behind =>
      obtain ⟨middle, before, after⟩ := ih behind
      exact ⟨middle, .further push confirmed before, after⟩

/-- Published messages may stand anywhere. -/
theorem interleave
    (published : ∀ a ∈ arrivals, a.isReply = false → a.message.value.isPush = true)
    (h : Follows owed (arrivals.filter Arrival.isReply) last) : Follows owed arrivals last := by
  induction arrivals generalizing owed with
  | nil => exact h
  | cons a rest ih =>
    obtain ⟨first, others⟩ := List.forall_mem_cons.1 published
    cases a with
    | published m => exact .published (first rfl) (ih others h)
    | answer command reply =>
      cases h with
      | answer push le behind => exact .answer push le (ih others behind)
    | further reply =>
      cases h with
      | further push confirmed behind => exact .further push confirmed (ih others behind)

theorem further_of_confirmed {replies : List (Stamped Message)}
    (confirmed : ∀ reply ∈ replies, reply.value.isConfirmation = true) :
    Follows replies.length (replies.map .further) 0 := by
  induction replies with
  | nil => exact .done 0
  | cons reply rest ih =>
    obtain ⟨first, others⟩ := List.forall_mem_cons.1 confirmed
    exact .further (not_push_of_confirmation first) first (ih others)

end Follows

/-- A turn begins and ends with no confirmation owed. -/
theorem Turn.Sound.follows {t : Turn} (h : t.Sound) : Follows 0 t.arrivals 0 := by
  cases h with
  | subscription subscribes channels confirmed le =>
    obtain ⟨first, others⟩ := List.forall_mem_cons.1 confirmed
    have owed : furtherConfirmations t.command.value = t.further.length := by
      rw [furtherConfirmations, if_pos subscribes, channels, List.length_cons,
        Nat.add_sub_cancel]
    refine .answer (not_push_of_confirmation first) le ?_
    rw [owed]
    exact .further_of_confirmed others
  | ordinary other push alone le =>
    have owed : furtherConfirmations t.command.value = 0 := by
      unfold furtherConfirmations
      rcases other with other | none
      · rw [if_neg (by simp [other])]
      · rw [none, ite_self]
    refine .answer push le ?_
    rw [owed, alone]
    exact .done 0

theorem follows_turns {turns : List Turn} (sound : ∀ t ∈ turns, t.Sound) :
    Follows 0 (turns.flatMap Turn.arrivals) 0 := by
  induction turns with
  | nil => exact .done 0
  | cons t rest ih =>
    obtain ⟨first, others⟩ := List.forall_mem_cons.1 sound
    exact first.follows.append (ih others)

/-- A reply answers the command of its turn. -/
theorem answered_turns (turns : List Turn) :
    answered (turns.flatMap Turn.arrivals) = turns.map (·.command) := by
  induction turns with
  | nil => rfl
  | cons t rest ih =>
    have silent : answered (t.further.map .further) = [] := by
      simp [answered, Arrival.command?]
    rw [List.flatMap_cons, answered_append, ih]
    exact congrArg (t.command :: · ++ _) silent

/-- Of the replies of a turn, the first is recorded. -/
theorem recorded_turns (turns : List Turn) :
    recorded (turns.flatMap Turn.arrivals) = turns.map Turn.exchange := by
  induction turns with
  | nil => rfl
  | cons t rest ih =>
    have silent : recorded (t.further.map .further) = [] := by
      simp [recorded, Arrival.exchange?]
    rw [List.flatMap_cons, recorded_append, ih]
    exact congrArg (t.exchange :: · ++ _) silent

/-- Published messages answer nothing. -/
theorem answered_filter (arrivals : List Arrival) :
    answered (arrivals.filter Arrival.isReply) = answered arrivals := by
  unfold answered
  rw [List.filterMap_filter]
  refine List.filterMap_congr fun a _ => ?_
  cases a <;> rfl

namespace Dealing

variable {turns : List Turn} {arrivals : List Arrival}

theorem follows (h : Dealing turns arrivals) : Follows 0 arrivals 0 :=
  .interleave h.published (h.replies ▸ follows_turns h.sound)

/-- Every command is answered, in order. -/
theorem answered_eq (h : Dealing turns arrivals) : answered arrivals = turns.map (·.command) := by
  rw [← answered_filter, h.replies, answered_turns]

end Dealing

/-! ## Taking it in -/

section
variable (found : List (Matched Message)) (errors : Nat) (waiting : List (Stamped Message))
  (owed : Owed) {m : Stamped Message}

theorem answer_of_push (push : m.value.isPush = true) :
    answer ⟨found, errors, ⟨waiting, []⟩, owed⟩ m =
      ⟨⟨pushRequest m.time, m⟩ :: found, errors, ⟨waiting, []⟩, owed⟩ := if_pos push

theorem answer_of_confirmation (push : m.value.isPush = false)
    (confirmed : m.value.isConfirmation = true) :
    answer ⟨found, errors, ⟨waiting, []⟩, owed + 1⟩ m =
      ⟨found, errors, ⟨waiting, []⟩, owed⟩ := by
  simp [answer, push, confirmed]

/-- With no confirmation owed, a reply answers the command at hand. -/
theorem answer_of_reply {command : Stamped Message} (push : m.value.isPush = false)
    (le : command.time ≤ m.time) :
    answer ⟨found, errors, ⟨command :: waiting, []⟩, (0 : Nat)⟩ m =
      ⟨⟨command, m⟩ :: found, errors, ⟨waiting, []⟩, furtherConfirmations command.value⟩ := by
  simp [answer, push, Pairing.answer, le, exchange, Pairing.Progress.record,
    Pairing.Progress.withRequests]

end

/-- Of what follows, answers and published messages are recorded, and what is owed is counted. -/
theorem foldl_answer {owed last : Owed} {arrivals : List Arrival}
    (h : Follows owed arrivals last) (found : List (Matched Message)) (errors : Nat)
    (waiting : List (Stamped Message)) :
    (arrivals.map Arrival.message).foldl answer
        ⟨found, errors, ⟨answered arrivals ++ waiting, []⟩, owed⟩ =
      ⟨(recorded arrivals).reverse ++ found, errors, ⟨waiting, []⟩, last⟩ := by
  induction h generalizing found with
  | done => rfl
  | @published owed last m rest push _ ih =>
    have behind := ih (⟨pushRequest m.time, m⟩ :: found)
    rw [← answer_of_push _ _ _ _ push] at behind
    refine behind.trans ?_
    simp [recorded, Arrival.exchange?]
  | @answer last command reply rest push le _ ih =>
    have behind := ih (⟨command, reply⟩ :: found)
    rw [← answer_of_reply _ _ _ push le] at behind
    refine behind.trans ?_
    simp [recorded, Arrival.exchange?]
  | @further owed last reply rest push confirmed _ ih =>
    have behind := ih found
    rw [← answer_of_confirmation _ _ _ _ push confirmed] at behind
    exact behind

/-- A pass records what follows, and leaves the commands that it does not answer. -/
theorem pair_follows {owed last : Owed} {arrivals : List Arrival}
    (h : Follows owed arrivals last) (waiting : List (Stamped Message)) :
    pair owed ⟨answered arrivals ++ waiting, arrivals.map Arrival.message⟩ =
      ⟨recorded arrivals, 0, ⟨waiting, []⟩, last⟩ := by
  unfold pair
  exact (congrArg Pairing.Progress.finish (foldl_answer h [] 0 waiting)).trans <| by
    simp [Pairing.Progress.finish]

/-- So do passes over batches. -/
theorem passes_follows {batches : List Batch} {last : Owed}
    (h : Follows 0 (batches.flatMap (·.arrivals)) last) (inTime : Batch.InTime batches) :
    ∃ waiting, batches.flatMap (·.commands) =
        answered (batches.flatMap (·.arrivals)) ++ waiting ∧
      Pairing.passes pair 0 (batches.map Batch.lane) =
        ⟨recorded (batches.flatMap (·.arrivals)), 0, ⟨waiting, []⟩, last⟩ := by
  induction batches using List.reverseRecOn generalizing last with
  | nil =>
    cases h
    exact ⟨[], rfl, rfl⟩
  | append_singleton batches batch ih =>
    have come : (batches ++ [batch]).flatMap (·.arrivals) =
        batches.flatMap (·.arrivals) ++ batch.arrivals := by simp
    have sent : (batches ++ [batch]).flatMap (·.commands) =
        batches.flatMap (·.commands) ++ batch.commands := by simp
    rw [come] at h ⊢
    obtain ⟨owed, before, now⟩ := h.cut
    obtain ⟨waiting, commands, past⟩ := ih before fun earlier le =>
      inTime earlier (le.trans (List.prefix_append _ _))
    -- What the batch answers is at the head of what waits and what the batch brings.
    have known := inTime _ List.prefix_rfl
    rw [come, sent, commands, answered_append, List.append_assoc, List.prefix_append_right_inj]
      at known
    obtain ⟨unanswered, rest⟩ := known
    refine ⟨unanswered, ?_, ?_⟩
    · rw [sent, commands, answered_append, List.append_assoc, List.append_assoc, rest]
    · have next := pair_follows now unanswered
      rw [rest] at next
      rw [List.map_append, List.map_singleton, Pairing.passes_snoc, past]
      dsimp only [Lane.append, Batch.lane]
      rw [List.nil_append, next, recorded_append]
      rfl

/-- Of a dialogue with subscriptions, one exchange is recorded for each command, with the first
reply to it, and one for each published message, in the order of arrival. Nothing is an error, and
no confirmation is owed in the end. It makes no difference how the frames are cut into batches, as
long as no first reply comes in a batch before that of its command. -/
theorem records_arrivals {turns : List Turn} {arrivals : List Arrival}
    (dealing : Dealing turns arrivals) {batches : List Batch}
    (commands : batches.flatMap (·.commands) = turns.map (·.command))
    (come : batches.flatMap (·.arrivals) = arrivals) (inTime : Batch.InTime batches) :
    pair 0 ⟨turns.map (·.command), arrivals.map Arrival.message⟩ =
        ⟨recorded arrivals, 0, {}, 0⟩ ∧
      Pairing.passes pair 0 (batches.map Batch.lane) = ⟨recorded arrivals, 0, {}, 0⟩ ∧
      recorded (arrivals.filter Arrival.isReply) = turns.map Turn.exchange := by
  subst come
  have all := dealing.answered_eq
  refine ⟨?_, ?_, ?_⟩
  · have pass := pair_follows dealing.follows []
    rwa [List.append_nil, all] at pass
  · obtain ⟨waiting, sent, pass⟩ := passes_follows dealing.follows inTime
    have none : waiting = [] := by
      rw [commands, all] at sent
      exact List.self_eq_append_right.1 sent
    rw [pass, none]
  · rw [dealing.replies, recorded_turns]

/-- A word of a command or a reply. -/
def word (s : String) : Value := .bulk (ascii s)

/-- A command with its words. -/
def spoken (time : Nat) (words : List String) : Stamped Message :=
  ⟨time, ⟨words.headD "", .array (words.map word), 0⟩⟩

/-- A reply of several values. -/
def replied (time : Nat) (items : List Value) : Stamped Message := ⟨time, ⟨"", .array items, 0⟩⟩

/-- A subscription to two channels and a PING behind it. -/
def twoChannels : List Turn :=
  [⟨spoken 1 ["SUBSCRIBE", "foo", "bar"], replied 2 [word "subscribe", word "foo", .integer 1],
      [replied 4 [word "subscribe", word "bar", .integer 2]]⟩,
    ⟨spoken 5 ["PING"], replied 7 [word "pong", word ""], []⟩]

/-- The frames of `twoChannels` in three batches, with a message published before the second channel
is confirmed, one before the reply to PING and one at the end. -/
def threeBatches : List Batch :=
  [⟨[spoken 1 ["SUBSCRIBE", "foo", "bar"]],
      [.answer (spoken 1 ["SUBSCRIBE", "foo", "bar"])
          (replied 2 [word "subscribe", word "foo", .integer 1]),
        .published (replied 3 [word "message", word "foo", word "hello"])]⟩,
    ⟨[spoken 5 ["PING"]],
      [.further (replied 4 [word "subscribe", word "bar", .integer 2]),
        .published (replied 6 [word "message", word "bar", word "subscribe"])]⟩,
    ⟨[], [.answer (spoken 5 ["PING"]) (replied 7 [word "pong", word ""]),
        .published (replied 8 [word "pmessage", word "b*", word "bar", word "late"])]⟩]

theorem dealing_twoChannels : Dealing twoChannels (threeBatches.flatMap (·.arrivals)) where
  sound := by
    intro t mem
    rcases List.mem_pair.1 mem with rfl | rfl
    · exact .subscription rfl rfl (by decide) (by decide)
    · exact .ordinary (.inl rfl) rfl rfl (by decide)
  replies := rfl
  published := by decide

theorem inTime_threeBatches : Batch.InTime threeBatches := by
  intro earlier le
  have cuts := (List.mem_inits _ _).2 le
  simp only [threeBatches, List.inits, List.map_cons, List.map_nil, List.mem_cons,
    List.not_mem_nil, or_false] at cuts
  rcases cuts with rfl | rfl | rfl | rfl
  · exact List.prefix_rfl
  · exact List.prefix_rfl
  · exact ⟨_, rfl⟩
  · exact List.prefix_rfl

/-- A subscription to two channels while messages are published, in three batches. -/
theorem records_arrivals_interleaved :
    Dealing twoChannels (threeBatches.flatMap (·.arrivals)) ∧ Batch.InTime threeBatches ∧
      (Pairing.passes pair 0 (threeBatches.map Batch.lane)).exchanges.map
          (fun x => (x.request.time, x.response.time)) =
        [(1, 2), (3, 3), (6, 6), (5, 7), (8, 8)] := by
  refine ⟨dealing_twoChannels, inTime_threeBatches, ?_⟩
  obtain ⟨-, pass, -⟩ := records_arrivals dealing_twoChannels rfl rfl inTime_threeBatches
  rw [pass]
  rfl

end Dialogue.Redis
