import Mathlib
import Dialogue.Proofs.Http
import Dialogue.Proofs.Pairing

/-!
HEAD under pipelining.

A response does not say which request it answers, and a response to HEAD declares a body that it
does not have. So whether its body is there depends on a queue which the other direction fills.
The argument that the queue never gets out of step has three parts.

1. A message read from a direction has the start line of that direction (`direction_parse`), and its
   body is the one that its headers declare unless it is taken to have none
   (`declares_of_parseBody`). This asks of the reader of heads only that it is `Directed`.
2. As long as no final response is ahead of its request and no more requests wait than are
   remembered, nothing is forgotten. So after every call the queue is that of the requests behind
   those answered, and the first of them is the one that the next final response belongs to
   (`Aligned`, one step for each kind of message).
3. What was read waits in one lane. Its final responses meet the requests in the order of reading,
   and each one finds its own at the front (`Pairing.inOrder_of_forall₂`).
-/
namespace Dialogue.Http

/-! ## Start lines -/

/-- The direction whose messages begin with such a line. -/
def StartLine.direction : StartLine → Direction
  | .request .. => .request
  | .response .. => .response

/-- A reader of heads gives every head the start line of the direction it is read from. -/
def HeadReader.Directed (heads : HeadReader) : Prop :=
  ∀ {d : Direction} {bs : Bytes} {head : Head}, heads d bs = .ok head → head.start.direction = d

namespace Head

variable {α β : Type} {P : β → Prop}

/-- Whatever a part reads has a property. -/
structure Gives (P : α → Prop) (part : Part α) : Prop where
  holds : ∀ {p q : Place} {a : α}, part p = .ok (a, q) → P a

theorem Gives.malformed : Gives P malformed := ⟨nofun⟩

theorem Gives.pure {b : β} (h : P b) : Gives P (Pure.pure b) where
  holds done := by
    cases done
    exact h

/-- What is read last is what has been read altogether. -/
theorem Gives.bind {part : Part α} {f : α → Part β} (h : ∀ a, Gives P (f a)) :
    Gives P (part >>= f) where
  holds done := by
    obtain ⟨a, r, -, second⟩ := ok_of_bind done
    exact (h a).holds second

theorem Gives.unless {c : Prop} [Decidable c] {f : Unit → Part β} (h : ∀ u, Gives P (f u)) :
    Gives P (if c then Head.malformed >>= f else f ()) := by
  split_ifs
  · exact .bind h
  · exact h ()

theorem gives_requestLine : Gives (·.1.direction = .request) requestLine := by
  unfold requestLine
  refine .bind fun method => .bind fun _ => .unless fun _ => .bind fun target => ?_
  refine .bind fun _ => .unless fun _ => ?_
  split
  · exact .malformed
  · exact .bind fun minor => .bind fun b => .bind fun _ => .pure rfl

theorem gives_statusLine : Gives (·.1.direction = .response) statusLine := by
  unfold statusLine
  refine .bind fun minor => .bind fun _ => .bind fun hundreds => .bind fun tens => ?_
  refine .bind fun ones => .bind fun b => ?_
  split_ifs
  · exact .bind fun _ => .pure rfl
  · exact .bind fun _ => .pure rfl

/-- The heads that are read here have the start line of their direction. -/
theorem directed_read : HeadReader.Directed read := by
  intro d bs head h
  unfold read at h
  split at h
  · cases h
  · split at h
    · cases h
    · next whole =>
      cases h
      obtain ⟨⟨start, minor⟩, r, first, behind⟩ := ok_of_bind whole
      obtain ⟨headers, r', -, last⟩ := ok_of_bind behind
      cases last
      cases d with
      | request => exact gives_requestLine.holds first
      | response => exact gives_statusLine.holds first

end Head

/-! ## Messages -/

namespace Message

/-- Whether a message is a request that asks for a head only. -/
def isHead (m : Message) : Bool :=
  match m.start with
  | .request method _ => method == "HEAD"
  | .response .. => false

/-- Whether another response to the same request follows. -/
def isInterim (m : Message) : Bool := m.status?.any Http.isInterim

/-- A message is read off its head and what is awaited, and then learned from. -/
theorem parse_complete {read : HeadReader} {d : Direction} {awaited σ : Awaited} {bs : Bytes}
    {m : Message} {n : Nat} (h : parse read d awaited bs = (.complete m n, σ)) :
    σ = learn awaited m ∧ ∃ head, read d bs = .ok head ∧
      parseBody head (hasBody d awaited head) (bs.drop head.length) = .complete m n := by
  unfold parse at h
  split_ifs at h
  · cases h
  · dsimp only at h
    split at h
    · next m' n' parsed =>
      obtain ⟨same, rfl⟩ := Prod.mk.inj h
      rw [parsed] at same
      obtain ⟨rfl, rfl⟩ := Parsed.complete.inj same
      refine ⟨rfl, ?_⟩
      unfold parseWith at parsed
      split at parsed
      · cases parsed
      · split_ifs at parsed
      · next head begun => exact ⟨head, begun, parsed⟩
    · next other =>
      obtain ⟨same, -⟩ := Prod.mk.inj h
      exact absurd same (other m n)

/-- A message comes in the direction that its start line tells. -/
theorem direction_parse {heads : HeadReader} (directed : heads.Directed) {d : Direction}
    {awaited σ : Awaited} {bs : Bytes} {m : Message} {n : Nat}
    (h : parse heads d awaited bs = (.complete m n, σ)) : m.start.direction = d := by
  obtain ⟨-, head, begun, body⟩ := parse_complete h
  obtain ⟨_, _, rfl, -, -⟩ := declares_of_parseBody body
  exact directed begun

/-- A request is remembered with whether it asks for a head only. -/
theorem learn_request {awaited : Awaited} {m : Message} (kind : m.start.direction = .request) :
    learn awaited m = awaited.push m.isHead := by
  obtain ⟨start, minor, headers, body, length⟩ := m
  cases start with
  | request method path => rfl
  | response status reason => cases kind

/-- A final response uses up the oldest request. -/
theorem learn_response {awaited : Awaited} {m : Message} (kind : m.start.direction = .response) :
    learn awaited m = if m.isInterim then awaited else awaited.tail := by
  obtain ⟨start, minor, headers, body, length⟩ := m
  cases start with
  | request method path => cases kind
  | response status reason => rfl

/-- Whether a final response has no body, as its status and the oldest request say. -/
theorem hasBody_final {awaited : Awaited} {head : Head} {m : Message}
    (kind : head.start.direction = .response) (same : m.start = head.start)
    (final : m.isInterim = false) :
    hasBody .response awaited head =
      !decide (awaited.head? = some true ∨ m.status? ∈ [some 101, some 204, some 304]) := by
  obtain ⟨start, minor, headers, length⟩ := head
  obtain ⟨start', minor', headers', body, length'⟩ := m
  obtain rfl : start' = start := same
  cases start' with
  | request method path => cases kind
  | response status reason =>
    have final : Http.isInterim status = false := final
    have bodiless : isBodiless status = decide (status = 101 ∨ status = 204 ∨ status = 304) := by
      simp only [Http.isInterim, isBodiless] at final ⊢
      grind
    simp only [hasBody, responseHasBody, final, bodiless, status?]
    cases awaited.head? with
    | none => simp
    | some isHead => cases isHead <;> simp

end Message

/-! ## Calls -/

/-- A message with the bytes it was read from, and the direction and time of these. -/
structure Call where
  direction : Direction
  time : Nat
  bytes : Bytes
  message : Message

/-- The message as it is filed. -/
def Call.stamped (c : Call) : Stamped Message := ⟨c.time, c.message⟩

/-- The calls that read requests. -/
def requests (calls : List Call) : List Call := calls.filter (·.direction == .request)

/-- The calls that read responses. -/
def responses (calls : List Call) : List Call := calls.filter (·.direction == .response)

/-- The calls that read final responses. -/
def finals (calls : List Call) : List Call := (responses calls).filter (!·.message.isInterim)

section
variable (calls : List Call) {call : Call}

theorem append_request (asked : call.direction = .request) :
    requests (calls ++ [call]) = requests calls ++ [call] ∧
      finals (calls ++ [call]) = finals calls := by
  simp [requests, finals, responses, asked]

theorem append_interim (answered : call.direction = .response)
    (interim : call.message.isInterim = true) :
    requests (calls ++ [call]) = requests calls ∧ finals (calls ++ [call]) = finals calls := by
  simp [requests, finals, responses, answered, interim]

theorem append_final (answered : call.direction = .response)
    (final : call.message.isInterim = false) :
    requests (calls ++ [call]) = requests calls ∧
      finals (calls ++ [call]) = finals calls ++ [call] := by
  simp [requests, finals, responses, answered, final]

end

/-- The calls that read messages, one after the other, and the conversation they lead to. Between
them there may be calls that find no message. -/
inductive Reads (heads : HeadReader) : List Call → Conversation (dialect heads) → Prop where
  | start : Reads heads [] {}
  | message {calls : List Call} {c : Conversation (dialect heads)} {call : Call} {n : Nat}
      {σ : Awaited} (before : Reads heads calls c)
      (read : (dialect heads).parse call.direction c.state call.bytes =
        (.complete call.message n, σ)) :
      Reads heads (calls ++ [call]) ({ c with state := σ }.push call.direction call.stamped)
  | nothing {calls : List Call} {c : Conversation (dialect heads)} {d : Direction} {bs : Bytes}
      {parsed : Parsed Message} {σ : Awaited} (before : Reads heads calls c)
      (read : (dialect heads).parse d c.state bs = (parsed, σ))
      (other : parsed.isComplete = false) :
      Reads heads calls { c with state := σ }

/-- At any time there are no more final responses than requests, and the others are not more than
are remembered. -/
def Pipelined (calls : List Call) : Prop :=
  ∀ past, past <+: calls → (finals past).length ≤ (requests past).length ∧
    (requests past).length ≤ (finals past).length + Awaited.limit

/-- A final response is read as one to a request: without a body where there can be none, and
otherwise with the body that its headers declare. -/
def Answers (heads : HeadReader) (request final : Call) : Prop :=
  ∃ head body size, heads .response final.bytes = .ok head ∧
    final.message = ⟨head.start, head.minor, head.headers, body, head.length + size⟩ ∧
    if request.message.isHead ∨ final.message.status? ∈ [some 101, some 204, some 304] then
      body = [] ∧ size = 0
    else Message.Declares head.headers (final.bytes.drop head.length) body size

/-! ## The requests awaited -/

/-- The requests awaited are those that no final response was read to, and the final responses were
read as those to the others, in order. -/
structure Aligned (heads : HeadReader) (calls : List Call) (awaited : Awaited) : Prop where
  waiting : awaited = ((requests calls).drop (finals calls).length).map (·.message.isHead)
  answered :
    List.Forall₂ (Answers heads) ((requests calls).take (finals calls).length) (finals calls)

section
variable {heads : HeadReader} {calls : List Call} {awaited : Awaited} {call : Call}

/-- A request waits behind the others; none is forgotten as long as there is room. -/
theorem Aligned.request (h : Aligned heads calls awaited) (asked : call.direction = .request)
    (kind : call.message.start.direction = .request)
    (ahead : (finals calls).length ≤ (requests calls).length)
    (room : (requests calls).length < (finals calls).length + Awaited.limit) :
    Aligned heads (calls ++ [call]) (Message.learn awaited call.message) := by
  obtain ⟨more, same⟩ := append_request calls asked
  -- As many are remembered as no final response was read to, so there is room for one more.
  have kept : ¬ Awaited.limit ≤ awaited.length := by
    rw [h.waiting, List.length_map, List.length_drop]
    omega
  constructor
  · rw [Message.learn_request kind, Awaited.push, if_neg kept, more, same, h.waiting,
      List.drop_append_of_le_length ahead, List.map_append]
    rfl
  · rw [more, same, List.take_append_of_le_length ahead]
    exact h.answered

/-- An interim response changes nothing. -/
theorem Aligned.interim (h : Aligned heads calls awaited) (answered : call.direction = .response)
    (kind : call.message.start.direction = .response) (interim : call.message.isInterim = true) :
    Aligned heads (calls ++ [call]) (Message.learn awaited call.message) := by
  obtain ⟨same, none⟩ := append_interim calls answered interim
  constructor
  · rw [Message.learn_response kind, if_pos interim, same, none]
    exact h.waiting
  · rw [same, none]
    exact h.answered

/-- A final response uses up the first request behind those answered, and was read as one to it. -/
theorem Aligned.final (h : Aligned heads calls awaited) (answered : call.direction = .response)
    (kind : call.message.start.direction = .response) (final : call.message.isInterim = false)
    (behind : (finals calls).length < (requests calls).length)
    (reads : ∀ request, awaited.head? = some request.message.isHead → Answers heads request call) :
    Aligned heads (calls ++ [call]) (Message.learn awaited call.message) := by
  obtain ⟨same, more⟩ := append_final calls answered final
  have oldest : awaited.head? = some (requests calls)[(finals calls).length].message.isHead := by
    rw [h.waiting, List.drop_eq_getElem_cons behind]
    rfl
  constructor
  · rw [Message.learn_response kind, final, same, more, List.length_append, h.waiting,
      ← List.map_tail, List.tail_drop]
    rfl
  · rw [same, more, List.length_append, List.length_singleton,
      List.take_succ_eq_append_getElem behind]
    exact List.rel_append h.answered (.cons (reads _ oldest) .nil)

/-- A final response is read as one to the oldest request awaited. -/
theorem answers_of_read (directed : heads.Directed) {request : Call} {σ : Awaited} {n : Nat}
    (read : Message.parse heads .response awaited call.bytes = (.complete call.message n, σ))
    (final : call.message.isInterim = false)
    (oldest : awaited.head? = some request.message.isHead) : Answers heads request call := by
  obtain ⟨-, head, begun, parsed⟩ := Message.parse_complete read
  obtain ⟨body, size, whole, -, declared⟩ := Message.declares_of_parseBody parsed
  refine ⟨head, body, size, begun, whole, ?_⟩
  have same : call.message.start = head.start := by rw [whole]
  rw [Message.hasBody_final (directed begun) same final, oldest] at declared
  simpa only [Bool.not_eq_true', decide_eq_false_iff_not, ite_not, Option.some.injEq] using declared

/-- A call keeps the queue in step. -/
theorem Aligned.message (directed : heads.Directed) {n : Nat} {σ : Awaited}
    (h : Aligned heads calls awaited) (pipelined : Pipelined (calls ++ [call]))
    (read : Message.parse heads call.direction awaited call.bytes =
      (.complete call.message n, σ)) : Aligned heads (calls ++ [call]) σ := by
  obtain ⟨ahead, -⟩ := pipelined calls (List.prefix_append ..)
  obtain ⟨ahead', room⟩ := pipelined (calls ++ [call]) List.prefix_rfl
  have kind := Message.direction_parse directed read
  obtain ⟨rfl, -⟩ := Message.parse_complete read
  cases direction : call.direction with
  | request =>
    obtain ⟨more, same⟩ := append_request calls direction
    rw [more, same, List.length_append, List.length_singleton] at room
    exact h.request direction (kind.trans direction) ahead room
  | response =>
    rw [direction] at kind read
    cases final : call.message.isInterim with
    | true => exact h.interim direction kind final
    | false =>
      obtain ⟨same, more⟩ := append_final calls direction final
      rw [same, more, List.length_append, List.length_singleton] at ahead'
      exact h.final direction kind final ahead' fun request => answers_of_read directed read final

/-- The queue is in step after every call. -/
theorem aligned_of_reads (directed : heads.Directed) {c : Conversation (dialect heads)}
    (h : Reads heads calls c) (pipelined : Pipelined calls) : Aligned heads calls c.state := by
  induction h with
  | start => exact ⟨rfl, .nil⟩
  | message before read ih =>
    have earlier : Pipelined _ := fun past h => pipelined past (h.trans (List.prefix_append ..))
    exact (ih earlier).message directed pipelined read
  | @nothing calls c d bs parsed σ before read other ih =>
    have found : Message.parse heads d c.state bs = (parsed, σ) := read
    -- Only a whole message is learned from.
    have kept : (Message.parse heads d c.state bs).2 = c.state := by
      apply Message.snd_parse
      intro frame n complete
      rw [found] at complete
      obtain rfl : parsed = .complete frame n := complete
      cases other
    rw [found] at kept
    obtain rfl : σ = c.state := kept
    exact ih pipelined

/-! ## Pairing -/

/-- What was read, as it waits for a counterpart. -/
def lane (calls : List Call) : Lane Message :=
  ⟨(requests calls).map Call.stamped, (responses calls).map Call.stamped⟩

theorem lane_append (calls : List Call) (call : Call) :
    lane (calls ++ [call]) = (lane calls).push call.direction call.stamped := by
  unfold lane Lane.push
  cases direction : call.direction with
  | request => simp [requests, responses, direction]
  | response => simp [requests, responses, direction]

/-- All that was read waits in one lane. -/
theorem filed_of_reads {c : Conversation (dialect heads)} (h : Reads heads calls c) :
    calls = [] ∧ c.backlog = [] ∨ c.backlog = [(0, lane calls)] := by
  induction h with
  | start => exact .inl ⟨rfl, rfl⟩
  | @message calls c call n σ before read ih =>
    refine .inr ?_
    rw [lane_append]
    show c.backlog.push 0 call.direction call.stamped = _
    obtain ⟨rfl, empty⟩ | filed := ih
    · rw [empty]
      rfl
    · rw [filed]
      rfl
  | nothing before read other ih => exact ih

/-- Pairing what was read is pairing that lane. -/
theorem pairAll_of_reads {c : Conversation (dialect heads)} (h : Reads heads calls c) :
    c.pairAll.exchanges = (pair c.state (lane calls)).exchanges.map ((0 : Int), ·) ∧
      c.pairAll.errors = (pair c.state (lane calls)).errors := by
  unfold Conversation.pairAll
  obtain ⟨rfl, empty⟩ | filed := filed_of_reads h
  · rw [empty]
    exact ⟨rfl, rfl⟩
  · rw [filed]
    exact ⟨List.append_nil _, Nat.add_zero _⟩

/-- The final responses of a lane. -/
theorem filter_responses (calls : List Call) :
    (lane calls).responses.filter (fun m => !m.value.status?.any isInterim) =
      (finals calls).map Call.stamped := List.filter_map

/-- Final responses that are no earlier than their requests are paired with them. -/
theorem pair_lane (σ : Awaited)
    (timely : List.Forall₂ (·.time ≤ ·.time) ((requests calls).take (finals calls).length)
      (finals calls)) :
    pair σ (lane calls) =
      ⟨List.zipWith (fun request final => ⟨request.stamped, final.stamped⟩) (requests calls)
          (finals calls), 0,
        ⟨((requests calls).drop (finals calls).length).map Call.stamped, []⟩, σ⟩ := by
  have stamped : List.Forall₂ (·.time ≤ ·.time)
      (((requests calls).take (finals calls).length).map Call.stamped)
      ((finals calls).map Call.stamped) := by
    rw [List.forall₂_map_left_iff, List.forall₂_map_right_iff]
    exact timely
  have split : (lane calls).requests =
      ((requests calls).take (finals calls).length).map Call.stamped ++
        ((requests calls).drop (finals calls).length).map Call.stamped := by
    rw [← List.map_append, List.take_append_drop]
    rfl
  have front (make : Call → Call → Matched Message) :
      List.zipWith make ((requests calls).take (finals calls).length) (finals calls) =
        List.zipWith make (requests calls) (finals calls) :=
    calc List.zipWith make ((requests calls).take (finals calls).length) (finals calls)
        = (List.zipWith make (requests calls) (finals calls)).take (finals calls).length := by
          rw [List.take_zipWith, List.take_length]
      _ = List.zipWith make (requests calls) (finals calls) :=
          List.take_of_length_le (by simp)
  unfold pair
  rw [filter_responses, split, Pairing.inOrder_of_forall₂ stamped, List.zipWith_map, front]

/-- **HEAD requests are tracked under pipelining**, with any reader of heads that gives a head the
start line of its direction. Let messages be read one after the other from the beginning, in any
interleaving of the two directions, such that no final response is read ahead of the request at its
place and no more requests wait than are remembered. Then each final response is read as one to the
request at its place: without a body if that is HEAD or the status is 101, 204 or 304, and otherwise
with the body that its headers declare. Where each of these requests is captured no later than its
final response, pairing makes one exchange of the two for every final response, and counts no
error. -/
theorem pipelines_aligned (directed : heads.Directed) {c : Conversation (dialect heads)}
    (reads : Reads heads calls c) (pipelined : Pipelined calls) :
    List.Forall₂ (Answers heads) ((requests calls).take (finals calls).length) (finals calls) ∧
      (List.Forall₂ (·.time ≤ ·.time) ((requests calls).take (finals calls).length) (finals calls) →
        c.pairAll.exchanges = List.zipWith
            (fun request final => (0, ⟨request.stamped, final.stamped⟩))
            (requests calls) (finals calls) ∧
          c.pairAll.exchanges.length = (finals calls).length ∧ c.pairAll.errors = 0) := by
  refine ⟨(aligned_of_reads directed reads pipelined).answered, fun timely => ?_⟩
  have ahead := (pipelined calls List.prefix_rfl).1
  obtain ⟨exchanges, errors⟩ := pairAll_of_reads reads
  rw [pair_lane c.state timely] at exchanges errors
  rw [List.map_zipWith] at exchanges
  refine ⟨exchanges, ?_, errors⟩
  exact (congrArg List.length exchanges).trans (List.length_zipWith.trans (Nat.min_eq_right ahead))

end

/-- A request for a head, and one for the body as well. -/
def questions : List Call :=
  [⟨.request, 1, ascii "HEAD / HTTP/1.1\r\n\r\n", ⟨.request "HEAD" "/", 1, [], [], 19⟩⟩,
    ⟨.request, 2, ascii "GET / HTTP/1.1\r\n\r\n", ⟨.request "GET" "/", 1, [], [], 18⟩⟩]

/-- A response that precedes the final ones. -/
def notice : Call :=
  ⟨.response, 3, ascii "HTTP/1.1 100 Continue\r\n\r\n",
    ⟨.response 100 "Continue", 1, [], [], 25⟩⟩

/-- Two responses that declare the same body; only the second has it. -/
def replies : List Call :=
  [⟨.response, 4, ascii "HTTP/1.1 200 OK\r\nContent-Length: 2\r\n\r\n",
      ⟨.response 200 "OK", 1, [("content-length", "2")], [], 38⟩⟩,
    ⟨.response, 5, ascii "HTTP/1.1 200 OK\r\nContent-Length: 2\r\n\r\nhi",
      ⟨.response 200 "OK", 1, [("content-length", "2")], ascii "hi", 40⟩⟩]

/-- A call that reads a message in a known state. -/
theorem Reads.parsed {heads : HeadReader} {calls : List Call} {c : Conversation (dialect heads)}
    (before : Reads heads calls c) (call : Call) {n : Nat} {awaited σ : Awaited}
    (state : c.state = awaited)
    (read : Message.parse heads call.direction awaited call.bytes =
      (.complete call.message n, σ)) :
    Reads heads (calls ++ [call]) ({ c with state := σ }.push call.direction call.stamped) := by
  subst state
  exact .message before read

theorem pipelines_aligned_replies :
    HeadReader.Directed Head.read ∧
      ∃ c, Reads Head.read (questions ++ notice :: replies) c ∧
        Pipelined (questions ++ notice :: replies) ∧
        List.Forall₂ (·.time ≤ ·.time) questions replies ∧
        List.Forall₂ (Answers Head.read) questions replies ∧ c.pairAll.exchanges.length = 2 ∧
        c.pairAll.errors = 0 := by
  have head : Message.parse Head.read .request [] questions[0].bytes =
      (.complete questions[0].message 19, [true]) := by decide +kernel
  have whole : Message.parse Head.read .request [true] questions[1].bytes =
      (.complete questions[1].message 18, [true, false]) := by decide +kernel
  have interim : Message.parse Head.read .response [true, false] notice.bytes =
      (.complete notice.message 25, [true, false]) := by decide +kernel
  have short : Message.parse Head.read .response [true, false] replies[0].bytes =
      (.complete replies[0].message 38, [false]) := by decide +kernel
  have full : Message.parse Head.read .response [false] replies[1].bytes =
      (.complete replies[1].message 40, []) := by decide +kernel
  have asked := (Reads.start.parsed questions[0] rfl head).parsed questions[1] rfl whole
  have told := asked.parsed notice rfl interim
  have reads := (told.parsed replies[0] rfl short).parsed replies[1] rfl full
  have pipelined : Pipelined (questions ++ notice :: replies) := by
    have counted : ∀ past ∈ (questions ++ notice :: replies).inits,
        (finals past).length ≤ (requests past).length ∧
          (requests past).length ≤ (finals past).length + Awaited.limit := by decide +kernel
    exact fun past h => counted past ((List.mem_inits ..).2 h)
  have timely : List.Forall₂ (·.time ≤ ·.time) questions replies := by decide +kernel
  obtain ⟨answered, paired⟩ := pipelines_aligned Head.directed_read reads pipelined
  obtain ⟨-, count, errors⟩ := paired timely
  exact ⟨Head.directed_read, _, reads, pipelined, timely, answered, count, errors⟩

end Dialogue.Http
