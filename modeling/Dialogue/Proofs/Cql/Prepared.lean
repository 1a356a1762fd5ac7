import Mathlib
import Dialogue.Proofs.Rounds
import Dialogue.Proofs.Statements

/-!
Statements that are prepared on one stream and executed on another.

What the server prepares is known to all streams of a connection, but a pass goes through the
streams by ascending number. `shows_across_streams` says what the exchange of an execution shows
where its statement was prepared once, the server had said so before the execution was sent, and
there was room for all statements: the text of the statement, unless both are paired in one pass in
which the stream of the execution comes first. In that case the statement is not known yet, and its
identifier is shown.

 1. Where fewer than `Memory.limit` identifiers are ever given out, the memory is never emptied and
    recalls every text that stands (`Holds`).
 2. What an execution shows is then the text that stands behind the entries before it
    (`text_of_execution`).
 3. Whether the preparation is among these is a matter of the passes and streams alone
    (`Conversation.journals_order`).
-/
namespace Dialogue

/-! ## A memory that is never emptied -/

namespace Deed

variable {K V : Type} [BEq K] [LawfulBEq K] {key : K} {text : V} {deeds : List (Deed K V)}

theorem find?_reverse_of_not_mem (h : key ∉ deeds.map Deed.key) :
    deeds.reverse.find? (·.key == key) = none := by
  refine List.find?_eq_none.2 fun d hd same => h ?_
  exact eq_of_beq same ▸ List.mem_map_of_mem (List.mem_reverse.1 hd)

/-- No text stands for a key that no deed is about. -/
theorem standing?_of_not_mem (h : key ∉ deeds.map Deed.key) : standing? key deeds = none := by
  rw [standing?, find?_reverse_of_not_mem h]
  rfl

/-- What has been prepared stands, if no other deed is about its key. -/
theorem standing?_of_alone (mem : .prepares key text ∈ deeds)
    (alone : (deeds.map Deed.key).count key ≤ 1) : standing? key deeds = some text := by
  obtain ⟨before, behind, rfl⟩ := List.append_of_mem mem
  have last : key ∉ behind.map Deed.key := by
    intro other
    have := List.count_pos_iff.2 other
    rw [List.map_append, List.map_cons, List.count_append, Deed.key, List.count_cons_self] at alone
    omega
  rw [standing?, List.reverse_append, List.reverse_cons, List.append_assoc, List.find?_append,
    find?_reverse_of_not_mem last, Option.none_or, List.singleton_append, List.find?_cons]
  simp [Deed.key, text?]

end Deed

/-- A memory that has never been emptied: each key that it holds has been prepared, and it recalls
every text that stands. -/
structure Holds {K V : Type} [BEq K] (m : Memory K V) (deeds : List (Deed K V)) : Prop where
  once : (m.map (·.1)).Nodup
  prepared : m.map (·.1) ⊆ deeds.map Deed.key
  texts : ∀ key, m.value? key = Deed.standing? key deeds

/-- The number of different members of a list. -/
def variety {K : Type} [DecidableEq K] (keys : List K) : Nat := keys.dedup.length

theorem length_le_variety {K : Type} [DecidableEq K] {some all : List K} (once : some.Nodup)
    (h : some ⊆ all) : some.length ≤ variety all :=
  (once.subperm fun _ mem => List.mem_dedup.2 (h mem)).length_le

theorem variety_le {K : Type} [DecidableEq K] {some all : List K} (h : some ⊆ all) :
    variety some ≤ variety all :=
  length_le_variety (List.nodup_dedup some) fun _ mem => h (List.mem_dedup.1 mem)

namespace Holds

variable {K V : Type} [BEq K] [LawfulBEq K] [DecidableEq K] {m : Memory K V}
  {deeds : List (Deed K V)}

omit [LawfulBEq K] [DecidableEq K] in
theorem start : Holds ([] : Memory K V) [] := ⟨List.nodup_nil, fun _ h => h, fun _ => rfl⟩

/-- Where fewer keys have been prepared than may be held, a text is entered and none forgotten. -/
theorem remember (h : Holds m deeds) (few : variety (deeds.map Deed.key) < Memory.limit) (key : K)
    (text : V) : Holds (m.remember key text) (deeds ++ [.prepares key text]) := by
  have room : m.length < Memory.limit := by
    have le := length_le_variety h.once h.prepared
    rw [List.length_map] at le
    omega
  have others : ((m.forget key).map (·.1)).Sublist (m.map (·.1)) := List.filter_sublist.map _
  rw [Memory.remember, if_neg (by omega)]
  refine ⟨?_, ?_, fun k => ?_⟩
  · refine List.nodup_cons.2 ⟨?_, h.once.sublist others⟩
    simp [Memory.forget]
  · rw [List.map_append]
    refine List.cons_subset.2 ⟨?_, fun k mem => ?_⟩
    · exact List.mem_append_right _ (List.mem_singleton_self key)
    · exact List.mem_append_left _ (h.prepared (others.subset mem))
  · rw [Memory.value?_put, Deed.standing?_append, h.texts]
    by_cases same : k = key
    · simp [same, Deed.key, Deed.text?]
    · simp [same, Deed.key, Ne.symm same]

end Holds

namespace Cql

/-! ## The journals of a connection -/

/-- Passes over all streams of a new connection, one behind each batch. -/
def rounds (batches : List (List (Direction × Stamped Frame))) : List (Round dialect) :=
  Conversation.rounds {} batches

/-- The entries of these passes, each with its stream. -/
def journals (batches : List (List (Direction × Stamped Frame))) :
    List (List (Int × Entry Frame Prepared Exchange)) :=
  Conversation.journals (d := dialect) ledger {} batches

/-- The entries of all passes, in order. -/
def log (batches : List (List (Direction × Stamped Frame))) : Ledger Frame Prepared Exchange :=
  (journals batches).flatten.map (·.2)

/-- Whether an entry is made in a pass for a stream. -/
def Made (batches : List (List (Direction × Stamped Frame))) (pass : Nat) (stream : Int)
    (e : Entry Frame Prepared Exchange) : Prop :=
  ∃ entries, (journals batches)[pass]? = some entries ∧ (stream, e) ∈ entries

/-- The entry of a statement to which the server has given an identifier. -/
structure Prepares (e : Entry Frame Prepared Exchange) (request result : Stamped Frame)
    (id : Bytes) : Prop where
  asks : e.request = some request
  prepare : request.value.opcode = .prepare
  answers : e.responses = [result]
  gives : preparedId? result.value = some id

/-- The entry of the execution of a statement, of which an exchange is found. -/
structure Executes (e : Entry Frame Prepared Exchange) (request : Stamped Frame) (id : Bytes)
    (x : Exchange) : Prop where
  asks : e.request = some request
  execute : request.value.opcode = .execute
  names : short.read "cql" request.value.body = .ok id
  found : e.outcome = .exchange x

/-- The identifiers that the server has given to the statements of these entries. -/
def ids (past : Ledger Frame Prepared Exchange) : List Bytes := (deeds past).map Deed.key

theorem balances (prepared : Prepared) (lane : Lane Frame) :
    Ledger.Balances prepared (ledger prepared lane) lane (pair prepared lane) :=
  Pairing.balances_inOrder prepared lane

theorem prompt (prepared : Prepared) (lane : Lane Frame) :
    (pair prepared lane).left.responses = [] := Pairing.responses_inOrder prepared _

theorem retains : dialect.Retains := fun prepared lane =>
  ⟨(Pairing.requests_inOrder prepared _).sublist,
    (prompt prepared lane).symm ▸ List.nil_sublist _⟩

/-! ## What is remembered -/

section
variable {past earlier later : Ledger Frame Prepared Exchange} {prepared : Prepared}
  {e : Entry Frame Prepared Exchange}

theorem ids_subset (h : earlier.Sublist later) : ids earlier ⊆ ids later :=
  ((h.filterMap deed?).map _).subset

theorem ids_append (earlier later : Ledger Frame Prepared Exchange) :
    ids (earlier ++ later) = ids earlier ++ ids later := by
  rw [ids, deeds, List.filterMap_append, List.map_append]
  rfl

theorem mem_ids {id text : Bytes} (mem : e ∈ past) (deed : deed? e = some (.prepares id text)) :
    id ∈ ids past := List.mem_map.2 ⟨_, List.mem_filterMap.2 ⟨e, mem, deed⟩, rfl⟩

/-- As long as there is room for all identifiers, the memory holds what stands. -/
def Knowing (past : Ledger Frame Prepared Exchange) (prepared : Prepared) : Prop :=
  variety (ids past) < Memory.limit → Holds prepared (deeds past)

theorem Knowing.step (h : Knowing past prepared)
    (step : Pairing.Replies answers exchange prepared e) : Knowing (past ++ [e]) e.after := by
  intro few
  have before : variety (ids past) < Memory.limit :=
    (variety_le (ids_subset (List.sublist_append_left past [e]))).trans_lt few
  have held := h before
  unfold deeds
  rw [filterMap_snoc]
  obtain ⟨deed, after⟩ | ⟨id, text, deed, after⟩ := learns_of_replies step
  · rw [deed, after]
    exact (List.append_nil (deeds past)).symm ▸ held
  · rw [deed, after]
    exact held.remember before id text

/-- An execution shows the text that stands for its statement, as long as there is room. -/
theorem Knowing.text (h : Knowing past prepared) (few : variety (ids past) < Memory.limit)
    (step : Pairing.Replies answers exchange prepared e) {request : Stamped Frame} {x : Exchange}
    {id : Bytes} (executes : Executes e request id x) :
    x.request.text = (Deed.standing? id (deeds past)).getD (unknown id) := by
  obtain ⟨asks, execute, names, made⟩ := executes
  cases step with
  | dropped _ => cases asks
  | unmatched _ => cases asks
  | @matched asked response _ _ =>
    cases asks
    cases made
    have known : renderRequest prepared request.value =
        (prepared.value? id).getD (unknown id) := by
      rw [renderRequest_of_execute execute, names]
      rfl
    exact known.trans (by rw [(h few).texts])

end

/-- The log is a trail of replies. -/
theorem trail_log (batches : List (List (Direction × Stamped Frame))) :
    Ledger.Trail (Pairing.Replies answers exchange) [] (log batches) :=
  Conversation.trail_journals (d := dialect) (fun _ _ => Pairing.trail_orderly _) balances {}
    batches

section
variable {batches : List (List (Direction × Stamped Frame))}
  {earlier later : Ledger Frame Prepared Exchange} {e : Entry Frame Prepared Exchange}

/-- What is known before an entry of the log, which is a reply. -/
theorem knowing_log (split : log batches = earlier ++ e :: later) :
    ∃ prepared, Knowing earlier prepared ∧ Pairing.Replies answers exchange prepared e :=
  have run : _ ∧ ∀ earlier e later, log batches = earlier ++ e :: later →
      ∃ prepared, Knowing ([] ++ earlier) prepared ∧
        Pairing.Replies answers exchange prepared e :=
    (trail_log batches).keeps (fun _ => Holds.start) fun _ _ _ => Knowing.step
  run.2 earlier e later split

/-- What an execution shows follows from the entries before it. -/
theorem text_of_execution (few : variety (ids (log batches)) < Memory.limit)
    (split : log batches = earlier ++ e :: later) {request : Stamped Frame} {x : Exchange}
    {id : Bytes} (executes : Executes e request id x) :
    x.request.text = (Deed.standing? id (deeds earlier)).getD (unknown id) := by
  obtain ⟨prepared, knows, step⟩ := knowing_log split
  have part : earlier.Sublist (log batches) := split ▸ List.sublist_append_left _ _
  exact knows.text ((variety_le (ids_subset part)).trans_lt few) step executes

/-- A response is no earlier than the request with which it is paired. -/
theorem le_of_log (mem : e ∈ log batches) {request response : Stamped Frame}
    (asks : e.request = some request) (takes : e.responses = [response]) :
    request.time ≤ response.time := by
  obtain ⟨earlier, later, split⟩ := List.append_of_mem mem
  obtain ⟨prepared, -, step⟩ := knowing_log split
  cases step with
  | dropped _ => cases asks
  | unmatched _ => cases asks
  | matched _ le =>
    cases asks
    cases takes
    exact le

end

/-- The log up to an entry of one journal and behind it. -/
theorem log_split {batches : List (List (Direction × Stamped Frame))} {q : Nat}
    {before behind : List (Int × Entry Frame Prepared Exchange)} {b : Int}
    {e : Entry Frame Prepared Exchange}
    (journal : (journals batches)[q]? = some (before ++ (b, e) :: behind)) :
    log batches = (((journals batches).take q).flatten ++ before).map (·.2) ++
      e :: (behind ++ ((journals batches).drop (q + 1)).flatten).map (·.2) := by
  rw [log, flatten_split journal]
  simp

/-- **A prepared text is found across streams** where a connection has room for all statements that
the server prepares. The server has given an identifier to one statement, and did so before an
execution of it was sent. The exchange of the execution then shows the text of the statement, in
whatever passes and on whatever streams the two are paired, but for one case: if both are paired in
one pass and the stream of the execution is lower, it comes before the statement is known and shows
the identifier. The exchanges that the passes find are those of the journals. -/
theorem shows_across_streams {batches : List (List (Direction × Stamped Frame))}
    (captured : Conversation.Captured (d := dialect) batches)
    (few : variety (ids (log batches)) < Memory.limit) {p q : Nat} {a b : Int}
    {e e' : Entry Frame Prepared Exchange} {prepare result execute : Stamped Frame} {id : Bytes}
    {x : Exchange} (made : Made batches p a e) (prepares : Prepares e prepare result id)
    (alone : (ids (log batches)).count id ≤ 1) (made' : Made batches q b e')
    (executes : Executes e' execute id x) (before : result.time < execute.time) :
    (rounds batches).map (·.exchanges) = (journals batches).map Conversation.found ∧
      x.request.text =
        if p = q ∧ b < a then unknown id else render long prepare.value.body := by
  refine ⟨@Conversation.exchanges_rounds dialect ledger balances {} batches, ?_⟩
  obtain ⟨first, journal, mem⟩ := made
  obtain ⟨second, journal', mem'⟩ := made'
  obtain ⟨early, behind, rfl⟩ := List.append_of_mem mem'
  have split := log_split journal'
  have there : e ∈ log batches :=
    List.mem_map.2 ⟨(a, e), List.mem_flatten.2 ⟨first, List.mem_of_getElem? journal, mem⟩, rfl⟩
  have deed : deed? e = some (.prepares id (render long prepare.value.body)) := by
    simp [deed?, prepares.asks, prepares.answers, prepares.prepare, prepares.gives]
  have order := Conversation.journals_order (d := dialect) balances retains prompt (.start [])
    captured journal journal' mem prepares.asks
    (prepares.answers ▸ List.mem_singleton_self result) executes.asks
    (le_of_log there prepares.asks prepares.answers) before
  rw [text_of_execution few split executes]
  rw [split, ids_append, List.count_append] at alone
  split_ifs at order ⊢ with first
  · -- The one preparation comes later, so there is none before the execution.
    have later : id ∈ ids (e' :: (behind ++ ((journals batches).drop (q + 1)).flatten).map (·.2)) :=
      mem_ids (List.mem_cons_of_mem _ (List.mem_map_of_mem (List.mem_append_left _ order))) deed
    have none : id ∉ ids ((((journals batches).take q).flatten ++ early).map (·.2)) := by
      have := List.count_pos_iff.2 later
      exact List.not_mem_of_count_eq_zero (by omega)
    rw [Deed.standing?_of_not_mem none]
    rfl
  · have known : Deed.prepares id (render long prepare.value.body) ∈
        deeds ((((journals batches).take q).flatten ++ early).map (·.2)) :=
      List.mem_filterMap.2 ⟨e, List.mem_map_of_mem order, deed⟩
    rw [Deed.standing?_of_alone known (Nat.le_of_add_right_le alone)]
    rfl

/-- A statement is prepared on stream 2. -/
def prepareRequest : Stamped Frame :=
  ⟨1, 4, 0, 2, .prepare, [0, 0, 0, 15] ++ ascii "SELECT v FROM t"⟩

def prepareResult : Stamped Frame := ⟨2, 4, 0, 2, .result, [0, 0, 0, 4, 0, 2, 0xAB, 0xCD]⟩

/-- It is executed on stream 1. -/
def executeRequest : Stamped Frame := ⟨3, 4, 0, 1, .execute, [0, 2, 0xAB, 0xCD, 0, 1, 0]⟩

def executeResult : Stamped Frame := ⟨4, 4, 0, 1, .result, [0, 0, 0, 1]⟩

def preparing : List (Direction × Stamped Frame) :=
  [(.request, prepareRequest), (.response, prepareResult)]

def executing : List (Direction × Stamped Frame) :=
  [(.request, executeRequest), (.response, executeResult)]

/-- The entry of the statement. -/
def prepared : Entry Frame Prepared Exchange :=
  let (x, known) := exchange [] prepareRequest prepareResult
  ⟨some prepareRequest, [prepareResult], .exchange x, known⟩

/-- The entry of its execution. -/
def executed : Entry Frame Prepared Exchange :=
  let (x, known) := exchange prepared.after executeRequest executeResult
  ⟨some executeRequest, [executeResult], .exchange x, known⟩

/-- In the next pass, the text is known on a lower stream. -/
theorem shows_across_streams_next_pass :
    Conversation.Captured (d := dialect) [preparing, executing] ∧
      ids (log [preparing, executing]) = [[0xAB, 0xCD]] ∧
      journals [preparing, executing] = [[(2, prepared)], [(1, executed)]] ∧
      executed.outcome.exchange?.map (·.request.text) = some (ascii "SELECT v FROM t") := by
  have captured : Conversation.Captured (d := dialect) [preparing, executing] :=
    .of_sorted (by decide)
  have given : ids (log [preparing, executing]) = [[0xAB, 0xCD]] := by decide +kernel
  have few : variety (ids (log [preparing, executing])) < Memory.limit := by
    rw [given]
    decide
  have alone : (ids (log [preparing, executing])).count [0xAB, 0xCD] ≤ 1 := by
    rw [given]
    decide
  have entries : journals [preparing, executing] = [[(2, prepared)], [(1, executed)]] := rfl
  have prepares : Prepares prepared prepareRequest prepareResult [0xAB, 0xCD] :=
    ⟨rfl, rfl, rfl, by decide +kernel⟩
  have executes : Executes executed executeRequest [0xAB, 0xCD] _ := ⟨rfl, rfl, rfl, rfl⟩
  refine ⟨captured, given, entries, ?_⟩
  obtain ⟨-, text⟩ := shows_across_streams captured few
    ⟨_, congrArg (·[0]?) entries, List.mem_singleton_self _⟩ prepares alone
    ⟨_, congrArg (·[1]?) entries, List.mem_singleton_self _⟩ executes (by decide)
  exact (congrArg some text).trans (by decide +kernel)

/-- In one pass, the execution comes before the statement on which it depends. -/
theorem lower_stream_shows_identifier :
    Conversation.Captured (d := dialect) [preparing ++ executing] ∧
      ids (log [preparing ++ executing]) = [[0xAB, 0xCD]] ∧
      (rounds [preparing ++ executing]).map (fun r => r.exchanges.map fun x =>
          (x.1, x.2.request.time, x.2.request.text)) =
        [[(1, 3, ascii "EXECUTE abcd"), (2, 1, ascii "SELECT v FROM t")]] :=
  ⟨.of_sorted (by decide), by decide +kernel, by decide +kernel⟩

end Cql

end Dialogue
