import Mathlib
import Dialogue.Monitor
import Dialogue.Proofs.Connection

/-!
What a monitor does is what as many connections by themselves would do.

A `Session` is a monitor with the list of what was asked of it and what it answered. From this list
alone `life` tells what a number stands for: the protocol of the first event that was let in since
the number was last free, and the events and processings since then. The invariant is `Follows`:
under each number the monitor holds the connection that its life brings about, and no number is held
twice. It is kept by each operation (`Follows.step`), so it holds of every session; the answers can
then be read off the lives (`Follows.answers`).
-/
namespace Dialogue.Monitor

/-- What can be asked of a monitor. -/
inductive Operation where
  | add (id : Nat) (p : Protocol) (e : Event)
  | process (id : Nat)
  | processAll
  | close (id : Nat)
  | cleanup (now : Nat)

/-- What a monitor answers. -/
inductive Answer where
  | added
  | rejected (cause : Error)
  | processed (harvest : Option Harvest)
  | processedAll (harvest : Harvest)
  | closed (report : Option Report)
  | cleaned (reports : List (Nat × Report))
deriving DecidableEq

variable {dialects : Protocol → Dialect}

/-- Carries out an operation. -/
def operate (m : Monitor dialects) : Operation → Answer × Monitor dialects
  | .add id p e =>
    match m.add id p e with
    | .ok m => (.added, m)
    | .error cause => (.rejected cause, m)
  | .process id => (.processed (m.process id).1, (m.process id).2)
  | .processAll => (.processedAll m.processAll.1, m.processAll.2)
  | .close id => (.closed (m.close id).1, (m.close id).2)
  | .cleanup now => (.cleaned (m.cleanup now).1, (m.cleanup now).2)

/-- Operations with their answers, oldest first. -/
abbrev History := List (Operation × Answer)

/-- A monitor with its history. -/
structure Session (dialects : Protocol → Dialect) where
  history : History := []
  monitor : Monitor dialects

namespace Session

/-- The session after a further operation. -/
def operate (s : Session dialects) (o : Operation) : Session dialects where
  history := s.history ++ [(o, (s.monitor.operate o).1)]
  monitor := (s.monitor.operate o).2

/-- The session after some operations, the first one on an empty monitor. -/
def run (dialects : Protocol → Dialect) (policy : Policy) (os : List Operation) :
    Session dialects :=
  os.foldl operate { monitor := { policy := policy } }

end Session

/-! ## Connections by themselves -/

/-- What a connection has gone through: its protocol, and what was done with it. -/
structure Life where
  protocol : Protocol
  actions : List Connection.Action

namespace Life

/-- The life with a further action. -/
def concat (l : Life) (a : Connection.Action) : Life := { l with actions := l.actions ++ [a] }

/-- A connection of its own that has gone through the same. -/
def tracked (l : Life) (dialects : Protocol → Dialect) (id : Nat) (settings : Settings) :
    Tracked dialects :=
  ⟨l.protocol, .replay (dialects l.protocol) id settings l.actions⟩

/-- What becomes of the life under a number. -/
def next (id : Nat) (life : Option Life) : Operation × Answer → Option Life
  | (.add i p e, .added) =>
    if i = id then some ((life.getD ⟨p, []⟩).concat (.event e)) else life
  | (.process i, _) => if i = id then life.map (·.concat .process) else life
  | (.processAll, _) => life.map (·.concat .process)
  | (.close i, _) => if i = id then none else life
  | (.cleanup _, .cleaned reports) => if id ∈ reports.map (·.1) then none else life
  | _ => life

end Life

/-- The life under a number. -/
def life (h : History) (id : Nat) : Option Life := h.foldl (Life.next id) none

/-- The connection that the life under a number brings about. -/
def followed (dialects : Protocol → Dialect) (policy : Policy) (h : History) (id : Nat) :
    Option (Tracked dialects) :=
  (life h id).map fun l => l.tracked dialects id policy.settings

/-- What connections answer that are by themselves: `ids` are their numbers in ascending order, and
`of` gives the connection of each. -/
def answer (policy : Policy) (ids : List Nat) (of : Nat → Option (Tracked dialects)) :
    Operation → Answer
  | .add id p _ =>
    (of id).elim
      (if policy.maxConnections ≤ ids.length then
        .rejected (.connectionLimit policy.maxConnections)
      else .added)
      fun t => if t.protocol = p then .added else .rejected (.protocolMismatch id t.protocol p)
  | .process id => .processed ((of id).map fun t => t.process.1)
  | .processAll =>
    let harvests := ids.filterMap fun id => (of id).map fun t => t.process.1
    .processedAll ⟨harvests.flatMap (·.records), total (·.errors) harvests⟩
  | .close id => .closed ((of id).map fun t => t.connection.close)
  | .cleanup now =>
    .cleaned <| ids.filterMap fun id => (of id).bind fun t =>
      if policy.idleTimeout < now - t.connection.lastEvent then some (id, t.connection.close)
      else none

/-! ## Entries by number -/

/-- No number is held twice, and lower numbers come first. -/
def Ascending (cs : List (Nat × Tracked dialects)) : Prop := cs.Pairwise fun a b => a.1 < b.1

section Entries
variable {cs : List (Nat × Tracked dialects)} {id : Nat} {t : Tracked dialects}

theorem lookup_cons (j : Nat) :
    ((id, t) :: cs).lookup j = if id = j then some t else cs.lookup j := by
  by_cases same : id = j
  · rw [same, List.lookup_cons_self, if_pos rfl]
  · have other : (j == id) = false := by simpa using Ne.symm same
    rw [List.lookup_cons, other, if_neg same]

/-- Where no number is held twice, an entry that is there is the one that is found. -/
theorem lookup_eq_some_iff (h : Ascending cs) : cs.lookup id = some t ↔ (id, t) ∈ cs := by
  induction cs with
  | nil => simp
  | cons c cs ih =>
    obtain ⟨i, u⟩ := c
    obtain ⟨first, rest⟩ := List.pairwise_cons.1 h
    rw [lookup_cons, List.mem_cons, ← ih rest]
    by_cases same : i = id
    · subst same
      have absent : cs.lookup i ≠ some t := by
        intro later
        exact Nat.lt_irrefl i (first _ ((ih rest).1 later))
      simp [absent, eq_comm]
    · simp [same, Ne.symm same]

theorem lookup_eq_none_iff : cs.lookup id = none ↔ id ∉ cs.map (·.1) := by
  rw [List.lookup_eq_none_iff, List.mem_map]
  constructor
  · rintro absent ⟨c, hc, rfl⟩
    exact bne_iff_ne.1 (absent c hc) rfl
  · exact fun absent c hc => bne_iff_ne.2 fun same => absent ⟨c, hc, same.symm⟩

theorem lookup_put (j : Nat) :
    (put id t cs).lookup j = if id = j then some t else cs.lookup j := by
  induction cs with
  | nil => exact lookup_cons j
  | cons c cs ih =>
    obtain ⟨i, u⟩ := c
    rw [put]
    rcases Nat.lt_trichotomy id i with before | rfl | behind
    · rw [if_pos before, lookup_cons]
    · rw [if_neg (Nat.lt_irrefl _), if_pos rfl, lookup_cons, lookup_cons]
      split_ifs <;> rfl
    · rw [if_neg (Nat.lt_asymm behind), if_neg (Nat.ne_of_gt behind), lookup_cons, lookup_cons, ih]
      by_cases same : id = j
      · subst same
        rw [if_neg (Nat.ne_of_lt behind), if_pos rfl, if_pos rfl]
      · rw [if_neg same, if_neg same]

theorem mem_put {c : Nat × Tracked dialects} (h : c ∈ put id t cs) : c = (id, t) ∨ c ∈ cs := by
  induction cs with
  | nil => exact .inl (List.mem_singleton.1 h)
  | cons first cs ih =>
    obtain ⟨i, u⟩ := first
    rw [put] at h
    split_ifs at h
    · exact List.mem_cons.1 h
    · rcases List.mem_cons.1 h with here | later
      · exact .inl here
      · exact .inr (List.mem_cons_of_mem _ later)
    · rcases List.mem_cons.1 h with rfl | later
      · exact .inr List.mem_cons_self
      · exact (ih later).imp_right (List.mem_cons_of_mem _)

theorem Ascending.put (h : Ascending cs) : Ascending (put id t cs) := by
  induction cs with
  | nil => exact List.pairwise_singleton ..
  | cons c cs ih =>
    obtain ⟨i, u⟩ := c
    obtain ⟨first, rest⟩ := List.pairwise_cons.1 h
    rw [Monitor.put]
    split_ifs with before here
    · refine List.pairwise_cons.2 ⟨fun c hc => ?_, h⟩
      rcases List.mem_cons.1 hc with rfl | hc
      · exact before
      · exact Nat.lt_trans before (first c hc)
    · exact List.pairwise_cons.2 ⟨fun c hc => here ▸ first c hc, rest⟩
    · refine List.pairwise_cons.2 ⟨fun c hc => ?_, ih rest⟩
      rcases mem_put hc with rfl | hc
      · show i < id
        omega
      · exact first c hc

/-- Setting an entry adds one only under a number that was free. -/
theorem length_put (h : Ascending cs) :
    (Monitor.put id t cs).length = if cs.lookup id = none then cs.length + 1 else cs.length := by
  induction cs with
  | nil => rfl
  | cons c cs ih =>
    obtain ⟨i, u⟩ := c
    obtain ⟨first, rest⟩ := List.pairwise_cons.1 h
    rw [Monitor.put, lookup_cons]
    rcases Nat.lt_trichotomy id i with before | rfl | behind
    · have free : cs.lookup id = none := by
        rw [lookup_eq_none_iff, List.mem_map]
        rintro ⟨c, hc, rfl⟩
        exact Nat.lt_asymm before (first c hc)
      rw [if_pos before, if_neg (Nat.ne_of_gt before), if_pos free]
      rfl
    · rw [if_neg (Nat.lt_irrefl _), if_pos rfl, if_pos rfl, if_neg (Option.some_ne_none u)]
      rfl
    · rw [if_neg (Nat.lt_asymm behind), if_neg (Nat.ne_of_gt behind),
        if_neg (Nat.ne_of_lt behind), List.length_cons, ih rest]
      split_ifs <;> rfl

theorem lookup_filter (h : Ascending cs) (keep : Nat × Tracked dialects → Bool) :
    (cs.filter keep).lookup id = (cs.lookup id).filter fun t => keep (id, t) := by
  refine Option.ext fun t => ?_
  rw [lookup_eq_some_iff (h.filter _), List.mem_filter, Option.filter_eq_some_iff,
    lookup_eq_some_iff h]

theorem lookup_map (f : Tracked dialects → Tracked dialects) :
    (cs.map fun c => (c.1, f c.2)).lookup id = (cs.lookup id).map f := by
  induction cs with
  | nil => rfl
  | cons c cs ih =>
    obtain ⟨i, u⟩ := c
    rw [List.map_cons, lookup_cons, lookup_cons, ih]
    split_ifs <;> rfl

/-- What is asked of each number in turn is asked of each entry in turn. -/
theorem filterMap_lookup {α : Type} (h : Ascending cs) (f : Nat → Tracked dialects → Option α) :
    ((cs.map (·.1)).filterMap fun id => (cs.lookup id).bind (f id)) =
      cs.filterMap fun c => f c.1 c.2 := by
  rw [List.filterMap_map]
  refine List.filterMap_congr fun c hc => ?_
  have found : cs.lookup c.1 = some c.2 := (lookup_eq_some_iff h).2 hc
  rw [Function.comp_apply, found, Option.bind_some]

end Entries

/-! ## What operations do to what is held -/

section Operations
variable {m : Monitor dialects} {id : Nat}

theorem find?_set (t : Tracked dialects) (j : Nat) :
    (m.set id t).find? j = if id = j then some t else m.find? j := lookup_put j

theorem find?_processAll (j : Nat) :
    m.processAll.2.find? j = (m.find? j).map fun t => t.process.2 := by
  show (((m.connections.map fun c => (c.1, c.2.process)).map fun c => (c.1, c.2.2)).lookup j) = _
  rw [List.map_map]
  exact lookup_map fun t => t.process.2

theorem find?_close (h : Ascending m.connections) (j : Nat) :
    (m.close id).2.find? j = if id = j then none else m.find? j := by
  refine (lookup_filter h _).trans ?_
  show (m.find? j).filter (fun _ => j != id) = _
  by_cases same : id = j
  · rw [if_pos same, same, bne_self_eq_false]
    cases m.find? j <;> rfl
  · have other : (j != id) = true := bne_iff_ne.2 (Ne.symm same)
    rw [if_neg same, other]
    cases m.find? j <;> rfl

theorem find?_cleanup (h : Ascending m.connections) (now j : Nat) :
    (m.cleanup now).2.find? j =
      (m.find? j).filter fun t => !t.isIdle m.policy.idleTimeout now := lookup_filter h _

theorem mem_cleanup (h : Ascending m.connections) (now j : Nat) :
    j ∈ (m.cleanup now).1.map (·.1) ↔
      ∃ t, m.find? j = some t ∧ t.isIdle m.policy.idleTimeout now := by
  simp only [cleanup, List.map_map, List.mem_map, List.mem_filter, Function.comp_apply]
  constructor
  · rintro ⟨⟨i, t⟩, ⟨held, idle⟩, rfl⟩
    exact ⟨t, (lookup_eq_some_iff h).2 held, idle⟩
  · rintro ⟨t, held, idle⟩
    exact ⟨(j, t), ⟨(lookup_eq_some_iff h).1 held, idle⟩, rfl⟩

theorem count_set (h : Ascending m.connections) (t : Tracked dialects) :
    (m.set id t).count = if m.find? id = none then m.count + 1 else m.count := length_put h

end Operations

/-! ## Lives -/

section Lives
variable {policy : Policy} {h : History} {j : Nat}

theorem life_concat (h : History) (x : Operation × Answer) (id : Nat) :
    life (h ++ [x]) id = Life.next id (life h id) x := by
  rw [life, List.foldl_append]
  rfl

theorem Life.tracked_event (l : Life) (id : Nat) (settings : Settings) (e : Event) :
    (l.concat (.event e)).tracked dialects id settings =
      (l.tracked dialects id settings).add e := by
  simp only [concat, tracked, Connection.replay, List.foldl_append]
  rfl

theorem Life.tracked_process (l : Life) (id : Nat) (settings : Settings) :
    (l.concat .process).tracked dialects id settings =
      (l.tracked dialects id settings).process.2 := by
  simp only [concat, tracked, Connection.replay, List.foldl_append]
  rfl

theorem followed_added (id : Nat) (p : Protocol) (e : Event) :
    followed dialects policy (h ++ [(.add id p e, .added)]) j =
      if id = j then
        some (((followed dialects policy h j).getD (Tracked.fresh p j policy.settings)).add e)
      else followed dialects policy h j := by
  rw [followed, life_concat, followed]
  by_cases same : id = j
  · simp only [Life.next, if_pos same, Option.map_some, Life.tracked_event]
    cases life h j <;> rfl
  · simp only [Life.next, if_neg same]

theorem followed_rejected (id : Nat) (p : Protocol) (e : Event) (cause : Error) :
    followed dialects policy (h ++ [(.add id p e, .rejected cause)]) j =
      followed dialects policy h j := by
  rw [followed, life_concat, followed]
  rfl

theorem followed_process (id : Nat) (a : Answer) :
    followed dialects policy (h ++ [(.process id, a)]) j =
      if id = j then (followed dialects policy h j).map fun t => t.process.2
      else followed dialects policy h j := by
  rw [followed, life_concat, followed]
  by_cases same : id = j
  · simp only [Life.next, if_pos same, Option.map_map]
    exact congrArg (Option.map · _) (funext fun l => l.tracked_process j policy.settings)
  · simp only [Life.next, if_neg same]

theorem followed_processAll (a : Answer) :
    followed dialects policy (h ++ [(.processAll, a)]) j =
      (followed dialects policy h j).map fun t => t.process.2 := by
  rw [followed, life_concat, followed]
  simp only [Life.next, Option.map_map]
  exact congrArg (Option.map · _) (funext fun l => l.tracked_process j policy.settings)

theorem followed_close (id : Nat) (a : Answer) :
    followed dialects policy (h ++ [(.close id, a)]) j =
      if id = j then none else followed dialects policy h j := by
  rw [followed, life_concat, followed]
  by_cases same : id = j
  · simp only [Life.next, if_pos same, Option.map_none]
  · simp only [Life.next, if_neg same]

theorem followed_cleaned (now : Nat) (reports : List (Nat × Report)) :
    followed dialects policy (h ++ [(.cleanup now, .cleaned reports)]) j =
      if j ∈ reports.map (·.1) then none else followed dialects policy h j := by
  rw [followed, life_concat, followed]
  by_cases ended : j ∈ reports.map (·.1)
  · simp only [Life.next, if_pos ended, Option.map_none]
  · simp only [Life.next, if_neg ended]

end Lives

/-! ## Sessions -/

/-- The monitor holds under each number the connection that its life brings about. -/
structure Follows (policy : Policy) (h : History) (m : Monitor dialects) : Prop where
  policy_eq : m.policy = policy
  ascending : Ascending m.connections
  bounded : m.count ≤ policy.maxConnections
  found : ∀ id, m.find? id = followed dialects policy h id

namespace Follows

variable {policy : Policy} {h : History} {m : Monitor dialects}

/-- What is held is followed as long as the lives stay as they are. -/
theorem same {h' : History} (f : Follows policy h m)
    (lives : ∀ j, followed dialects policy h' j = followed dialects policy h j) :
    Follows policy h' m where
  policy_eq := f.policy_eq
  ascending := f.ascending
  bounded := f.bounded
  found j := by rw [lives, f.found]

/-- One life has gone on or begun, and its connection is set. -/
theorem set {h' : History} {id : Nat} {t : Tracked dialects} (f : Follows policy h m)
    (room : m.find? id = none → m.count < policy.maxConnections)
    (lives : ∀ j, followed dialects policy h' j =
      if id = j then some t else followed dialects policy h j) :
    Follows policy h' (m.set id t) where
  policy_eq := f.policy_eq
  ascending := f.ascending.put
  bounded := by
    rw [count_set f.ascending]
    split_ifs with free
    · exact room free
    · exact f.bounded
  found j := by rw [find?_set, lives, f.found]

theorem added {id : Nat} {p : Protocol} {e : Event} {m' : Monitor dialects} (f : Follows policy h m)
    (ok : m.add id p e = .ok m') : Follows policy (h ++ [(.add id p e, .added)]) m' := by
  have lives (j : Nat) : followed dialects policy (h ++ [(.add id p e, .added)]) j =
      if id = j then some (((m.find? id).getD (Tracked.fresh p id policy.settings)).add e)
      else followed dialects policy h j := by
    rw [followed_added]
    by_cases here : id = j
    · rw [if_pos here, if_pos here, ← here, f.found]
    · rw [if_neg here, if_neg here]
  unfold Monitor.add at ok
  split at ok
  · next t held =>
    split_ifs at ok
    obtain rfl := Except.ok.inj ok
    rw [held] at lives
    exact f.set (fun free => absurd (held.symm.trans free) (Option.some_ne_none t)) lives
  · next free =>
    rw [f.policy_eq] at ok
    split_ifs at ok with full
    obtain rfl := Except.ok.inj ok
    rw [free] at lives
    exact f.set (fun _ => Nat.not_le.1 full) lives

theorem process (id : Nat) (a : Answer) (f : Follows policy h m) :
    Follows policy (h ++ [(.process id, a)]) (m.process id).2 := by
  have lives (j : Nat) : followed dialects policy (h ++ [(.process id, a)]) j =
      if id = j then (m.find? id).map fun t => t.process.2 else followed dialects policy h j := by
    rw [followed_process]
    by_cases here : id = j
    · rw [if_pos here, if_pos here, ← here, f.found]
    · rw [if_neg here, if_neg here]
  unfold Monitor.process
  split
  · next free =>
    refine f.same fun j => ?_
    rw [lives, ← f.found j]
    split_ifs with here
    · rw [← here, free]
      rfl
    · rfl
  · next t held =>
    rw [held] at lives
    exact f.set (fun free => absurd (held.symm.trans free) (Option.some_ne_none t)) lives

theorem processAll (a : Answer) (f : Follows policy h m) :
    Follows policy (h ++ [(.processAll, a)]) m.processAll.2 where
  policy_eq := f.policy_eq
  ascending := by
    unfold Monitor.processAll
    dsimp only
    rw [List.map_map]
    exact List.pairwise_map.2 f.ascending
  bounded := by
    have same : m.processAll.2.count = m.count := by simp [count, Monitor.processAll]
    exact same ▸ f.bounded
  found j := by rw [find?_processAll, followed_processAll, f.found]

theorem close (id : Nat) (a : Answer) (f : Follows policy h m) :
    Follows policy (h ++ [(.close id, a)]) (m.close id).2 where
  policy_eq := f.policy_eq
  ascending := f.ascending.filter _
  bounded := Nat.le_trans (List.length_filter_le ..) f.bounded
  found j := by rw [find?_close f.ascending, followed_close, f.found]

theorem cleanup (now : Nat) (f : Follows policy h m) :
    Follows policy (h ++ [(.cleanup now, .cleaned (m.cleanup now).1)]) (m.cleanup now).2 where
  policy_eq := f.policy_eq
  ascending := f.ascending.filter _
  bounded := Nat.le_trans (List.length_filter_le ..) f.bounded
  found j := by
    rw [find?_cleanup f.ascending, followed_cleaned, ← f.found]
    cases held : m.find? j with
    | none =>
      rw [ite_self]
      rfl
    | some t =>
      have ended := mem_cleanup f.ascending now j
      rw [held] at ended
      by_cases idle : t.isIdle m.policy.idleTimeout now
      · rw [if_pos (ended.2 ⟨t, rfl, idle⟩), Option.filter_some, idle]
        rfl
      · have stays : ¬ j ∈ (m.cleanup now).1.map (·.1) := by
          rintro hj
          obtain ⟨_, ⟨⟩, also⟩ := ended.1 hj
          exact idle also
        rw [if_neg stays, Option.filter_some, Bool.eq_false_of_not_eq_true idle]
        rfl

theorem step (f : Follows policy h m) (o : Operation) :
    Follows policy (h ++ [(o, (m.operate o).1)]) (m.operate o).2 := by
  cases o with
  | add id p e =>
    cases outcome : m.add id p e with
    | ok m' =>
      have done : m.operate (.add id p e) = (.added, m') := by rw [operate, outcome]
      rw [done]
      exact f.added outcome
    | error cause =>
      have done : m.operate (.add id p e) = (.rejected cause, m) := by rw [operate, outcome]
      rw [done]
      exact f.same fun j => followed_rejected id p e cause
  | process id => exact f.process id _
  | processAll => exact f.processAll _
  | close id => exact f.close id _
  | cleanup now => exact f.cleanup now

theorem run (policy : Policy) (os : List Operation) :
    Follows policy (Session.run dialects policy os).history
      (Session.run dialects policy os).monitor := by
  have start : Follows policy [] ({ policy := policy } : Monitor dialects) :=
    ⟨rfl, .nil, Nat.zero_le _, fun _ => rfl⟩
  unfold Session.run
  generalize hs : ({ monitor := { policy := policy } } : Session dialects) = s
  have begun : Follows policy s.history s.monitor := by rwa [← hs]
  clear hs start
  -- Each operation keeps what is followed, whatever has been done before.
  induction os generalizing s with
  | nil => exact begun
  | cons o os ih => exact ih _ (begun.step o)

/-! ### Answers -/

theorem foldl_append (first : Harvest) (hs : List Harvest) :
    hs.foldl Harvest.append first =
      ⟨first.records ++ hs.flatMap (·.records), first.errors + total (·.errors) hs⟩ := by
  induction hs generalizing first with
  | nil => simp
  | cons h hs ih => simp [ih, Harvest.append, Nat.add_assoc]

/-- What is answered is what the connections would answer by themselves. -/
theorem answers (f : Follows policy h m) (o : Operation) :
    (m.operate o).1 = answer policy (m.connections.map (·.1)) (followed dialects policy h) o := by
  have of : followed dialects policy h = fun id => m.find? id := funext fun id => (f.found id).symm
  have asked {α : Type} (g : Nat → Tracked dialects → Option α) :
      ((m.connections.map (·.1)).filterMap fun id => (followed dialects policy h id).bind (g id)) =
        m.connections.filterMap fun c => g c.1 c.2 := by
    rw [of]
    exact filterMap_lookup f.ascending g
  cases o with
  | add id p e =>
    have count : (m.connections.map (·.1)).length = m.count := List.length_map ..
    rw [answer, ← f.found id, operate, Monitor.add, ← f.policy_eq, count]
    cases m.find? id with
    | none =>
      dsimp only [Option.elim]
      split_ifs <;> rfl
    | some t =>
      dsimp only [Option.elim]
      split_ifs <;> rfl
  | process id =>
    rw [answer, ← f.found id, operate, Monitor.process]
    cases m.find? id <;> rfl
  | processAll =>
    have harvests := asked fun _ t => some t.process.1
    rw [List.filterMap_eq_map'] at harvests
    simp only [answer, Option.map_eq_bind, Function.comp_def]
    rw [harvests, operate, Monitor.processAll, List.map_map, foldl_append, List.nil_append,
      Nat.zero_add]
    rfl
  | close id =>
    rw [answer, ← f.found id]
    rfl
  | cleanup now =>
    rw [answer, asked, operate, Monitor.cleanup, f.policy_eq, ← List.filterMap_eq_map',
      List.filterMap_filter]
    simp only [Tracked.isIdle, decide_eq_true_eq]

/-- The numbers that are held are those under which there is a life. -/
theorem mem_numbers (f : Follows policy h m) (id : Nat) :
    id ∈ m.connections.map (·.1) ↔ (life h id).isSome := by
  have held : id ∈ m.connections.map (·.1) ↔ m.find? id ≠ none := by
    rw [find?, ne_eq, lookup_eq_none_iff, not_not]
  rw [held, f.found, followed, ne_eq, Option.map_eq_none_iff, Option.isSome_iff_ne_none]

end Follows

/-- **Connections do not touch each other**, whatever the rules of their protocols are. Whatever was
asked of a monitor, it holds under each number just the connection that the life under this number
brings about, and no more connections than are allowed. To any further operation it answers what
these connections would answer by themselves: those that are processed at once do so by ascending
number, and those that are cleaned up are the ones that have been idle for too long. An event that
is rejected changes nothing. -/
theorem Session.isolated (dialects : Protocol → Dialect) (policy : Policy) (os : List Operation) :
    let s := Session.run dialects policy os
    (∀ id, s.monitor.find? id = followed dialects policy s.history id) ∧
      s.monitor.count ≤ policy.maxConnections ∧
      (∃ ids : List Nat, ids.Pairwise (· < ·) ∧ (∀ id, id ∈ ids ↔ (life s.history id).isSome) ∧
        s.monitor.count = ids.length ∧
        ∀ o, (s.monitor.operate o).1 = answer policy ids (followed dialects policy s.history) o) ∧
      (∀ o cause, (s.monitor.operate o).1 = .rejected cause →
        (s.monitor.operate o).2 = s.monitor) ∧
      ∀ now id, (s.monitor.operate (.cleanup now)).2.find? id =
        (followed dialects policy s.history id).filter fun t =>
          now - t.connection.lastEvent ≤ policy.idleTimeout := by
  intro s
  have f : Follows policy s.history s.monitor := .run policy os
  refine ⟨f.found, f.bounded, ⟨s.monitor.connections.map (·.1), ?_, f.mem_numbers, ?_, f.answers⟩,
    ?_, fun now id => ?_⟩
  · exact List.pairwise_map.2 f.ascending
  · exact (List.length_map ..).symm
  · intro o cause refused
    cases o with
    | add id p e =>
      cases outcome : s.monitor.add id p e with
      | ok m =>
        rw [Monitor.operate, outcome] at refused
        cases refused
      | error _ => rw [Monitor.operate, outcome]
    | process | processAll | close | cleanup => cases refused
  · refine (find?_cleanup f.ascending now id).trans ?_
    rw [f.found, f.policy_eq]
    refine congrArg (Option.filter · _) (funext fun t => ?_)
    simp only [Tracked.isIdle, ← decide_not, Nat.not_lt]

/-- A number is cleaned up once it has been idle for too long, and then stands for a new connection;
there is room for this one only. -/
def crowded : List Operation :=
  [.add 7 .mux ⟨.request, 0, 5, [0]⟩, .cleanup 15, .cleanup 16, .add 7 .dns ⟨.request, 0, 20, [0]⟩]

theorem Session.isolated_crowded :
    let policy : Policy := { maxConnections := 1, idleTimeout := 10 }
    let rules : Protocol → Dialect := fun p => p.dialect
    let s := Session.run rules policy crowded
    let late : Operation := .add 8 .dns ⟨.request, 0, 30, [0]⟩
    (life s.history 7).map (fun l => (l.protocol, l.actions.length)) = some (.dns, 1) ∧
      s.monitor.find? 7 = followed rules policy s.history 7 ∧
      (s.monitor.operate late).1 = .rejected (.connectionLimit 1) ∧
      (s.monitor.operate late).2 = s.monitor := by
  intro policy rules s late
  obtain ⟨found, -, -, kept, -⟩ := Session.isolated rules policy crowded
  have refused : (s.monitor.operate late).1 = .rejected (.connectionLimit 1) := by
    decide +kernel
  exact ⟨by decide +kernel, found 7, refused, kept late _ refused⟩

end Dialogue.Monitor
