import Mathlib
import Dialogue.Proofs.Pairing
import Dialogue.Proofs.Amqp.Marks
import Dialogue.Proofs.Amqp.Matching

/-!
What one pass over a channel makes of every span.

1. One response is taken in as the matching says: it is paired with no call (`takeIn_of_none`), or
   with one, behind those that are passed over (`takeIn_of_some`).
2. So either way what is recorded, counted and left waiting is what the matching says of the
   response and of those behind it (`Accounts.unpaired`, `Accounts.paired`), and by induction
   nothing is recorded twice or lost (`accounts_foldl`).
3. The calls that wait at the end are those that are neither answered nor passed over
   (`Matching.settled_iff`), so the frames that stay are what is left when the spans that have been
   dealt with are marked and swept out (`pairing_accounted`).
-/
namespace Dialogue.Amqp

/-! ## One response -/

section
variable {p : Progress} {r : Message} {passed rest : List Call} {c : Call}

theorem foldl_record (p : Progress) (calls : List Call) :
    calls.foldl (fun p c => p.record { request := some c.message }) p =
      { p with
        found := (calls.map fun c => ({ request := some c.message } : Exchange)).reverse ++
          p.found } := by
  induction calls generalizing p with
  | nil => rfl
  | cons c calls ih =>
    rw [List.foldl_cons, ih]
    simp [Pairing.Progress.record]

theorem answer_of_none (others : ∀ c ∈ p.state, c.answeredBy r = false) :
    answer p r = p.miss := by
  have nothing : p.state.dropWhile (!·.answeredBy r) = [] := by
    rw [List.dropWhile_eq_nil_iff]
    intro c hc
    simp [others c hc]
  simp only [answer, Pairing.drop_length_takeWhile, nothing]

theorem answer_of_some (waiting : p.state = passed ++ c :: rest) (hit : c.answeredBy r = true)
    (others : ∀ b ∈ passed, b.answeredBy r = false) :
    answer p r =
      { p with
        found := ⟨some c.message, some r⟩ ::
          (passed.map fun c => ({ request := some c.message } : Exchange)).reverse ++ p.found
        state := rest } := by
  have stale : ∀ b ∈ passed, (!b.answeredBy r) = true := by
    intro b hb
    simp [others b hb]
  have taken : p.state.takeWhile (!·.answeredBy r) = passed := by
    rw [waiting, List.takeWhile_append_of_pos stale]
    simp [hit]
  have found : p.state.drop passed.length = c :: rest := by rw [waiting, List.drop_left]
  simp only [answer, taken, found, foldl_record]
  rfl

end

section
variable {p : Progress} {ss before after : List Span} {s t : Span}

theorem takeIn_reply {r : Message} (reply : t.reply? = some r) : takeIn p t = answer p r := by
  obtain ⟨message, isReply⟩ := Option.filter_eq_some_iff.1 reply
  obtain ⟨frames, item⟩ := t
  cases item with
  | noise => cases message
  | orphan => cases message
  | message m =>
    obtain rfl : m = r := Option.some.inj message
    simp only [takeIn, isReply, if_true]

/-- A response that answers no call that waits. -/
theorem takeIn_of_none (waiting : p.state = ss.filterMap Span.call?)
    (others : ∀ s ∈ ss, t.answers s = false) :
    takeIn p t =
      { p with
        found := t.unasked?.toList ++ p.found
        errors := p.errors + (if t.item == .orphan then 1 else 0) +
          if t.reply?.isSome then 1 else 0 } := by
  obtain ⟨frames, item⟩ := t
  cases item with
  | noise => rfl
  | orphan => rfl
  | message m =>
    cases isReply : m.method.isReply with
    | false =>
      simp [takeIn, isReply, Span.unasked?, Span.reply?, Item.message?, Pairing.Progress.record,
        Option.filter]
    | true =>
      have reply : Span.reply? ⟨frames, .message m⟩ = some m := by
        simp [Span.reply?, Item.message?, isReply, Option.filter]
      have unanswered : ∀ c ∈ p.state, c.answeredBy m = false := by
        intro c hc
        rw [waiting] at hc
        obtain ⟨s, hs, call⟩ := List.mem_filterMap.1 hc
        simpa [Span.answers, reply, call] using others s hs
      rw [takeIn_reply reply, answer_of_none unanswered, reply]
      simp [isReply, Span.unasked?, Item.message?, Pairing.Progress.miss, Option.filter]

/-- A reply that is paired with a call, behind calls that are passed over. -/
theorem takeIn_of_some (waiting : p.state = (before ++ s :: after).filterMap Span.call?)
    (hit : t.answers s = true) (others : ∀ b ∈ before, t.answers b = false) :
    takeIn p t =
      { p with
        found := (s.answered? t).toList ++ (before.filterMap Span.unanswered?).reverse ++ p.found
        state := after.filterMap Span.call? } := by
  obtain ⟨r, c, reply, call, suits⟩ := Span.answers_iff.1 hit
  have unanswered : ∀ c ∈ before.filterMap Span.call?, c.answeredBy r = false := by
    intro c hc
    obtain ⟨b, hb, call⟩ := List.mem_filterMap.1 hc
    simpa [Span.answers, reply, call] using others b hb
  have parted : p.state = before.filterMap Span.call? ++ c :: after.filterMap Span.call? := by
    rw [waiting, List.filterMap_append, List.filterMap_cons_some call]
  have alone : before.filterMap Span.unanswered? = (before.filterMap Span.call?).map
      fun c => ({ request := some c.message } : Exchange) := by
    rw [List.map_filterMap]
    rfl
  rw [takeIn_reply reply, answer_of_some parted suits unanswered, alone]
  simp [Span.answered?, call, reply]

end

/-! ## All of them -/

section
variable {partner later : Nat → Option Nat} {n l : Nat} {asked told : List Span} {t : Span}

theorem responses_cons (shifted : ∀ j, partner (j + 1) = later j) :
    (t :: told).zipIdx.filterMap (responseExchange partner asked) =
      (responseExchange partner asked (t, 0)).toList ++
        told.zipIdx.filterMap (responseExchange later asked) := by
  have same (u : Span × Nat) :
      responseExchange partner asked (u.1, u.2 + 1) = responseExchange later asked u := by
    simp only [responseExchange, shifted]
  rw [List.zipIdx_cons, List.zipIdx_succ, List.filterMap_cons, List.filterMap_map]
  cases responseExchange partner asked (t, 0) <;> simp [same]

theorem strays_cons (shifted : ∀ j, partner (j + 1) = later j) :
    strays partner (t :: told) =
      (if t.reply?.isSome && (partner 0).isNone then 1 else 0) + strays later told := by
  unfold strays
  rw [List.zipIdx_cons, List.zipIdx_succ, List.countP_cons, List.countP_map, Nat.add_comm]
  simp [Function.comp_def, shifted]

/-- Where a response is paired with no call, calls are passed over or wait as the responses behind
it have it. -/
theorem requests_of_none (shifted : ∀ j, partner (j + 1) = later j) (first : partner 0 = none) :
    passedExchange partner (n + 1) = passedExchange later n ∧
      waitingCall partner (n + 1) = waitingCall later n := by
  constructor
  · funext s
    simp [passedExchange, passed_succ shifted, first]
  · funext s
    simp [waitingCall, waits_succ shifted, first]

/-- Requests before a place, at it and behind it, each taken by a rule of its own. -/
theorem filterMap_parted {β : Type} {f g : Span × Nat → Option β} {h : Span → Option β}
    {before after : List Span} {s : Span} {next : Nat} (place : l = next + before.length)
    (front : ∀ x, x.2 < l → f x = h x.1) (there : ∀ s, f (s, l) = none)
    (behind : ∀ x, l < x.2 → f x = g x) :
    ((before ++ s :: after).zipIdx next).filterMap f =
      before.filterMap h ++ (after.zipIdx (l + 1)).filterMap g := by
  have early : (before.zipIdx next).filterMap f = before.filterMap h := by
    calc (before.zipIdx next).filterMap f
        = (before.zipIdx next).filterMap (h ∘ Prod.fst) := by
          apply List.filterMap_congr
          intro x hx
          have bounds := (List.mem_zipIdx hx).2.1
          exact front x (by omega)
      _ = before.filterMap h := by rw [← List.filterMap_map, List.zipIdx_map_fst]
  have late : (after.zipIdx (l + 1)).filterMap f = (after.zipIdx (l + 1)).filterMap g := by
    apply List.filterMap_congr
    intro x hx
    exact behind x (List.le_snd_of_mem_zipIdx hx)
  rw [List.zipIdx_append, List.zipIdx_cons, List.filterMap_append, early, ← place,
    List.filterMap_cons_none (there s), late]

/-- Where a response is paired with a call, those before it are passed over. -/
theorem passed_of_some (shifted : ∀ j, partner (j + 1) = later j) (first : partner 0 = some l)
    {before after : List Span} {s : Span} {next : Nat} (place : l = next + before.length) :
    ((before ++ s :: after).zipIdx next).filterMap (passedExchange partner (n + 1)) =
      before.filterMap Span.unanswered? ++
        (after.zipIdx (l + 1)).filterMap (passedExchange later n) := by
  apply filterMap_parted place
  · intro x lt
    simp [passedExchange, passed_succ shifted, first, lt]
  · intro s
    simp [passedExchange, passed_succ shifted, first]
  · intro x lt
    simp [passedExchange, passed_succ shifted, first, lt, Nat.lt_asymm lt]

/-- Where a response is paired with a call, neither it nor those before it wait. -/
theorem waiting_of_some (shifted : ∀ j, partner (j + 1) = later j) (first : partner 0 = some l)
    {before after : List Span} {s : Span} {next : Nat} (place : l = next + before.length) :
    ((before ++ s :: after).zipIdx next).filterMap (waitingCall partner (n + 1)) =
      (after.zipIdx (l + 1)).filterMap (waitingCall later n) := by
  have parted : ((before ++ s :: after).zipIdx next).filterMap (waitingCall partner (n + 1)) =
      before.filterMap (fun _ => none) ++
        (after.zipIdx (l + 1)).filterMap (waitingCall later n) := by
    apply filterMap_parted place
    · intro x lt
      simp [waitingCall, waits_succ shifted, first, Nat.lt_asymm lt]
    · intro s
      simp [waitingCall, waits_succ shifted, first]
    · intro x lt
      simp [waitingCall, waits_succ shifted, first, lt]
  simpa using parted

end

/-- What it comes to when responses are taken in while the calls from a place on wait. -/
structure Accounts (asked told : List Span) (next : Nat) (p q : Progress) : Prop where
  found : q.found.Perm (p.found ++
    ((asked.drop next).zipIdx next).filterMap
      (passedExchange (partnerFrom asked next told) told.length) ++
    told.zipIdx.filterMap (responseExchange (partnerFrom asked next told) asked))
  errors : q.errors =
    p.errors + told.countP (·.item == .orphan) + strays (partnerFrom asked next told) told
  state : q.state = ((asked.drop next).zipIdx next).filterMap
    (waitingCall (partnerFrom asked next told) told.length)

section
variable {asked told : List Span} {next : Nat} {p q : Progress} {t : Span}

theorem Accounts.nil (waiting : p.state = (asked.drop next).filterMap Span.call?) :
    Accounts asked [] next p p := by
  have passed (s : Span × Nat) : passedExchange (partnerFrom asked next []) 0 s = none :=
    if_neg passed_zero
  have waits (s : Span × Nat) : waitingCall (partnerFrom asked next []) 0 s = s.1.call? :=
    if_pos waits_zero
  constructor
  · simp [passed]
  · simp [strays]
  · calc p.state
        = (((asked.drop next).zipIdx next).map Prod.fst).filterMap Span.call? := by
          rw [List.zipIdx_map_fst, waiting]
      _ = _ := by
          rw [List.filterMap_map]
          exact (List.filterMap_congr fun s _ => waits s).symm

/-- A response that is paired with no call leaves the same calls to those behind it. -/
theorem Accounts.unpaired (found : firstAnswered asked next t = none)
    (waiting : p.state = (asked.drop next).filterMap Span.call?)
    (rest : (takeIn p t).state = (asked.drop next).filterMap Span.call? →
      Accounts asked told next (takeIn p t) q) : Accounts asked (t :: told) next p q := by
  have first : partnerFrom asked next (t :: told) 0 = none := found
  have shifted (j : Nat) :
      partnerFrom asked next (t :: told) (j + 1) = partnerFrom asked next told j := by
    rw [partnerFrom, found]
    rfl
  have taken := takeIn_of_none waiting (not_answers_of_none found)
  have same : (takeIn p t).state = p.state := by rw [taken]
  obtain ⟨exchanges, errors, state⟩ := rest (same.trans waiting)
  obtain ⟨passed, waits⟩ := requests_of_none (n := told.length) shifted first
  have alone : responseExchange (partnerFrom asked next (t :: told)) asked (t, 0) =
      t.unasked? := by
    simp [responseExchange, first]
  constructor
  · rw [List.length_cons, passed, responses_cons shifted, alone]
    apply exchanges.trans
    rw [taken, List.perm_iff_count]
    intro x
    simp only [List.count_append]
    omega
  · rw [errors, taken, strays_cons shifted, first, List.countP_cons]
    simp
    omega
  · rw [state, List.length_cons, waits]

/-- A reply that is paired with a call leaves the calls behind that one to those behind it. -/
theorem Accounts.paired {l : Nat} (found : firstAnswered asked next t = some l)
    (waiting : p.state = (asked.drop next).filterMap Span.call?)
    (rest : (takeIn p t).state = (asked.drop (l + 1)).filterMap Span.call? →
      Accounts asked told (l + 1) (takeIn p t) q) : Accounts asked (t :: told) next p q := by
  have first : partnerFrom asked next (t :: told) 0 = some l := found
  -- For the responses behind, the calls begin behind the one that is answered.
  have shifted (j : Nat) :
      partnerFrom asked next (t :: told) (j + 1) = partnerFrom asked (l + 1) told j := by
    rw [partnerFrom, found]
    rfl
  obtain ⟨before, s, parted, place, there, hit, others⟩ := drop_of_firstAnswered found
  obtain ⟨r, c, reply, call, -⟩ := Span.answers_iff.1 hit
  rw [parted] at waiting
  have taken := takeIn_of_some waiting hit others
  have behind : (takeIn p t).state = (asked.drop (l + 1)).filterMap Span.call? := by rw [taken]
  obtain ⟨exchanges, errors, state⟩ := rest behind
  -- The reply adds the exchange with its call and those of the calls before it, and no error.
  obtain ⟨unasked, known⟩ := Span.alone_of_reply reply
  have together : responseExchange (partnerFrom asked next (t :: told)) asked (t, 0) =
      s.answered? t := by
    simp [responseExchange, unasked, first, there]
  constructor
  · rw [List.length_cons, parted, passed_of_some shifted first place, responses_cons shifted,
      together]
    apply exchanges.trans
    rw [taken, List.perm_iff_count]
    intro x
    simp only [List.count_append, List.count_reverse]
    omega
  · rw [errors, taken, strays_cons shifted, first, List.countP_cons, known]
    simp
  · rw [state, List.length_cons, parted, waiting_of_some shifted first place]

theorem accounts_foldl (waiting : p.state = (asked.drop next).filterMap Span.call?) :
    Accounts asked told next p (told.foldl takeIn p) := by
  induction told generalizing next p with
  | nil => exact .nil waiting
  | cons t told ih =>
    cases found : firstAnswered asked next t with
    | none => exact .unpaired found waiting ih
    | some l => exact .paired found waiting ih

end

/-! ## A pass -/

/-- Two rules of which at most one applies, together or one after the other. -/
theorem filterMap_or {α β : Type} {f g : α → Option β} {xs : List α}
    (apart : ∀ x ∈ xs, ∀ y, f x = some y → g x = none) :
    (xs.filterMap fun x => (f x).or (g x)).Perm (xs.filterMap f ++ xs.filterMap g) := by
  induction xs with
  | nil => exact .nil
  | cons x xs ih =>
    have rest := ih fun x hx => apart x (List.mem_cons_of_mem _ hx)
    cases first : f x with
    | some y =>
      have second := apart x List.mem_cons_self y first
      simpa [first, second] using rest
    | none =>
      cases second : g x with
      | none => simpa [first, second] using rest
      | some y =>
        simp only [List.filterMap_cons, first, second, Option.none_or]
        exact (rest.cons y).trans List.perm_middle.symm

/-- Whether frames are what is left of a queue when the spans that have been dealt with are marked,
in whichever order, and their frames are swept out. -/
def Leaves (queue : List (Stamped Frame)) (dealt : Nat → Prop) (left : List (Stamped Frame)) :
    Prop :=
  ∀ order : List Nat, (∀ i, i ∈ order ↔ dealt i) →
    ∃ flags, markAll (placed queue) order (List.replicate queue.length false) = some flags ∧
      sweep flags queue = left

/-- Where every span is dealt with, only what is unfinished is left. -/
theorem leaves_unfinished (queue : List (Stamped Frame)) :
    Leaves queue (· < (spans queue).length) (unfinished queue) := by
  intro order dealt
  obtain ⟨flags, marked, swept⟩ := sweep_marked fun i hi => (dealt i).1 hi
  have nothing : undealt (fun i => decide (i ∈ order)) (spans queue) = [] := by
    unfold undealt
    rw [List.map_eq_nil_iff, List.filter_eq_nil_iff]
    intro s hs
    have bound := (List.mem_zipIdx hs).2.1
    have member : s.2 ∈ order := (dealt s.2).2 (by omega)
    simp [member]
  rw [nothing, List.flatMap_nil, List.nil_append] at swept
  exact ⟨flags, marked, swept⟩

namespace Matching

variable {asked told : List Span} {M : Matching asked told}

theorem settled_iff {s : Span} {i : Nat} (there : asked[i]? = some s) :
    M.Settled i ↔ waitingCall M.partner told.length (s, i) = none := by
  have waits : ¬Waits M.partner told.length i ↔ M.Passed i ∨ M.Answered i := not_waits_iff
  simp only [Settled, there, Option.some.injEq, exists_eq_left', ← waits, waitingCall]
  by_cases still : Waits M.partner told.length i <;> simp [still]

/-- The calls that wait have the frames of the spans that are not dealt with. -/
theorem frames_waiting {order : List Nat} (dealt : ∀ i, i ∈ order ↔ M.Settled i) :
    (asked.zipIdx.filterMap (waitingCall M.partner told.length)).flatMap (·.frames) =
      (undealt (fun i => decide (i ∈ order)) asked).flatMap (·.frames) := by
  have agree : ∀ s ∈ asked.zipIdx,
      s.2 ∈ order ↔ waitingCall M.partner told.length s = none := by
    intro s hs
    rw [dealt, settled_iff (List.mem_zipIdx_iff_getElem?.1 hs)]
  -- By induction on the spans, each with the place that it has among all of them.
  unfold undealt
  generalize asked.zipIdx = ss at agree ⊢
  induction ss with
  | nil => rfl
  | cons s ss ih =>
    have rest := ih fun s hs => agree s (List.mem_cons_of_mem _ hs)
    have first := agree s List.mem_cons_self
    cases waiting : waitingCall M.partner told.length s with
    | none =>
      have member : s.2 ∈ order := first.2 waiting
      simpa [waiting, member] using rest
    | some c =>
      have other : s.2 ∉ order := by
        rw [first, waiting]
        exact Option.some_ne_none c
      have frames : c.frames = s.1.frames := by
        unfold waitingCall at waiting
        split_ifs at waiting
        exact Span.frames_of_call? waiting
      simpa [waiting, other, frames] using rest

/-- Where the calls that wait are not dealt with, they are left before what is unfinished. -/
theorem leaves_waiting {queue : List (Stamped Frame)} (M : Matching (spans queue) told) :
    Leaves queue M.Settled
      (((spans queue).zipIdx.filterMap (waitingCall M.partner told.length)).flatMap (·.frames) ++
        unfinished queue) := by
  intro order dealt
  have there : ∀ i ∈ order, i < (spans queue).length := by
    intro i hi
    obtain ⟨s, there, -⟩ := (dealt i).1 hi
    exact (List.getElem?_eq_some_iff.1 there).1
  obtain ⟨flags, marked, swept⟩ := sweep_marked there
  rw [← M.frames_waiting dealt] at swept
  exact ⟨flags, marked, swept⟩

end Matching

/-- The exchanges of the requests are those that are recorded at once and those of the calls that
are passed over. -/
theorem requests_perm {asked told : List Span} (M : Matching asked told) :
    (asked.zipIdx.filterMap M.ofRequest).Perm
      (asked.filterMap Span.alone? ++
        asked.zipIdx.filterMap (passedExchange M.partner told.length)) := by
  have alone : asked.zipIdx.filterMap (fun s => s.1.alone?) = asked.filterMap Span.alone? := by
    calc asked.zipIdx.filterMap (fun s => s.1.alone?)
        = (asked.zipIdx.map Prod.fst).filterMap Span.alone? := by
          rw [List.filterMap_map]
          rfl
      _ = asked.filterMap Span.alone? := by rw [List.zipIdx_map_fst]
  rw [← alone]
  apply filterMap_or
  intro s _ x alone
  simp [passedExchange, Span.unanswered?_of_alone alone]

/-- **A pass over a channel loses nothing and counts nothing twice.** There is a matching of the
replies with the calls: each reply has the oldest call that waits among those that it answers. The
exchanges are exactly one for every message of the client that is no call, one for every call that
is passed over, one for every message of the server that is no reply, and one for every reply that
has a call, together with it; no call has two of them. They come in the order of their times. What
is counted is the content without a method, and the replies that have no call. What is left are the
calls that are neither answered nor passed over and the frames that may still become a message, in
order: to mark all other spans and to sweep out their frames leaves the same. -/
theorem pairing_accounted (lane : Lane Frame) :
    let asked := spans lane.requests
    let told := spans lane.responses
    let M := matching asked told
    let paired := pair lane
    paired.exchanges.Perm
        (asked.zipIdx.filterMap M.ofRequest ++ told.zipIdx.filterMap M.ofResponse) ∧
      (∀ j i, M.partner j = some i →
        ∃ s t c r, asked[i]? = some s ∧ told[j]? = some t ∧ s.call? = some c ∧
          t.reply? = some r ∧ c.answeredBy r = true ∧
          M.ofResponse (t, j) = some ⟨some c.message, some r⟩) ∧
      (∀ i, (∀ j k, M.partner j = some i → M.partner k = some i → j = k) ∧
        ¬(M.Passed i ∧ M.Answered i)) ∧
      paired.exchanges.Pairwise (fun x y => x.firstTime ≤ y.firstTime) ∧
      paired.errors = asked.countP (·.item == .orphan) + told.countP (·.item == .orphan) +
        strays M.partner told ∧
      Leaves lane.requests M.Settled paired.left.requests ∧
      Leaves lane.responses (· < told.length) paired.left.responses := by
  intro asked told M paired
  let start : Progress :=
    { found := (asked.filterMap Span.alone?).reverse
      errors := asked.countP (·.item == .orphan)
      state := asked.filterMap Span.call? }
  obtain ⟨found, errors, state⟩ : Accounts asked told 0 start (told.foldl takeIn start) :=
    accounts_foldl rfl
  refine ⟨?_, fun _ _ => M.ofResponse_of_partner, ?_, ?_, errors, ?_, ?_⟩
  · have sorted : paired.exchanges.Perm (told.foldl takeIn start).found :=
      (List.mergeSort_perm _ _).trans (List.reverse_perm _)
    have requests : (start.found ++ asked.zipIdx.filterMap
        (passedExchange M.partner told.length)).Perm (asked.zipIdx.filterMap M.ofRequest) :=
      ((List.reverse_perm _).append_right _).trans (requests_perm M).symm
    exact (sorted.trans found).trans (requests.append_right _)
  · intro i
    refine ⟨fun j k => M.partner_injective, ?_⟩
    rintro ⟨passed, answered⟩
    exact M.not_answered_of_passed passed answered
  · have earlier : paired.exchanges.Pairwise
        fun x y => decide (x.firstTime ≤ y.firstTime) = true := by
      apply List.pairwise_mergeSort
      · intro x y z first second
        simp only [decide_eq_true_eq] at first second ⊢
        exact first.trans second
      · intro x y
        simpa using Nat.le_total x.firstTime y.firstTime
    simpa using earlier
  · have left : paired.left.requests =
        (asked.zipIdx.filterMap (waitingCall M.partner told.length)).flatMap (·.frames) ++
          unfinished lane.requests :=
      congrArg (fun calls : List Call => calls.flatMap (·.frames) ++ unfinished lane.requests) state
    rw [left]
    exact M.leaves_waiting
  · exact leaves_unfinished lane.responses

/-- A channel with a call that is passed over, one that is answered, a publication, a heartbeat and
a call that goes on waiting; and with the reply, one that answers nothing, a delivery, a lost body
frame and a delivery to come. -/
def busy : Lane Frame :=
  let frame (time : Nat) (kind : Kind) (payload : Bytes) : Stamped Frame :=
    ⟨time, 1, kind, payload, 0⟩
  ⟨[frame 1 (.method ⟨50, 10⟩) [], frame 2 (.method ⟨60, 10⟩) [], frame 3 (.method ⟨60, 40⟩) [],
      frame 4 (.contentHeader 60 2) [], frame 5 .contentBody [0x68, 0x69], frame 6 .heartbeat [],
      frame 7 (.method ⟨90, 10⟩) []],
    [frame 8 (.method ⟨60, 11⟩) [], frame 9 (.method ⟨50, 11⟩) [], frame 10 (.method ⟨60, 60⟩) [],
      frame 11 (.contentHeader 60 0) [], frame 12 .contentBody [0x68],
      frame 13 (.method ⟨60, 60⟩) []]⟩

theorem pairing_accounted_busy :
    (∃ x ∈ (pair busy).exchanges,
        x.request.map (·.time) = some 2 ∧ x.response.map (·.time) = some 8) ∧
      (pair busy).errors = 2 ∧
      (pair busy).left = ⟨busy.requests.drop 6, busy.responses.drop 5⟩ ∧
      ∃ flags, markAll (placed busy.requests) [2, 3, 0, 1] (List.replicate 7 false) = some flags ∧
        sweep flags busy.requests = (pair busy).left.requests := by
  obtain ⟨exchanges, -, -, -, -, requests, -⟩ := pairing_accounted busy
  have decided : ∀ i < 5, i ∈ [2, 3, 0, 1] ↔
      waitingCall (matching (spans busy.requests) (spans busy.responses)).partner
        (spans busy.responses).length ((spans busy.requests).getD i ⟨[], .noise⟩, i) = none := by
    decide +kernel
  have five : (spans busy.requests).length = 5 := by decide +kernel
  have dealt (i : Nat) : i ∈ [2, 3, 0, 1] ↔
      (matching (spans busy.requests) (spans busy.responses)).Settled i := by
    cases there : (spans busy.requests)[i]? with
    | some s =>
      have lt := (List.getElem?_eq_some_iff.1 there).1
      have here := decided i (five ▸ lt)
      rw [List.getD, there] at here
      exact here.trans (Matching.settled_iff there).symm
    | none =>
      have ge := List.getElem?_eq_none_iff.1 there
      constructor
      · intro member
        have place : i = 2 ∨ i = 3 ∨ i = 0 ∨ i = 1 := by simpa using member
        omega
      · rintro ⟨s, here, -⟩
        rw [there] at here
        cases here
  have reply : ∃ x ∈ (spans busy.responses).zipIdx.filterMap
      (matching (spans busy.requests) (spans busy.responses)).ofResponse,
      x.request.map (·.time) = some 2 ∧ x.response.map (·.time) = some 8 := by decide +kernel
  obtain ⟨x, found, times⟩ := reply
  exact ⟨⟨x, exchanges.mem_iff.2 (List.mem_append_right _ found), times⟩, by decide +kernel,
    by decide +kernel, requests [2, 3, 0, 1] dealt⟩

end Dialogue.Amqp
