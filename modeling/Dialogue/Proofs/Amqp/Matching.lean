import Mathlib
import Dialogue.Amqp

/-!
Which call each reply is paired with.

It can be said of the places of the spans alone (`Matching`): a reply is paired with the oldest call
that waits among those that it answers. That settles what becomes of everything else. A call waits
until a reply is paired with it or with a later one (`Waits`); in the second case it is passed over
(`Passed`) and recorded alone.

The matching of a pass is found by looking for the first call from a place on (`partnerFrom`). What
is found is the oldest call that waits (`partnerFrom_eq_some_iff`).
-/
namespace Dialogue.Amqp

/-! ## What a span is -/

def Item.message? : Item → Option Message
  | .message m => some m
  | .noise => none
  | .orphan => none

namespace Span

/-- The reply that a span of the responses is. -/
def reply? (t : Span) : Option Message := t.item.message?.filter (·.method.isReply)

/-- The exchange of a span of the responses that answers nothing. -/
def unasked? (t : Span) : Option Exchange :=
  (t.item.message?.filter (!·.method.isReply)).map fun m => { response := some m }

/-- Whether a span of the responses is a reply to the call that a span of the requests is. -/
def answers (t s : Span) : Bool := t.reply?.any fun r => s.call?.any (·.answeredBy r)

/-- The exchange of a call without a reply. -/
def unanswered? (s : Span) : Option Exchange :=
  s.call?.map fun c => { request := some c.message }

/-- The exchange of a call with its reply. -/
def answered? (s t : Span) : Option Exchange :=
  s.call?.bind fun c => t.reply?.map fun r => ⟨some c.message, some r⟩

variable {s t : Span}

theorem answers_iff :
    t.answers s = true ↔ ∃ r c, t.reply? = some r ∧ s.call? = some c ∧ c.answeredBy r = true := by
  simp [answers, Option.any_eq_true]

/-- A reply is not recorded alone, and is no orphan. -/
theorem alone_of_reply {r : Message} (reply : t.reply? = some r) :
    t.unasked? = none ∧ (t.item == .orphan) = false := by
  obtain ⟨message, isReply⟩ := Option.filter_eq_some_iff.1 reply
  constructor
  · simp [unasked?, message, isReply, Option.filter]
  · cases item : t.item with
    | orphan => simp [item, Item.message?] at message
    | _ => rfl

/-- What is recorded alone is no call. -/
theorem unanswered?_of_alone {x : Exchange} (alone : s.alone? = some x) : s.unanswered? = none := by
  unfold alone? at alone
  split at alone
  · next m item =>
    split at alone
    · cases alone
    · next other => simp [unanswered?, call?, item, other]
  · cases alone

end Span

/-! ## Matchings -/

section
variable (partner : Nat → Option Nat)

/-- Whether a request still waits when a response comes: the replies before have been paired with
requests before it. -/
def Waits (j i : Nat) : Prop := ∀ k < j, ∀ l ∈ partner k, l < i

/-- Whether one of the first `n` responses is paired with a later request while a request waits. -/
def Passed (n i : Nat) : Prop := ∃ j < n, ∃ l ∈ partner j, i < l ∧ Waits partner j i

/-- Whether one of the first `n` responses is paired with a request. -/
def Answered (n i : Nat) : Prop := ∃ j < n, i ∈ partner j

instance (j i : Nat) : Decidable (Waits partner j i) :=
  inferInstanceAs (Decidable (∀ k < j, ∀ l ∈ partner k, l < i))

instance (n i : Nat) : Decidable (Passed partner n i) :=
  inferInstanceAs (Decidable (∃ j < n, ∃ l ∈ partner j, i < l ∧ Waits partner j i))

/-- The exchange of a call that is passed over by the first `n` responses. -/
def passedExchange (n : Nat) (s : Span × Nat) : Option Exchange :=
  if Passed partner n s.2 then s.1.unanswered? else none

/-- The call of a span that waits behind the first `n` responses. -/
def waitingCall (n : Nat) (s : Span × Nat) : Option Call :=
  if Waits partner n s.2 then s.1.call? else none

/-- The exchange of a span of the responses: alone unless it is a reply, and that of a reply with
the call that it is paired with. -/
def responseExchange (asked : List Span) (t : Span × Nat) : Option Exchange :=
  t.1.unasked?.or ((partner t.2).bind fun i => asked[i]?.bind fun s => s.answered? t.1)

/-- The number of replies that are paired with no call. -/
def strays (told : List Span) : Nat :=
  told.zipIdx.countP fun t => t.1.reply?.isSome && (partner t.2).isNone

end

/-- Which request each response is paired with, by their places: the oldest one that waits among the
calls that it answers. -/
structure Matching (asked told : List Span) where
  partner : Nat → Option Nat
  oldest : ∀ j i, partner j = some i ↔
    IsLeast {i | Waits partner j i ∧
      ∃ s t, asked[i]? = some s ∧ told[j]? = some t ∧ t.answers s = true} i

section
variable {partner later : Nat → Option Nat} {n i : Nat}

theorem waits_zero : Waits partner 0 i := nofun

theorem waits_succ (shifted : ∀ j, partner (j + 1) = later j) :
    Waits partner (n + 1) i ↔ (∀ l ∈ partner 0, l < i) ∧ Waits later n i := by
  simp only [Waits, Nat.forall_lt_succ_left, shifted]

theorem passed_zero : ¬Passed partner 0 i := by
  rintro ⟨j, lt, -⟩
  exact Nat.not_lt_zero j lt

theorem passed_succ (shifted : ∀ j, partner (j + 1) = later j) :
    Passed partner (n + 1) i ↔
      (∃ l ∈ partner 0, i < l) ∨ ((∀ l ∈ partner 0, l < i) ∧ Passed later n i) := by
  simp only [Passed, Nat.exists_lt_succ_left, shifted, waits_succ shifted]
  constructor
  · rintro (⟨l, first, lt, -⟩ | ⟨j, lt, l, paired, before, past, waits⟩)
    · exact .inl ⟨l, first, lt⟩
    · exact .inr ⟨past, j, lt, l, paired, before, waits⟩
  · rintro (⟨l, first, lt⟩ | ⟨past, j, lt, l, paired, before, waits⟩)
    · exact .inl ⟨l, first, lt, waits_zero⟩
    · exact .inr ⟨j, lt, l, paired, before, past, waits⟩

/-- A request no longer waits when it has been answered or passed over. -/
theorem not_waits_iff : ¬Waits partner n i ↔ Passed partner n i ∨ Answered partner n i := by
  -- By induction on the responses, the first of which either reaches the request or does not.
  induction n generalizing partner with
  | zero => simp [Waits, Passed, Answered]
  | succ n ih =>
    have answered : Answered partner (n + 1) i ↔
        i ∈ partner 0 ∨ Answered (fun j => partner (j + 1)) n i := Nat.exists_lt_succ_left
    rw [waits_succ fun _ => rfl, passed_succ fun _ => rfl, answered]
    by_cases past : ∀ l ∈ partner 0, l < i
    · have not_ahead : ¬∃ l ∈ partner 0, i < l := by
        rintro ⟨l, first, lt⟩
        exact Nat.lt_asymm lt (past l first)
      have not_first : i ∉ partner 0 := fun first => Nat.lt_irrefl i (past i first)
      rw [and_iff_right past, and_iff_right past, or_iff_right not_ahead, or_iff_right not_first]
      exact ih
    · push Not at past
      obtain ⟨l, first, le⟩ := past
      have not_past : ¬∀ l ∈ partner 0, l < i := fun past => Nat.not_lt.2 le (past l first)
      simp only [not_past, false_and, not_false_eq_true, true_iff, or_false]
      rcases Nat.lt_or_eq_of_le le with lt | rfl
      · exact .inl ⟨l, first, lt⟩
      · exact .inr (.inl first)

end

namespace Matching

variable {asked told : List Span} (M : Matching asked told)

/-- Whether a request is passed over. -/
def Passed (i : Nat) : Prop := Amqp.Passed M.partner told.length i

/-- Whether a request is answered. -/
def Answered (i : Nat) : Prop := Amqp.Answered M.partner told.length i

/-- The exchange of a span of the requests alone: that of any message that is no call, and that of a
call that is passed over. -/
def ofRequest (s : Span × Nat) : Option Exchange :=
  s.1.alone?.or (passedExchange M.partner told.length s)

/-- The exchange of a span of the responses. -/
def ofResponse (t : Span × Nat) : Option Exchange := responseExchange M.partner asked t

/-- Whether a span of the requests has been dealt with. A call has been when it is answered or
passed over; everything else has been. -/
def Settled (i : Nat) : Prop :=
  ∃ s, asked[i]? = some s ∧ (s.call? = none ∨ M.Passed i ∨ M.Answered i)

variable {M}

theorem waits_of_partner {j i : Nat} (paired : M.partner j = some i) : Waits M.partner j i :=
  ((M.oldest j i).1 paired).1.1

/-- No call is answered twice. -/
theorem partner_injective {j k i : Nat} (first : M.partner j = some i)
    (second : M.partner k = some i) : j = k := by
  rcases Nat.lt_trichotomy j k with lt | same | lt
  · exact absurd (waits_of_partner second j lt i first) (Nat.lt_irrefl i)
  · exact same
  · exact absurd (waits_of_partner first k lt i second) (Nat.lt_irrefl i)

/-- No call that is passed over is answered. -/
theorem not_answered_of_passed {i : Nat} (passed : M.Passed i) : ¬M.Answered i := by
  rintro ⟨j, -, paired⟩
  obtain ⟨k, -, l, ahead, lt, waits⟩ := passed
  rcases Nat.lt_trichotomy j k with before | rfl | behind
  · exact Nat.lt_irrefl i (waits j before i paired)
  · obtain rfl : l = i := Option.some.inj (ahead.symm.trans paired)
    exact Nat.lt_irrefl l lt
  · exact Nat.lt_asymm lt (waits_of_partner paired k behind l ahead)

/-- A reply that is paired makes one exchange with its call. -/
theorem ofResponse_of_partner {j i : Nat} (paired : M.partner j = some i) :
    ∃ s t c r, asked[i]? = some s ∧ told[j]? = some t ∧ s.call? = some c ∧ t.reply? = some r ∧
      c.answeredBy r = true ∧ M.ofResponse (t, j) = some ⟨some c.message, some r⟩ := by
  obtain ⟨-, s, t, there, here, answers⟩ := ((M.oldest j i).1 paired).1
  obtain ⟨r, c, reply, call, suits⟩ := Span.answers_iff.1 answers
  refine ⟨s, t, c, r, there, here, call, reply, suits, ?_⟩
  have unasked := (Span.alone_of_reply reply).1
  simp [ofResponse, responseExchange, unasked, paired, there, Span.answered?, call, reply]

end Matching

/-! ## The calls that replies find -/

/-- The first call from a place on that a response answers. -/
def firstAnswered (asked : List Span) (next : Nat) (t : Span) : Option Nat :=
  ((asked.drop next).findIdx? t.answers).map (next + ·)

/-- The calls that responses are paired with when those before a place no longer wait. -/
def partnerFrom (asked : List Span) : Nat → List Span → Nat → Option Nat
  | _, [], _ => none
  | next, t :: _, 0 => firstAnswered asked next t
  | next, t :: told, j + 1 =>
    partnerFrom asked ((firstAnswered asked next t).elim next (· + 1)) told j

section
variable {asked told : List Span} {next i : Nat} {t : Span}

/-- Where a call is found, it is parted from those before that are not answered. -/
theorem drop_of_firstAnswered (found : firstAnswered asked next t = some i) :
    ∃ before s, asked.drop next = before ++ s :: asked.drop (i + 1) ∧
      i = next + before.length ∧ asked[i]? = some s ∧ t.answers s = true ∧
      ∀ b ∈ before, t.answers b = false := by
  obtain ⟨n, place, rfl⟩ := Option.map_eq_some_iff.1 found
  obtain ⟨lt, hit, others⟩ := List.findIdx?_eq_some_iff_getElem.1 place
  have length : ((asked.drop next).take n).length = n := by
    rw [List.length_take]
    omega
  refine ⟨(asked.drop next).take n, (asked.drop next)[n], ?_, ?_, ?_, hit, ?_⟩
  · calc asked.drop next
        = (asked.drop next).take n ++ (asked.drop next).drop n :=
          (List.take_append_drop n _).symm
      _ = _ := by rw [List.drop_eq_getElem_cons lt, List.drop_drop, Nat.add_assoc]
  · rw [length]
  · rw [← List.getElem?_drop]
    exact List.getElem?_eq_getElem lt
  · intro b hb
    obtain ⟨k, hk, rfl⟩ := List.mem_iff_getElem.1 hb
    rw [length] at hk
    rw [List.getElem_take]
    exact Bool.eq_false_of_not_eq_true (others k hk)

theorem not_answers_of_none (nothing : firstAnswered asked next t = none) :
    ∀ s ∈ asked.drop next, t.answers s = false :=
  List.findIdx?_eq_none_iff.1 (Option.map_eq_none_iff.1 nothing)

/-- What is found is the oldest call from the place on. -/
theorem firstAnswered_eq_some_iff :
    firstAnswered asked next t = some i ↔
      IsLeast {i | next ≤ i ∧ ∃ s, asked[i]? = some s ∧ t.answers s = true} i := by
  have least {i : Nat} (found : firstAnswered asked next t = some i) :
      IsLeast {i | next ≤ i ∧ ∃ s, asked[i]? = some s ∧ t.answers s = true} i := by
    obtain ⟨before, s, parted, rfl, there, hit, others⟩ := drop_of_firstAnswered found
    refine ⟨⟨Nat.le_add_right .., s, there, hit⟩, ?_⟩
    -- An older one would stand among those before, none of which is answered.
    rintro k ⟨le, u, at_k, answers⟩
    by_contra lt
    have within : k - next < before.length := by omega
    have member : u ∈ before := by
      apply List.mem_of_getElem? (i := k - next)
      calc before[k - next]?
          = (asked.drop next)[k - next]? := by rw [parted, List.getElem?_append_left within]
        _ = asked[k]? := by rw [List.getElem?_drop, Nat.add_sub_cancel' le]
        _ = some u := at_k
    rw [others u member] at answers
    cases answers
  constructor
  · exact least
  · intro oldest
    cases found : firstAnswered asked next t with
    | some l => rw [(least found).unique oldest]
    | none =>
      obtain ⟨le, s, there, hit⟩ := oldest.1
      have member : s ∈ asked.drop next := by
        apply List.mem_of_getElem? (i := i - next)
        rw [List.getElem?_drop, Nat.add_sub_cancel' le, there]
      rw [not_answers_of_none found s member] at hit
      cases hit

theorem elim_firstAnswered_le_iff :
    (firstAnswered asked next t).elim next (· + 1) ≤ i ↔
      next ≤ i ∧ ∀ l ∈ firstAnswered asked next t, l < i := by
  cases found : firstAnswered asked next t with
  | none => simp
  | some l =>
    have le : next ≤ l := (firstAnswered_eq_some_iff.1 found).1.1
    simp
    omega

/-- The partner of a reply is the oldest call that it answers among those that wait. -/
theorem partnerFrom_eq_some_iff {j : Nat} :
    partnerFrom asked next told j = some i ↔
      IsLeast {i | next ≤ i ∧ Waits (partnerFrom asked next told) j i ∧
        ∃ s t, asked[i]? = some s ∧ told[j]? = some t ∧ t.answers s = true} i := by
  induction told generalizing next j with
  | nil => simp [partnerFrom, IsLeast]
  | cons t told ih =>
    cases j with
    | zero =>
      simp [partnerFrom, waits_zero, firstAnswered_eq_some_iff]
    | succ j =>
      have waits (k : Nat) : Waits (partnerFrom asked next (t :: told)) (j + 1) k ↔
          (∀ l ∈ firstAnswered asked next t, l < k) ∧
            Waits (partnerFrom asked ((firstAnswered asked next t).elim next (· + 1)) told) j k :=
        waits_succ fun _ => rfl
      rw [partnerFrom, ih]
      simp only [waits, List.getElem?_cons_succ, elim_firstAnswered_le_iff, and_assoc]

end

/-- The matching of a pass. -/
def matching (asked told : List Span) : Matching asked told where
  partner := partnerFrom asked 0 told
  oldest := by
    intro j i
    have oldest : partnerFrom asked 0 told j = some i ↔ _ := partnerFrom_eq_some_iff
    simpa using oldest

end Dialogue.Amqp
