import Mathlib
import Dialogue.Amqp

/-!
Queues of AMQP frames that are taken apart a second time.

Where nothing is unfinished, the frames behind are taken apart as if they stood alone (`onto`), so a
queue may be put together again from its spans, which leave none of its frames out
(`spans_append_unfinished`). The frames that are left unfinished are `Open`: read from the beginning
they come to be unfinished again, with no span. A call is one frame, since no method that a server
answers has content (`Call.Whole`), and is the same call when it is read again.
-/
namespace Dialogue.Amqp

/-! ## Spans -/

/-- The same frames behind spans of earlier ones. -/
def Assembly.onto (ts : List Span) (a : Assembly) : Assembly := ⟨a.spans ++ ts, a.unfinished⟩

namespace Assembly

variable {a : Assembly} {f : Stamped Frame} {ts : List Span}

theorem settle_onto (a : Assembly) : (a.onto ts).settle = a.settle.onto ts := by
  obtain ⟨spans, unfinished⟩ := a
  cases unfinished <;> rfl

theorem start_onto (a : Assembly) (f : Stamped Frame) :
    (a.onto ts).start f = (a.start f).onto ts := by
  unfold start
  split
  · rfl
  · rfl
  · rfl
  · rfl
  · split <;> rfl

theorem await_onto (a : Assembly) (frame : Stamped Frame) (method : Method)
    (header : Stamped Frame) (bodies : List (Stamped Frame)) (missing : Nat) :
    (a.onto ts).await frame method header bodies missing =
      (a.await frame method header bodies missing).onto ts := by
  unfold await
  split <;> rfl

/-- The spans so far have no say in what a frame does. -/
theorem step_onto (a : Assembly) (f : Stamped Frame) : (a.onto ts).step f = (a.step f).onto ts := by
  have same : (a.onto ts).unfinished = a.unfinished := rfl
  unfold step
  rw [same]
  cases a.unfinished with
  | none => exact start_onto a f
  | method frame method =>
    dsimp only
    split
    · exact await_onto a _ _ _ _ _
    · rw [settle_onto, start_onto]
  | content frame method header bodies missing =>
    dsimp only
    split
    · exact await_onto a _ _ _ _ _
    · rw [settle_onto, start_onto]

theorem foldl_onto (queue : List (Stamped Frame)) (a : Assembly) :
    queue.foldl step (a.onto ts) = (queue.foldl step a).onto ts := by
  induction queue generalizing a with
  | nil => rfl
  | cons f rest ih => rw [List.foldl_cons, List.foldl_cons, step_onto, ih]

/-- Where nothing is unfinished, the frames behind are taken apart on their own. -/
theorem ofQueue_append {q : List (Stamped Frame)} (whole : (ofQueue q).unfinished = .none)
    (r : List (Stamped Frame)) : ofQueue (q ++ r) = (ofQueue r).onto (ofQueue q).spans := by
  have start : ofQueue q = onto (ofQueue q).spans {} := by
    generalize ofQueue q = a at whole ⊢
    obtain ⟨spans, unfinished⟩ := a
    obtain rfl : unfinished = .none := whole
    rfl
  rw [ofQueue, List.foldl_append, ← ofQueue, start, foldl_onto]
  rfl

end Assembly

/-! ## All frames of a queue -/

namespace Assembly

/-- The frames that have been taken in, in order. -/
def frames (a : Assembly) : List (Stamped Frame) :=
  a.spans.reverse.flatMap (·.frames) ++ a.unfinished.frames

theorem frames_close (a : Assembly) (s : Span) :
    (a.close s).frames = a.spans.reverse.flatMap (·.frames) ++ s.frames := by
  simp [frames, close, Unfinished.frames]

theorem frames_settle (a : Assembly) : a.settle.frames = a.frames := by
  unfold settle
  split
  · rfl
  · next frame method unfinished =>
    rw [frames_close, frames, unfinished]
    rfl
  · next frame method header bodies missing unfinished =>
    rw [frames_close, frames, unfinished]
    rfl

theorem unfinished_settle (a : Assembly) : a.settle.unfinished = .none := by
  unfold settle
  split
  · assumption
  · rfl
  · rfl

theorem frames_start {a : Assembly} (none : a.unfinished = .none) (f : Stamped Frame) :
    (a.start f).frames = a.frames ++ [f] := by
  have closed (item : Item) : (a.close ⟨[f], item⟩).frames = a.frames ++ [f] := by
    rw [frames_close, frames, none]
    simp [Unfinished.frames]
  unfold start
  split
  · exact closed _
  · exact closed _
  · exact closed _
  · exact closed _
  · split
    · simp [frames, none, Unfinished.frames]
    · exact closed _

theorem frames_await (a : Assembly) (frame : Stamped Frame) (method : Method)
    (header : Stamped Frame) (bodies : List (Stamped Frame)) (missing : Nat) :
    (a.await frame method header bodies missing).frames =
      a.spans.reverse.flatMap (·.frames) ++ frame :: header :: bodies.reverse := by
  unfold await
  dsimp only
  split
  · rw [frames_settle]
    rfl
  · rfl

theorem frames_step (a : Assembly) (f : Stamped Frame) : (a.step f).frames = a.frames ++ [f] := by
  unfold step
  split
  · next none => exact frames_start none f
  · next frame method unfinished =>
    split
    · rw [frames_await, frames, unfinished]
      simp [Unfinished.frames]
    · rw [frames_start (unfinished_settle a), frames_settle]
  · next frame method header bodies missing unfinished =>
    split
    · rw [frames_await, frames, unfinished]
      simp [Unfinished.frames]
    · rw [frames_start (unfinished_settle a), frames_settle]

theorem frames_ofQueue (queue : List (Stamped Frame)) : (ofQueue queue).frames = queue := by
  induction queue using List.reverseRecOn with
  | nil => rfl
  | append_singleton queue f ih => rw [ofQueue, List.foldl_concat, frames_step, ← ofQueue, ih]

end Assembly

/-- The spans of a queue and what is unfinished behind them make up the whole queue. -/
theorem spans_append_unfinished (queue : List (Stamped Frame)) :
    (spans queue).flatMap (·.frames) ++ unfinished queue = queue := Assembly.frames_ofQueue queue

/-! ## What is unfinished -/

/-- What frames can leave unfinished: a method with content, its content header, and body frames
none of which ends the content. -/
inductive Unfinished.Open : Unfinished → Prop where
  | none : Open .none
  | method {f : Stamped Frame} {m : Method} (kind : f.value.kind = .method m)
      (content : m.hasContent = true) : Open (.method f m)
  | header {f h : Stamped Frame} {m : Method} {classId size : Nat} (before : Open (.method f m))
      (kind : h.value.kind = .contentHeader classId size) (more : size ≠ 0) :
      Open (.content f m h [] size)
  | body {f h b : Stamped Frame} {m : Method} {bodies : List (Stamped Frame)} {missing : Nat}
      (before : Open (.content f m h bodies missing)) (kind : b.value.kind = .contentBody)
      (more : missing - b.value.payload.length ≠ 0) :
      Open (.content f m h (b :: bodies) (missing - b.value.payload.length))

/-- What is unfinished comes to be unfinished again when its frames are read from the beginning. -/
theorem Unfinished.Open.ofQueue_frames {u : Unfinished} (h : u.Open) :
    Assembly.ofQueue u.frames = ⟨[], u⟩ := by
  induction h with
  | none => rfl
  | @method f m kind content =>
    show Assembly.step {} f = _
    simp only [Assembly.step, Assembly.start, kind, content, if_true]
  | @header f h m classId size before kind more ih =>
    have first : Assembly.step {} f = ⟨[], .method f m⟩ := ih
    show Assembly.step (Assembly.step {} f) h = _
    rw [first]
    simp only [Assembly.step, kind, Assembly.await, if_neg more]
  | @body f h b m bodies missing before kind more ih =>
    have frames : frames (.content f m h (b :: bodies) (missing - b.value.payload.length)) =
        frames (.content f m h bodies missing) ++ [b] := by
      simp only [Unfinished.frames, List.reverse_cons, List.cons_append]
    rw [frames, Assembly.ofQueue, List.foldl_append, ← Assembly.ofQueue, ih, List.foldl_cons,
      List.foldl_nil]
    simp only [Assembly.step, kind, Assembly.await, if_neg more]

/-! ## Calls -/

/-- No method that the server answers has content. -/
theorem Method.isCall_of_hasContent {m : Method} (content : m.hasContent = true) :
    m.isCall = false := by
  obtain ⟨classId, methodId⟩ := m
  simp only [hasContent, Bool.and_eq_true, Bool.or_eq_true, beq_iff_eq] at content
  obtain ⟨rfl, ((rfl | rfl) | rfl) | rfl⟩ := content <;> decide

/-- A call that one frame makes up. -/
def Call.Whole (c : Call) : Prop :=
  ∃ f m, f.value.kind = .method m ∧ m.isCall = true ∧ c = ⟨Assembly.messageOf f m [], [f]⟩

/-- The span that a call is. -/
def Call.span (c : Call) : Span := ⟨c.frames, .message c.message⟩

theorem Span.frames_of_call? {s : Span} {c : Call} (call : s.call? = some c) :
    c.frames = s.frames := by
  unfold Span.call? at call
  split at call
  · split_ifs at call
    cases call
    rfl
  · cases call

namespace Assembly

/-- What holds of every queue that is taken apart. -/
structure Sound (a : Assembly) : Prop where
  unfinished : a.unfinished.Open
  calls : ∀ s ∈ a.spans, ∀ c, s.call? = some c → c.Whole

variable {a : Assembly} {f : Stamped Frame}

theorem Sound.close (h : a.Sound) {s : Span} (call : ∀ c, s.call? = some c → c.Whole) :
    (a.close s).Sound where
  unfinished := .none
  calls := by
    intro t ht
    rcases List.mem_cons.1 ht with rfl | before
    · exact call
    · exact h.calls t before

/-- A span with content is no call. -/
theorem Sound.close_content (h : a.Sound) {frames : List (Stamped Frame)} {message : Message}
    (content : message.method.hasContent = true) :
    (a.close ⟨frames, .message message⟩).Sound := by
  refine h.close fun c call => ?_
  simp only [Span.call?, Method.isCall_of_hasContent content, Bool.false_eq_true, if_false] at call
  cases call

theorem hasContent_of_open {frame : Stamped Frame} {method : Method} {u : Unfinished}
    (h : u.Open) : (u = .method frame method → method.hasContent = true) ∧
      ∀ header bodies missing, u = .content frame method header bodies missing →
        method.hasContent = true := by
  induction h with
  | none => exact ⟨nofun, nofun⟩
  | method kind content =>
    refine ⟨?_, nofun⟩
    rintro ⟨⟩
    exact content
  | header before kind more ih =>
    refine ⟨nofun, ?_⟩
    rintro _ _ _ ⟨⟩
    exact ih.1 rfl
  | body before kind more ih =>
    refine ⟨nofun, ?_⟩
    rintro _ _ _ ⟨⟩
    exact ih.2 _ _ _ rfl

theorem Sound.settle (h : a.Sound) : a.settle.Sound := by
  unfold Assembly.settle
  split
  · exact h
  · next frame method unfinished =>
    exact h.close_content ((hasContent_of_open h.unfinished).1 unfinished)
  · next frame method header bodies missing unfinished =>
    exact h.close_content ((hasContent_of_open h.unfinished).2 _ _ _ unfinished)

theorem Sound.start (h : a.Sound) (f : Stamped Frame) : (a.start f).Sound := by
  unfold Assembly.start
  split
  · exact h.close nofun
  · exact h.close nofun
  · exact h.close nofun
  · exact h.close nofun
  · next m kind =>
    split
    · next content => exact ⟨.method kind content, h.calls⟩
    · refine h.close fun c call => ?_
      unfold Span.call? at call
      dsimp only at call
      split at call
      · next isCall =>
        cases call
        exact ⟨f, m, kind, isCall, rfl⟩
      · cases call

theorem Sound.await (h : a.Sound) {frame header : Stamped Frame} {method : Method}
    {bodies : List (Stamped Frame)} {missing : Nat} (content : method.hasContent = true)
    (opens : missing ≠ 0 → (Unfinished.content frame method header bodies missing).Open) :
    (a.await frame method header bodies missing).Sound := by
  unfold Assembly.await
  dsimp only
  split
  · exact Sound.close_content h content
  · next more => exact ⟨opens more, h.calls⟩

theorem Sound.step (h : a.Sound) (f : Stamped Frame) : (a.step f).Sound := by
  unfold Assembly.step
  split
  · exact h.start f
  · next frame method unfinished =>
    have before := h.unfinished
    rw [unfinished] at before
    split
    · next kind =>
      exact h.await ((hasContent_of_open before).1 rfl) fun more => .header before kind more
    · exact h.settle.start f
  · next frame method header bodies missing unfinished =>
    have before := h.unfinished
    rw [unfinished] at before
    split
    · next kind =>
      exact h.await ((hasContent_of_open before).2 _ _ _ rfl) fun more => .body before kind more
    · exact h.settle.start f

theorem sound_ofQueue (queue : List (Stamped Frame)) : (ofQueue queue).Sound := by
  have start : ({} : Assembly).Sound := ⟨.none, nofun⟩
  unfold ofQueue
  generalize ({} : Assembly) = a at start
  induction queue generalizing a with
  | nil => exact start
  | cons f rest ih => exact ih _ (start.step f)

end Assembly

/-! ## A second time -/

/-- What a queue leaves unfinished has no span, and is left unfinished again. -/
theorem spans_unfinished (queue : List (Stamped Frame)) :
    spans (unfinished queue) = [] ∧ unfinished (unfinished queue) = unfinished queue := by
  have again := (Assembly.sound_ofQueue queue).unfinished.ofQueue_frames
  simp only [spans, unfinished, again, List.reverse_nil, and_self]

/-- Calls that stand before other frames are the same calls again. -/
theorem spans_calls {calls : List Call} (whole : ∀ c ∈ calls, c.Whole)
    (queue : List (Stamped Frame)) :
    spans (calls.flatMap (·.frames) ++ queue) = calls.map Call.span ++ spans queue ∧
      unfinished (calls.flatMap (·.frames) ++ queue) = unfinished queue := by
  induction calls with
  | nil => exact ⟨rfl, rfl⟩
  | cons c rest ih =>
    obtain ⟨f, m, kind, call, rfl⟩ := whole c List.mem_cons_self
    obtain ⟨laterSpans, laterUnfinished⟩ := ih fun d hd => whole d (List.mem_cons_of_mem _ hd)
    have content : m.hasContent = false := by
      by_contra some
      rw [Bool.not_eq_false] at some
      rw [Method.isCall_of_hasContent some] at call
      cases call
    have alone : Assembly.ofQueue [f] = ⟨[⟨[f], .message (Assembly.messageOf f m [])⟩], .none⟩ := by
      show Assembly.step {} f = _
      simp only [Assembly.step, Assembly.start, kind, content, Bool.false_eq_true, if_false]
      rfl
    have split := Assembly.ofQueue_append (q := [f]) (by rw [alone])
      (rest.flatMap (·.frames) ++ queue)
    rw [alone] at split
    rw [List.flatMap_cons, List.append_assoc]
    constructor
    · rw [spans, split]
      rw [Assembly.onto, List.reverse_append, ← spans, laterSpans]
      rfl
    · rw [unfinished, split]
      exact laterUnfinished

end Dialogue.Amqp
