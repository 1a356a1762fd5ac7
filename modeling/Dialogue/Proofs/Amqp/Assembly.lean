import Mathlib
import Dialogue.Proofs.Amqp
import Dialogue.Proofs.Amqp.Marks

/-!
What the spans of a queue are, and that later frames do not change them.

A queue is taken apart frame by frame, and no step looks ahead. What comes of it is the same as if
each span were cut off the front by looking ahead as far as it needs (`first?`, `spans_of_some`,
`spans_of_none`), so every span is what can be cut off where it begins (`first?_of_mem_placed`). It
remains to know what `first?` cuts off: one or more frames from the front (`frames_of_begins`), and
of content the body frames that it takes to reach the size announced, fewer only where a frame of
another kind cuts them short (`Takes.carries`). Spans are only ever added, so a span that was
there once is there for good (`spans_append`).
-/
namespace Dialogue.Amqp

/-! ## Looking ahead -/

/-- The body frames that stand for content of which `missing` bytes are to come. It is open which
they are while the queue ends before. -/
def bodies? (missing : Nat) : List (Stamped Frame) → Option (List (Stamped Frame))
  | [] => if missing = 0 then some [] else none
  | b :: later =>
    if missing = 0 ∨ b.value.kind ≠ .contentBody then some []
    else (bodies? (missing - b.value.payload.length) later).map (b :: ·)

/-- The span of a method with content, as soon as it is decided by what stands behind. -/
def contentSpan? (f : Stamped Frame) (m : Method) : List (Stamped Frame) → Option Span
  | [] => none
  | header :: later =>
    match header.value.kind with
    | .contentHeader _ size =>
      (bodies? size later).map fun bodies =>
        ⟨f :: header :: bodies, .message (Assembly.messageOf f m bodies.reverse)⟩
    | _ => some ⟨[f], .message (Assembly.messageOf f m [])⟩

/-- The span at the front of a queue, as soon as it is decided. -/
def first? : List (Stamped Frame) → Option Span
  | [] => none
  | f :: later =>
    match f.value.kind with
    | .protocolHeader | .heartbeat => some ⟨[f], .noise⟩
    | .contentHeader .. | .contentBody => some ⟨[f], .orphan⟩
    | .method m =>
      if m.hasContent then contentSpan? f m later
      else some ⟨[f], .message (Assembly.messageOf f m [])⟩

theorem bodies?_zero (later : List (Stamped Frame)) : bodies? 0 later = some [] := by
  cases later <;> simp [bodies?]

/-- Which of the frames behind a content header stand for content of which `missing` bytes are to
come. -/
inductive Takes : Nat → List (Stamped Frame) → List (Stamped Frame) → Prop where
  /-- No byte is to come. -/
  | enough (later : List (Stamped Frame)) : Takes 0 later []
  /-- A frame of another kind is in the way. -/
  | cut {missing : Nat} {g : Stamped Frame} (kind : g.value.kind ≠ .contentBody)
      (later : List (Stamped Frame)) : Takes missing (g :: later) []
  | body {missing : Nat} {b : Stamped Frame} {later bodies : List (Stamped Frame)}
      (more : missing ≠ 0) (kind : b.value.kind = .contentBody)
      (rest : Takes (missing - b.value.payload.length) later bodies) :
      Takes missing (b :: later) (b :: bodies)

theorem takes_of_bodies? {missing : Nat} {later bodies : List (Stamped Frame)}
    (decided : bodies? missing later = some bodies) : Takes missing later bodies := by
  induction later generalizing missing bodies with
  | nil =>
    by_cases enough : missing = 0
    · obtain rfl : [] = bodies := by simpa [bodies?, enough] using decided
      subst enough
      exact .enough []
    · simp [bodies?, enough] at decided
  | cons b later ih =>
    by_cases enough : missing = 0
    · obtain rfl : [] = bodies := by simpa [bodies?, enough] using decided
      subst enough
      exact .enough (b :: later)
    by_cases kind : b.value.kind = .contentBody
    · obtain ⟨front, rest, rfl⟩ :
          ∃ front, bodies? (missing - b.value.payload.length) later = some front ∧
            b :: front = bodies := by
        simpa [bodies?, enough, kind] using decided
      exact .body enough kind (ih rest)
    · obtain rfl : [] = bodies := by simpa [bodies?, kind] using decided
      exact .cut kind later

namespace Assembly

variable {ts : List Span} {f header : Stamped Frame} {m : Method}
  {bodies later : List (Stamped Frame)} {missing : Nat} {u : Unfinished}

/-- A frame that begins a span ends what is unfinished. -/
theorem step_settle (a : Assembly) (g : Stamped Frame) : a.settle.step g = a.settle.start g := by
  unfold step
  rw [unfinished_settle]

theorem await_zero :
    await ⟨ts, u⟩ f m header bodies 0 =
      ⟨⟨f :: header :: bodies.reverse, .message (messageOf f m bodies)⟩ :: ts, .none⟩ := rfl

theorem await_of_missing (more : missing ≠ 0) :
    await ⟨ts, u⟩ f m header bodies missing = ⟨ts, .content f m header bodies missing⟩ := by
  simp only [await, if_neg more]

theorem step_body {b : Stamped Frame} (kind : b.value.kind = .contentBody) :
    step ⟨ts, .content f m header bodies missing⟩ b =
      await ⟨ts, .content f m header bodies missing⟩ f m header (b :: bodies)
        (missing - b.value.payload.length) := by
  simp only [step, kind]

/-- A frame of another kind finds the content as it is, and begins a span. -/
theorem step_cut {g : Stamped Frame} (kind : g.value.kind ≠ .contentBody) :
    step ⟨ts, .content f m header bodies missing⟩ g = (await ⟨ts, u⟩ f m header bodies 0).step g :=
  calc step ⟨ts, .content f m header bodies missing⟩ g
      = (settle ⟨ts, .content f m header bodies missing⟩).start g := by simp only [step]
    _ = (settle ⟨ts, .content f m header bodies missing⟩).step g := (step_settle _ g).symm

/-- While it is open which body frames stand for the content, it stays unfinished. -/
theorem spans_of_open (still : bodies? missing later = none) :
    (later.foldl step (await ⟨ts, u⟩ f m header bodies missing)).spans = ts := by
  have more : missing ≠ 0 := by
    intro nothing
    rw [nothing, bodies?_zero] at still
    cases still
  induction later generalizing bodies missing u with
  | nil => rw [List.foldl_nil, await_of_missing more]
  | cons b later ih =>
    by_cases kind : b.value.kind = .contentBody
    · have later_open : bodies? (missing - b.value.payload.length) later = none := by
        simpa [bodies?, more, kind] using still
      rw [List.foldl_cons, await_of_missing more, step_body kind]
      apply ih later_open
      intro nothing
      rw [nothing, bodies?_zero] at later_open
      cases later_open
    · simp [bodies?, kind] at still

/-- Once it is decided which body frames stand for the content, they make up the span with it. -/
theorem foldl_of_takes {bs : List (Stamped Frame)} (taken : Takes missing later bs) :
    later.foldl step (await ⟨ts, u⟩ f m header bodies missing) =
      (later.drop bs.length).foldl step (await ⟨ts, u⟩ f m header (bs.reverse ++ bodies) 0) := by
  induction taken generalizing bodies u with
  | enough later => rfl
  | @cut missing g kind later =>
    by_cases more : missing = 0
    · rw [more]
      rfl
    · rw [await_of_missing more, List.foldl_cons, step_cut kind (u := u)]
      rfl
  | @body missing b later bs more kind rest ih =>
    rw [List.foldl_cons, await_of_missing more, step_body kind, ih, List.reverse_cons,
      List.append_assoc]
    rfl

/-- A method with content that finds no content header is a message without content. -/
theorem step_headless {g : Stamped Frame} (lost : ∀ c size, g.value.kind ≠ .contentHeader c size) :
    step ⟨ts, .method f m⟩ g = (settle ⟨ts, .method f m⟩).step g := by
  rw [step_settle]
  cases kind : g.value.kind with
  | contentHeader c size => exact absurd kind (lost c size)
  | _ => simp only [step, kind]

end Assembly

/-! ## The span at the front -/

/-- What a span at the front of a queue can be. -/
inductive Begins : Span → List (Stamped Frame) → Prop where
  | noise {f : Stamped Frame} {later : List (Stamped Frame)}
      (kind : f.value.kind = .protocolHeader ∨ f.value.kind = .heartbeat) :
      Begins ⟨[f], .noise⟩ (f :: later)
  | orphan {f : Stamped Frame} {later : List (Stamped Frame)}
      (kind : f.value.kind = .contentBody ∨ ∃ c size, f.value.kind = .contentHeader c size) :
      Begins ⟨[f], .orphan⟩ (f :: later)
  | plain {f : Stamped Frame} {later : List (Stamped Frame)} {m : Method}
      (kind : f.value.kind = .method m) (without : m.hasContent = false) :
      Begins ⟨[f], .message (Assembly.messageOf f m [])⟩ (f :: later)
  | headless {f g : Stamped Frame} {later : List (Stamped Frame)} {m : Method}
      (kind : f.value.kind = .method m) (content : m.hasContent = true)
      (lost : ∀ c size, g.value.kind ≠ .contentHeader c size) :
      Begins ⟨[f], .message (Assembly.messageOf f m [])⟩ (f :: g :: later)
  | content {f header : Stamped Frame} {later bodies : List (Stamped Frame)} {m : Method}
      {c size : Nat} (kind : f.value.kind = .method m) (content : m.hasContent = true)
      (follows : header.value.kind = .contentHeader c size)
      (taken : Takes size later bodies) :
      Begins ⟨f :: header :: bodies, .message (Assembly.messageOf f m bodies.reverse)⟩
        (f :: header :: later)

theorem begins_of_contentSpan? {f : Stamped Frame} {later : List (Stamped Frame)} {m : Method}
    {s : Span} (kind : f.value.kind = .method m) (content : m.hasContent = true)
    (decided : contentSpan? f m later = some s) : Begins s (f :: later) := by
  cases later with
  | nil => cases decided
  | cons header later =>
    simp only [contentSpan?] at decided
    split at decided
    · next follows =>
      obtain ⟨bodies, among, rfl⟩ := Option.map_eq_some_iff.1 decided
      exact .content kind content follows (takes_of_bodies? among)
    · next lost =>
      cases decided
      exact .headless kind content lost

theorem begins_of_first? {q : List (Stamped Frame)} {s : Span} (first : first? q = some s) :
    Begins s q := by
  cases q with
  | nil => cases first
  | cons f later =>
    simp only [first?] at first
    split at first
    · next kind =>
      cases first
      exact .noise (.inl kind)
    · next kind =>
      cases first
      exact .noise (.inr kind)
    · next kind =>
      cases first
      exact .orphan (.inr ⟨_, _, kind⟩)
    · next kind =>
      cases first
      exact .orphan (.inl kind)
    · next m kind =>
      split at first
      · next content => exact begins_of_contentSpan? kind content first
      · next without =>
        cases first
        exact .plain kind (Bool.not_eq_true _ ▸ without)

namespace Assembly

variable {q : List (Stamped Frame)} {s : Span} {f : Stamped Frame} {m : Method}

theorem step_method (kind : f.value.kind = .method m) (content : m.hasContent = true) :
    step {} f = ⟨[], .method f m⟩ := by
  simp only [step, start, kind, content, if_true]

/-- The span at the front is taken off it. -/
theorem ofQueue_of_begins (front : Begins s q) :
    ofQueue q = (ofQueue (q.drop s.frames.length)).onto [s] := by
  have behind (r : List (Stamped Frame)) : r.foldl step (close {} s) = (ofQueue r).onto [s] :=
    foldl_onto r {}
  rw [← behind]
  cases front with
  | @noise f later kind =>
    have closed : step {} f = close {} ⟨[f], .noise⟩ := by
      rcases kind with kind | kind <;> simp only [step, start, kind]
    rw [ofQueue, List.foldl_cons, closed]
    rfl
  | @orphan f later kind =>
    have closed : step {} f = close {} ⟨[f], .orphan⟩ := by
      rcases kind with kind | ⟨c, size, kind⟩ <;> simp only [step, start, kind]
    rw [ofQueue, List.foldl_cons, closed]
    rfl
  | @plain f later m kind without =>
    have closed : step {} f = close {} ⟨[f], .message (messageOf f m [])⟩ := by
      simp [step, start, kind, without]
    rw [ofQueue, List.foldl_cons, closed]
    rfl
  | @headless f g later m kind content lost =>
    rw [ofQueue, List.foldl_cons, List.foldl_cons, step_method kind content, step_headless lost]
    rfl
  | @content f header later bodies m c size kind content follows taken =>
    -- The only span of which the end is found by going through frames.
    have opened : step ⟨[], .method f m⟩ header =
        await ⟨[], .method f m⟩ f m header [] size := by
      simp only [step, follows]
    rw [ofQueue, List.foldl_cons, List.foldl_cons, step_method kind content, opened,
      foldl_of_takes taken, await_zero]
    simp [close]

theorem spans_of_first?_none (open_ended : first? q = none) : (ofQueue q).spans = [] := by
  cases q with
  | nil => rfl
  | cons f later =>
    simp only [first?] at open_ended
    split at open_ended
    · cases open_ended
    · cases open_ended
    · cases open_ended
    · cases open_ended
    · next m kind =>
      split at open_ended
      · next content =>
        rw [ofQueue, List.foldl_cons, step_method kind content]
        cases later with
        | nil => rfl
        | cons header later =>
          simp only [contentSpan?] at open_ended
          split at open_ended
          · next c size follows =>
            rw [List.foldl_cons]
            simp only [step, follows]
            exact spans_of_open (Option.map_eq_none_iff.1 open_ended)
          · cases open_ended
      · cases open_ended

end Assembly

variable {q : List (Stamped Frame)} {s : Span}

/-- The first span is the one at the front, and the others are those of the frames behind it. -/
theorem spans_of_some (first : first? q = some s) :
    spans q = s :: spans (q.drop s.frames.length) := by
  rw [spans, Assembly.ofQueue_of_begins (begins_of_first? first)]
  simp [Assembly.onto, spans]

/-- Where the span at the front is open, there is none. -/
theorem spans_of_none (open_ended : first? q = none) : spans q = [] := by
  rw [spans, Assembly.spans_of_first?_none open_ended]
  rfl

/-- The frames of the span at the front are the first ones of the queue. -/
theorem frames_of_begins (front : Begins s q) : s.frames ++ q.drop s.frames.length = q := by
  have whole := spans_append_unfinished q
  have rest := spans_append_unfinished (q.drop s.frames.length)
  have onto := Assembly.ofQueue_of_begins front
  calc s.frames ++ q.drop s.frames.length
      = s.frames ++ ((spans (q.drop s.frames.length)).flatMap (·.frames) ++
          unfinished (q.drop s.frames.length)) := by rw [rest]
    _ = (spans q).flatMap (·.frames) ++ unfinished q := by
        simp [spans, unfinished, onto, Assembly.onto]
    _ = q := whole

theorem frames_ne_nil (front : Begins s q) : s.frames ≠ [] := by
  cases front <;> simp

/-! ## Content -/

/-- The bytes of body frames, in order. -/
def bytesOf (bodies : List (Stamped Frame)) : Bytes := bodies.flatMap (·.value.payload)

/-- Which of the frames behind a content header carry the content that it announces: body frames
only, no more than reach the size, and fewer only where a frame of another kind stands behind. -/
structure Carries (size : Nat) (bodies behind : List (Stamped Frame)) : Prop where
  body : ∀ b ∈ bodies, b.value.kind = .contentBody
  reached : size ≤ (bytesOf bodies).length ∨ ∃ g ∈ behind.head?, g.value.kind ≠ .contentBody
  needed : ∀ front b, front ++ [b] <+: bodies → (bytesOf front).length < size

theorem Takes.carries {missing : Nat} {later bodies : List (Stamped Frame)}
    (taken : Takes missing later bodies) :
    ∃ behind, later = bodies ++ behind ∧ Carries missing bodies behind := by
  induction taken with
  | enough later => exact ⟨later, rfl, by simp, .inl (Nat.zero_le _), by simp⟩
  | @cut missing g kind later => exact ⟨g :: later, rfl, by simp, .inr ⟨g, rfl, kind⟩, by simp⟩
  | @body missing b later bodies more kind rest ih =>
    obtain ⟨behind, rfl, carried⟩ := ih
    refine ⟨behind, rfl, ?_, ?_, ?_⟩
    · intro x hx
      rcases List.mem_cons.1 hx with rfl | later
      · exact kind
      · exact carried.body x later
    · refine carried.reached.imp_left fun reached => ?_
      simp only [bytesOf, List.flatMap_cons, List.length_append] at reached ⊢
      omega
    · intro before x among
      cases before with
      | nil => exact Nat.pos_of_ne_zero more
      | cons y before =>
        obtain ⟨rfl, within⟩ := List.cons_prefix_cons.1 among
        have fewer := carried.needed before x within
        simp only [bytesOf, List.flatMap_cons, List.length_append] at fewer ⊢
        omega

/-! ## The spans in their places -/

/-- Each span is the one at the front of what stands where it begins. -/
theorem first?_of_mem_placedFrom {ss : List Span} {start : Nat} (cut : spans (q.drop start) = ss) :
    ∀ p ∈ placedFrom start ss, first? (q.drop p.start) = some p.span := by
  induction ss generalizing start with
  | nil => exact nofun
  | cons s ss ih =>
    cases first : first? (q.drop start) with
    | none =>
      rw [spans_of_none first] at cut
      cases cut
    | some t =>
      rw [spans_of_some first, List.drop_drop] at cut
      obtain ⟨rfl, rest⟩ := List.cons.inj cut
      intro p hp
      rcases List.mem_cons.1 hp with rfl | later
      · exact first
      · exact ih rest p later

theorem first?_of_mem_placed {p : Placed} (h : p ∈ placed q) :
    first? (q.drop p.start) = some p.span := first?_of_mem_placedFrom rfl p h

theorem begins_of_mem_placed {p : Placed} (h : p ∈ placed q) : Begins p.span (q.drop p.start) :=
  begins_of_first? (first?_of_mem_placed h)

/-- The frames of a span stand in the queue where it begins. -/
theorem slice_of_mem_placed {p : Placed} (h : p ∈ placed q) :
    (q.drop p.start).take p.length = p.span.frames := by
  have front := frames_of_begins (begins_of_mem_placed h)
  calc (q.drop p.start).take p.length
      = (p.span.frames ++ (q.drop p.start).drop p.length).take p.span.frames.length := by
        rw [Placed.length, front]
    _ = p.span.frames := List.take_left

/-- No span runs past the queue. -/
theorem stop_le_of_mem_placed {p : Placed} (h : p ∈ placed q) : p.stop ≤ q.length := by
  have front := congrArg List.length (frames_of_begins (begins_of_mem_placed h))
  have some_frames := List.length_pos_iff.2 (frames_ne_nil (begins_of_mem_placed h))
  rw [List.length_append, List.length_drop, List.length_drop] at front
  unfold Placed.stop Placed.length
  omega

/-- A span has a flag for each of its frames. -/
theorem mark?_of_mem_placed {p : Placed} (h : p ∈ placed q) {flags : List Bool}
    (each : flags.length = q.length) :
    ∃ raised, mark? flags p = some raised ∧ raised.length = q.length := by
  have within : p.stop ≤ flags.length := each ▸ stop_le_of_mem_placed h
  refine ⟨_, if_pos within, ?_⟩
  unfold Placed.stop at within ⊢
  simp only [List.length_append, List.length_take, List.length_replicate, List.length_drop]
  omega

/-- Content that has a header is in the body frames of the span. -/
theorem content_of_begins {frames : List (Stamped Frame)} {message : Message}
    {f header : Stamped Frame} {later : List (Stamped Frame)} {c size : Nat}
    (front : Begins ⟨frames, .message message⟩ (f :: header :: later))
    (content : message.method.hasContent = true)
    (follows : header.value.kind = .contentHeader c size) :
    ∃ bodies behind, frames = f :: header :: bodies ∧ later = bodies ++ behind ∧
      message.content = bytesOf bodies ∧ Carries size bodies behind := by
  cases front with
  | plain kind without =>
    have clash : true = false := content.symm.trans without
    cases clash
  | headless kind content lost => exact absurd follows (lost c size)
  | @content _ _ _ bodies _ _ announced kind content follows' taken =>
    obtain ⟨-, rfl⟩ : _ ∧ announced = size := by simpa [follows] using follows'.symm
    obtain ⟨behind, rfl, carried⟩ := taken.carries
    refine ⟨bodies, behind, rfl, rfl, ?_, carried⟩
    simp [Assembly.messageOf, bytesOf]

/-- Later frames add spans behind those there are. -/
theorem spans_append (q e : List (Stamped Frame)) : spans q <+: spans (q ++ e) := by
  -- The frames behind go on from what is unfinished, on top of the spans there are.
  have start : Assembly.ofQueue q =
      Assembly.onto (Assembly.ofQueue q).spans ⟨[], (Assembly.ofQueue q).unfinished⟩ := rfl
  have grown : Assembly.ofQueue (q ++ e) =
      (e.foldl Assembly.step ⟨[], (Assembly.ofQueue q).unfinished⟩).onto
        (Assembly.ofQueue q).spans := by
    rw [Assembly.ofQueue, List.foldl_append, ← Assembly.ofQueue, start, Assembly.foldl_onto]
    rfl
  rw [spans, spans, grown, Assembly.onto, List.reverse_append]
  exact List.prefix_append _ _

theorem placed_append (q e : List (Stamped Frame)) : placed q <+: placed (q ++ e) := by
  obtain ⟨later, more⟩ := spans_append q e
  rw [placed, placed, ← more, placedFrom_append]
  exact List.prefix_append _ _

/-- What the spans of a queue are: stretches of it one behind the other, from its beginning on, each
of at least one frame and within the queue; and content that a header announces is that of the
body frames in the span. -/
structure Partition (q : List (Stamped Frame)) : Prop where
  first : ∀ p ∈ (placed q).head?, p.start = 0
  consecutive : (placed q).IsChain fun p next => next.start = p.stop
  frames : ∀ p ∈ placed q, p.span.frames ≠ [] ∧ (q.drop p.start).take p.length = p.span.frames
  within : ∀ p ∈ placed q, p.stop ≤ q.length
  marked : ∀ p ∈ placed q, ∀ flags, flags.length = q.length →
    ∃ raised, mark? flags p = some raised ∧ raised.length = q.length
  content : ∀ p ∈ placed q, ∀ message f header later c size,
    p.span.item = .message message → message.method.hasContent = true →
    q.drop p.start = f :: header :: later → header.value.kind = .contentHeader c size →
    ∃ bodies behind, p.span.frames = f :: header :: bodies ∧ later = bodies ++ behind ∧
      message.content = bytesOf bodies ∧ Carries size bodies behind

/-- The spans of a queue divide it up from its beginning, and stay the same whatever frames come
behind. -/
theorem assembly_stable (q : List (Stamped Frame)) :
    Partition q ∧ ∀ e, placed q <+: placed (q ++ e) := by
  refine ⟨⟨?_, isChain_placedFrom 0 _, ?_, ?_, ?_, ?_⟩, placed_append q⟩
  · intro p first
    unfold placed at first
    cases cut : spans q with
    | nil => simp [cut, placedFrom] at first
    | cons s ss =>
      obtain rfl : ⟨0, s⟩ = p := by simpa [cut, placedFrom] using first
      rfl
  · intro p hp
    exact ⟨frames_ne_nil (begins_of_mem_placed hp), slice_of_mem_placed hp⟩
  · intro p hp
    exact stop_le_of_mem_placed hp
  · intro p hp flags each
    exact mark?_of_mem_placed hp each
  · intro p hp message f header later c size item content stands follows
    have front := begins_of_mem_placed hp
    obtain ⟨start, frames, _⟩ := p
    obtain rfl : _ = Item.message message := item
    rw [stands] at front
    exact content_of_begins front content follows

/-- A heartbeat, a publication whose second body frame reaches the size announced, a body frame too
many, and a publication of which only the header has come. -/
def publications : List (Stamped Frame) :=
  let frame (time : Nat) (kind : Kind) (payload : String) : Stamped Frame :=
    ⟨time, ⟨1, kind, ascii payload, 0⟩⟩
  [frame 1 .heartbeat "", frame 2 (.method ⟨60, 40⟩) "", frame 3 (.contentHeader 60 3) "",
    frame 4 .contentBody "ab", frame 5 .contentBody "cd", frame 6 .contentBody "ef",
    frame 7 (.method ⟨60, 40⟩) "", frame 8 (.contentHeader 60 3) ""]

theorem assembly_stable_publications :
    (placed publications).map (fun p => (p.start, p.length)) = [(0, 1), (1, 4), (5, 1)] ∧
      (∃ p raised, (placed publications)[1]? = some p ∧
        mark? (List.replicate 8 false) p = some raised) ∧
      placed publications <+: placed (publications ++ publications) := by
  obtain ⟨partition, stable⟩ := assembly_stable publications
  refine ⟨by decide, ?_, stable publications⟩
  obtain ⟨p, second⟩ : ∃ p, (placed publications)[1]? = some p := ⟨_, rfl⟩
  obtain ⟨raised, marked, -⟩ :=
    partition.marked p (List.mem_of_getElem? second) (List.replicate 8 false) rfl
  exact ⟨p, raised, second, marked⟩

end Dialogue.Amqp
