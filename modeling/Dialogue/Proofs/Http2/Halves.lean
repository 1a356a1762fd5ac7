import Mathlib
import Dialogue.Proofs.OnePass

/-!
The sides of a stream, cut into halves and paired one to one.

A half is what one side sends up to the frame that ends it, and a queue is a row of halves with a
tail that no frame has ended yet (`Halves`). Pairing looks for the ends anew in each turn. What it
comes to is said without a search: the halves meet in order, as many as both sides have
(`pairHalves_eq`); the halves of the server that meet none are dropped and counted if no frame of
the client is left, and stay otherwise.
-/
namespace Dialogue.Http2

/-! ## Halves -/

/-- Whether frames are a half: the last of them ends it, and no other does. -/
def IsHalf (half : List (Stamped Frame)) : Prop :=
  ∃ before last, half = before ++ [last] ∧ (∀ f ∈ before, f.value.endsHalf = false) ∧
    last.value.endsHalf = true

/-- Frames cut behind every one that ends a half. -/
structure Halves (frames : List (Stamped Frame)) where
  whole : List (List (Stamped Frame))
  /-- The frames behind the last half. -/
  tail : List (Stamped Frame)
  frames_eq : frames = whole.flatten ++ tail
  isHalf : ∀ half ∈ whole, IsHalf half
  unended : ∀ f ∈ tail, f.value.endsHalf = false

namespace Halves

variable {f : Stamped Frame} {frames : List (Stamped Frame)}

/-- A frame in front that ends a half is one. -/
def consEnd (ends : f.value.endsHalf = true) (h : Halves frames) : Halves (f :: frames) where
  whole := [f] :: h.whole
  tail := h.tail
  frames_eq := congrArg (f :: ·) h.frames_eq
  isHalf := by
    intro half mem
    rcases List.mem_cons.1 mem with first | later
    · exact ⟨[], f, first, by simp, ends⟩
    · exact h.isHalf half later
  unended := h.unended

/-- Any other frame in front belongs to the first half, or to the tail where there is none. -/
def consMore (more : f.value.endsHalf = false) (h : Halves frames) : Halves (f :: frames) :=
  match whole : h.whole with
  | [] =>
    { whole := []
      tail := f :: h.tail
      frames_eq := by
        have same := h.frames_eq
        rw [whole] at same
        exact congrArg (f :: ·) same
      isHalf := by simp
      unended := by
        intro g mem
        rcases List.mem_cons.1 mem with rfl | later
        · exact more
        · exact h.unended g later }
  | half :: later =>
    { whole := (f :: half) :: later
      tail := h.tail
      frames_eq := by
        have same := h.frames_eq
        rw [whole] at same
        exact congrArg (f :: ·) same
      isHalf := by
        have isHalf := h.isHalf
        rw [whole] at isHalf
        intro g mem
        rcases List.mem_cons.1 mem with rfl | behind
        · obtain ⟨before, last, same, goesOn, ends⟩ := isHalf half List.mem_cons_self
          refine ⟨f :: before, last, congrArg (f :: ·) same, ?_, ends⟩
          intro g mem
          rcases List.mem_cons.1 mem with rfl | within
          · exact more
          · exact goesOn g within
        · exact isHalf g (List.mem_cons_of_mem half behind)
      unended := h.unended }

/-- Every queue can be cut. -/
def ofFrames : (frames : List (Stamped Frame)) → Halves frames
  | [] => ⟨[], [], rfl, by simp, by simp⟩
  | f :: rest =>
    if ends : f.value.endsHalf = true then (ofFrames rest).consEnd ends
    else (ofFrames rest).consMore (Bool.eq_false_of_not_eq_true ends)

end Halves

/-! ## The search for an end -/

theorem splitHalf?_of_isHalf {half : List (Stamped Frame)} (h : IsHalf half)
    (rest : List (Stamped Frame)) : splitHalf? (half ++ rest) = some (half, rest) := by
  obtain ⟨before, last, rfl, goesOn, ends⟩ := h
  have taken : (before ++ [last] ++ rest).takeWhile (!·.value.endsHalf) = before := by
    rw [List.append_assoc, List.takeWhile_append_of_pos (by simpa using goesOn)]
    simp [ends]
  unfold splitHalf?
  dsimp only
  rw [taken, List.append_assoc, List.drop_left]
  rfl

theorem splitHalf?_of_unended {tail : List (Stamped Frame)}
    (unended : ∀ f ∈ tail, f.value.endsHalf = false) : splitHalf? tail = none := by
  have taken : tail.takeWhile (!·.value.endsHalf) = tail :=
    List.takeWhile_eq_self_iff.2 (by simpa using unended)
  unfold splitHalf?
  dsimp only
  rw [taken, List.drop_length]

/-! ## Pairing -/

/-- The exchange of two halves. -/
def exchange (stream : Nat) (asked told : List (Stamped Frame)) : Exchange :=
  ⟨stream, HalfStream.collect asked, HalfStream.collect told⟩

section
variable {p : Progress} {requests responses half later : List (Stamped Frame)}

theorem pairHalves_of_none (none : splitHalf? responses = none) (stream : Nat) :
    pairHalves stream p requests responses = (p.withRequests requests).withResponses responses :=
  pairHalves_of_stuck (.inl none) stream p

/-- A half of the server that meets no frame of the client is counted. -/
theorem pairHalves_nil (split : splitHalf? responses = some (half, later)) (stream : Nat) :
    pairHalves stream p [] responses = pairHalves stream p.miss [] later := by
  rw [pairHalves]
  split
  · next none =>
    rw [none] at split
    cases split
  · next found =>
    rw [split] at found
    cases found
    rfl

/-- Two halves in front make an exchange. -/
theorem pairHalves_some {asked laterRequests : List (Stamped Frame)}
    (split : splitHalf? responses = some (half, later))
    (found : splitHalf? requests = some (asked, laterRequests)) (stream : Nat) :
    pairHalves stream p requests responses =
      pairHalves stream (p.record (exchange stream asked half)) laterRequests later := by
  have filled : requests.isEmpty = false := by
    cases requests with
    | nil => cases found
    | cons f rest => rfl
  rw [pairHalves]
  split
  · next none =>
    rw [none] at split
    cases split
  · next same =>
    rw [split] at same
    cases same
    rw [filled, if_neg Bool.false_ne_true, found]
    rfl

end

/-- What halves come to: they meet in order, and those of the server that meet none are counted if
nothing of the client is left. -/
theorem pairHalves_eq {qtail ptail : List (Stamped Frame)}
    {qs ps : List (List (Stamped Frame))} (asked : ∀ half ∈ qs, IsHalf half)
    (told : ∀ half ∈ ps, IsHalf half) (qopen : ∀ f ∈ qtail, f.value.endsHalf = false)
    (popen : ∀ f ∈ ptail, f.value.endsHalf = false) (stream : Nat) (p : Progress) :
    let unmet := ps.drop qs.length
    pairHalves stream p (qs.flatten ++ qtail) (ps.flatten ++ ptail) =
      { found := (List.zipWith (exchange stream) qs ps).reverse ++ p.found
        errors := p.errors + if qtail = [] then unmet.length else 0
        left :=
          ⟨(qs.drop ps.length).flatten ++ qtail,
            (if qtail = [] then [] else unmet).flatten ++ ptail⟩
        state := p.state } := by
  induction ps generalizing qs p with
  | nil =>
    intro unmet
    have none : splitHalf? ([].flatten ++ ptail) = none := splitHalf?_of_unended popen
    rw [pairHalves_of_none none]
    simp [unmet, Pairing.Progress.withRequests, Pairing.Progress.withResponses]
  | cons half ps ih =>
    intro unmet
    have others : ∀ half ∈ ps, IsHalf half := fun h mem => told h (List.mem_cons_of_mem half mem)
    have split := splitHalf?_of_isHalf (told half List.mem_cons_self) (ps.flatten ++ ptail)
    rw [List.flatten_cons, List.append_assoc]
    cases qs with
    | nil =>
      rw [List.flatten_nil, List.nil_append]
      by_cases empty : qtail = []
      · subst empty
        have nobody : ∀ half ∈ ([] : List (List (Stamped Frame))), IsHalf half := by simp
        have rest : pairHalves stream p.miss [] (ps.flatten ++ ptail) = _ :=
          ih nobody others p.miss
        rw [pairHalves_nil split, rest]
        simp [unmet, Pairing.Progress.miss]
        omega
      · -- The client has begun a half that it has not ended, so the server has to wait.
        have stuck : Stuck qtail (half ++ (ps.flatten ++ ptail)) :=
          .inr ⟨by simpa using empty, splitHalf?_of_unended qopen⟩
        rw [pairHalves_of_stuck stuck]
        simp [unmet, empty, Pairing.Progress.withRequests, Pairing.Progress.withResponses]
    | cons q qs =>
      have found := splitHalf?_of_isHalf (asked q List.mem_cons_self) (qs.flatten ++ qtail)
      rw [List.flatten_cons, List.append_assoc, pairHalves_some split found]
      have rest := ih (fun h mem => asked h (List.mem_cons_of_mem q mem)) others
        (p.record (exchange stream q half))
      rw [rest]
      simp [unmet, Pairing.Progress.record]

/-- Pairing a lane of one stream is pairing what contributes to it. -/
theorem pair_of_one {lane : Lane Frame} {stream : Nat} (ne : stream ≠ 0)
    (one : ∀ f ∈ lane.requests ++ lane.responses, f.value.stream = stream) :
    pair lane = (pairHalves stream { state := () }
      (lane.requests.filter (·.value.contributes))
      (lane.responses.filter (·.value.contributes))).finish := by
  cases found : first? lane with
  | none =>
    rw [first?, Option.or_eq_none_iff, List.head?_eq_none_iff, List.head?_eq_none_iff] at found
    have empty : lane = {} := congr (congrArg Lane.mk found.1) found.2
    subst empty
    have start : splitHalf? [] = none := rfl
    rw [List.filter_nil, pairHalves_of_none start]
    rfl
  | some f =>
    have same : f.value.stream = stream := one f (mem_of_first? found)
    rw [pair_of_stream found (same ▸ ne), same]

/-! ## What a half holds -/

namespace Body

/-- The headers that are contributed. -/
def fields : Body → List Header
  | headers fields _ => fields
  | _ => []

/-- The data that is contributed. -/
def bytes : Body → Bytes
  | data bytes _ => bytes
  | _ => []

/-- The error by which the stream is reset. -/
def code? : Body → Option Nat
  | reset code => some code
  | _ => none

end Body

/-- What a half-stream holds of a half: the time of its first frame, the headers and the data of
all its frames in order, and the error of the last one if that is a reset. -/
structure Gathers (half : List (Stamped Frame)) (h : HalfStream) : Prop where
  time : half.head?.map (·.time) = some h.time
  headers : h.headers = half.flatMap (·.value.body.fields)
  body : h.body = half.flatMap (·.value.body.bytes)
  reset : h.reset = half.getLast?.bind (·.value.body.code?)

/-- This leaves nothing of a half-stream open. -/
theorem Gathers.eq {half : List (Stamped Frame)} {h : HalfStream} (gathers : Gathers half h) :
    h = ⟨(half.head?.map (·.time)).getD 0, half.flatMap (·.value.body.fields),
      half.flatMap (·.value.body.bytes), half.getLast?.bind (·.value.body.code?)⟩ := by
  obtain ⟨time, headers, body, reset⟩ := gathers
  rw [time, ← headers, ← body, ← reset]
  rfl

theorem code?_of_more {f : Stamped Frame} (more : f.value.endsHalf = false) :
    f.value.body.code? = none := by
  obtain ⟨time, stream, kind, flags, body, length⟩ := f
  cases body with
  | reset code => cases more
  | _ => rfl

/-- Only the last frame of a half can reset the stream. -/
theorem gathers_collect {half : List (Stamped Frame)} (h : IsHalf half) :
    Gathers half (HalfStream.collect half) where
  time := by
    obtain ⟨before, last, rfl, -, -⟩ := h
    cases before <;> rfl
  headers := rfl
  body := rfl
  reset := by
    obtain ⟨before, last, rfl, goesOn, -⟩ := h
    have others : before.filterMap (·.value.body.code?) = [] :=
      List.filterMap_eq_nil_iff.2 fun f mem => code?_of_more (goesOn f mem)
    show ((before ++ [last]).filterMap (·.value.body.code?)).getLast? = _
    rw [List.filterMap_append, others, List.nil_append, List.getLast?_concat, Option.bind_some]
    cases code : last.value.body.code? <;> simp [code]

/-- **Half-streams are paired one to one.** On one stream other than 0, let the contributing
frames of both sides be cut behind every one that ends a half. Then there are as many exchanges as
both sides have halves, and each of them holds what the two halves at its place hold, and nothing
else. The other halves of the client and its tail stay, in order. If the server has more halves and
nothing of the client is left, these are counted, each as one error, and dropped; otherwise they
stay, in order and with the tail behind them, and nothing is counted. -/
theorem halves_paired (lane : Lane Frame) {stream : Nat} (ne : stream ≠ 0)
    (one : ∀ f ∈ lane.requests ++ lane.responses, f.value.stream = stream)
    (asked : Halves (lane.requests.filter (·.value.contributes)))
    (told : Halves (lane.responses.filter (·.value.contributes))) :
    let m := asked.whole.length
    let n := told.whole.length
    (pair lane).exchanges.length = min m n ∧
      List.Forall₂ (fun x halves => x.stream = stream ∧ Gathers halves.1 x.request ∧
        Gathers halves.2 x.response) (pair lane).exchanges (asked.whole.zip told.whole) ∧
      (pair lane).left.requests = (asked.whole.drop n).flatten ++ asked.tail ∧
      (m < n ∧ asked.tail = [] →
        (pair lane).errors = n - m ∧ (pair lane).left.responses = told.tail) ∧
      (¬ (m < n ∧ asked.tail = []) →
        (pair lane).errors = 0 ∧
          (pair lane).left.responses = (told.whole.drop m).flatten ++ told.tail) := by
  intro m n
  have paired : pair lane = _ := pair_of_one ne one
  rw [asked.frames_eq, told.frames_eq, pairHalves_eq asked.isHalf told.isHalf asked.unended
    told.unended] at paired
  have exchanges : (pair lane).exchanges =
      (asked.whole.zip told.whole).map fun halves => exchange stream halves.1 halves.2 := by
    rw [paired, Pairing.Progress.finish, List.append_nil, List.reverse_reverse]
    show List.zipWith (exchange stream) asked.whole told.whole = _
    rw [List.zip, List.map_zipWith]
  refine ⟨?_, ?_, ?_, ?_, ?_⟩
  · rw [exchanges, List.length_map, List.length_zip]
  · rw [exchanges, List.forall₂_map_left_iff, List.forall₂_same]
    intro halves mem
    obtain ⟨inAsked, inTold⟩ := List.of_mem_zip mem
    exact ⟨rfl, gathers_collect (asked.isHalf _ inAsked), gathers_collect (told.isHalf _ inTold)⟩
  · rw [paired]
    rfl
  · intro alone
    rw [paired]
    simp [Pairing.Progress.finish, alone.2, m, n]
  · intro other
    rw [paired]
    by_cases empty : asked.tail = []
    · have none : told.whole.drop asked.whole.length = [] :=
        List.drop_eq_nil_of_le (Nat.not_lt.1 fun lt => other ⟨lt, empty⟩)
      simp [Pairing.Progress.finish, none, m]
    · simp [Pairing.Progress.finish, empty, m]

/-- One request, and what the server sends: a response with trailers, a reset, and data to nothing
behind it, of which the last frame ends no half. -/
def settled : Lane Frame :=
  let frame (time : Nat) (body : Body) : Stamped Frame := ⟨time, 7, .data, 0, body, 9⟩
  ⟨[frame 1 .control, frame 2 (.headers [(":method", "PUT")] false), frame 3 (.data [1, 2] true)],
    [frame 4 (.headers [(":status", "200")] false), frame 5 .control, frame 6 (.data [3] false),
      frame 7 (.data [4] false), frame 8 (.headers [("sum", "7")] true), frame 9 (.reset 8),
      frame 10 (.data [5] false)]⟩

theorem halves_paired_settled :
    (∀ f ∈ settled.requests ++ settled.responses, f.value.stream = 7) ∧
      (∃ x, (pair settled).exchanges = [x] ∧ x.request = ⟨2, [(":method", "PUT")], [1, 2], none⟩ ∧
        x.response = ⟨4, [(":status", "200"), ("sum", "7")], [3, 4], none⟩) ∧
      (pair settled).errors = 1 ∧
      (pair settled).left = ⟨[], settled.responses.drop 6⟩ := by
  have one : ∀ f ∈ settled.requests ++ settled.responses, f.value.stream = 7 := by decide
  let asked := Halves.ofFrames (settled.requests.filter (·.value.contributes))
  let told := Halves.ofFrames (settled.responses.filter (·.value.contributes))
  obtain ⟨count, exchanges, requests, dropped, -⟩ :=
    halves_paired settled (by decide) one asked told
  have halves : asked.whole.zip told.whole =
      [(settled.requests.drop 1, settled.responses.eraseIdx 1 |>.take 4)] := rfl
  have alone : asked.whole.length < told.whole.length ∧ asked.tail = [] := by decide
  obtain ⟨errors, responses⟩ := dropped alone
  rw [halves] at exchanges
  obtain ⟨x, _, ⟨-, request, response⟩, none, same⟩ := List.forall₂_cons_right_iff.1 exchanges
  cases none
  refine ⟨one, ⟨x, same, request.eq, response.eq⟩, errors, ?_⟩
  exact congr (congrArg Lane.mk requests) responses

end Dialogue.Http2
