import Mathlib
import Dialogue.Http
import Dialogue.Proofs.Contract
import Dialogue.Proofs.Lines

/-!
The contract for HTTP/1, whatever reads the heads.

All that is needed of a reader of heads is that it is `Settled`: a head takes up some of the bytes,
and stays the same head when more bytes come. The reader here is put together from parts; a part is
`Steady` if what it has read stays as it is. Reading up to the first byte that is not accepted is
not steady, since that byte may not be there yet, but it becomes so with a part behind it that needs
a byte (`Steady.bind_of_loose`).
-/
namespace Dialogue.Http

/-- A reader of heads reads some of the bytes, and the same head from longer bytes. -/
structure HeadReader.Settled (read : HeadReader) : Prop where
  bounded : ∀ {dir : Direction} {bs : Bytes} {head : Head},
    read dir bs = .ok head → 0 < head.length ∧ head.length ≤ bs.length
  steady : ∀ {dir : Direction} {bs : Bytes} {head : Head},
    read dir bs = .ok head → ∀ tail, read dir (bs ++ tail) = .ok head

/-! ## Messages -/

namespace Chunked

theorem emptyLineEnd_le {n stop : Nat} {bs : Bytes} (h : emptyLineEnd n bs = some stop) :
    stop ≤ n + bs.length := by
  induction bs generalizing n with
  | nil => cases h
  | cons b bs ih =>
    rw [emptyLineEnd] at h
    split at h
    · next found =>
      obtain rfl := Option.some.inj h
      have := congrArg List.length (beq_iff_eq.1 found)
      rw [List.length_take] at this
      have four : (Line.ending ++ Line.ending).length = 4 := rfl
      omega
    · have := ih h
      rw [List.length_cons]
      omega

theorem readEnd_le {content found : Bytes} {position n : Nat} {bs : Bytes}
    (h : readEnd content position bs = .complete found n) : n ≤ position + bs.length := by
  unfold readEnd at h
  split at h
  · next ends =>
    cases h
    have := congrArg List.length (beq_iff_eq.1 ends)
    rw [List.length_take] at this
    omega
  · split at h
    · next stop found =>
      cases h
      have := emptyLineEnd_le found
      omega
    · cases h

theorem readFrom_le {chunks : List Bytes} {position n : Nat} {bs content : Bytes}
    (h : readFrom chunks position bs = .complete content n) : n ≤ position + bs.length := by
  fun_induction readFrom chunks position bs with
  | case1 => cases h
  | case2 => cases h
  | case3 chunks position bs line rest split _ next =>
    -- The last chunk has been passed, and its line with it.
    have := Line.length_split? split
    have := readEnd_le h
    omega
  | case4 => cases h
  | case5 => cases h
  | case6 => cases h
  | case7 chunks position bs line rest split _ size _ next _ _ fits _ ih =>
    have := Line.length_split? split
    have := atLeast_iff.1 (atLeast_of_not fits)
    have := ih h
    rw [List.length_drop] at this
    omega

theorem read_le {bs content : Bytes} {n : Nat} (h : read bs = .complete content n) :
    n ≤ bs.length := by
  have := readFrom_le h
  omega

end Chunked

namespace Message

variable {head : Head} {hasBody : Bool} {rest : Bytes}

/-- The body that headers declare at the start of the bytes behind them, and the number of bytes it
takes up. -/
inductive Declares (headers : List Header) (rest : Bytes) : Bytes → Nat → Prop where
  | chunked {content : Bytes} {n : Nat} (chunked : isChunked headers = true)
      (read : Chunked.read rest = .complete content n) : Declares headers rest content n
  | sized {n : Nat} (plain : isChunked headers = false)
      (announced : contentLength headers = .ok (some n)) (whole : n ≤ rest.length) :
      Declares headers rest (rest.take n) n
  | unsaid (plain : isChunked headers = false) (announced : contentLength headers = .ok none) :
      Declares headers rest [] 0

theorem Declares.le {headers : List Header} {body : Bytes} {size : Nat}
    (h : Declares headers rest body size) : size ≤ rest.length := by
  cases h with
  | chunked _ read => exact Chunked.read_le read
  | sized _ _ whole => exact whole
  | unsaid => exact Nat.zero_le _

/-- A message is its head with the body that the head declares, or with none. -/
theorem declares_of_parseBody {frame : Message} {n : Nat}
    (h : parseBody head hasBody rest = .complete frame n) :
    ∃ body size, frame = ⟨head.start, head.minor, head.headers, body, head.length + size⟩ ∧
      n = head.length + size ∧
      if hasBody then Declares head.headers rest body size else body = [] ∧ size = 0 := by
  unfold parseBody at h
  dsimp only at h
  cases hasBody with
  | false =>
    obtain ⟨rfl, rfl⟩ := Parsed.complete.inj h
    exact ⟨[], 0, rfl, rfl, rfl, rfl⟩
  | true =>
    rw [if_neg (by decide)] at h
    cases chunked : isChunked head.headers with
    | true =>
      rw [chunked, if_pos rfl] at h
      split at h
      · next content size read =>
        obtain ⟨rfl, rfl⟩ := Parsed.complete.inj h
        exact ⟨content, size, rfl, rfl, .chunked chunked read⟩
      · cases h
      · cases h
    | false =>
      rw [chunked, if_neg (by decide)] at h
      split at h
      · cases h
      · next unsaid =>
        obtain ⟨rfl, rfl⟩ := Parsed.complete.inj h
        exact ⟨[], 0, rfl, rfl, .unsaid chunked unsaid⟩
      · next size announced =>
        split_ifs at h with whole
        obtain ⟨rfl, rfl⟩ := Parsed.complete.inj h
        exact ⟨rest.take size, size, rfl, rfl, .sized chunked announced (atLeast_iff.1 whole)⟩

/-- A message takes up its head and the body behind it. -/
theorem parseBody_complete {frame : Message} {n : Nat}
    (h : parseBody head hasBody rest = .complete frame n) :
    head.length ≤ n ∧ n ≤ head.length + rest.length ∧ frame.length = n := by
  obtain ⟨body, size, rfl, rfl, declared⟩ := declares_of_parseBody h
  have le : size ≤ rest.length := by
    cases hasBody with
    | false =>
      obtain ⟨-, rfl⟩ : body = [] ∧ size = 0 := declared
      exact Nat.zero_le _
    | true => exact Declares.le declared
  exact ⟨Nat.le_add_right .., Nat.add_le_add_left le _, rfl⟩

/-- A number of bytes is asked for only where the head gives the length of the body, and then no
shorter body is read. -/
theorem parseBody_needMore {m : Nat} (h : parseBody head hasBody rest = .needMore (some m)) :
    ∃ length, rest.length < length ∧ m = min (head.length + length) maxRequest ∧
      ∀ more frame n, parseBody head hasBody more = .complete frame n →
        n = head.length + length := by
  unfold parseBody at h
  dsimp only at h
  split at h
  · cases h
  · next has =>
    split at h
    · split at h <;> cases h
    · next plain =>
      split at h
      · cases h
      · cases h
      · next length announced =>
        split_ifs at h with whole
        rw [atLeast_iff, Nat.not_le] at whole
        refine ⟨length, whole, (Option.some.inj (Parsed.needMore.inj h)).symm, ?_⟩
        intro more frame n complete
        unfold parseBody at complete
        dsimp only at complete
        rw [if_neg has, if_neg plain, announced] at complete
        dsimp only at complete
        split_ifs at complete
        exact (Parsed.complete.inj complete).2.symm

variable {read : HeadReader} (settled : read.Settled) (dir : Direction) (awaited : Awaited)
include settled

theorem frames_parseWith (hasBody : Head → Bool) :
    Frames Message.length (parseWith read dir hasBody) where
  whole := by
    intro bs frame n h
    unfold parseWith at h
    split at h
    · cases h
    · split_ifs at h
    · next head begun =>
      obtain ⟨pos, within⟩ := settled.bounded begun
      obtain ⟨le, ge, measured⟩ := parseBody_complete h
      rw [List.length_drop] at ge
      exact ⟨by omega, by omega, measured⟩
  ahead := by
    intro bs m fits h
    unfold parseWith at h
    split at h
    · cases h
    · split_ifs at h
      cases h
    · next head begun =>
      obtain ⟨length, short, rfl, -⟩ := parseBody_needMore h
      rw [List.length_drop] at short
      -- What is asked for is cut off only beyond what memory can hold.
      have : maxBytes < maxRequest := by decide
      omega
  least := by
    intro bs tail m n frame h complete
    unfold parseWith at h complete
    split at h
    · cases h
    · split_ifs at h
      cases h
    · next head begun =>
      rw [settled.steady begun tail] at complete
      obtain ⟨length, -, rfl, same⟩ := parseBody_needMore h
      rw [same _ _ _ complete]
      exact Nat.min_le_left ..

theorem frames_parse : Frames Message.length fun bs => (parse read dir awaited bs).1 := by
  have outcome (bs : Bytes) : (parse read dir awaited bs).1 =
      if bs = [] then .needMore (some 1) else parseWith read dir (hasBody dir awaited) bs := by
    unfold parse
    simp only [List.isEmpty_iff]
    split_ifs
    · rfl
    · split <;> rfl
  have frames := frames_parseWith settled dir (hasBody dir awaited)
  simp only [outcome]
  exact {
    whole := by
      intro bs frame n h
      split_ifs at h
      exact frames.whole h
    ahead := by
      intro bs m fits h
      split_ifs at h with empty
      · obtain rfl := Option.some.inj (Parsed.needMore.inj h)
        rw [empty]
        exact Nat.zero_lt_one
      · exact frames.ahead fits h
    least := by
      intro bs tail m n frame h complete
      split_ifs at h complete with empty
      · obtain rfl := Option.some.inj (Parsed.needMore.inj h)
        exact (frames.whole complete).1
      · exact frames.least h complete }

omit settled in
/-- Only a whole message is learned from. -/
theorem snd_parse {bs : Bytes} {dir : Direction} {awaited : Awaited}
    (other : ∀ frame n, (parse read dir awaited bs).1 ≠ .complete frame n) :
    (parse read dir awaited bs).2 = awaited := by
  unfold parse at other ⊢
  split_ifs at other ⊢
  · rfl
  · dsimp only at other ⊢
    split
    · next read =>
      rw [read] at other
      exact absurd rfl (other _ _)
    · rfl

theorem contract_parse : Contract Message.length (parse read) :=
  .of_frames (frames_parse settled) snd_parse

end Message

/-! ## Heads -/

namespace Head

variable {α β : Type}

/-- What a part has read stays as it is when more bytes come, as long as a byte is left behind
it. -/
structure Loose (part : Part α) : Prop where
  step : ∀ {p q : Place} {a : α}, part p = .ok (a, q) →
    p.read ≤ q.read ∧ q.read + q.rest.length = p.read + p.rest.length
  steady : ∀ {p q : Place} {a : α}, part p = .ok (a, q) → q.rest ≠ [] →
    ∀ tail, part ⟨p.read, p.rest ++ tail⟩ = .ok (a, ⟨q.read, q.rest ++ tail⟩)

/-- What a part has read stays as it is when more bytes come. -/
structure Steady (part : Part α) : Prop where
  step : ∀ {p q : Place} {a : α}, part p = .ok (a, q) →
    p.read ≤ q.read ∧ q.read + q.rest.length = p.read + p.rest.length
  steady : ∀ {p q : Place} {a : α}, part p = .ok (a, q) →
    ∀ tail, part ⟨p.read, p.rest ++ tail⟩ = .ok (a, ⟨q.read, q.rest ++ tail⟩)

/-- A steady part that reads at least one byte. -/
structure Firm (part : Part α) : Prop extends Steady part where
  consumes : ∀ {p q : Place} {a : α}, part p = .ok (a, q) → p.read < q.read

/-! ### Composition -/

theorem ok_of_bind {part : Part α} {f : α → Part β} {p q : Place} {b : β}
    (h : (part >>= f) p = .ok (b, q)) : ∃ a r, part p = .ok (a, r) ∧ f a r = .ok (b, q) := by
  change (part p >>= fun x => f x.1 x.2) = _ at h
  cases first : part p with
  | error stop =>
    rw [first] at h
    cases h
  | ok x =>
    rw [first] at h
    exact ⟨x.1, x.2, rfl, h⟩

theorem bind_of_ok {part : Part α} {f : α → Part β} {p q : Place} {a : α}
    (h : part p = .ok (a, q)) : (part >>= f) p = f a q := by
  change (part p >>= fun x => f x.1 x.2) = _
  rw [h]
  rfl

theorem Steady.pure (a : α) : Steady (Pure.pure a : Part α) where
  step h := by
    cases h
    exact ⟨Nat.le_refl _, rfl⟩
  steady h _ := by
    cases h
    rfl

theorem Steady.malformed : Steady (malformed : Part α) := ⟨nofun, nofun⟩

theorem Steady.bind {part : Part α} {f : α → Part β} (h : Steady part) (hf : ∀ a, Steady (f a)) :
    Steady (part >>= f) where
  step := by
    intro p q b done
    obtain ⟨a, r, first, second⟩ := ok_of_bind done
    have := h.step first
    have := (hf a).step second
    omega
  steady := by
    intro p q b done tail
    obtain ⟨a, r, first, second⟩ := ok_of_bind done
    rw [bind_of_ok (h.steady first tail)]
    exact (hf a).steady second tail

/-- What comes behind a test that ends the reading where it applies. -/
theorem Steady.unless {c : Prop} [Decidable c] {f : Unit → Part α} (hf : ∀ u, Steady (f u)) :
    Steady (if c then Head.malformed >>= f else f ()) := by
  split_ifs
  · exact Steady.malformed.bind hf
  · exact hf ()

theorem Firm.bind {part : Part α} {f : α → Part β} (h : Firm part) (hf : ∀ a, Steady (f a)) :
    Firm (part >>= f) where
  toSteady := h.toSteady.bind hf
  consumes := by
    intro p q b done
    obtain ⟨a, r, first, second⟩ := ok_of_bind done
    exact Nat.lt_of_lt_of_le (h.consumes first) ((hf a).step second).1

/-- A part that may have stopped too early has not if the one behind it reads a byte. -/
theorem Firm.bind_of_loose {part : Part α} {f : α → Part β} (h : Loose part)
    (hf : ∀ a, Firm (f a)) : Firm (part >>= f) where
  step := by
    intro p q b done
    obtain ⟨a, r, first, second⟩ := ok_of_bind done
    have := h.step first
    have := (hf a).step second
    omega
  steady := by
    intro p q b done tail
    obtain ⟨a, r, first, second⟩ := ok_of_bind done
    -- The second part has found a byte to read, so the first one stopped at it.
    have left : r.rest ≠ [] := by
      intro empty
      have := (hf a).consumes second
      have := (hf a).step second
      rw [empty, List.length_nil] at this
      omega
    rw [bind_of_ok (h.steady first left tail)]
    exact (hf a).steady second tail
  consumes := by
    intro p q b done
    obtain ⟨a, r, first, second⟩ := ok_of_bind done
    exact Nat.lt_of_le_of_lt (h.step first).1 ((hf a).consumes second)

/-! ### Parts -/

theorem firm_next : Firm next where
  step := by
    rintro ⟨read, rest⟩ q b h
    cases rest with
    | nil => cases h
    | cons c rest =>
      cases h
      simp only [List.length_cons]
      omega
  steady := by
    rintro ⟨read, rest⟩ q b h tail
    cases rest with
    | nil => cases h
    | cons c rest =>
      cases h
      rfl
  consumes := by
    rintro ⟨read, rest⟩ q b h
    cases rest with
    | nil => cases h
    | cons c rest =>
      cases h
      exact Nat.lt_succ_self _

theorem loose_run (accept : UInt8 → Bool) : Loose (run accept) where
  step := by
    rintro p q bytes h
    cases h
    have := (List.takeWhile_prefix accept (l := p.rest)).length_le
    simp only [List.length_drop]
    omega
  steady := by
    rintro p q bytes h left tail
    cases h
    have shorter : (p.rest.takeWhile accept).length ≠ p.rest.length := by
      intro all
      exact left (List.drop_eq_nil_of_le all.ge)
    have le := (List.takeWhile_prefix accept (l := p.rest)).length_le
    unfold run
    rw [List.takeWhile_append, if_neg shorter]
    simp only [List.drop_append_of_le_length le]

theorem firm_expect (b : UInt8) : Firm (expect b) := by
  refine firm_next.bind fun c => ?_
  split_ifs
  · exact .malformed
  · exact .pure ()

theorem steady_endLine (b : UInt8) : Steady (endLine b) := by
  unfold endLine
  split_ifs
  · exact (firm_expect 10).toSteady
  · exact .pure ()
  · exact .malformed

/-- A version takes up all of its bytes. -/
theorem version_ok {p q : Place} {n : Nat} (h : version p = .ok (n, q)) :
    q.read = p.read + versionStart.length + 1 ∧
      q.read + q.rest.length = p.read + p.rest.length ∧
      ∀ tail, version ⟨p.read, p.rest ++ tail⟩ = .ok (n, ⟨q.read, q.rest ++ tail⟩) := by
  unfold version at h
  dsimp only at h
  split_ifs at h with short other
  have whole := atLeast_of_not short
  have le : versionStart.length ≤ p.rest.length := Nat.le_of_succ_le (atLeast_iff.1 whole)
  have total := congrArg List.length (List.take_append_drop versionStart.length p.rest)
  rw [List.length_append, List.length_take, Nat.min_eq_left le] at total
  have taken (tail : Bytes) :
      (p.rest ++ tail).take versionStart.length = p.rest.take versionStart.length :=
    List.take_append_of_le_length le
  have dropped (tail : Bytes) :
      (p.rest ++ tail).drop versionStart.length = p.rest.drop versionStart.length ++ tail :=
    List.drop_append_of_le_length le
  split at h
  · next rest behind =>
    cases h
    rw [behind, List.length_cons] at total
    refine ⟨rfl, by simp only; omega, fun tail => ?_⟩
    unfold version
    dsimp only
    rw [atLeast_append whole, if_neg (by decide), taken, if_neg other, dropped, behind]
    rfl
  · next rest behind =>
    cases h
    rw [behind, List.length_cons] at total
    refine ⟨rfl, by simp only; omega, fun tail => ?_⟩
    unfold version
    dsimp only
    rw [atLeast_append whole, if_neg (by decide), taken, if_neg other, dropped, behind]
    rfl
  · cases h

theorem firm_version : Firm version where
  step h := by
    have := version_ok h
    exact ⟨by omega, this.2.1⟩
  steady h := (version_ok h).2.2
  consumes h := by
    have := version_ok h
    omega

theorem firm_requestLine : Firm requestLine := by
  unfold requestLine
  refine .bind_of_loose (loose_run isToken) fun method => (firm_expect 32).bind fun _ => ?_
  refine .unless fun _ => (Firm.bind_of_loose (loose_run isTarget) fun target => ?_).toSteady
  refine (firm_expect 32).bind fun _ => .unless fun _ => ?_
  split
  · exact .malformed
  · exact firm_version.toSteady.bind fun minor => firm_next.toSteady.bind fun b =>
      (steady_endLine b).bind fun _ => .pure _

theorem firm_digit : Firm digit := by
  refine firm_next.bind fun b => ?_
  split_ifs
  · exact .pure _
  · exact .malformed

theorem firm_reason : Firm reason :=
  .bind_of_loose (loose_run isText) fun _ => firm_next.bind fun b =>
    (steady_endLine b).bind fun _ => .pure _

theorem firm_statusLine : Firm statusLine := by
  refine firm_version.bind fun minor => (firm_expect 32).toSteady.bind fun _ => ?_
  refine firm_digit.toSteady.bind fun hundreds => firm_digit.toSteady.bind fun tens => ?_
  refine firm_digit.toSteady.bind fun ones => firm_next.toSteady.bind fun b => ?_
  split_ifs
  · exact firm_reason.toSteady.bind fun _ => .pure _
  · exact (steady_endLine b).bind fun _ => .pure _

theorem firm_startLine (dir : Direction) : Firm (startLine dir) := by
  cases dir with
  | request => exact firm_requestLine
  | response => exact firm_statusLine

theorem firm_value : Firm value :=
  .bind_of_loose (loose_run isBlank) fun _ => .bind_of_loose (loose_run isText) fun _ =>
    firm_next.bind fun b => (steady_endLine b).bind fun _ => .pure _

theorem firm_headerLine : Firm headerLine := by
  refine .bind_of_loose (loose_run isToken) fun name => firm_next.bind fun b => ?_
  split_ifs
  · exact (steady_endLine b).bind fun _ => .pure _
  · exact firm_value.toSteady.bind fun _ => .pure _
  · exact .malformed

theorem firm_headerLines (found : List Header) (n : Nat) : Firm (headerLines found n) := by
  induction n generalizing found with
  | zero =>
    refine firm_headerLine.bind fun header => ?_
    cases header with
    | none => exact .pure _
    | some header => exact .malformed
  | succ n ih =>
    refine firm_headerLine.bind fun header => ?_
    cases header with
    | none => exact .pure _
    | some header => exact (ih _).toSteady

theorem firm_lines {startLine : Part (StartLine × Nat)} (h : Firm startLine) :
    Firm (lines startLine) :=
  h.bind fun _ => (firm_headerLines [] maxHeaders).toSteady.bind fun _ => .pure _

theorem skipEmptyLines_ok {n : Nat} {bs : Bytes} {p : Place}
    (h : skipEmptyLines n bs = .ok p) :
    p.read + p.rest.length = n + bs.length ∧
      ∀ tail, skipEmptyLines n (bs ++ tail) = .ok ⟨p.read, p.rest ++ tail⟩ := by
  fun_induction skipEmptyLines n bs with
  | case1 => cases h
  | case2 n rest ih =>
    obtain ⟨total, longer⟩ := ih h
    rw [List.length_cons]
    refine ⟨by omega, fun tail => ?_⟩
    rw [List.cons_append, skipEmptyLines]
    exact longer tail
  | case3 n rest ih =>
    obtain ⟨total, longer⟩ := ih h
    simp only [List.length_cons]
    refine ⟨by omega, fun tail => ?_⟩
    rw [List.cons_append, List.cons_append, skipEmptyLines]
    exact longer tail
  | case4 => cases h
  | case5 => cases h
  | case6 n b rest notFeed notBoth notCut notReturn =>
    cases h
    -- The start line begins here, whatever follows.
    have other : b ≠ 13 := by
      rintro rfl
      cases rest with
      | nil => exact notCut rfl rfl
      | cons c rest => exact notReturn c rest rfl rfl
    refine ⟨rfl, fun tail => ?_⟩
    rw [List.cons_append, skipEmptyLines]
    · exact notFeed
    · exact fun _ same => absurd same other
    · exact fun same => absurd same other
    · exact fun _ _ same => absurd same other

/-- The heads that are read here are settled. -/
theorem settled_read : HeadReader.Settled Head.read := by
  have parts {dir : Direction} {bs : Bytes} {head : Head} (h : Head.read dir bs = .ok head) :
      0 < head.length ∧ head.length ≤ bs.length ∧
        ∀ tail, Head.read dir (bs ++ tail) = .ok head := by
    unfold Head.read at h
    split at h
    · cases h
    · next skipped =>
      split at h
      · cases h
      · next read =>
        cases h
        have firm := firm_lines (firm_startLine dir)
        obtain ⟨total, longer⟩ := skipEmptyLines_ok skipped
        have := firm.step read
        have := firm.consumes read
        refine ⟨by simp only; omega, by simp only; omega, fun tail => ?_⟩
        unfold Head.read
        rw [longer tail]
        dsimp only
        rw [firm.steady read tail]
  exact ⟨fun h => ⟨(parts h).1, (parts h).2.1⟩, fun h => (parts h).2.2⟩

end Head

theorem contract {read : HeadReader} (settled : read.Settled) :
    Contract (dialect read).size (dialect read).parse := Message.contract_parse settled

end Dialogue.Http
