import Mathlib
import Dialogue.Nats
import Dialogue.Redis
import Dialogue.Proofs.Contract
import Dialogue.Proofs.Delimited

/-!
The contract for formats that are read line by line.

Where a line ends does not depend on what follows, so a reader that has passed a line stays behind
it when more bytes come. For NATS this settles everything but a payload, whose length stands in the
line. A Redis value is read by readers that hand on the rest of the bytes and the position they have
come to; `Walks` says that these two stay in step, that a walk is the same on longer bytes and that
a minimum it asks for lies ahead, and it goes through composition (`Walks.andThen`).
-/
namespace Dialogue

/-! ## Lines -/

namespace Line

theorem length_ending : ending.length = 2 := rfl

theorem splitFrom_append {found bs line rest : Bytes} (h : splitFrom found bs = some (line, rest))
    (tail : Bytes) : splitFrom found (bs ++ tail) = some (line, rest ++ tail) := by
  induction bs generalizing found with
  | nil => cases h
  | cons b bs ih =>
    rw [List.cons_append, splitFrom]
    rw [splitFrom] at h
    split at h
    · next ends =>
      obtain ⟨rfl, rfl⟩ := Prod.mk.inj (Option.some.inj h)
      have some : bs ≠ [] := by
        rintro rfl
        cases ends.2
      rw [List.head?_append_of_ne_nil _ some, if_pos ends, List.tail_append_of_ne_nil some]
    · next goes =>
      have goes' : ¬ (b = 13 ∧ (bs ++ tail).head? = some 10) := by
        rintro ⟨rfl, second⟩
        cases bs with
        | nil => cases h
        | cons c bs => exact goes ⟨rfl, second⟩
      rw [if_neg goes']
      exact ih h

theorem split?_append {bs line rest : Bytes} (h : split? bs = some (line, rest)) (tail : Bytes) :
    split? (bs ++ tail) = some (line, rest ++ tail) := splitFrom_append h tail

theorem length_splitFrom {found bs line rest : Bytes}
    (h : splitFrom found bs = some (line, rest)) :
    line.length + ending.length + rest.length = found.length + bs.length := by
  induction bs generalizing found with
  | nil => cases h
  | cons b bs ih =>
    rw [splitFrom] at h
    split at h
    · next ends =>
      obtain ⟨rfl, rfl⟩ := Prod.mk.inj (Option.some.inj h)
      cases bs with
      | nil => cases ends.2
      | cons c bs =>
        simp only [List.length_reverse, List.tail_cons, List.length_cons, length_ending]
        omega
    · have := ih h
      simp only [List.length_cons] at this ⊢
      omega

/-- A line, its ending and the bytes behind it are all there is. -/
theorem length_split? {bs line rest : Bytes} (h : split? bs = some (line, rest)) :
    line.length + ending.length + rest.length = bs.length := by
  have := length_splitFrom h
  rwa [List.length_nil, Nat.zero_add] at this

/-- A line without a line ending inside. -/
def Plain (line : Bytes) : Prop := ¬ ending <:+: line

theorem plain_of_not_mem {line : Bytes} (h : 13 ∉ line) : Plain line := fun inside =>
  h (inside.subset List.mem_cons_self)

theorem splitFrom_plain {line : Bytes} (plain : Plain line) (found rest : Bytes) :
    splitFrom found (line ++ ending ++ rest) = some (found.reverse ++ line, rest) := by
  induction line generalizing found with
  | nil => simp [splitFrom, ending]
  | cons b line ih =>
    have later : Plain line := fun inside => plain (inside.trans (List.suffix_cons b line).isInfix)
    have goes : ¬ (b = 13 ∧ (line ++ ending ++ rest).head? = some 10) := by
      rintro ⟨rfl, second⟩
      cases line with
      | nil => cases second
      | cons c line =>
        cases second
        exact plain (List.prefix_append ending line).isInfix
    rw [List.cons_append, List.cons_append, splitFrom, if_neg goes, ih later, List.reverse_cons,
      List.append_assoc]
    rfl

/-- A line without an ending inside ends where it is ended. -/
theorem split?_plain {line : Bytes} (plain : Plain line) (rest : Bytes) :
    split? (line ++ ending ++ rest) = some (line, rest) := splitFrom_plain plain [] rest

/-- Where some of a line and its ending is missing, no line is found. -/
theorem split?_take {line : Bytes} (plain : Plain line) {n : Nat}
    (cut : n < (line ++ ending).length) : split? ((line ++ ending).take n) = none := by
  cases found : split? ((line ++ ending).take n) with
  | none => rfl
  | some r =>
    obtain ⟨first, rest⟩ := r
    have whole := split?_append found ((line ++ ending).drop n)
    have ended := split?_plain plain []
    rw [List.append_nil] at ended
    rw [List.take_append_drop, ended] at whole
    obtain ⟨rfl, -⟩ := Prod.mk.inj (Option.some.inj whole)
    have length := length_split? found
    rw [List.length_take, List.length_append] at *
    omega

variable {limit : Nat} {bs line rest : Bytes}

theorem length_splitWithin? (h : splitWithin? limit bs = some (line, rest)) :
    line.length + ending.length + rest.length = bs.length := by
  unfold splitWithin? at h
  split at h
  · next found =>
    obtain ⟨rfl, rfl⟩ := Prod.mk.inj (Option.some.inj h)
    have := length_split? found
    rw [List.length_take] at this
    rw [List.length_drop]
    omega
  · cases h

theorem splitWithin?_append (h : splitWithin? limit bs = some (line, rest)) (tail : Bytes) :
    splitWithin? limit (bs ++ tail) = some (line, rest ++ tail) := by
  have length := length_splitWithin? h
  unfold splitWithin? at h ⊢
  split at h
  · next found =>
    obtain ⟨rfl, rfl⟩ := Prod.mk.inj (Option.some.inj h)
    rw [List.take_append, split?_append found]
    dsimp only
    rw [List.drop_append_of_le_length (by omega)]
  · cases h

end Line

/-! ## NATS -/

namespace Nats.Message

/-- A command that stands whole at the start of some bytes does so whatever follows. -/
theorem command?_append {bs : Bytes} {c : Command × Nat} (h : command? bs = .ok (some c))
    (tail : Bytes) : command? (bs ++ tail) = .ok (some c) := by
  unfold command? at h
  dsimp only at h
  split at h
  · next whole =>
    have same : firstWord (bs ++ tail) = firstWord bs := by
      have le := atLeast_iff.1 whole
      unfold firstWord at le ⊢
      rw [List.take_append, List.takeWhile_append]
      split
      · -- The word is as long as a word may be, so nothing of what follows is looked at.
        next full =>
        rw [full, List.length_take] at le
        have : wordLimit - bs.length = 0 := by omega
        rw [this, List.take_zero, List.takeWhile_nil, List.append_nil,
          List.takeWhile_eq_self_iff.2]
        exact List.takeWhile_eq_self_iff.1 (List.Sublist.eq_of_length
          (List.takeWhile_prefix _).sublist full)
      · rfl
    unfold command?
    dsimp only
    rw [same, if_pos (atLeast_append whole tail)]
    exact h
  · split at h <;> cases h

variable {dir : Direction} {c : Command} {options : String} {before length : Nat} {rest : Bytes}

theorem parsePayload_complete {frame : Message} {n : Nat}
    (h : parsePayload c options before length rest = .complete frame n) :
    n = before + length + Line.ending.length ∧ length + Line.ending.length ≤ rest.length ∧
      frame.length = n := by
  unfold parsePayload at h
  dsimp only at h
  split_ifs at h with short
  obtain ⟨rfl, rfl⟩ := Parsed.complete.inj h
  exact ⟨rfl, atLeast_iff.1 (atLeast_of_not short), rfl⟩

theorem parsePayload_needMore {m : Nat}
    (h : parsePayload c options before length rest = .needMore (some m)) :
    m = before + length + Line.ending.length ∧ rest.length < length + Line.ending.length := by
  unfold parsePayload at h
  dsimp only at h
  split_ifs at h with short
  obtain rfl := Option.some.inj (Parsed.needMore.inj h)
  exact ⟨rfl, length_lt_of_not short⟩

/-- A number of bytes is only asked for behind a control line, which gives the length of the
payload; more bytes are read as that payload. -/
theorem parse_needMore {bs : Bytes} {m : Nat} (h : parse dir bs = .needMore (some m)) :
    ∃ c options length line rest, Line.splitWithin? maxLine bs = some (line, rest) ∧
      ∀ tail, parse dir (bs ++ tail) =
        parsePayload c options (line.length + Line.ending.length) length (rest ++ tail) := by
  unfold parse at h
  split at h
  · cases h
  · cases h
  · next c word command =>
    split at h
    · cases h
    · next valid =>
      split at h
      · split_ifs at h
        cases h
      · next line rest split =>
        dsimp only at h
        split at h
        · cases h
        · next length announced =>
          split_ifs at h with payload
          let options := Text.trim (Text.lossy (line.drop word))
          refine ⟨c, options, length, line, rest, split, fun tail => ?_⟩
          unfold parse
          rw [command?_append command tail]
          dsimp only
          rw [if_neg valid, Line.splitWithin?_append split tail]
          dsimp only
          rw [announced]
          exact if_pos payload

theorem frames_parse (dir : Direction) : Frames Message.length (parse dir) where
  whole := by
    intro bs frame n h
    unfold parse at h
    split at h
    · cases h
    · cases h
    · split at h
      · cases h
      · split at h
        · split_ifs at h
        · next line rest split =>
          have total := Line.length_splitWithin? split
          rw [Line.length_ending] at total
          dsimp only at h
          split at h
          · cases h
          · split_ifs at h
            · obtain ⟨rfl, le, measured⟩ := parsePayload_complete h
              rw [Line.length_ending] at le ⊢
              exact ⟨by omega, by omega, measured⟩
            · obtain ⟨rfl, rfl⟩ := Parsed.complete.inj h
              rw [Line.length_ending]
              exact ⟨by omega, by omega, rfl⟩
  ahead := by
    intro bs m _ h
    obtain ⟨c, options, length, line, rest, split, same⟩ := parse_needMore h
    have total := Line.length_splitWithin? split
    have := same []
    rw [List.append_nil, List.append_nil, h] at this
    obtain ⟨rfl, short⟩ := parsePayload_needMore this.symm
    omega
  least := by
    intro bs tail m n frame h complete
    obtain ⟨c, options, length, line, rest, split, same⟩ := parse_needMore h
    rw [same tail] at complete
    have := same []
    rw [List.append_nil, List.append_nil, h] at this
    obtain ⟨rfl, -⟩ := parsePayload_needMore this.symm
    obtain ⟨rfl, -, -⟩ := parsePayload_complete complete
    exact Nat.le_refl _

end Nats.Message

theorem Nats.contract : Contract Nats.dialect.size Nats.dialect.parse :=
  .of_reader Nats.Message.frames_parse

/-! ## Redis -/

namespace Redis.Value

variable {α β : Type}

/-- A reader of what stands at a position: the position that it hands on keeps in step with the
rest, what it has read stays as it is when more bytes come, and what it asks for lies ahead. -/
structure Walks (position : Nat) (read : Bytes → Reading α) : Prop where
  step : ∀ {bs rest : Bytes} {a : α} {stop : Nat}, read bs = .ok (a, stop, rest) →
    position ≤ stop ∧ stop + rest.length = position + bs.length
  steady : ∀ {bs rest : Bytes} {a : α} {stop : Nat}, read bs = .ok (a, stop, rest) →
    ∀ tail, read (bs ++ tail) = .ok (a, stop, rest ++ tail)
  ahead : ∀ {bs : Bytes} {m : Nat}, read bs = .error (.incomplete (some m)) →
    position + bs.length < m
  least : ∀ {bs tail rest : Bytes} {m stop : Nat} {a : α},
    read bs = .error (.incomplete (some m)) → read (bs ++ tail) = .ok (a, stop, rest) → m ≤ stop

namespace Walks

variable {position : Nat}

theorem done (a : α) : Walks position fun bs => .ok (a, position, bs) where
  step h := by
    cases h
    exact ⟨Nat.le_refl _, rfl⟩
  steady h tail := by
    cases h
    rfl
  ahead := nofun
  least := nofun

theorem refused (reason : String) :
    Walks (α := α) position fun _ => .error (.invalid reason) :=
  ⟨nofun, nofun, nofun, nofun⟩

/-- One reader behind another. -/
theorem andThen {first : Bytes → Reading α} {second : α → Nat → Bytes → Reading β}
    {read : Bytes → Reading β} (hfirst : Walks position first)
    (hsecond : ∀ a stop, Walks stop (second a stop))
    (fails : ∀ {bs fault}, first bs = .error fault → read bs = .error fault)
    (goes : ∀ {bs a stop rest}, first bs = .ok (a, stop, rest) → read bs = second a stop rest) :
    Walks position read where
  step := by
    intro bs rest b stop h
    cases begun : first bs with
    | error fault => cases (fails begun).symm.trans h
    | ok r =>
      obtain ⟨a, between, behind⟩ := r
      rw [goes begun] at h
      have := hfirst.step begun
      have := (hsecond a between).step h
      omega
  steady := by
    intro bs rest b stop h tail
    cases begun : first bs with
    | error fault => cases (fails begun).symm.trans h
    | ok r =>
      obtain ⟨a, between, behind⟩ := r
      rw [goes begun] at h
      rw [goes (hfirst.steady begun tail)]
      exact (hsecond a between).steady h tail
  ahead := by
    intro bs m h
    cases begun : first bs with
    | error fault =>
      obtain rfl := Except.error.inj ((fails begun).symm.trans h)
      exact hfirst.ahead begun
    | ok r =>
      obtain ⟨a, between, behind⟩ := r
      rw [goes begun] at h
      have := hfirst.step begun
      have := (hsecond a between).ahead h
      omega
  least := by
    intro bs tail rest m stop b h complete
    cases begun : first bs with
    | error fault =>
      obtain rfl := Except.error.inj ((fails begun).symm.trans h)
      cases later : first (bs ++ tail) with
      | error fault => cases (fails later).symm.trans complete
      | ok r =>
        obtain ⟨a, between, behind⟩ := r
        rw [goes later] at complete
        exact Nat.le_trans (hfirst.least begun later) ((hsecond a between).step complete).1
    | ok r =>
      obtain ⟨a, between, behind⟩ := r
      rw [goes begun] at h
      rw [goes (hfirst.steady begun tail)] at complete
      exact (hsecond a between).least h complete

end Walks

theorem walks_lineAt (position : Nat) : Walks position (lineAt position) where
  step := by
    intro bs rest line stop h
    unfold lineAt at h
    split at h
    · next split =>
      cases h
      have := Line.length_split? split
      omega
    · split_ifs at h
  steady := by
    intro bs rest line stop h tail
    unfold lineAt at h ⊢
    split at h
    · next split =>
      cases h
      rw [Line.split?_append split]
    · split_ifs at h
  ahead := by
    intro bs m h
    unfold lineAt at h
    split at h
    · cases h
    · split_ifs at h <;> cases h
  least := by
    intro bs tail rest m stop line h
    unfold lineAt at h
    split at h
    · cases h
    · split_ifs at h <;> cases h

theorem walks_bulkAt (n position : Nat) : Walks position (bulkAt n position) where
  step := by
    intro bs rest value stop h
    unfold bulkAt at h
    dsimp only at h
    split_ifs at h with short
    cases h
    have := atLeast_iff.1 (atLeast_of_not short)
    rw [List.length_drop]
    omega
  steady := by
    intro bs rest value stop h tail
    unfold bulkAt at h ⊢
    dsimp only at h ⊢
    split_ifs at h with short ends
    cases h
    have whole := atLeast_of_not short
    have le := atLeast_iff.1 whole
    rw [atLeast_append whole, slice_append le, if_neg (by simp), if_neg ends,
      List.take_append_of_le_length (by omega), List.drop_append_of_le_length le]
  ahead := by
    intro bs m h
    unfold bulkAt at h
    dsimp only at h
    split_ifs at h with short
    · cases h
      have short := length_lt_of_not short
      omega
    · cases h
  least := by
    intro bs tail rest m stop value h complete
    unfold bulkAt at h complete
    dsimp only at h complete
    split_ifs at h
    · split_ifs at complete
      cases h
      cases complete
      exact Nat.le_refl _
    · cases h

section
variable {item : Nat → Bytes → Reading Value} (h : ∀ position, Walks position (item position))
include h

theorem walks_itemsAt (found : List Value) (n position : Nat) :
    Walks position (itemsAt item found n position) := by
  induction n generalizing found position with
  | zero => exact .done _
  | succ n ih =>
    refine (h position).andThen (fun value stop => ih (value :: found) stop) ?_ ?_
    · intro bs fault failed
      rw [itemsAt, failed]
    · intro bs value stop rest read
      rw [itemsAt, read]

theorem walks_ofLine (type : UInt8) (line : Bytes) (position : Nat) :
    Walks position (ofLine item type line position) := by
  have numbered {f : Int → Bytes → Reading Value} (hf : ∀ n, Walks position (f n)) :
      Walks position fun bs =>
        (number line >>= fun n => f n bs : Except Fault (Value × Nat × Bytes)) := by
    unfold number
    cases Text.integer? 64 line with
    | none => exact .refused _
    | some n => exact hf n
  unfold ofLine
  split
  · exact .done _
  · exact .done _
  · exact numbered fun n => .done _
  · refine numbered fun n => ?_
    split_ifs
    · exact .done _
    · exact walks_bulkAt n.toNat position
    · exact .refused _
  · refine numbered fun n => ?_
    split_ifs
    · exact .done _
    · exact walks_itemsAt h [] n.toNat position
    · exact .refused _

end

/-- The letter at a position. -/
def letterAt (position : Nat) : Bytes → Reading UInt8
  | [] => .error (.incomplete (some (position + 1)))
  | type :: rest => .ok (type, position + 1, rest)

theorem walks_letterAt (position : Nat) : Walks position (letterAt position) where
  step := by
    intro bs rest type stop h
    cases bs with
    | nil => cases h
    | cons b bs =>
      cases h
      rw [List.length_cons]
      omega
  steady := by
    intro bs rest type stop h tail
    cases bs with
    | nil => cases h
    | cons b bs =>
      cases h
      rfl
  ahead := by
    intro bs m h
    cases bs with
    | nil =>
      cases h
      exact Nat.lt_succ_self _
    | cons b bs => cases h
  least := by
    intro bs tail rest m stop type h complete
    cases bs with
    | nil =>
      cases h
      cases tail with
      | nil => cases complete
      | cons b tail =>
        cases complete
        exact Nat.le_refl _
    | cons b bs => cases h

/-- A value is a letter, the line behind it, and what the two of them announce. -/
theorem parseAt_succ (levels position : Nat) (bs : Bytes) :
    parseAt (levels + 1) position bs = (letterAt position bs).bind fun r =>
      if !types.contains r.1 then .error (.invalid "unknown type byte")
      else (lineAt r.2.1 r.2.2).bind fun l => ofLine (parseAt levels) r.1 l.1 l.2.1 l.2.2 := by
  cases bs with
  | nil => rfl
  | cons type rest =>
    rw [parseAt]
    show _ = if !types.contains type then _ else _
    split_ifs
    · rfl
    · cases lineAt (position + 1) rest <;> rfl

/-- By induction on the levels at which arrays may lie. -/
theorem walks_parseAt (levels position : Nat) : Walks position (parseAt levels position) := by
  induction levels generalizing position with
  | zero => exact .refused _
  | succ levels ih =>
    have line (type : UInt8) (position : Nat) : Walks position fun bs =>
        (lineAt position bs).bind fun r => ofLine (parseAt levels) type r.1 r.2.1 r.2.2 := by
      refine (walks_lineAt position).andThen (walks_ofLine ih type) ?_ ?_
      · intro bs fault failed
        rw [failed]
        rfl
      · intro bs line stop rest read
        rw [read]
        rfl
    have letter (type : UInt8) (position : Nat) : Walks position fun bs =>
        if !types.contains type then .error (.invalid "unknown type byte")
        else (lineAt position bs).bind fun r => ofLine (parseAt levels) type r.1 r.2.1 r.2.2 := by
      split_ifs
      · exact .refused _
      · exact line type position
    refine (walks_letterAt position).andThen letter ?_ ?_
    · intro bs fault failed
      rw [parseAt_succ, failed]
      rfl
    · intro bs type stop rest read
      rw [parseAt_succ, read]
      rfl

/-- A value starts with its letter. -/
theorem lt_of_parseAt {levels position stop : Nat} {bs rest : Bytes} {value : Value}
    (h : parseAt levels position bs = .ok (value, stop, rest)) : position < stop := by
  cases levels with
  | zero => cases h
  | succ levels =>
    cases bs with
    | nil => cases h
    | cons type bs =>
      unfold parseAt at h
      split_ifs at h
      split at h
      · cases h
      · next read =>
        have := (walks_lineAt _).step read
        have := (walks_ofLine (walks_parseAt levels) type _ _).step h
        omega

end Redis.Value

namespace Redis.Message

/-- A message is a value that is read whole. -/
theorem parse_complete {dir : Direction} {bs : Bytes} {frame : Message} {n : Nat}
    (h : parse dir bs = .complete frame n) :
    ∃ value rest, Value.parse bs = .ok (value, n, rest) ∧ frame.length = n := by
  unfold parse at h
  split at h
  · cases h
  · cases h
  · next value length rest read =>
    cases dir with
    | response =>
      obtain ⟨rfl, rfl⟩ := Parsed.complete.inj h
      exact ⟨value, rest, read, rfl⟩
    | request =>
      dsimp only at h
      split at h
      · obtain ⟨rfl, rfl⟩ := Parsed.complete.inj h
        exact ⟨value, rest, read, rfl⟩
      · cases h

theorem parse_needMore {dir : Direction} {bs : Bytes} {m : Nat}
    (h : parse dir bs = .needMore (some m)) : Value.parse bs = .error (.incomplete (some m)) := by
  unfold parse at h
  split at h
  · next minimum read =>
    rw [read, Parsed.needMore.inj h]
  · cases h
  · cases dir with
    | response => cases h
    | request =>
      dsimp only at h
      split at h <;> cases h

theorem frames_parse (dir : Direction) : Frames Message.length (parse dir) where
  whole := by
    intro bs frame n h
    obtain ⟨value, rest, read, measured⟩ := parse_complete h
    have := (Value.walks_parseAt _ 0).step read
    exact ⟨Value.lt_of_parseAt read, by omega, measured⟩
  ahead := by
    intro bs m _ h
    have := (Value.walks_parseAt _ 0).ahead (parse_needMore h)
    omega
  least := by
    intro bs tail m n frame h complete
    obtain ⟨value, rest, read, -⟩ := parse_complete complete
    exact (Value.walks_parseAt _ 0).least (parse_needMore h) read

end Redis.Message

theorem Redis.contract : Contract Redis.dialect.size Redis.dialect.parse :=
  .of_reader Redis.Message.frames_parse

end Dialogue
