import Mathlib
import Dialogue.Cursor
import Dialogue.Proofs.Wire.Words

/-!
Fields as they are written.

A field `Reads` what a byte string stands for if it gives the value wherever the string stands in a
payload and whatever follows, and finds any payload cut short that ends within the string. This goes
through composition (`Reads.bind`), through a counted list (`reads_times`) and through a list that
ends with a mark (`reads_untilNone`), so a format reads what its parts are written as, one behind
the other. A list with a mark is read with no more steps than there are bytes; that these are enough
is part of what is shown.
-/
namespace Dialogue

/-- Whether an error says that a payload of `size` bytes ends within a field. -/
inductive DecodeError.CutShort (owner : String) (size : Nat) : DecodeError → Prop where
  | tooShort {needed : Nat} (short : size < needed) :
      CutShort owner size (.tooShort owner needed size)
  | unended : CutShort owner size (.invalidField owner "string" "missing NUL terminator")

namespace Field

variable {α β ι : Type}

/-- A field reads what a byte string stands for: it gives the value and passes over the string,
whatever follows, and of a payload that ends within the string it says that it is cut short. -/
structure Reads (field : Field α) (written : Bytes) (a : α) : Prop where
  whole : ∀ owner offset behind, field ⟨owner, offset, written ++ behind⟩ =
    .ok (a, ⟨owner, offset + written.length, behind⟩)
  cut : ∀ owner offset n, n < written.length →
    ∃ e, field ⟨owner, offset, written.take n⟩ = .error e ∧ e.CutShort owner (offset + n)

/-! ## Composition -/

namespace Reads

variable {field : Field α} {written : Bytes} {a : α}

theorem pure (a : α) : Reads (Pure.pure a) [] a :=
  ⟨fun _ _ _ => rfl, fun _ _ _ short => absurd short (Nat.not_lt_zero _)⟩

/-- Behind a string that is read, the payload is left to what comes next. -/
theorem whole_bind (h : field.Reads written a) (g : α → Field β) (owner : String) (offset : Nat)
    (behind : Bytes) :
    (field >>= g) ⟨owner, offset, written ++ behind⟩ =
      g a ⟨owner, offset + written.length, behind⟩ := by
  show (field _).bind _ = _
  rw [h.whole]
  rfl

/-- A payload is found to be cut short within the first string, or by what is left of it behind the
string. -/
theorem cut_bind {g : α → Field β} {later : Bytes} {owner : String} {offset n : Nat}
    (h : field.Reads written a)
    (onward : written.length ≤ n → ∃ e,
      g a ⟨owner, offset + written.length, later.take (n - written.length)⟩ = .error e ∧
        e.CutShort owner (offset + written.length + (n - written.length))) :
    ∃ e, (field >>= g) ⟨owner, offset, (written ++ later).take n⟩ = .error e ∧
      e.CutShort owner (offset + n) := by
  by_cases within : n < written.length
  · obtain ⟨e, failed, tells⟩ := h.cut owner offset n within
    refine ⟨e, ?_, tells⟩
    show (field _).bind _ = _
    rw [List.take_append_of_le_length (Nat.le_of_lt within), failed]
    rfl
  · have reached : written.length ≤ n := Nat.not_lt.1 within
    obtain ⟨e, failed, tells⟩ := onward reached
    refine ⟨e, ?_, by rwa [Nat.add_assoc, Nat.add_sub_cancel' reached] at tells⟩
    rw [List.take_append, List.take_of_length_le reached, h.whole_bind g, failed]

/-- What two fields read that stand one behind the other. -/
theorem bind {g : α → Field β} {later : Bytes} {b : β} (first : field.Reads written a)
    (second : (g a).Reads later b) : (field >>= g).Reads (written ++ later) b where
  whole owner offset behind := by
    rw [List.append_assoc, first.whole_bind g, second.whole, List.length_append, Nat.add_assoc]
  cut owner offset n short := by
    rw [List.length_append] at short
    exact first.cut_bind fun reached => second.cut owner _ _ (by omega)

/-- What is made of a value is read where the value is. -/
theorem map (h : field.Reads written a) (f : α → β) :
    (field >>= fun a => Pure.pure (f a)).Reads written (f a) := by
  have composed := h.bind (g := fun a => Pure.pure (f a)) (pure (f a))
  rwa [List.append_nil] at composed

/-- A field that is read last, and nothing is made of it. -/
theorem last {g : α → Field β} {b : β} (h : field.Reads written a) (done : g a = Pure.pure b) :
    (field >>= g).Reads written b := by
  have composed := h.bind (g := g) (done ▸ pure b)
  rwa [List.append_nil] at composed

/-- A whole payload is read, whatever is behind the string. -/
theorem read (h : field.Reads written a) (owner : String) (behind : Bytes) :
    field.read owner (written ++ behind) = .ok a := by
  rw [Field.read, Cursor.start, h.whole]

/-- A payload that ends within the string is found to be cut short. -/
theorem read_cut (h : field.Reads written a) (owner : String) {n : Nat}
    (short : n < written.length) :
    ∃ e, field.read owner (written.take n) = .error e ∧ e.CutShort owner n := by
  obtain ⟨e, failed, tells⟩ := h.cut owner 0 n short
  refine ⟨e, ?_, by rwa [Nat.zero_add] at tells⟩
  rw [Field.read, Cursor.start, failed]

end Reads

/-! ## Bytes and numbers -/

theorem reads_bytes {n : Nat} {bs : Bytes} (length : bs.length = n) : (bytes n).Reads bs bs where
  whole owner offset behind := by
    have there : atLeast n (bs ++ behind) = true := by
      rw [atLeast_iff, List.length_append]
      omega
    rw [bytes, if_pos there, List.take_left' length, List.drop_left' length, length]
  cut owner offset k short := by
    have held : (bs.take k).length = k := List.length_take_of_le (Nat.le_of_lt short)
    have missing : ¬atLeast n (bs.take k) = true := by
      rw [atLeast_iff, held]
      omega
    have size : Cursor.size ⟨owner, offset, bs.take k⟩ = offset + k := congrArg (offset + ·) held
    refine ⟨_, if_neg missing, ?_⟩
    rw [size]
    exact .tooShort (Nat.add_lt_add_left (length ▸ short) offset)

theorem reads_skip {n : Nat} {bs : Bytes} (length : bs.length = n) : (skip n).Reads bs () :=
  (reads_bytes length).last rfl

theorem reads_big {n value : Nat} (fits : value < 256 ^ n) :
    (big n).Reads (bigBytes n value) value := by
  have read := (reads_bytes (length_bigBytes n value)).map bigEndian
  rwa [bigEndian_bigBytes fits] at read

theorem reads_u8 (b : UInt8) : u8.Reads [b] b.toNat := by
  have read := (reads_bytes (rfl : [b].length = 1)).map bigEndian
  have digit : bigEndian [b] = b.toNat := by simp [bigEndian]
  rwa [digit] at read

theorem reads_u16 {n : Nat} (fits : n < 2 ^ 16) : u16.Reads (bigBytes 2 n) n :=
  reads_big fits

theorem reads_u32 {n : Nat} (fits : n < 2 ^ 32) : u32.Reads (bigBytes 4 n) n :=
  reads_big fits

theorem reads_i16 {i : Int} (lower : -2 ^ 15 ≤ i) (upper : i < 2 ^ 15) :
    i16.Reads (bigBytes 2 (word 16 i)) i := by
  have fits : word 16 i < 2 ^ 16 := word_lt lower upper (by decide)
  have read := (reads_u16 fits).map (twosComplement 16)
  rwa [twosComplement_word lower upper (by decide)] at read

theorem reads_i32 {i : Int} (lower : -2 ^ 31 ≤ i) (upper : i < 2 ^ 31) :
    i32.Reads (bigBytes 4 (word 32 i)) i := by
  have fits : word 32 i < 2 ^ 32 := word_lt lower upper (by decide)
  have read := (reads_u32 fits).map (twosComplement 32)
  rwa [twosComplement_word lower upper (by decide)] at read

theorem reads_i16_natCast {n : Nat} (fits : n < 2 ^ 15) : i16.Reads (bigBytes 2 n) n := by
  have read := reads_i16 (i := n) (by omega) (by omega)
  rwa [word_natCast] at read

theorem reads_i32_natCast {n : Nat} (fits : n < 2 ^ 31) : i32.Reads (bigBytes 4 n) n := by
  have read := reads_i32 (i := n) (by omega) (by omega)
  rwa [word_natCast] at read

/-! ## Strings that end with a zero byte -/

/-- The bytes before the first zero byte and those behind it. -/
theorem cutAt_append {b : UInt8} {text : Bytes} (plain : b ∉ text) (behind : Bytes) :
    cutAt b (text ++ b :: behind) = some (text, behind) := by
  have others : ∀ x ∈ text, (x != b) = true :=
    fun x mem => bne_iff_ne.2 fun same => plain (same ▸ mem)
  have before : (text ++ b :: behind).takeWhile (· != b) = text := by
    rw [List.takeWhile_append_of_pos others, List.takeWhile_cons_of_neg (by simp), List.append_nil]
  have onward : (text ++ b :: behind).dropWhile (· != b) = b :: behind := by
    rw [List.dropWhile_append_of_pos others, List.dropWhile_cons_of_neg (by simp)]
  rw [cutAt, onward, before]

theorem cutAt_of_not_mem {b : UInt8} {bs : Bytes} (plain : b ∉ bs) : cutAt b bs = none := by
  have others : bs.dropWhile (· != b) = [] :=
    List.dropWhile_eq_nil_iff.2 fun x mem => bne_iff_ne.2 fun same => plain (same ▸ mem)
  rw [cutAt, others]

theorem reads_zeroEnded {text : Bytes} (plain : 0 ∉ text) : zeroEnded.Reads (text ++ [0]) text where
  whole owner offset behind := by
    have split : cutAt 0 (text ++ [0] ++ behind) = some (text, behind) := by
      rw [List.append_assoc]
      exact cutAt_append plain behind
    rw [zeroEnded]
    dsimp only
    rw [split, List.length_append]
    rfl
  cut owner offset n short := by
    have inside : n ≤ text.length := by simpa using Nat.le_of_lt_succ (by simpa using short)
    have none : cutAt 0 (text.take n) = none :=
      cutAt_of_not_mem fun mem => plain (List.mem_of_mem_take mem)
    refine ⟨_, ?_, .unended⟩
    rw [List.take_append_of_le_length inside, zeroEnded]
    dsimp only
    rw [none]
    rfl

/-! ## Lists -/

section
variable {field : Field α} {items : List ι} {write : ι → Bytes} {f : ι → α}

@[simp] theorem timesFrom_zero (found : List α) :
    timesFrom field 0 found = pure found.reverse := rfl

theorem timesFrom_succ (n : Nat) (found : List α) :
    timesFrom field (n + 1) found = field >>= fun x => timesFrom field n (x :: found) := by
  funext c
  show _ = (field c).bind _
  rw [timesFrom]
  dsimp only
  cases field c <;> rfl

theorem reads_timesFrom (each : ∀ i ∈ items, field.Reads (write i) (f i)) (found : List α) :
    (timesFrom field items.length found).Reads (items.flatMap write)
      (found.reverse ++ items.map f) := by
  induction items generalizing found with
  | nil => simpa using Reads.pure found.reverse
  | cons i rest ih =>
    obtain ⟨first, later⟩ := List.forall_mem_cons.1 each
    rw [List.length_cons, timesFrom_succ, List.flatMap_cons]
    have composed := first.bind (g := fun x => timesFrom field rest.length (x :: found))
      (ih later (f i :: found))
    rwa [List.reverse_cons, List.append_assoc] at composed

/-- A counted list is read where each of its members is. -/
theorem reads_times (each : ∀ i ∈ items, field.Reads (write i) (f i)) :
    (times items.length field).Reads (items.flatMap write) (items.map f) :=
  reads_timesFrom each []

end

/-- An item, and then the items behind it unless it ends the list. -/
theorem untilNoneFrom_succ (item : Field (Option α)) (n : Nat) (found : List α) :
    untilNoneFrom item (n + 1) found = item >>= fun x =>
      x.elim (pure found.reverse) fun x => untilNoneFrom item n (x :: found) := by
  funext c
  show _ = (item c).bind _
  rw [untilNoneFrom]
  dsimp only
  rcases item c with _ | ⟨_ | _, _⟩ <;> rfl

section
variable {item : Field (Option α)} {items : List ι} {write : ι → Bytes} {f : ι → α}
  {mark : Bytes}

/-- A list that ends with a mark is read in as many steps as it has items, and one more. -/
theorem whole_untilNoneFrom (each : ∀ i ∈ items, item.Reads (write i) (some (f i)))
    (ends : item.Reads mark none) {n : Nat} (enough : items.length < n) (found : List α)
    (owner : String) (offset : Nat) (behind : Bytes) :
    untilNoneFrom item n found ⟨owner, offset, items.flatMap write ++ mark ++ behind⟩ =
      .ok (found.reverse ++ items.map f,
        ⟨owner, offset + (items.flatMap write ++ mark).length, behind⟩) := by
  induction items generalizing n found offset with
  | nil =>
    obtain ⟨n, rfl⟩ := Nat.exists_eq_add_one_of_ne_zero (Nat.ne_of_gt enough)
    rw [List.flatMap_nil, List.nil_append, untilNoneFrom_succ, ends.whole_bind, List.map_nil,
      List.append_nil]
    rfl
  | cons i rest ih =>
    obtain ⟨first, later⟩ := List.forall_mem_cons.1 each
    obtain ⟨n, rfl⟩ := Nat.exists_eq_add_one_of_ne_zero (Nat.ne_of_gt (Nat.zero_lt_of_lt enough))
    rw [List.flatMap_cons, List.append_assoc, List.append_assoc, untilNoneFrom_succ,
      first.whole_bind, Option.elim_some, ← List.append_assoc,
      ih later (Nat.lt_of_succ_lt_succ enough)]
    simp [Nat.add_assoc]

/-- Where it is cut short, a step for each byte is enough to find that out. -/
theorem cut_untilNoneFrom (each : ∀ i ∈ items, item.Reads (write i) (some (f i)))
    (long : ∀ i ∈ items, write i ≠ []) (ends : item.Reads mark none) {n k : Nat}
    (short : k < (items.flatMap write ++ mark).length) (enough : k < n) (found : List α)
    (owner : String) (offset : Nat) :
    ∃ e, untilNoneFrom item n found ⟨owner, offset, (items.flatMap write ++ mark).take k⟩ =
      .error e ∧ e.CutShort owner (offset + k) := by
  induction items generalizing n k found offset with
  | nil =>
    obtain ⟨n, rfl⟩ := Nat.exists_eq_add_one_of_ne_zero (Nat.ne_of_gt (Nat.zero_lt_of_lt enough))
    rw [List.flatMap_nil, List.nil_append] at short ⊢
    rw [untilNoneFrom_succ, ← List.append_nil mark]
    exact ends.cut_bind fun reached => absurd short (Nat.not_lt.2 reached)
  | cons i rest ih =>
    obtain ⟨first, later⟩ := List.forall_mem_cons.1 each
    obtain ⟨some, longer⟩ := List.forall_mem_cons.1 long
    obtain ⟨n, rfl⟩ := Nat.exists_eq_add_one_of_ne_zero (Nat.ne_of_gt (Nat.zero_lt_of_lt enough))
    have pos : 0 < (write i).length := List.length_pos_iff.2 some
    rw [List.flatMap_cons, List.append_assoc] at short ⊢
    rw [List.length_append] at short
    rw [untilNoneFrom_succ]
    -- The item takes up a byte or more, so as many steps remain as bytes at least.
    exact first.cut_bind fun reached => ih later longer (by omega) (by omega) (f i :: found) _

theorem length_le_length_flatMap (long : ∀ i ∈ items, write i ≠ []) :
    items.length ≤ (items.flatMap write).length := by
  induction items with
  | nil => exact Nat.le_refl 0
  | cons i rest ih =>
    obtain ⟨some, longer⟩ := List.forall_mem_cons.1 long
    have pos : 0 < (write i).length := List.length_pos_iff.2 some
    have least := ih longer
    rw [List.flatMap_cons, List.length_append, List.length_cons]
    omega

/-- A list that ends with a mark is read where its items and the mark are. -/
theorem reads_untilNone (each : ∀ i ∈ items, item.Reads (write i) (some (f i)))
    (long : ∀ i ∈ items, write i ≠ []) (ends : item.Reads mark none) :
    (untilNone item).Reads (items.flatMap write ++ mark) (items.map f) where
  whole owner offset behind := by
    have enough : items.length < (items.flatMap write ++ mark ++ behind).length + 1 := by
      have least := length_le_length_flatMap long
      simp only [List.length_append]
      omega
    exact whole_untilNoneFrom each ends enough [] owner offset behind
  cut owner offset n short := by
    have steps : ((items.flatMap write ++ mark).take n).length = n :=
      List.length_take_of_le (Nat.le_of_lt short)
    exact cut_untilNoneFrom each long ends short (by rw [Cursor.remaining, steps]; omega) [] owner
      offset

end

end Field

end Dialogue
