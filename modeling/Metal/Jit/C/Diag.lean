import Mathlib.Data.List.DropRight
import Metal.Lib.Memory
import Metal.Lib.Run

namespace Metal.Jit.C

open Metal.Lib

/-! The diagnostics of a compilation: a buffer that keeps the last lines of what the compiler
says, and the end of it that a caller is told. -/

def carriageReturn : UInt8 := 13

/-- `jit_c_diag_t`; there are `max` bytes in `buf`. -/
structure Diag where
  buf : Bytes
  len : Nat
  max : Nat

def lineLength (text : Bytes) : Nat := min text.length ((text.takeWhile (· ≠ newline)).length + 1)

theorem lineLength_pos {text : Bytes} (some_ : 0 < text.length) : 0 < lineLength text :=
  Nat.lt_min.mpr ⟨some_, Nat.succ_pos _⟩

/-- The lines to drop from a text before which a line of `need` bytes stands. -/
def dropLines (text : Bytes) (need drop : Nat) : Nat :=
  if need ≤ text.length - drop ∧ drop < text.length then
    dropLines text need (drop + lineLength (text.drop drop))
  else drop
termination_by text.length - drop
decreasing_by
  have : 0 < lineLength (text.drop drop) := lineLength_pos (by rw [List.length_drop]; omega)
  omega

def Diag.text (d : Diag) : Bytes := d.buf.take d.len

def Diag.roll (d : Diag) (need : Nat) : Diag :=
  let drop := dropLines d.text need 0
  if 0 < drop ∧ drop < d.len then
    { d with buf := writeAt 0 (d.text.drop drop) d.buf, len := d.len - drop }
  else if d.len ≤ drop then { d with len := 0 }
  else d

def Diag.put (d : Diag) (line : Bytes) : Diag :=
  { d with
    buf := writeAt d.len (line ++ [newline, 0]) d.buf
    len := d.len + line.length + 1 }

/-- `max` is at least 2 or 0. -/
def jitCDiagCb (d : Diag) (msg : CString) : Diag :=
  let n := msg.length
  if d.max = 0 then d
  else if d.max - 1 ≤ n then
    { d with len := 0 }.put (msg.bytes.drop (n - (d.max - 2)))
  else
    let d := if d.max ≤ d.len + n + 1 then d.roll (n + 2) else d
    if d.len + n + 1 < d.max then d.put msg.bytes else d

def snprintf (size : Nat) (text : Bytes) : Bytes := text.take (size - 1)

/-- What `%.*s` prints; a precision that does not fit an `int` is taken modulo 2^32. -/
def precisely (precision : Nat) (buf : Bytes) : Bytes :=
  let string := buf.takeWhile (· ≠ 0)
  let n := (BitVec.ofNat 32 precision).toInt
  if n < 0 then string else string.take n.toNat

def stripped (text : Bytes) : Bytes :=
  text.rdropWhile fun c => c == newline || c == carriageReturn

/-- Where the part of the text begins that is shown in `room` bytes. -/
def skipTo (text : Bytes) (room : Nat) : Nat :=
  if room < text.length then
    let aligned := text.length - room +
      ((text.drop (text.length - room)).takeWhile (· ≠ newline)).length
    if aligned < text.length then aligned + 1 else text.length - room
  else 0

/-- The string in `errbuf`; `none` where there is no such array. -/
def jitCObjErrDiag (errbuf : Option Nat) (msg : CString) (d : Option Diag) : Option Bytes :=
  match errbuf with
  | none => none
  | some 0 => none
  | some size =>
      match d with
      | none => some (snprintf size msg.bytes)
      | some d =>
          if d.buf.getD 0 0 ≠ 0 then
            let room := if msg.length + 2 < size then size - msg.length - 2 else 0
            let text := stripped d.text
            let skip := skipTo text room
            some (snprintf size (msg.bytes ++ ascii ": " ++
              precisely (text.length - skip) (d.buf.drop skip)))
          else some (snprintf size msg.bytes)

/-- As much of a message as a buffer of `max` bytes has room for. -/
def kept (max : Nat) (msg : CString) : Bytes := msg.bytes.drop (msg.length - (max - 2))

structure Diag.Holds (d : Diag) (text : Bytes) : Prop where
  whole : ∃ rest, d.buf = text ++ 0 :: rest
  size : d.buf.length = d.max
  len : text.length = d.len
  nulFree : 0 ∉ text

/-- After a message: the buffer is a string of the length told, with the message last. -/
structure Diag.Keeps (d : Diag) (max : Nat) (msg : CString) : Prop where
  holds : d.Holds d.text
  size : d.max = max
  last : kept max msg ++ [newline] <:+ d.text

def Shows (prefix_ : CString) (cause : Bytes) (errbuf : Option Bytes) : Prop :=
  ∃ shown tail, errbuf = some (prefix_.bytes ++ ascii ": " ++ shown) ∧ tail <:+ shown ∧
    tail <:+ cause ∧ (cause ≠ [] → tail ≠ [])

def LineStart (front : Bytes) : Prop := front = [] ∨ ∃ before, front = before ++ [newline]

/-- The message is too long for any other beside it, or fits behind the last lines that are no
longer than itself. -/
def Fit (d : Diag) (msg : CString) : Prop :=
  d.max ≤ msg.length + 1 ∨
    ∀ front back, d.text = front ++ back → LineStart front → back.length ≤ msg.length + 1 →
      back.length + msg.length + 1 < d.max

/-- The text is shorter than the room for it, or a line of it starts in that room. -/
def ErrFit (d : Diag) (size : Nat) (prefix_ : CString) : Prop :=
  let room := size - prefix_.length - 2
  let text := stripped d.text
  (text.length < 2 ^ 31 ∨ room < 2 ^ 31) ∧
    (text.length < room ∨
      (room < text.length ∧ newline ∈ text.drop (text.length - room)))

variable {d : Diag} {text line : Bytes} {msg : CString}

theorem Diag.Holds.text_eq (holds : d.Holds text) : d.text = text := by
  obtain ⟨rest, whole⟩ := holds.whole
  rw [Diag.text, whole, ← holds.len, List.take_left]

theorem Diag.Holds.put (size : d.buf.length = d.max) (len : d.text.length = d.len)
    (nulFree : 0 ∉ d.text) (plain : 0 ∉ line) (fits : d.len + line.length + 1 < d.max) :
    (d.put line).Holds (d.text ++ line ++ [newline]) := by
  have room : (line ++ [newline, 0]).length = line.length + 2 := by
    rw [List.length_append]
    rfl
  have inside : d.len + (line ++ [newline, 0]).length ≤ d.buf.length := by
    rw [room, size]
    omega
  refine ⟨⟨d.buf.drop (d.len + (line ++ [newline, 0]).length), ?_⟩, ?_, ?_, ?_⟩
  · change writeAt d.len (line ++ [newline, 0]) d.buf = _
    rw [writeAt, Diag.text]
    simp only [List.append_assoc, List.cons_append, List.nil_append]
  · exact (length_writeAt inside).trans size
  · rw [List.length_append, List.length_append, len]
    rfl
  · intro member
    rcases List.mem_append.mp member with inside | last
    · rcases List.mem_append.mp inside with old | new
      · exact nulFree old
      · exact plain new
    · exact absurd (List.mem_singleton.mp last) (by decide)

theorem take_line {rest : Bytes} (more : lineLength rest < rest.length) :
    rest.take (lineLength rest) = rest.takeWhile (· ≠ newline) ++ [newline] := by
  have exact_ : lineLength rest = (rest.takeWhile (· ≠ newline)).length + 1 := by
    rw [lineLength] at more ⊢
    omega
  have whole : rest.takeWhile (· ≠ newline) ++ rest.dropWhile (· ≠ newline) = rest :=
    List.takeWhile_append_dropWhile
  have length := congrArg List.length whole
  rw [List.length_append] at length
  cases behind : rest.dropWhile (· ≠ newline) with
  | nil =>
      rw [behind, List.length_nil] at length
      omega
  | cons c later =>
      have isEnd : c = newline := by
        have found := List.head?_dropWhile_not (· ≠ newline) rest
        rw [behind] at found
        simpa using found
      rw [exact_]
      nth_rewrite 2 [← whole]
      rw [behind, isEnd, List.take_length_add_append]
      rfl

theorem dropLines_cut (text : Bytes) (need drop : Nat) (start : LineStart (text.take drop)) :
    text.length ≤ dropLines text need drop ∨
      (text.length - dropLines text need drop < need ∧
        LineStart (text.take (dropLines text need drop))) := by
  induction drop using dropLines.induct text need with
  | case1 drop more ih =>
      rw [dropLines, if_pos more]
      rcases Nat.lt_or_ge (drop + lineLength (text.drop drop)) text.length with inside | all
      · refine ih (.inr ⟨text.take drop ++ (text.drop drop).takeWhile (· ≠ newline), ?_⟩)
        rw [List.take_add, take_line (by rw [List.length_drop]; omega), List.append_assoc]
      · rw [dropLines, if_neg (by omega)]
        exact .inl all
  | case2 drop done =>
      rw [dropLines, if_neg done]
      rcases Nat.lt_or_ge drop text.length with inside | all
      · exact .inr ⟨by omega, start⟩
      · exact .inl all

structure Diag.Left (d kept_ : Diag) (front back : Bytes) : Prop where
  cut : d.text = front ++ back
  start : back = [] ∨ LineStart front
  text : kept_.text = back
  len : kept_.len = back.length
  max : kept_.max = d.max
  size : kept_.buf.length = d.buf.length

theorem Diag.roll_left (len : d.text.length = d.len) (fits : d.len ≤ d.buf.length) (need : Nat) :
    ∃ front back, d.Left (d.roll need) front back ∧ back.length < need ∨
      d.Left (d.roll need) front [] := by
  rw [Diag.roll]
  have cut := dropLines_cut d.text need 0 (.inl List.take_zero)
  generalize dropLines d.text need 0 = drop at cut ⊢
  split
  next some_ =>
    rw [len] at cut
    obtain ⟨fewer, start⟩ := cut.resolve_left (Nat.not_le.mpr some_.2)
    have back : (d.text.drop drop).length = d.len - drop := by rw [List.length_drop, len]
    refine ⟨d.text.take drop, d.text.drop drop,
      .inl ⟨⟨(List.take_append_drop ..).symm, .inr start, ?_, back.symm, rfl, ?_⟩, ?_⟩⟩
    · have written := take_writeAt (d.text.drop drop) (Nat.zero_le d.buf.length)
      rw [Nat.zero_add, back, List.take_zero, List.nil_append] at written
      exact written
    · exact length_writeAt (by rw [back]; omega)
    · rw [back]
      exact fewer
  next other =>
    split
    next all =>
      exact ⟨d.text, [], .inr ⟨(List.append_nil _).symm, .inl rfl, List.take_zero, rfl, rfl, rfl⟩⟩
    next none_ =>
      obtain rfl : drop = 0 := by omega
      rw [len] at cut
      obtain ⟨fewer, start⟩ := cut.resolve_left none_
      exact ⟨[], d.text, .inl ⟨⟨rfl, .inr (.inl rfl), rfl, len.symm, rfl, rfl⟩, by omega⟩⟩

theorem jitCDiagCb_keeps (big : 3 ≤ d.max) (holds : d.Holds d.text) (fit : Fit d msg) :
    (jitCDiagCb d msg).Keeps d.max msg := by
  have plain : 0 ∉ kept d.max msg := fun member => msg.nulFree (List.mem_of_mem_drop member)
  have put {d' : Diag} {back : Bytes} (max : d'.max = d.max) (size : d'.buf.length = d.buf.length)
      (text : d'.text = back) (len : d'.len = back.length) (nulFree : 0 ∉ back)
      (fits : back.length + (kept d.max msg).length + 1 < d.max) :
      (d'.put (kept d.max msg)).Keeps d.max msg := by
    have held : (d'.put (kept d.max msg)).Holds (d'.text ++ kept d.max msg ++ [newline]) :=
      Diag.Holds.put (size.trans (holds.size.trans max.symm)) (by rw [text, len]) (by rwa [text])
        plain (by rwa [len, max])
    refine ⟨by rwa [held.text_eq], max, ?_⟩
    rw [held.text_eq, List.append_assoc]
    exact List.suffix_append ..
  rw [jitCDiagCb]
  rw [if_neg (by omega)]
  split
  next long =>
    have length : (kept d.max msg).length = d.max - 2 := by
      change (msg.bytes.drop (msg.bytes.length - _)).length = _
      change _ ≤ msg.bytes.length at long
      rw [List.length_drop]
      omega
    exact put rfl rfl (List.take_zero : Diag.text { d with len := 0 } = []) rfl List.not_mem_nil
      (by rw [length, List.length_nil]; omega)
  next short =>
    have whole : kept d.max msg = msg.bytes := by
      rw [kept, show msg.length - (d.max - 2) = 0 by omega, List.drop_zero]
    have length : (kept d.max msg).length = msg.length := congrArg List.length whole
    have left : ∃ d' front back, d.Left d' front back ∧ back.length + msg.length + 1 < d.max ∧
        (if d.max ≤ d.len + msg.length + 1 then d.roll (msg.length + 2) else d) = d' := by
      split
      next full =>
        have inside : d.len ≤ d.buf.length := by
          rw [← holds.len, Diag.text, List.length_take]
          exact Nat.min_le_right ..
        obtain ⟨front, back, ⟨left, fewer⟩ | left⟩ :=
          Diag.roll_left holds.len inside (msg.length + 2)
        · refine ⟨_, front, back, left, ?_, rfl⟩
          rcases left.start with rfl | start
          · rw [List.length_nil]
            omega
          · exact fit.resolve_left (by omega) front back left.cut start (by omega)
        · refine ⟨_, front, [], left, ?_, rfl⟩
          rw [List.length_nil]
          omega
      next room =>
        refine ⟨d, [], d.text, ⟨rfl, .inr (.inl rfl), rfl, holds.len.symm, rfl, rfl⟩, ?_, rfl⟩
        rw [holds.len]
        omega
    obtain ⟨d', front, back, left, fits, same⟩ := left
    rw [same, if_pos (by rw [left.len, left.max]; exact fits), ← whole]
    refine put left.max left.size left.text left.len ?_ (by rw [length]; exact fits)
    intro member
    refine holds.nulFree ?_
    rw [left.cut]
    exact List.mem_append_right _ member

theorem fit_of_short (short : 2 * msg.length + 2 < d.max) : Fit d msg :=
  .inr fun _ _ _ _ fewer => by omega

theorem stripped_eq_take (text : Bytes) : stripped text = text.take (stripped text).length :=
  List.prefix_iff_eq_take.mp (List.rdropWhile_prefix ..)

theorem stripped_append {front back : Bytes} (some_ : stripped back ≠ []) :
    stripped (front ++ back) = front ++ stripped back := by
  rw [stripped, List.rdropWhile, List.reverse_append, List.dropWhile_append, if_neg,
    List.reverse_append, List.reverse_reverse]
  · rfl
  · intro none_
    refine some_ ?_
    rw [stripped, List.rdropWhile, List.isEmpty_iff.mp none_, List.reverse_nil]

theorem stripped_newline (text : Bytes) : stripped (text ++ [newline]) = stripped text :=
  List.rdropWhile_concat_pos _ _ _ rfl

theorem stripped_ne_concat (text front : Bytes) : stripped text ≠ front ++ [newline] := by
  intro same
  have some_ : stripped text ≠ [] := by
    rw [same]
    exact List.concat_ne_nil _ _
  have last := List.rdropWhile_last_not (fun c => c == newline || c == carriageReturn) text some_
  change ¬ (fun c => c == newline || c == carriageReturn) ((stripped text).getLast some_) = true
    at last
  have found : (stripped text).getLast some_ = newline := by
    rw [← Option.some_inj, ← List.getLast?_eq_some_getLast some_, same, List.getLast?_concat]
  rw [found] at last
  exact last rfl

theorem precisely_eq {precision : Nat} (small : precision < 2 ^ 31) (front rest : Bytes)
    (nulFree : 0 ∉ front) : precisely precision (front ++ 0 :: rest) = front.take precision := by
  have string : (front ++ 0 :: rest).takeWhile (· ≠ 0) = front :=
    congrArg CString.bytes (CString.ofBytes_append ⟨front, nulFree⟩ rest)
  have value : (BitVec.ofNat 32 precision).toInt = precision := by
    rw [BitVec.toInt_eq_toNat_of_lt, BitVec.toNat_ofNat, Nat.mod_eq_of_lt (by omega)]
    rw [BitVec.toNat_ofNat, Nat.mod_eq_of_lt (by omega)]
    omega
  rw [precisely, string, value]
  exact if_neg (by omega)

theorem skipTo_spec {text : Bytes} {room : Nat} (noEnd : ∀ front, text ≠ front ++ [newline])
    (fit : text.length < room ∨
      (room < text.length ∧ newline ∈ text.drop (text.length - room))) :
    text.length - skipTo text room < room ∧ (text ≠ [] → skipTo text room < text.length) := by
  rw [skipTo]
  split
  next more =>
    obtain ⟨-, inside⟩ := fit.resolve_left (by omega)
    generalize behind : text.drop (text.length - room) = rest at inside
    have length : rest.length = room := by
      rw [← behind, List.length_drop]
      omega
    have whole : rest.takeWhile (· ≠ newline) ++ rest.dropWhile (· ≠ newline) = rest :=
      List.takeWhile_append_dropWhile
    have sizes := congrArg List.length whole
    rw [List.length_append] at sizes
    cases later : rest.dropWhile (· ≠ newline) with
    | nil =>
        have none_ := List.dropWhile_eq_nil_iff.mp later newline inside
        exact absurd none_ (by decide)
    | cons c more_ =>
        have isEnd : c = newline := by
          have found := List.head?_dropWhile_not (· ≠ newline) rest
          rw [later] at found
          simpa using found
        rw [later, List.length_cons] at sizes
        rw [if_pos (by omega)]
        refine ⟨by omega, fun _ => Nat.lt_of_le_of_ne (by omega) fun last => ?_⟩
        have none_ : more_ = [] := List.eq_nil_of_length_eq_zero (by omega)
        rw [isEnd, none_] at later
        refine noEnd (text.take (text.length - room) ++ rest.takeWhile (· ≠ newline)) ?_
        rw [List.append_assoc, ← later, whole, ← behind, List.take_append_drop]
  next all =>
    rw [Nat.sub_zero]
    refine ⟨by omega, List.length_pos_iff.mpr⟩

theorem jitCObjErrDiag_shows {max size : Nat} {prefix_ : CString} (keeps : d.Keeps max msg)
    (long : prefix_.length + 2 < size) (fit : ErrFit d size prefix_) :
    Shows prefix_ (stripped (kept max msg)) (jitCObjErrDiag (some size) prefix_ (some d)) := by
  obtain ⟨front, last⟩ := keeps.last
  obtain ⟨rest, whole⟩ := keeps.holds.whole
  obtain ⟨narrow, fits⟩ := fit
  have same : stripped d.text = stripped (front ++ kept max msg) := by
    rw [← last, ← List.append_assoc, stripped_newline]
  have cause : stripped (kept max msg) <:+ stripped d.text := by
    cases some_ : stripped (kept max msg) with
    | nil => exact List.nil_suffix
    | cons c more =>
        rw [same, stripped_append (by rw [some_]; exact List.cons_ne_nil _ _), some_]
        exact List.suffix_append ..
  obtain ⟨fewer, inside⟩ := skipTo_spec (stripped_ne_concat d.text) fits
  have length : (stripped d.text).length ≤ d.text.length := List.IsPrefix.length_le
    (List.rdropWhile_prefix ..)
  generalize skip_ : skipTo (stripped d.text) (size - prefix_.length - 2) = skip at fewer inside
  have bound : skip ≤ (stripped d.text).length := by
    cases empty : stripped d.text with
    | nil => rw [← skip_, empty]; exact Nat.le_of_eq (if_neg (Nat.not_lt_zero _))
    | cons c more => rw [← empty]; exact (inside (by rw [empty]; exact List.cons_ne_nil _ _)).le
  have shown : precisely ((stripped d.text).length - skip) (d.buf.drop skip) =
      (stripped d.text).drop skip := by
    rw [whole, List.drop_append_of_le_length (Nat.le_trans bound length),
      precisely_eq (by omega) _ _ fun member => keeps.holds.nulFree (List.mem_of_mem_drop member),
      ← List.drop_take]
    rw [← stripped_eq_take]
  have opens : d.buf.getD 0 0 ≠ 0 := by
    rw [whole]
    cases text : d.text with
    | nil =>
        rw [text] at last
        exact absurd last (by simp)
    | cons c more =>
        intro zero
        refine keeps.holds.nulFree ?_
        rw [text, ← show c = 0 from zero]
        exact List.mem_cons_self
  have printed : jitCObjErrDiag (some size) prefix_ (some d) =
      some (prefix_.bytes ++ ascii ": " ++ (stripped d.text).drop skip) := by
    obtain ⟨n, rfl⟩ := Nat.exists_eq_succ_of_ne_zero (n := size) (by omega)
    simp only [jitCObjErrDiag]
    rw [if_pos opens, if_pos long, skip_, shown, snprintf, List.take_of_length_le]
    change prefix_.bytes.length + 2 < _ at long
    change _ < n + 1 - prefix_.bytes.length - 2 at fewer
    have two : (ascii ": ").length = 2 := rfl
    rw [List.length_append, List.length_append, two, List.length_drop]
    omega
  rcases Nat.le_total (stripped (kept max msg)).length ((stripped d.text).drop skip).length with
    fits | cut
  · exact ⟨_, _, printed, List.suffix_of_suffix_length_le cause (List.drop_suffix ..) fits,
      List.suffix_refl _, id⟩
  · refine ⟨_, _, printed, List.suffix_refl _,
      List.suffix_of_suffix_length_le (List.drop_suffix ..) cause cut, fun some_ none_ => ?_⟩
    have nonempty : stripped d.text ≠ [] := fun empty => some_ (by
      rw [empty] at cause
      exact List.suffix_nil.mp cause)
    have less := inside nonempty
    have zero := congrArg List.length none_
    rw [List.length_drop, List.length_nil] at zero
    omega

structure Diag.Fresh (d : Diag) (max : Nat) : Prop where
  size : d.buf.length = max
  max : d.max = max
  len : d.len = 0
  empty : d.buf.head? = some 0

theorem Diag.Fresh.holds {max : Nat} (fresh : d.Fresh max) : d.Holds d.text := by
  have none_ : d.text = [] := by rw [Diag.text, fresh.len, List.take_zero]
  rw [none_]
  refine ⟨?_, fresh.size.trans fresh.max.symm, fresh.len.symm, List.not_mem_nil⟩
  obtain ⟨rest, whole⟩ := List.head?_eq_some_iff.mp fresh.empty
  exact ⟨rest, whole⟩

/-- After every message of a run, the buffer keeps it, and an array that meets the condition
shows its end. -/
theorem messages_kept (max : Nat) (big : 3 ≤ max) (start : Diag) (fresh : start.Fresh max)
    (msgs : List CString) (msg : CString)
    (fit : Along jitCDiagCb Fit start (msgs ++ [msg])) :
    ((msgs ++ [msg]).foldl jitCDiagCb start).Keeps max msg ∧
      ∀ (size : Nat) (prefix_ : CString), prefix_.length + 2 < size →
        ErrFit ((msgs ++ [msg]).foldl jitCDiagCb start) size prefix_ →
        Shows prefix_ (stripped (kept max msg)) (jitCObjErrDiag (some size) prefix_
          (some ((msgs ++ [msg]).foldl jitCDiagCb start))) := by
  obtain ⟨before, last, -⟩ := Along.append.mp fit
  have sound : (msgs.foldl jitCDiagCb start).Holds (msgs.foldl jitCDiagCb start).text ∧
      (msgs.foldl jitCDiagCb start).max = max := by
    refine @Along.invariant _ _ _ _ (fun d : Diag => d.Holds d.text ∧ d.max = max) ?_ _ _
      ⟨fresh.holds, fresh.max⟩ before
    rintro d msg ⟨holds, rfl⟩ fit
    have keeps := jitCDiagCb_keeps big holds fit
    exact ⟨keeps.holds, keeps.size⟩
  have keeps : ((msgs ++ [msg]).foldl jitCDiagCb start).Keeps max msg := by
    rw [List.foldl_append]
    have kept := jitCDiagCb_keeps (by rw [sound.2]; exact big) sound.1 last
    rw [sound.2] at kept
    exact kept
  exact ⟨keeps, fun _ _ long fits => jitCObjErrDiag_shows keeps long fits⟩

def sixteen : Diag := ⟨List.replicate 16 0, 0, 16⟩

def shortLine (c : UInt8) (some_ : c ≠ 0) : CString :=
  ⟨[c, c, c], by simpa using some_.symm⟩

def fourLines : List CString :=
  [shortLine 101 (by decide), shortLine 102 (by decide), shortLine 103 (by decide),
    shortLine 104 (by decide)]

/-- The fourth message rolls out two lines, and the array shows it behind the prefix. -/
theorem messages_kept_four :
    (fourLines.foldl jitCDiagCb sixteen).text = [103, 103, 103, 10, 104, 104, 104, 10] ∧
      (fourLines.foldl jitCDiagCb sixteen).Keeps 16 (shortLine 104 (by decide)) ∧
      Shows ⟨ascii "tcc", by decide⟩ [104, 104, 104] (jitCObjErrDiag (some 10)
        ⟨ascii "tcc", by decide⟩ (some (fourLines.foldl jitCDiagCb sixteen))) := by
  have rolled :
      (fourLines.foldl jitCDiagCb sixteen).text = [103, 103, 103, 10, 104, 104, 104, 10] := by
    decide +kernel
  have all := messages_kept 16 (by decide) sixteen ⟨rfl, rfl, rfl, rfl⟩
    [shortLine 101 (by decide), shortLine 102 (by decide), shortLine 103 (by decide)]
    (shortLine 104 (by decide)) ⟨fit_of_short (by decide), fit_of_short (by decide),
      fit_of_short (by decide), fit_of_short (by decide), trivial⟩
  refine ⟨rolled, all.1, all.2 10 ⟨ascii "tcc", by decide⟩ (by decide) ?_⟩
  unfold ErrFit
  dsimp only
  rw [show [shortLine 101 (by decide), shortLine 102 (by decide), shortLine 103 (by decide)] ++
    [shortLine 104 (by decide)] = fourLines from rfl, rolled]
  decide +kernel

def sevenBytes : CString := ⟨[98, 98, 98, 98, 98, 98, 98], by decide⟩

/-- In a buffer of 10 bytes the longer message is dropped, as nothing makes room for it; and
an array with one byte for the text shows none of it. -/
theorem messages_lost :
    ¬ ([shortLine 97 (by decide), sevenBytes].foldl jitCDiagCb ⟨List.replicate 10 0, 0, 10⟩).Keeps
        10 sevenBytes ∧
      ¬ Shows .empty (stripped (kept 16 (shortLine 97 (by decide))))
        (jitCObjErrDiag (some 3) .empty (some (jitCDiagCb sixteen (shortLine 97 (by decide))))) := by
  constructor
  · intro keeps
    obtain ⟨front, last⟩ := keeps.last
    have sizes := congrArg List.length last
    rw [List.length_append, List.foldl_cons, List.foldl_cons, List.foldl_nil] at sizes
    generalize before : jitCDiagCb ⟨List.replicate 10 0, 0, 10⟩ (shortLine 97 (by decide)) = d
      at sizes
    have four : d.text.length = 4 ∧ d.len = 4 ∧ d.max = 10 := by
      rw [← before]
      decide
    have dropped : dropLines d.text (sevenBytes.length + 2) 0 = 0 := by
      rw [dropLines, four.1]
      exact if_neg (by decide)
    have stays : d.roll (sevenBytes.length + 2) = d := by
      rw [Diag.roll, dropped, four.2.1]
      rfl
    have same : jitCDiagCb d sevenBytes = d := by
      rw [jitCDiagCb, stays, ite_self]
      dsimp only
      rw [four.2.1, four.2.2]
      rfl
    rw [same, four.1] at sizes
    have eight : (kept 10 sevenBytes ++ [newline]).length = 8 := by decide
    omega
  · rintro ⟨shown, tail, printed, inShown, -, some_⟩
    have nothing : jitCObjErrDiag (some 3) .empty
        (some (jitCDiagCb sixteen (shortLine 97 (by decide)))) = some (ascii ": ") := by decide
    rw [nothing] at printed
    obtain rfl : shown = [] := (List.append_right_eq_self.mp (Option.some.inj printed).symm)
    exact some_ (by decide) (List.suffix_nil.mp inShown)

end Metal.Jit.C
