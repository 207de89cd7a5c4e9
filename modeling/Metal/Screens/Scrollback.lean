import Mathlib.Data.List.Forall2
import Metal.Lib.Ring
import Metal.Lib.Run
import Metal.Screens.Console

namespace Metal.Screens

open Metal.Lib Function

/-! What a console keeps of the lines that were printed on it. -/

/-- A line as it is stored: without carriage returns, cut to the column limit. -/
def lineBytes (raw : Bytes) : Bytes := (raw.filter (· ≠ 13)).take (cols - 1)

def linesOf (stream : Bytes) : List Bytes := ((stream.splitOn 10).dropLast).map lineBytes

def pendingOf (stream : Bytes) : Bytes := lineBytes ((stream.splitOn 10).getLast?.getD [])

theorem splitOn_snoc {α : Type} [DecidableEq α] {a x : α} (other : x ≠ a) (l : List α) :
    ∃ pieces last, l.splitOn a = pieces ++ [last] ∧
      (l ++ [x]).splitOn a = pieces ++ [last ++ [x]] := by
  induction l with
  | nil => exact ⟨[], [], rfl, List.splitOn_eq_singleton (by simpa using other.symm)⟩
  | cons y l ih =>
      obtain ⟨pieces, last, before, after⟩ := ih
      rw [List.cons_append, List.splitOn_cons_eq_if_modifyHead, List.splitOn_cons_eq_if_modifyHead,
        before, after]
      split
      · exact ⟨[] :: pieces, last, rfl, rfl⟩
      · cases pieces with
        | nil => exact ⟨[], y :: last, rfl, rfl⟩
        | cons piece pieces => exact ⟨(y :: piece) :: pieces, last, rfl, rfl⟩

theorem linesOf_feed (stream : Bytes) :
    linesOf (stream ++ [10]) = linesOf stream ++ [pendingOf stream] := by
  obtain ⟨pieces, last, split_⟩ :
      ∃ pieces last, stream.splitOn (10 : UInt8) = pieces ++ [last] :=
    ⟨_, _, (List.dropLast_append_getLast (List.splitOn_ne_nil 10 stream)).symm⟩
  rw [linesOf, linesOf, pendingOf, List.splitOn_append_cons_self, split_]
  simp

theorem pendingOf_feed (stream : Bytes) : pendingOf (stream ++ [10]) = [] := by
  rw [pendingOf, List.splitOn_append_cons_self]
  simp [lineBytes]

theorem linesOf_snoc {ch : UInt8} (other : ch ≠ 10) (stream : Bytes) :
    linesOf (stream ++ [ch]) = linesOf stream := by
  obtain ⟨pieces, last, before, after⟩ := splitOn_snoc other stream
  rw [linesOf, linesOf, before, after, List.dropLast_concat, List.dropLast_concat]

theorem pendingOf_return (stream : Bytes) : pendingOf (stream ++ [13]) = pendingOf stream := by
  obtain ⟨pieces, last, before, after⟩ :=
    splitOn_snoc (a := (10 : UInt8)) (x := 13) (by decide) stream
  rw [pendingOf, pendingOf, before, after]
  simp [lineBytes]

theorem pendingOf_snoc {ch : UInt8} (other : ch ≠ 10) (kept : ch ≠ 13) (stream : Bytes) :
    pendingOf (stream ++ [ch]) =
      if (pendingOf stream).length + 1 < cols then pendingOf stream ++ [ch]
      else pendingOf stream := by
  obtain ⟨pieces, last, before, after⟩ := splitOn_snoc other stream
  rw [pendingOf, pendingOf, before, after]
  have whole : (last ++ [ch]).filter (· ≠ 13) = last.filter (· ≠ 13) ++ [ch] := by
    rw [List.filter_append, List.filter_cons_of_pos (by simpa using kept), List.filter_nil]
  simp only [List.getLast?_concat, Option.getD_some, lineBytes, whole, List.length_take]
  generalize last.filter (· ≠ 13) = stored
  have width : cols = 384 := rfl
  split
  · rename_i room
    rw [List.take_of_length_le (by rw [List.length_append, List.length_singleton]; omega),
      List.take_of_length_le (by omega)]
  · exact List.take_append_of_le_length (by omega)

theorem length_pendingOf (stream : Bytes) : (pendingOf stream).length < cols := by
  have width : cols = 384 := rfl
  rw [pendingOf, lineBytes, List.length_take]
  omega

/-- The console holds what was printed on it: the last lines in its ring, and the
line that is not ended yet. -/
structure Shows (c : Console) (stream : Bytes) : Prop where
  plain : 0 ∉ pendingOf stream
  seq : c.seq = UInt32.ofNat (linesOf stream).length
  col : c.col = (pendingOf stream).length
  width : c.line.length = cols
  line : c.line.take c.col = pendingOf stream
  shallow : c.ringLines ≤ linesMax
  bare : c.ring = none → c.count = 0 ∧ c.ringLines = 0
  kept : ∀ ring ∈ c.ring, ring.length = c.ringLines ∧
    Keeps (ring.map text) c.head c.count (linesOf stream)

theorem ringLine_text {c : Console} {rows : List Bytes} (ring : c.ring = some rows) {slot : Nat}
    (inside : slot < rows.length) : some (text (ringLine c slot)) = (rows.map text)[slot]? := by
  rw [ringLine, ring, List.getElem?_map, Option.getD_some, List.getD_eq_getElem?_getD,
    List.getElem?_eq_getElem inside, Option.getD_some, Option.map_some]

theorem text_ended {line kept : Bytes} (plain : 0 ∉ kept) (inside : kept.length < line.length)
    (starts : line.take kept.length = kept) : text (line.set kept.length 0) = kept := by
  have split_ : line.set kept.length 0 = kept ++ 0 :: line.drop (kept.length + 1) := by
    rw [List.set_eq_take_append_cons_drop, if_pos inside, starts]
  rw [text, split_, List.takeWhile_append_of_pos]
  · simp
  · intro byte member
    simpa using fun zero : byte = 0 => plain (zero ▸ member)

theorem Shows.commit {c : Console} {stream : Bytes} (shows_ : Shows c stream) :
    Shows (commitLine c) (stream ++ [10]) := by
  have inside := length_pendingOf stream
  have ended : text (c.line.set (if c.col < cols then c.col else cols - 1) 0) =
      pendingOf stream := by
    rw [if_pos (shows_.col ▸ inside), shows_.col]
    refine text_ended shows_.plain (shows_.width ▸ inside) ?_
    rw [← shows_.col, shows_.line]
  have counted : (linesOf (stream ++ [10])).length = (linesOf stream).length + 1 := by
    rw [linesOf_feed, List.length_append, List.length_singleton]
  have seq : c.seq + 1 = UInt32.ofNat (linesOf (stream ++ [10])).length := by
    rw [counted, shows_.seq, UInt32.ofNat_add]
    rfl
  have empty : 0 ∉ pendingOf (stream ++ [10]) := by
    rw [pendingOf_feed]
    exact List.not_mem_nil
  have col : 0 = (pendingOf (stream ++ [10])).length := by rw [pendingOf_feed, List.length_nil]
  have width (x : Nat) : ((c.line.set x 0).set 0 0).length = cols := by
    rw [List.length_set, List.length_set, shows_.width]
  rw [commitLine]
  cases ring : c.ring with
  | none => exact ⟨empty, seq, col, width _, (pendingOf_feed stream).symm, shows_.shallow,
      fun _ => shows_.bare ring, nofun⟩
  | some rows =>
      obtain ⟨length, keeps⟩ := shows_.kept rows ring
      refine ⟨empty, seq, col, width _, (pendingOf_feed stream).symm, shows_.shallow, nofun, ?_⟩
      rintro _ ⟨⟩
      refine ⟨(List.length_set ..).trans length, ?_⟩
      have pushed := keeps.push (pendingOf stream)
      rw [List.length_map, length] at pushed
      rw [List.map_set, ended, linesOf_feed]
      exact pushed

theorem take_set_succ {α : Type} {l : List α} {n : Nat} (inside : n < l.length) (x : α) :
    (l.set n x).take (n + 1) = l.take n ++ [x] := by
  rw [List.take_succ_eq_append_getElem (by rwa [List.length_set]), List.take_set_of_le Nat.le.refl,
    List.getElem_set_self]

theorem Shows.put {c : Console} {stream : Bytes} (shows_ : Shows c stream) {ch : UInt8}
    (plain : ch ≠ 0) : Shows (putByte c ch) (stream ++ [ch]) := by
  rw [putByte]
  by_cases return_ : ch = 13
  · rw [if_pos return_, return_]
    have lines := linesOf_snoc (by decide : (13 : UInt8) ≠ 10) stream
    have pending := pendingOf_return stream
    exact ⟨pending ▸ shows_.plain, lines ▸ shows_.seq, pending ▸ shows_.col, shows_.width,
      pending ▸ shows_.line, shows_.shallow, shows_.bare, lines ▸ shows_.kept⟩
  rw [if_neg return_]
  by_cases feed : ch = 10
  · rw [if_pos feed, feed]
    exact shows_.commit
  rw [if_neg feed]
  have lines := linesOf_snoc feed stream
  have pending := pendingOf_snoc feed return_ stream
  rw [← shows_.col] at pending
  split
  · rename_i room
    rw [if_pos room] at pending
    have width : (c.line.set c.col ch).length = cols := (List.length_set ..).trans shows_.width
    refine ⟨?_, lines ▸ shows_.seq, ?_, width, ?_, shows_.shallow, shows_.bare, lines ▸ shows_.kept⟩
    · rw [pending]
      simpa [shows_.plain] using plain.symm
    · rw [pending, List.length_append, ← shows_.col]
      rfl
    · rw [pending, ← shows_.line]
      exact take_set_succ (by rw [shows_.width]; omega) ch
  · rename_i full
    rw [if_neg full] at pending
    exact ⟨pending ▸ shows_.plain, lines ▸ shows_.seq, pending ▸ shows_.col, shows_.width,
      pending ▸ shows_.line, shows_.shallow, shows_.bare, lines ▸ shows_.kept⟩

theorem Shows.puts {c : Console} {stream : Bytes} (shows_ : Shows c stream) {bytes : Bytes}
    (plain : 0 ∉ bytes) : Shows (bytes.foldl putByte c) (stream ++ bytes) := by
  induction bytes generalizing c stream with
  | nil => rwa [List.append_nil]
  | cons ch bytes ih =>
      obtain ⟨first, others⟩ := not_or.mp (List.mem_cons.not.mp plain)
      rw [List.append_cons]
      exact ih (shows_.put (Ne.symm first)) others

/-- The ring follows the knob as far as there is memory; nothing that it has room
for is lost. -/
theorem Shows.fit {c : Console} {stream : Bytes} (shows_ : Shows c stream) {depth : Nat}
    (shallow : depth ≤ linesMax) (block : Option (Nat → Bytes)) :
    Shows (ringFit depth block c).1 stream := by
  have some_ : 0 < if depth = 0 then linesDefault else depth := by
    split
    · decide
    · omega
  have below : (if depth = 0 then linesDefault else depth) ≤ linesMax := by
    split
    · decide
    · exact shallow
  unfold ringFit
  generalize (if depth = 0 then linesDefault else depth) = target at some_ below
  dsimp only
  split
  · exact shows_
  · cases block with
    | none => exact shows_
    | some held =>
        have keep : (if c.count < target then c.count else target) = min c.count target := by
          rw [Nat.min_def]
          split
          · rw [if_pos (by omega)]
          · split
            · omega
            · rfl
        refine ⟨shows_.plain, shows_.seq, shows_.col, shows_.width, shows_.line, below, nofun, ?_⟩
        rintro _ ⟨⟩
        refine ⟨by simp, ?_⟩
        dsimp only
        rw [keep]
        generalize same : List.map text (List.map _ (List.range target)) = rows'
        have length : rows'.length = target := by simp [← same]
        cases ring : c.ring with
        | none =>
            rw [(shows_.bare ring).1, Nat.zero_min, Nat.zero_mod]
            exact Keeps.nil (length ▸ some_) _
        | some rows =>
            obtain ⟨size, keeps⟩ := shows_.kept rows ring
            have laid := keeps.layOut rows' (length ▸ some_)
            rw [length] at laid
            refine laid fun i inside => ?_
            have within_ : i < target := Nat.lt_of_lt_of_le inside (Nat.min_le_right _ _)
            have slot : (c.head + c.ringLines - (min c.count target - i)) % c.ringLines <
                rows.length := by
              have inside := keeps.inside
              rw [List.length_map] at inside
              rw [← size]
              exact Nat.mod_lt _ (Nat.zero_lt_of_lt inside)
            rw [← same, List.getElem?_map, List.getElem?_map, List.getElem?_range within_,
              Option.map_some, Option.map_some, if_pos inside, ringLine_text ring slot, slotBack,
              List.length_map, size]

theorem Shows.replay {c : Console} {stream : Bytes} (shows_ : Shows c stream) :
    (replayOne c).flatten =
      (((linesOf stream).drop ((linesOf stream).length - c.count)).flatMap (· ++ [10])) ++
        pendingOf stream := by
  have pending : (if c.col > 0 then [c.line.take c.col] else []).flatten = pendingOf stream := by
    rw [shows_.line]
    split
    · rw [List.flatten_singleton]
    · rename_i none_
      rw [shows_.col] at none_
      exact (List.eq_nil_of_length_eq_zero (Nat.eq_zero_of_not_pos none_)).symm
  rw [replayOne, List.flatten_append, pending]
  congr 1
  cases ring : c.ring with
  | none => simp [(shows_.bare ring).1]
  | some rows =>
      obtain ⟨size, keeps⟩ := shows_.kept rows ring
      have inside := keeps.inside
      rw [List.length_map] at inside
      have kept : (linesOf stream).drop ((linesOf stream).length - c.count) =
          (List.range c.count).map fun i =>
            text (ringLine c (((if c.count = c.ringLines then c.head else 0) + i) % c.ringLines)) := by
        apply List.ext_getElem?
        intro i
        rw [List.getElem?_map]
        by_cases below : i < c.count
        · have slot : ((if c.count = c.ringLines then c.head else 0) + i) % c.ringLines <
              rows.length := by
            rw [← size]
            exact Nat.mod_lt _ (Nat.zero_lt_of_lt inside)
          rw [← keeps.replay below, List.length_map, size, ← ringLine_text ring slot,
            List.getElem?_range below, Option.map_some]
        · have logged := keeps.logged
          rw [List.getElem?_eq_none (by rw [List.length_drop]; omega),
            List.getElem?_eq_none (by rw [List.length_range]; omega), Option.map_none]
      simp only [kept, Option.isSome_some, true_and, if_true, List.flatMap_map]
      rw [← List.flatMap_id, List.flatMap_assoc]
      simp

theorem toNat_sub_pos {x y : UInt32} (less : x < y) : 1 ≤ (y - x).toNat := by
  rw [UInt32.toNat_sub_of_le _ _ (UInt32.le_of_lt less)]
  have := UInt32.lt_iff_toNat_lt.mp less
  omega

section Read

variable {s : Seat} {id : Nat} {c : Console} {stream : Bytes}

theorem Shows.lineAt_eq (shows_ : Shows c stream) (here : consoleGet s id = some c)
    (seq : UInt32) {cap : Nat} (some_ : 0 < cap) :
    lineAt s id seq cap =
      if seq < c.seq ∧ (c.seq - seq).toNat ≤ c.count then
        ((linesOf stream).reverse[(c.seq - seq).toNat - 1]?).map (·.take (cap - 1))
      else none := by
  rw [lineAt, if_neg (by omega), here]
  dsimp only
  cases ring : c.ring with
  | none =>
      rw [if_pos rfl, if_neg]
      rintro ⟨newer, within_⟩
      have back := toNat_sub_pos newer
      rw [(shows_.bare ring).1] at within_
      omega
  | some rows =>
      obtain ⟨size, keeps⟩ := shows_.kept rows ring
      rw [if_neg nofun]
      by_cases found : seq < c.seq ∧ (c.seq - seq).toNat ≤ c.count
      · have back := toNat_sub_pos found.1
        have held := keeps.held ((c.seq - seq).toNat - 1) (by omega)
        have inside := keeps.inside
        rw [List.length_map] at inside
        have slot : (c.head + c.ringLines - (c.seq - seq).toNat) % c.ringLines < rows.length := by
          rw [← size]
          exact Nat.mod_lt _ (Nat.zero_lt_of_lt inside)
        rw [if_neg (by simpa using found), if_pos found, ← held, Nat.sub_add_cancel back, slotBack,
          List.length_map, size, ← ringLine_text ring slot, Option.map_some]
      · rw [if_pos (by simpa [Decidable.imp_iff_not_or] using found), if_neg found]

end Read

def ringDepth (s : Seat) (id : Nat) : Nat := ((consoleGet s id).map Console.ringLines).getD 0

/-- A read by number gives that line, as far as `cap` allows, when it is one of the
last lines that the ring keeps, and else is refused. -/
def Answers (s : Seat) (printed : Bytes) (id : Nat) : Prop :=
  ∀ (seq : UInt32) (cap : Nat), 0 < cap → lineAt s id seq cap =
    if (linesOf printed).length - min (lineCount s id) (ringDepth s id) ≤ seq.toNat ∧
        seq.toNat < (linesOf printed).length then
      ((linesOf printed)[seq.toNat]?).map (·.take (cap - 1))
    else none

/-- A new viewport of the console gets the lines that are kept, and then what is
pending. -/
def Replays (s : Seat) (printed : Bytes) (id : Nat) : Prop :=
  ∀ c, consoleGet s id = some c → (replayOne c).flatten =
    ((linesOf printed).drop ((linesOf printed).length - min (lineCount s id) (ringDepth s id))
      ).flatMap (· ++ [10]) ++ pendingOf printed

/-- The 32-bit counter has not wrapped, or nothing is kept; after a second wrap it
is 0 again, and then every read is refused. -/
def Counted (s : Seat) (printed : Bytes) (id : Nat) : Prop :=
  (linesOf printed).length < 2 ^ 32 ∨ lineCount s id = 0 ∨
    2 ^ 32 ∣ (linesOf printed).length ∧ (linesOf printed).length ≠ 2 ^ 32

section Console

variable {s : Seat} {id : Nat} {c : Console} {stream : Bytes}

theorem Shows.count_le (shows_ : Shows c stream) :
    c.count ≤ c.ringLines ∧ c.count ≤ (linesOf stream).length := by
  cases ring : c.ring with
  | none => simp [shows_.bare ring]
  | some rows =>
      obtain ⟨size, keeps⟩ := shows_.kept rows ring
      have fits := keeps.fits
      rw [List.length_map, size] at fits
      exact ⟨fits, keeps.logged⟩

theorem Shows.replays (shows_ : Shows c stream) (here : consoleGet s id = some c) :
    Replays s stream id := by
  intro c' same
  obtain rfl := Option.some.inj (here.symm.trans same)
  rw [lineCount, ringDepth, here, Option.map_some, Option.map_some, Option.getD_some,
    Option.getD_some, Nat.min_eq_left shows_.count_le.1]
  exact shows_.replay

theorem Shows.answers_iff (shows_ : Shows c stream) (here : consoleGet s id = some c) :
    Answers s stream id ↔ Counted s stream id := by
  have read (seq : UInt32) {cap : Nat} (some_ : 0 < cap) := shows_.lineAt_eq here seq some_
  have count : lineCount s id = c.count := by rw [lineCount, here]; rfl
  have kept : min (lineCount s id) (ringDepth s id) = c.count := by
    rw [count, ringDepth, here]
    exact Nat.min_eq_left shows_.count_le.1
  have counter : c.seq.toNat = (linesOf stream).length % 2 ^ 32 := by
    rw [shows_.seq]
    exact UInt32.toNat_ofNat'
  have logged := shows_.count_le.2
  have shallow := shows_.count_le.1.trans shows_.shallow
  have ceiling : linesMax = 65536 := rfl
  rw [Answers, Counted, kept, count]
  generalize linesOf stream = lines at *
  constructor
  · intro answers
    by_contra wrong
    simp only [not_or, not_and, not_not] at wrong
    obtain ⟨long, some_, whole⟩ := wrong
    by_cases wrapped : lines.length % 2 ^ 32 = 0
    · have total := whole (Nat.dvd_of_mod_eq_zero wrapped)
      have stale : ¬ ((0xffffffff : UInt32) < c.seq ∧
          (c.seq - (0xffffffff : UInt32)).toNat ≤ c.count) := by
        rw [UInt32.lt_iff_toNat_lt, counter, wrapped]
        exact fun found => Nat.not_lt_zero _ found.1
      have answer := answers 0xffffffff 1 Nat.zero_lt_one
      have last : (0xffffffff : UInt32).toNat = 2 ^ 32 - 1 := rfl
      rw [read _ Nat.zero_lt_one, if_neg stale, last, if_pos (by omega),
        List.getElem?_eq_getElem (by omega)] at answer
      cases answer
    · have last : (c.seq - 1).toNat = c.seq.toNat - 1 := by
        apply UInt32.toNat_sub_of_le
        rw [UInt32.le_iff_toNat_le, counter]
        exact Nat.one_le_iff_ne_zero.mpr wrapped
      have one : (c.seq - (c.seq - 1)).toNat = 1 := by
        rw [UInt32.toNat_sub_of_le _ _ (by rw [UInt32.le_iff_toNat_le, last]; omega), last]
        omega
      have newest : c.seq - 1 < c.seq ∧ (c.seq - (c.seq - 1)).toNat ≤ c.count := by
        rw [UInt32.lt_iff_toNat_lt, last, one, counter]
        omega
      have answer := answers (c.seq - 1) 1 Nat.zero_lt_one
      rw [read _ Nat.zero_lt_one, if_pos newest, one, last, counter, if_neg (by omega),
        List.getElem?_reverse (by omega), List.getElem?_eq_getElem (by omega)] at answer
      cases answer
  · rintro counted seq cap some_
    have below := seq.toNat_lt
    rw [read seq some_]
    rcases counted with short | none_ | ⟨whole, twice⟩
    · rw [Nat.mod_eq_of_lt short] at counter
      by_cases newer : seq < c.seq
      · have back : (c.seq - seq).toNat = lines.length - seq.toNat := by
          rw [UInt32.toNat_sub_of_le _ _ (UInt32.le_of_lt newer), counter]
        rw [UInt32.lt_iff_toNat_lt, counter] at newer
        rw [back]
        by_cases kept : lines.length - seq.toNat ≤ c.count
        · rw [if_pos (by rw [UInt32.lt_iff_toNat_lt, counter]; exact ⟨newer, kept⟩),
            if_pos (by omega), List.getElem?_reverse (by omega)]
          congr 2
          omega
        · rw [if_neg (fun found => kept found.2), if_neg (by omega)]
      · rw [if_neg (fun found => newer found.1), if_neg]
        rw [UInt32.lt_iff_toNat_lt, counter] at newer
        omega
    · rw [if_neg, if_neg (by omega)]
      rintro ⟨newer, kept⟩
      have back := toNat_sub_pos newer
      omega
    · rw [Nat.mod_eq_zero_of_dvd whole] at counter
      have old : ¬ seq < c.seq := by
        rw [UInt32.lt_iff_toNat_lt, counter]
        exact Nat.not_lt_zero _
      rw [if_neg (fun found => old found.1)]
      obtain ⟨turns, total⟩ := whole
      rw [if_neg (by omega)]

end Console

/-- Every console shows what was printed on it; a row without one is empty. -/
structure Sound (s : Seat) (printed : Nat → Bytes) : Prop where
  depth : s.depth ≤ linesMax
  beyond : ∀ id, s.consoles.length ≤ id → printed id = []
  live : ∀ id c, s.consoles[id]? = some c → c.live = true → Shows c (printed id)
  dead : ∀ id c, s.consoles[id]? = some c → c.live = false → c = Console.zero ∧ printed id = []

section Sound

variable {s : Seat} {printed : Nat → Bytes} {m : Supply} {id : Nat}

theorem consoleGet_eq_some {c : Console} :
    consoleGet s id = some c ↔ id < s.screens ∧ s.consoles[id]? = some c ∧ c.live = true := by
  rw [consoleGet, Option.ite_none_right_eq_some, Option.filter_eq_some_iff]

theorem Sound.modify (sound : Sound s printed) {change : Console → Console} {stream : Bytes}
    (inside : id < s.consoles.length)
    (shows_ : ∀ c, s.consoles[id]? = some c → (change c).live = true ∧ Shows (change c) stream) :
    Sound { s with consoles := s.consoles.modify id change }
      (update printed id stream) where
  depth := sound.depth
  beyond := by
    intro other past
    rw [List.length_modify] at past
    rw [update_of_ne (by omega)]
    exact sound.beyond other past
  live := by
    intro other c here alive
    rcases modify_cases here with ⟨before, there, rfl, rfl⟩ | ⟨different, there⟩
    · rw [update_self]
      exact (shows_ before there).2
    · rw [update_of_ne different]
      exact sound.live other c there alive
  dead := by
    intro other c here gone
    rcases modify_cases here with ⟨before, there, rfl, rfl⟩ | ⟨different, there⟩
    · rw [(shows_ before there).1] at gone
      cases gone
    · rw [update_of_ne different]
      exact sound.dead other c there gone

theorem Sound.grow (sound : Sound s printed) (more : Nat) :
    Sound { s with consoles := s.consoles ++ List.replicate more Console.zero } printed where
  depth := sound.depth
  beyond := by
    intro other past
    rw [List.length_append] at past
    exact sound.beyond other (by omega)
  live := by
    intro other c here alive
    rcases Nat.lt_or_ge other s.consoles.length with old | new
    · rw [List.getElem?_append_left old] at here
      exact sound.live other c here alive
    · rw [List.getElem?_append_right new] at here
      rw [List.eq_of_mem_replicate (List.mem_of_getElem? here)] at alive
      cases alive
  dead := by
    intro other c here gone
    rcases Nat.lt_or_ge other s.consoles.length with old | new
    · rw [List.getElem?_append_left old] at here
      exact sound.dead other c here gone
    · rw [List.getElem?_append_right new] at here
      exact ⟨List.eq_of_mem_replicate (List.mem_of_getElem? here), sound.beyond other new⟩

theorem Shows.zero {line : Bytes} (width : line.length = cols) (vp : List Viewport)
    (vpCap : Nat) : Shows ⟨true, 0, 0, 0, 0, none, 0, line, vp, vpCap⟩ [] :=
  ⟨List.not_mem_nil, rfl, rfl, width, rfl, Nat.zero_le _, fun _ => ⟨rfl, rfl⟩, nofun⟩

theorem ringFit_live (depth : Nat) (block : Option (Nat → Bytes)) (c : Console) :
    (ringFit depth block c).1.live = c.live ∧ (ringFit depth block c).1.vp = c.vp ∧
      (ringFit depth block c).1.vpCap = c.vpCap := by
  unfold ringFit
  generalize (if depth = 0 then linesDefault else depth) = target
  dsimp only
  split
  · exact ⟨rfl, rfl, rfl⟩
  · cases block with
    | none => exact ⟨rfl, rfl, rfl⟩
    | some held => exact ⟨rfl, rfl, rfl⟩

/-- The rows of the table once it has grown by `more`. -/
def Seat.rows (s : Seat) (more : Nat) : List Console :=
  s.consoles ++ List.replicate more Console.zero

/-- What `console_make` does: nothing, the table grows, or a console appears in a
row that had none. -/
inductive Makes (m : Supply) (id : Nat) (s : Seat) : Seat → Bool → Prop
  | there {c : Console} (here : consoleGet s id = some c) : Makes m id s s true
  | refused (more : Nat) : Makes m id s { s with consoles := s.rows more } false
  | made (more : Nat) {c : Console} {line : Bytes} (below : id < s.screens)
      (row : (s.rows more)[id]? = some c) (gone : c.live = false) (width : line.length = cols) :
      Makes m id s { s with consoles := (s.rows more).modify id fun c =>
        (ringFit s.depth m.ring { c with line := line, live := true }).1 } true

theorem Seat.rows_zero (s : Seat) : { s with consoles := s.rows 0 } = s := by
  rw [Seat.rows, List.replicate_zero, List.append_nil]

theorem consoleMake_makes (m : Supply) (id : Nat) (s : Seat) :
    Makes m id s (consoleMake m id s).1 (consoleMake m id s).2 := by
  have unchanged : Makes m id s s false := by
    have refused : Makes m id s { s with consoles := s.rows 0 } false := .refused 0
    rwa [Seat.rows_zero] at refused
  rw [consoleMake]
  cases here : consoleGet s id with
  | some c => exact .there here
  | none =>
      rw [if_neg (by simp)]
      by_cases off : id ≥ s.screens ∨ !s.arena
      · rw [if_pos off]
        exact unchanged
      · rw [if_neg off]
        obtain ⟨below, -⟩ := not_or.mp off
        have gone (more : Nat) {c : Console} (row : (s.rows more)[id]? = some c) :
            c.live = false := by
          rcases Nat.lt_or_ge id s.consoles.length with old | new
          · rw [Seat.rows, List.getElem?_append_left old] at row
            by_contra alive
            rw [consoleGet_eq_some.mpr ⟨by omega, row, by simpa using alive⟩] at here
            cases here
          · rw [Seat.rows, List.getElem?_append_right new] at row
            rw [List.eq_of_mem_replicate (List.mem_of_getElem? row)]
            rfl
        have width (held : Nat → UInt8) :
            (((List.range cols).map held).set 0 0).length = cols := by
          rw [List.length_set, List.length_map, List.length_range]
        have made (more : Nat) (inside : id < (s.rows more).length) (held : Nat → UInt8) :=
          Makes.made (m := m) more (by omega) (List.getElem?_eq_getElem inside)
            (gone more (List.getElem?_eq_getElem inside)) (width held)
        by_cases inside : id < s.consoles.length
        · rw [if_pos inside]
          cases m.line with
          | none => exact unchanged
          | some held =>
              have done := made 0 (by rwa [Seat.rows, List.replicate_zero, List.append_nil]) held
              rwa [Seat.rows, List.replicate_zero, List.append_nil] at done
        · rw [if_neg inside]
          cases m.rows with
          | none => exact unchanged
          | some more =>
              dsimp only
              by_cases reaches : id < s.consoles.length + more
              · rw [if_pos reaches]
                cases m.line with
                | none => exact .refused more
                | some held =>
                    refine made more ?_ held
                    rwa [Seat.rows, List.length_append, List.length_replicate]
              · rw [if_neg reaches]
                exact unchanged

theorem Sound.make (sound : Sound s printed) (m : Supply) (id : Nat) :
    Sound (consoleMake m id s).1 printed := by
  have makes := consoleMake_makes m id s
  generalize consoleMake m id s = after at makes
  obtain ⟨after, flag⟩ := after
  cases makes with
  | there here => exact sound
  | refused more => exact sound.grow more
  | made more below row gone width =>
      have grown := sound.grow more
      obtain ⟨rfl, none_⟩ := grown.dead _ _ row gone
      rw [← update_eq_self id printed]
      refine grown.modify (List.getElem?_eq_some_iff.mp row).1 fun c here => ?_
      obtain rfl := Option.some.inj (row.symm.trans here)
      rw [none_]
      exact ⟨(ringFit_live _ _ _).1, (Shows.zero width [] 0).fit sound.depth _⟩

theorem Sound.view (sound : Sound s printed) {change : Console → Console}
    (same : ∀ c, ∃ vp vpCap, change c = { c with vp, vpCap }) (id : Nat)
    (alive : ∀ c, s.consoles[id]? = some c → c.live = true) :
    Sound { s with consoles := s.consoles.modify id change } printed := by
  by_cases inside : id < s.consoles.length
  · rw [← update_eq_self id printed]
    refine sound.modify inside fun c here => ?_
    obtain ⟨vp, vpCap, changed⟩ := same c
    have shows_ := sound.live id c here (alive c here)
    rw [changed]
    exact ⟨alive c here, shows_.plain, shows_.seq, shows_.col, shows_.width, shows_.line,
      shows_.shallow, shows_.bare, shows_.kept⟩
  · rwa [List.modify_eq_self (Nat.le_of_not_lt inside)]

/-- What `attach_id` does: nothing, or the console is made, and then perhaps the
viewport is its last one. -/
theorem attachId_cases (m : Supply) (id : Nat) (kind : Bytes) (sink : Option Nat) (s : Seat) :
    (attachId m id kind sink s).seat = s ∨
      (attachId m id kind sink s).seat = (consoleMake m id s).1 ∨
      (consoleMake m id s).2 = true ∧ ∃ viewport cap, (attachId m id kind sink s).seat =
        { (consoleMake m id s).1 with consoles := (consoleMake m id s).1.consoles.modify id fun c =>
          { c with vp := c.vp ++ [viewport], vpCap := cap } } := by
  unfold attachId
  cases sink with
  | none => exact .inl rfl
  | some sink =>
      dsimp only
      split
      · exact .inl rfl
      · cases made : (consoleMake m id s).2 with
        | false => exact .inr (.inl rfl)
        | true =>
            rw [if_pos rfl]
            split
            · exact .inr (.inl rfl)
            · split
              · exact .inr (.inl rfl)
              · split
                · exact .inr (.inl rfl)
                · split
                  · exact .inr (.inl rfl)
                  · exact .inr (.inr ⟨rfl, _, _, rfl⟩)

theorem Makes.alive {m : Supply} {after : Seat} (makes : Makes m id s after true) :
    ∀ c, after.consoles[id]? = some c → c.live = true := by
  intro c here
  cases makes with
  | there before =>
      obtain ⟨-, row, alive⟩ := consoleGet_eq_some.mp before
      rwa [Option.some.inj (here.symm.trans row)]
  | made more below row gone width =>
      rcases modify_cases here with ⟨before, -, -, rfl⟩ | ⟨different, -⟩
      · exact (ringFit_live _ _ _).1
      · exact absurd rfl different

theorem Makes.inside {m : Supply} {after : Seat} (makes : Makes m id s after true) :
    id < after.consoles.length := by
  cases makes with
  | there here => exact (List.getElem?_eq_some_iff.mp (consoleGet_eq_some.mp here).2.1).1
  | made more below row gone width =>
      rw [List.length_modify]
      exact (List.getElem?_eq_some_iff.mp row).1

theorem puts_live (bytes : Bytes) (c : Console) : (bytes.foldl putByte c).live = c.live := by
  induction bytes generalizing c with
  | nil => rfl
  | cons ch bytes ih =>
      rw [List.foldl_cons, ih, putByte]
      split
      · rfl
      split
      · rw [commitLine]
        cases c.ring with
        | none => rfl
        | some ring => rfl
      split
      · rfl
      · rfl

theorem firstOf_live {kind : Bytes} {c : Console} (some_ : (firstOf kind c).isSome) :
    c.live = true := by
  rw [firstOf] at some_
  by_contra gone
  rw [if_neg gone] at some_
  cases some_

theorem Sound.attach (sound : Sound s printed) (m : Supply) (id : Nat) (kind : Bytes)
    (sink : Option Nat) : Sound (attachId m id kind sink s).seat printed := by
  rcases attachId_cases m id kind sink s with same | same | ⟨made, viewport, cap, same⟩
  · rwa [same]
  · rw [same]
    exact sound.make m id
  · rw [same]
    have makes := consoleMake_makes m id s
    rw [made] at makes
    exact (sound.make m id).view (fun c => ⟨_, _, rfl⟩) id makes.alive

theorem Sound.rebind (sound : Sound s printed) (m : Supply) (kind : Bytes) (to_ : Nat) :
    Sound (rebindKind m kind to_ s).seat printed := by
  rw [rebindKind]
  split
  · exact sound
  · split
    · exact sound
    · rename_i i found
      refine (sound.view (fun c => ⟨_, c.vpCap, rfl⟩) i fun c here => ?_).attach m to_ kind _
      obtain ⟨inside, first, -⟩ := List.findIdx?_eq_some_iff_getElem.mp found
      rw [List.getElem?_eq_getElem inside] at here
      exact firstOf_live (Option.some.inj here ▸ first)

theorem Sound.select (sound : Sound s printed) (m : Supply) (id : Int) :
    Sound (select m id s).seat printed := by
  rw [Screens.select]
  split
  · exact sound
  · split
    · exact sound
    · exact Sound.rebind (s := { s with focus := id.toNat })
        ⟨sound.depth, sound.beyond, sound.live, sound.dead⟩ m fb id.toNat

theorem Sound.init (sound : Sound s printed) (m : Supply) (fillKind : Bytes) :
    Sound (init m fillKind s).seat printed := by
  have attached := Sound.attach (s := { s with arena := true, focus := 0, ready := false })
    ⟨sound.depth, sound.beyond, sound.live, sound.dead⟩ m 0 fillKind (some 0)
  rw [Screens.init]
  dsimp only
  split
  · exact attached
  · exact ⟨attached.depth, attached.beyond, attached.live, attached.dead⟩

def Follows (depth : Nat) (before c : Console) : Prop :=
  c = before ∨ before.live = true ∧ ∃ block, c = (ringFit depth block before).1

theorem scrollbackApply_follows (depth : Nat) (blocks : Nat → Option (Nat → Bytes)) (i : Nat)
    (l : List Console) : List.Forall₂ (Follows depth) l (scrollbackApply depth blocks i l).1 := by
  have stay (l : List Console) : List.Forall₂ (Follows depth) l l :=
    List.forall₂_same.mpr fun c _ => .inl rfl
  induction l generalizing i with
  | nil => exact .nil
  | cons c rest ih =>
      rw [scrollbackApply]
      split
      · rename_i alive
        dsimp only
        split
        · exact .cons (.inr ⟨alive, blocks i, rfl⟩) (ih (i + 1))
        · exact .cons (.inr ⟨alive, blocks i, rfl⟩) (stay rest)
      · exact .cons (.inl rfl) (ih (i + 1))

theorem Sound.turn (sound : Sound s printed) {depth after : Nat} (shallow : depth ≤ linesMax)
    (shallow' : after ≤ linesMax) (blocks : Nat → Option (Nat → Bytes)) :
    Sound { s with consoles := (scrollbackApply depth blocks 0 s.consoles).1, depth := after }
      printed := by
  obtain ⟨length, rows⟩ := List.forall₂_iff_get.mp
    (scrollbackApply_follows depth blocks 0 s.consoles)
  generalize (scrollbackApply depth blocks 0 s.consoles).1 = consoles at length rows
  have before {id : Nat} {c : Console} (here : consoles[id]? = some c) :
      ∃ old, s.consoles[id]? = some old ∧ Follows depth old c := by
    obtain ⟨inside, rfl⟩ := List.getElem?_eq_some_iff.mp here
    have inside' : id < s.consoles.length := length ▸ inside
    exact ⟨_, List.getElem?_eq_getElem inside', rows id inside' inside⟩
  refine ⟨shallow', fun id past => sound.beyond id (length ▸ past), ?_, ?_⟩
  · intro id c here alive
    obtain ⟨old, there, rfl | ⟨was, block, rfl⟩⟩ := before here
    · exact sound.live id c there alive
    · exact (sound.live id old there was).fit shallow block
  · intro id c here gone
    obtain ⟨old, there, rfl | ⟨was, block, rfl⟩⟩ := before here
    · exact sound.dead id c there gone
    · rw [(ringFit_live depth block old).1, was] at gone
      cases gone

/-- Whether what is written on a console goes there, and not to the fill. -/
def reaches (m : Supply) (id : Nat) (s : Seat) : Bool :=
  decide (id < s.screens) && s.ready && (consoleMake m id s).2

theorem Sound.write (sound : Sound s printed) (m : Supply) (id : Nat) {bytes : Bytes}
    (plain : 0 ∉ bytes) :
    Sound (writeId m id bytes s).seat
      (if reaches m id s then update printed id (printed id ++ bytes) else printed) := by
  have made := sound.make m id
  have makes := consoleMake_makes m id s
  have ready : (consoleMake m id s).1.ready = s.ready := by
    generalize consoleMake m id s = after at makes
    obtain ⟨after, flag⟩ := after
    cases makes with
    | there here => rfl
    | refused more => rfl
    | made more below row gone width => rfl
  rw [writeId]
  by_cases off : id ≥ s.screens
  · rw [if_pos off, if_neg (by simp [reaches]; omega)]
    exact sound
  rw [if_neg off]
  by_cases none_ : bytes = []
  · rw [if_pos none_, none_, List.append_nil, update_eq_self, ite_self]
    exact sound
  rw [if_neg none_]
  dsimp only
  by_cases fills : !(consoleMake m id s).1.ready ∨ !(consoleMake m id s).2
  · rw [if_pos fills, if_neg]
    · exact made
    · rw [ready] at fills
      rcases fills with off | off
      · simp_all [reaches]
      · simp_all [reaches]
  · obtain ⟨ready', flag⟩ := not_or.mp fills
    rw [ready] at ready'
    simp only [Bool.not_eq_true', Bool.not_eq_false] at ready' flag
    rw [flag] at makes
    rw [if_neg fills, if_pos (by simp [reaches, flag, ready']; omega)]
    refine made.modify makes.inside fun c here => ?_
    have alive := makes.alive c here
    exact ⟨(puts_live bytes c).trans alive, (made.live id c here alive).puts plain⟩

end Sound

/-- A call of the seat, or a turn of the knobs for screens and viewports. After a turn of the
scrollback knob that a console could not follow, the knob is at `after`. -/
inductive Act
  | init (m : Supply) (fillKind : Bytes)
  | deinit
  | write (m : Supply) (id : Nat) (bytes : Bytes)
  | turn (blocks : Nat → Option (Nat → Bytes)) (depth after : Nat)
  | limits (screens : Nat) (room : Nat → Bool)
  | attach (m : Supply) (id : Nat) (kind : Bytes) (sink : Option Nat)
  | select (m : Supply) (id : Int)

def Act.Fair : Act → Prop
  | .write _ _ bytes => 0 ∉ bytes
  | .turn _ depth after => depth ≤ linesMax ∧ after ≤ linesMax
  | _ => True

structure World where
  seat : Seat
  printed : Nat → Bytes

def World.step (w : World) : Act → World
  | .init m fillKind => { w with seat := (init m fillKind w.seat).seat }
  | .deinit => ⟨deinit w.seat, fun _ => []⟩
  | .write m id bytes =>
      { seat := (writeId m id bytes w.seat).seat
        printed :=
          if reaches m id w.seat then update w.printed id (w.printed id ++ bytes)
          else w.printed }
  | .turn blocks depth after =>
      let (consoles, all) := scrollbackApply depth blocks 0 w.seat.consoles
      { w with seat := { w.seat with consoles, depth := if all then depth else after } }
  | .limits screens room => { w with seat := { w.seat with screens, room } }
  | .attach m id kind sink => { w with seat := (attachId m id kind sink w.seat).seat }
  | .select m id => { w with seat := (select m id w.seat).seat }

def World.boot (screens : Nat) (room : Nat → Bool) : World :=
  ⟨⟨false, 0, false, [], screens, linesDefault, room⟩, fun _ => []⟩

theorem Sound.step {w : World} (sound : Sound w.seat w.printed) {act : Act} (fair : act.Fair) :
    Sound (w.step act).seat (w.step act).printed := by
  cases act with
  | init m fillKind => exact sound.init m fillKind
  | deinit => exact ⟨sound.depth, fun _ _ => rfl, nofun, nofun⟩
  | write m id bytes => exact sound.write m id fair
  | turn blocks depth after =>
      refine sound.turn fair.1 ?_ blocks
      split
      · exact fair.1
      · exact fair.2
  | limits screens room => exact ⟨sound.depth, sound.beyond, sound.live, sound.dead⟩
  | attach m id kind sink => exact sound.attach m id kind sink
  | select m id => exact sound.select m id

theorem Sound.run (screens : Nat) (room : Nat → Bool) {acts : List Act}
    (fair : ∀ act ∈ acts, act.Fair) :
    Sound (acts.foldl World.step (World.boot screens room)).seat
      (acts.foldl World.step (World.boot screens room)).printed := by
  have boot : Sound (World.boot screens room).seat (World.boot screens room).printed :=
    ⟨(by decide : linesDefault ≤ linesMax), fun _ _ => rfl, nofun, nofun⟩
  generalize World.boot screens room = w at boot
  induction acts generalizing w with
  | nil => exact boot
  | cons act acts ih =>
      obtain ⟨first, others⟩ := List.forall_mem_cons.mp fair
      exact ih others _ (boot.step first)

theorem Sound.reads {s : Seat} {printed : Nat → Bytes} (sound : Sound s printed) (id : Nat) :
    Replays s (printed id) id ∧ (Answers s (printed id) id ↔ Counted s (printed id) id) := by
  cases here : consoleGet s id with
  | some c =>
      obtain ⟨-, row, alive⟩ := consoleGet_eq_some.mp here
      have shows_ := sound.live id c row alive
      exact ⟨shows_.replays here, shows_.answers_iff here⟩
  | none =>
      have count : lineCount s id = 0 := by rw [lineCount, here]; rfl
      refine ⟨fun c same => ?_, fun _ => .inr (.inl count), fun _ seq cap some_ => ?_⟩
      · cases here.symm.trans same
      rw [count, Nat.zero_min, if_neg (by omega), lineAt, if_neg (by omega), here]

/-- In every state that is reached, a new viewport gets the kept lines and the
pending one, and a read by number answers right exactly as long as the counter
of the lines has not wrapped. -/
theorem scrollback_iff (screens : Nat) (room : Nat → Bool) (acts : List Act)
    (fair : ∀ act ∈ acts, act.Fair) (id : Nat) :
    let w := acts.foldl World.step (World.boot screens room)
    Replays w.seat (w.printed id) id ∧
      (Answers w.seat (w.printed id) id ↔ Counted w.seat (w.printed id) id) :=
  (Sound.run screens room fair).reads id

def plenty : Supply := ⟨some 1, some fun _ => 0, some fun _ => [], some 4⟩

theorem scrollback_hello :
    let w := [Act.init plenty [0x75], .write plenty 0 [0x68, 0x69, 13, 10, 0x3e]].foldl World.step
      (World.boot 6 fun _ => true)
    Replays w.seat (w.printed 0) 0 ∧ Answers w.seat (w.printed 0) 0 := by
  have reads := scrollback_iff 6 (fun _ => true)
    [Act.init plenty [0x75], .write plenty 0 [0x68, 0x69, 13, 10, 0x3e]] (fun act member => ?_) 0
  · exact ⟨reads.1, reads.2.mpr (.inl (by decide +kernel))⟩
  · simp only [List.mem_cons, List.not_mem_nil, or_false] at member
    rcases member with rfl | rfl
    · trivial
    · exact (by decide : (0 : UInt8) ∉ [0x68, 0x69, 13, 10, 0x3e])

theorem length_linesOf_feeds (n : Nat) : (linesOf (List.replicate n 10)).length = n := by
  induction n with
  | zero => rfl
  | succ n ih =>
      rw [List.replicate_succ', linesOf_feed, List.length_append, ih, List.length_singleton]

theorem puts_feeds {c : Console} (ring : c.ring.isSome) (deep : 0 < c.ringLines) (n : Nat) :
    ((List.replicate n 10).foldl putByte c).ring.isSome ∧
      0 < ((List.replicate n 10).foldl putByte c).ringLines ∧
      (0 < n → 0 < ((List.replicate n 10).foldl putByte c).count) := by
  induction n with
  | zero => exact ⟨ring, deep, nofun⟩
  | succ n ih =>
      rw [List.replicate_succ', List.foldl_concat]
      generalize (List.replicate n 10).foldl putByte c = c' at ih
      obtain ⟨ring, deep, -⟩ := ih
      obtain ⟨rows, some_⟩ := Option.isSome_iff_exists.mp ring
      have put : putByte c' 10 = commitLine c' := rfl
      rw [put, commitLine, some_]
      refine ⟨rfl, deep, fun _ => ?_⟩
      dsimp only
      split
      · omega
      · omega

def opened : World := [Act.init plenty [0x75]].foldl World.step (World.boot 6 fun _ => true)

/-- Twice `n` line feeds on the first console. -/
def feeds (n : Nat) : World :=
  [Act.write plenty 0 (List.replicate n 10), .write plenty 0 (List.replicate n 10)].foldl
    World.step opened

theorem step_write {w : World} {c : Console} (one : w.seat.consoles = [c]) (alive : c.live = true)
    (ready : w.seat.ready = true) (some_ : 0 < w.seat.screens) (m : Supply) {bytes : Bytes}
    (filled : bytes ≠ []) :
    w.step (.write m 0 bytes) =
      ⟨{ w.seat with consoles := [bytes.foldl putByte c] },
        update w.printed 0 (w.printed 0 ++ bytes)⟩ := by
  have here : consoleGet w.seat 0 = some c :=
    consoleGet_eq_some.mpr ⟨some_, by rw [one]; rfl, alive⟩
  have made : consoleMake m 0 w.seat = (w.seat, true) := by
    rw [consoleMake, here]
    rfl
  have reached : reaches m 0 w.seat = true := by simp [reaches, made, ready, some_]
  rw [World.step, if_pos reached, writeId, if_neg (by omega), if_neg filled, made]
  dsimp only
  rw [ready, one]
  rfl

theorem lineCount_only {s : Seat} {c : Console} (one : s.consoles = [c]) (alive : c.live = true)
    (some_ : 0 < s.screens) : lineCount s 0 = c.count := by
  rw [lineCount, consoleGet_eq_some.mpr ⟨some_, by rw [one]; rfl, alive⟩]
  rfl

theorem feeds_counts {n : Nat} (some_ : 0 < n) :
    (linesOf ((feeds n).printed 0)).length = n + n ∧ 0 < lineCount (feeds n).seat 0 := by
  obtain ⟨c, one, alive, ring, deep⟩ : ∃ c, opened.seat.consoles = [c] ∧ c.live = true ∧
      c.ring.isSome ∧ 0 < c.ringLines := ⟨_, rfl, rfl, rfl, by decide⟩
  have filled : List.replicate n (10 : UInt8) ≠ [] := by
    rw [ne_eq, List.replicate_eq_nil_iff]
    omega
  have first := step_write one alive rfl (by decide) plenty filled
  have ring' := puts_feeds ring deep n
  have second := step_write (w := opened.step (.write plenty 0 (List.replicate n 10)))
    (by rw [first]) ((puts_live _ c).trans alive) (by rw [first]; rfl)
    (by rw [first]; exact (by decide : 0 < opened.seat.screens)) plenty filled
  have whole : feeds n = (opened.step (.write plenty 0 (List.replicate n 10))).step
      (.write plenty 0 (List.replicate n 10)) := rfl
  rw [whole, second, first]
  constructor
  · have printed : opened.printed 0 = [] := rfl
    dsimp only
    rw [update_self, update_self, printed, List.nil_append,
      List.replicate_append_replicate, length_linesOf_feeds]
  · have again := (puts_feeds ring'.1 ring'.2.1 n).2.2 some_
    have alive' := (puts_live (List.replicate n 10) ((List.replicate n 10).foldl putByte c)).trans
      ((puts_live _ c).trans alive)
    refine again.trans_eq (lineCount_only rfl alive' ?_).symm
    exact (by decide : 0 < opened.seat.screens)

/-- The counter is 0 again, and the last lines are refused. -/
theorem feeds_refused : ¬ Answers (feeds (2 ^ 31)).seat ((feeds (2 ^ 31)).printed 0) 0 := by
  have plain (n : Nat) : 0 ∉ List.replicate n (10 : UInt8) := by simp [List.mem_replicate]
  have fair (n : Nat) : ∀ act ∈ [Act.init plenty [0x75], .write plenty 0 (List.replicate n 10),
      .write plenty 0 (List.replicate n 10)], act.Fair := by
    intro act member
    simp only [List.mem_cons, List.not_mem_nil, or_false] at member
    rcases member with rfl | rfl | rfl
    · trivial
    · exact plain n
    · exact plain n
  have reads (n : Nat) := (Sound.run 6 (fun _ => true) (fair n)).reads 0
  have refused {n : Nat} (some_ : 0 < n) (whole : n + n = 2 ^ 32) :
      ¬ Answers (feeds n).seat ((feeds n).printed 0) 0 := by
    intro answers
    obtain ⟨length, count⟩ := feeds_counts some_
    rcases (reads n).2.mp answers with short | none_ | ⟨-, twice⟩
    · change (linesOf ((feeds n).printed 0)).length < 2 ^ 32 at short
      omega
    · change lineCount (feeds n).seat 0 = 0 at none_
      omega
    · change (linesOf ((feeds n).printed 0)).length ≠ 2 ^ 32 at twice
      omega
  exact refused (by decide) (by decide)

end Metal.Screens
