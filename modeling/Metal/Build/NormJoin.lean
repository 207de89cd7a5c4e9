import Metal.Lib.Segments

namespace Metal.Build.NormJoin

open Metal.Lib Segments

/-! `norm_join` of `build`: the path of a file that a unit names, under the unit's
directory and with its `.` and `..` folded away. -/

/-- The depth of `starts` and `ends`. -/
def spanCap : Nat := 32

structure Span where
  start : Nat
  stop : Nat

def Span.text (buf : Bytes) (span : Span) : Bytes :=
  (buf.drop span.start).take (span.stop - span.start)

/-- `dir` and `rel` in one buffer; a null pointer stands for no bytes. -/
def joined (dir rel : Option CString) : Bytes :=
  let front := (dir.map CString.bytes).getD []
  let back := (rel.map CString.bytes).getD []
  if 0 < front.length then front ++ slash :: back else back

/-- Where the segment that begins at `i` ends. -/
def segmentEnd (buf : Bytes) (i : Nat) : Nat :=
  i + ((buf.drop i).takeWhile (· ≠ slash)).length

/-- What one segment does to the kept ones; nothing is returned above the root. -/
def keep (buf : Bytes) (kept : List Span) (span : Span) : Option (List Span) :=
  if span.text buf = ascii "." then some kept
  else if span.text buf = ascii ".." then
    if kept.isEmpty then none else some kept.dropLast
  else if 0 < (span.text buf).length then
    some (if kept.length < spanCap then kept ++ [span] else kept)
  else some kept

theorem le_segmentEnd (buf : Bytes) (i : Nat) : i ≤ segmentEnd buf i := Nat.le_add_right i _

def nextStart (buf : Bytes) (i : Nat) : Nat :=
  if buf[segmentEnd buf i]? = some slash then segmentEnd buf i + 1 else segmentEnd buf i

theorem lt_nextStart {buf : Bytes} {i : Nat} (inside : i < buf.length) : i < nextStart buf i := by
  rw [nextStart]
  split
  · exact Nat.lt_succ_of_le (le_segmentEnd buf i)
  next other =>
    refine Nat.lt_of_le_of_ne (le_segmentEnd buf i) fun same => ?_
    have none_ : ((buf.drop i).takeWhile (· ≠ slash)).length = 0 := by
      rw [segmentEnd] at same
      omega
    rw [List.drop_eq_getElem_cons inside] at none_
    cases isSlash : decide (buf[i] ≠ slash) with
    | true =>
        rw [List.takeWhile_cons_of_pos (by simpa using isSlash)] at none_
        exact Nat.succ_ne_zero _ none_
    | false =>
        refine other ?_
        rw [← same, List.getElem?_eq_getElem inside]
        simpa using isSlash

/-- The loop over the segments from `i` on. -/
def scan (buf : Bytes) (kept : List Span) (i : Nat) : Option (List Span) :=
  if _inside : i < buf.length then
    match keep buf kept ⟨i, segmentEnd buf i⟩ with
    | none => none
    | some kept => scan buf kept (nextStart buf i)
  else some kept
termination_by buf.length - i
decreasing_by
  have := lt_nextStart _inside
  omega

def emit (buf : Bytes) (kept : List Span) : Bytes :=
  kept.foldl (fun out span =>
    (if 0 < out.length then out ++ [slash] else out) ++ span.text buf) []

/-- `bufRoom` and `outRoom` say whether the two buffers are granted. -/
def normJoin (bufRoom outRoom : Bool) (dir rel : Option CString) : Option Bytes :=
  let buf := joined dir rel
  if !bufRoom then none
  else
    match scan buf [] 0 with
    | none => none
    | some kept => if !outRoom then none else some (emit buf kept)

def keptTexts (buf : Bytes) (kept : List Span) : List Bytes := kept.map (Span.text buf)

theorem keep_eq (buf : Bytes) (kept : List Span) (span : Span) :
    (keep buf kept span).map (keptTexts buf) =
      walkWithin spanCap (keptTexts buf kept) (step (span.text buf)).toList := by
  have empty : (keptTexts buf kept).isEmpty = kept.isEmpty := List.isEmpty_map
  rw [keep, step]
  split
  next dot =>
    rw [if_pos (.inr dot)]
    rfl
  next noDot =>
    split
    next dots =>
      have other : ¬ (span.text buf = [] ∨ span.text buf = ascii ".") := by
        rw [dots]
        decide
      rw [if_neg other]
      change _ = (moveWithin spanCap (keptTexts buf kept) .up).bind some
      rw [moveWithin, empty]
      split
      · rfl
      · rw [Option.map_some, Option.bind_some, keptTexts, keptTexts, List.map_dropLast]
    next noDots =>
      split
      next some_ =>
        rw [if_neg (not_or.mpr ⟨List.ne_nil_of_length_pos some_, noDot⟩)]
        change _ = some (if (keptTexts buf kept).length < spanCap then
          keptTexts buf kept ++ [span.text buf] else keptTexts buf kept)
        have same : (keptTexts buf kept).length = kept.length := List.length_map _
        rw [Option.map_some, same]
        split
        · rw [keptTexts, List.map_append]
          rfl
        · rfl
      next none_ =>
        rw [if_pos (.inl (List.eq_nil_of_length_eq_zero (Nat.eq_zero_of_not_pos none_)))]
        rfl

theorem steps_drop {buf : Bytes} {i : Nat} :
    steps (buf.drop i) =
      (step (Span.text buf ⟨i, segmentEnd buf i⟩)).toList ++ steps (buf.drop (nextStart buf i)) := by
  generalize own : (buf.drop i).takeWhile (· ≠ slash) = segment
  have noSlash : slash ∉ segment := by
    rw [← own]
    intro member
    have other := List.mem_takeWhile_imp member
    rw [decide_eq_true_iff] at other
    exact other rfl
  have whole : segment ++ (buf.drop i).dropWhile (· ≠ slash) = buf.drop i := by
    rw [← own]
    exact List.takeWhile_append_dropWhile
  have stop : segmentEnd buf i = i + segment.length := by rw [segmentEnd, own]
  have text : Span.text buf ⟨i, segmentEnd buf i⟩ = segment := by
    rw [Span.text, stop, Nat.add_sub_cancel_left, ← whole, List.take_left]
  have behind : buf.drop (segmentEnd buf i) = (buf.drop i).dropWhile (· ≠ slash) := by
    rw [stop, ← List.drop_drop]
    nth_rewrite 1 [← whole]
    exact List.drop_left
  have next : buf[segmentEnd buf i]? = ((buf.drop i).dropWhile (· ≠ slash)).head? := by
    rw [← behind, List.head?_drop]
  rw [text, nextStart, next]
  nth_rewrite 1 [← whole]
  cases rest : (buf.drop i).dropWhile (· ≠ slash) with
  | nil =>
      rw [List.head?_nil, if_neg (Option.some_ne_none slash).symm, behind, rest, List.append_nil,
        steps_segment noSlash]
      exact (List.append_nil _).symm
  | cons c more =>
      have isSlash : c = slash := by
        have found := List.head?_dropWhile_not (· ≠ slash) (buf.drop i)
        rw [rest] at found
        simpa using found
      rw [isSlash] at rest ⊢
      rw [List.head?_cons, if_pos rfl, ← List.drop_drop, behind, rest, List.drop_one,
        List.tail_cons, steps_append, steps_segment noSlash]

theorem scan_eq (buf : Bytes) (kept : List Span) (i : Nat) :
    (scan buf kept i).map (keptTexts buf) =
      walkWithin spanCap (keptTexts buf kept) (steps (buf.drop i)) := by
  induction kept, i using scan.induct buf with
  | case1 kept i inside refused =>
      rw [scan, dif_pos inside, refused, steps_drop, walkWithin, List.foldlM_append]
      change _ = (walkWithin _ _ _).bind _
      rw [← keep_eq, refused]
      rfl
  | case2 kept i inside kept' accepted ih =>
      rw [scan, dif_pos inside, accepted, steps_drop, walkWithin, List.foldlM_append]
      change _ = (walkWithin _ _ _).bind _
      rw [← keep_eq, accepted]
      exact ih
  | case3 kept i outside =>
      rw [scan, dif_neg outside, List.drop_eq_nil_of_le (Nat.not_lt.mp outside)]
      rfl

theorem emit_eq {buf : Bytes} {kept : List Span} (plain : ∀ name ∈ keptTexts buf kept, Plain name) :
    emit buf kept = [slash].intercalate (keptTexts buf kept) := by
  have behind (out : Bytes) (some_ : 0 < out.length) (more : List Span) :
      more.foldl (fun out span =>
          (if 0 < out.length then out ++ [slash] else out) ++ span.text buf) out =
        [slash].intercalate (out :: keptTexts buf more) := by
    induction more generalizing out with
    | nil => exact List.intercalate_singleton.symm
    | cons span more ih =>
        rw [List.foldl_cons, if_pos some_,
          ih _ (by rw [List.append_assoc, List.length_append]; omega)]
        cases more with
        | nil =>
            change [slash].intercalate [_] = [slash].intercalate [_, _]
            rw [List.intercalate_cons_cons, List.intercalate_singleton,
              List.intercalate_singleton]
        | cons next more =>
            rw [keptTexts, List.map_cons, List.intercalate_cons_cons, keptTexts, List.map_cons,
              List.map_cons, List.intercalate_cons_cons, List.intercalate_cons_cons]
            simp only [List.append_assoc]
  cases kept with
  | nil => rfl
  | cons span more =>
      have some_ := List.length_pos_iff.mpr (plain _ List.mem_cons_self).ne_nil
      rw [emit, List.foldl_cons]
      exact behind _ some_ more

theorem normJoin_eq (dir rel : Option CString) :
    normJoin true true dir rel =
      (walkWithin spanCap [] (steps (joined dir rel))).map ([slash].intercalate ·) := by
  have loop := scan_eq (joined dir rel) [] 0
  rw [List.drop_zero] at loop
  change _ = walkWithin spanCap [] _ at loop
  rw [normJoin, ← loop]
  cases ends : scan (joined dir rel) [] 0 with
  | none => rfl
  | some kept =>
      rw [ends] at loop
      have plain : ∀ name ∈ keptTexts (joined dir rel) kept, Plain name := fun name member =>
        plain_of_mem_steps ((mem_of_walkWithin loop.symm member).resolve_left List.not_mem_nil)
      exact congrArg some (emit_eq plain)

/-- The steps of the path that `dir` and `rel` make together. -/
def pathSteps (dir rel : Option CString) : List (Step Bytes) := steps (joined dir rel)

/-- `out` is the path with its steps up cancelled, or refused where they lead above the root. -/
structure Normalises (dir rel : Option CString) (out : Option Bytes) : Prop where
  refused : out = none ↔ Overdrawn 0 (pathSteps dir rel)
  cancelled : ∀ text, out = some text →
    text = [slash].intercalate (walk [] (pathSteps dir rel))
  again : ∀ text, out = some text → ∀ string : CString, string.bytes = text →
    normJoin true true none (some string) = out ∧ normJoin true true (some string) none = out
  noDots : ∀ text, out = some text →
    ∀ segment ∈ text.splitOn slash, segment ≠ ascii "." ∧ segment ≠ ascii ".."

theorem normJoin_cases (dir rel : Option CString) :
    (walkWithin spanCap [] (pathSteps dir rel) = none ∧ normJoin true true dir rel = none) ∨
      ∃ names, walkWithin spanCap [] (pathSteps dir rel) = some names ∧
        names.length ≤ spanCap ∧ (∀ name ∈ names, Plain name) ∧
        normJoin true true dir rel = some ([slash].intercalate names) := by
  rw [normJoin_eq, pathSteps]
  cases ends : walkWithin spanCap [] (steps (joined dir rel)) with
  | none => exact .inl ⟨rfl, rfl⟩
  | some names =>
      refine .inr ⟨names, rfl, length_walkWithin_le (Nat.zero_le _) ends, fun name member => ?_, rfl⟩
      exact plain_of_mem_steps ((mem_of_walkWithin ends member).resolve_left List.not_mem_nil)

theorem normJoin_again {names : List Bytes} (fits : names.length ≤ spanCap)
    (plain : ∀ name ∈ names, Plain name) {string : CString}
    (same : string.bytes = [slash].intercalate names) :
    normJoin true true none (some string) = some string.bytes ∧
      normJoin true true (some string) none = some string.bytes := by
  have kept : walkWithin spanCap [] (names.map Step.down) = some names :=
    walkWithin_down fits
  have own : steps string.bytes = names.map .down := by rw [same, steps_join plain]
  constructor
  · rw [normJoin_eq]
    change (walkWithin spanCap [] (steps string.bytes)).map _ = _
    rw [own, kept, Option.map_some, same]
  · rw [normJoin_eq]
    have path : steps (joined (some string) none) = names.map .down := by
      rw [joined]
      change steps (if 0 < string.bytes.length then string.bytes ++ slash :: [] else []) = _
      split
      · rw [steps_append, own]
        exact List.append_nil _
      next none_ =>
        rw [← own, List.eq_nil_of_length_eq_zero (Nat.eq_zero_of_not_pos none_)]
    rw [path, kept, Option.map_some, same]

theorem segments_join {names : List Bytes} (plain : ∀ name ∈ names, Plain name) {segment : Bytes}
    (member : segment ∈ ([slash].intercalate names).splitOn slash) :
    segment ≠ ascii "." ∧ segment ≠ ascii ".." := by
  cases names with
  | nil =>
      rw [List.intercalate_nil, List.splitOn_nil, List.mem_singleton] at member
      rw [member]
      decide
  | cons name rest =>
      rw [List.splitOn_intercalate slash (fun other inside => (plain other inside).noSlash)
        (List.cons_ne_nil _ _)] at member
      have isDown := (plain segment member).isDown
      constructor
      · rintro rfl
        exact Option.some_ne_none _ isDown.symm
      · rintro rfl
        cases isDown

theorem Normalises.shallow {dir rel : Option CString}
    (normal : Normalises dir rel (normJoin true true dir rel))
    (stays : ¬ Overdrawn 0 (pathSteps dir rel)) : ¬ Deep spanCap [] (pathSteps dir rel) := by
  intro deep
  rcases normJoin_cases dir rel with ⟨-, refused⟩ | ⟨names, ends, -, plain, returned⟩
  · exact stays (normal.refused.mp refused)
  · have shorter := walkWithin_of_deep deep (Nat.zero_le _) stays ends
    have same := normal.cancelled _ returned
    have plains : ∀ name ∈ walk [] (pathSteps dir rel), Plain name := fun name member =>
      plain_of_mem_steps ((mem_of_walk member).resolve_left List.not_mem_nil)
    rw [join_inj plain plains same] at shorter
    exact Nat.lt_irrefl _ shorter

/-- `norm_join` is path normalisation exactly where the path is refused, or never has more
than 32 names to keep. -/
theorem normJoin_iff (dir rel : Option CString) :
    Normalises dir rel (normJoin true true dir rel) ↔
      Overdrawn 0 (pathSteps dir rel) ∨ ¬ Deep spanCap [] (pathSteps dir rel) := by
  constructor
  · intro normal
    by_contra other
    obtain ⟨stays, deep⟩ := not_or.mp other
    exact deep (normal.shallow stays)
  · intro holds
    rcases normJoin_cases dir rel with ⟨ends, refused⟩ | ⟨names, ends, fits, plain, returned⟩
    · rw [refused]
      refine ⟨iff_of_true rfl ?_, nofun, nofun, nofun⟩
      rcases holds with drawn | shallow
      · exact drawn
      · by_contra stays
        rw [walkWithin_of_shallow shallow stays] at ends
        exact Option.some_ne_none _ ends
    · have stays : ¬ Overdrawn 0 (pathSteps dir rel) := by
        intro drawn
        rw [walkWithin_of_overdrawn drawn (Nat.le_refl _)] at ends
        exact Option.some_ne_none _ ends.symm
      have kept := walkWithin_of_shallow (holds.resolve_left stays) stays
      obtain rfl : names = walk [] (pathSteps dir rel) :=
        Option.some.inj (ends.symm.trans kept)
      rw [returned]
      refine ⟨iff_of_false (Option.some_ne_none _) stays, ?_, ?_, ?_⟩
      · rintro text ⟨⟩
        rfl
      · rintro text ⟨⟩ string same
        rw [← same]
        exact normJoin_again fits plain same
      · rintro text ⟨⟩ segment member
        exact segments_join plain member

def nested : CString where
  bytes := [slash].intercalate (List.replicate 33 [97])
  nulFree := by decide

theorem steps_nested : pathSteps none (some nested) = (List.replicate 33 [97]).map .down := by
  change steps nested.bytes = _
  refine steps_join fun name member => ?_
  rw [List.eq_of_mem_replicate member]
  exact ⟨by decide, by decide⟩

/-- The last of 33 names is dropped. -/
theorem normJoin_fails :
    ¬ Normalises none (some nested) (normJoin true true none (some nested)) := by
  intro normal
  have stays : ¬ Overdrawn 0 (pathSteps none (some nested)) := by
    rw [steps_nested]
    exact not_overdrawn_down _ _
  refine normal.shallow stays ⟨33, ?_⟩
  rw [steps_nested, ← List.map_take, walk_down, List.nil_append, List.length_take,
    List.length_replicate]
  decide

end Metal.Build.NormJoin
