import Metal.Edit.Locality

namespace Metal.Edit

open Metal.Lib

/-! A function's body gives way to another one: what the parse makes of the new text. -/

variable {shared rest rest' s out body more : Bytes} {ls i q depth past : Nat} {node : Node}
  {nodes : List Node} {knob : Knob} {room : Nat → Bool} {alloc : Bool}

def braceScan (s : Bytes) (q depth : Nat) : Nat × Nat :=
  if q < s.length ∧ 0 < depth then
    let c := s.getD q 0
    if c = lbrace then braceScan s (q + 1) (depth + 1)
    else if c = rbrace then braceScan s (q + 1) (depth - 1)
    else if c = quote ∨ c = apostrophe then braceScan s (quotedEnd s c (q + 1) + 1) depth
    else if opens s q star then braceScan s (commentEnd s (q + 2) + 2) depth
    else if opens s q slash then
      braceScan s (skipWhile (· ≠ newline) s s.length q + 1) depth
    else braceScan s (q + 1) depth
  else (q, depth)
termination_by s.length - q
decreasing_by
  all_goals
    have := le_quotedEnd s (s.getD q 0) (q + 1)
    have := le_commentEnd s (q + 2)
    have := le_skipWhile (fun c : UInt8 => decide (c ≠ newline)) s s.length q
    omega

/-- The brace scan from depth 1 comes to the end of the text at depth 1; a literal or a
comment that is still open would take it past the end. -/
def Balanced (body : Bytes) : Prop := braceScan body 0 1 = (body.length, 1)

instance (body : Bytes) : Decidable (Balanced body) := inferInstanceAs (Decidable (_ = _))

theorem le_braceScan (s : Bytes) (q depth : Nat) : q ≤ (braceScan s q depth).1 := by
  fun_induction braceScan s q depth with
  | case1 q depth inside c brace ih =>
      exact Nat.le_of_succ_le ih
  | case2 q depth inside c notOpen closes ih =>
      exact Nat.le_of_succ_le ih
  | case3 q depth inside c notOpen notClose quoted ih =>
      have past := le_quotedEnd s (s.getD q 0) (q + 1)
      exact Nat.le_trans (Nat.le_succ_of_le (Nat.le_of_succ_le past)) ih
  | case4 q depth inside c notOpen notClose plain comment ih =>
      have past := le_commentEnd s (q + 2)
      exact Nat.le_trans (by omega) ih
  | case5 q depth inside c notOpen notClose plain noBlock comment ih =>
      have past := le_skipWhile (fun c : UInt8 => decide (c ≠ newline)) s s.length q
      exact Nat.le_trans (by omega) ih
  | case6 q depth inside c notOpen notClose plain noBlock noLine ih =>
      exact Nat.le_of_succ_le ih
  | case7 q depth outside => exact Nat.le_refl q

theorem opens_body {second : UInt8} (other : rbrace ≠ second) (inside : i < body.length) :
    opens (body ++ rbrace :: rest) i second ↔ opens body i second := by
  by_cases last : i + 1 < body.length
  · have same : opens (body ++ rbrace :: rest) i second ↔ opens (body ++ []) i second :=
      opens_within last
    rwa [List.append_nil] at same
  · have ends : i + 1 = body.length := by omega
    unfold opens
    refine iff_of_false (fun open_ => ?_) fun open_ => last open_.2.1
    have brace : (body ++ rbrace :: rest).getD (i + 1) 0 = rbrace := by
      rw [ends, List.getD_eq_getElem?_getD, List.getElem?_append_right (Nat.le_refl _),
        Nat.sub_self]
      rfl
    exact other (brace.symm.trans open_.2.2)

theorem braceEnd_body (rest : Bytes) (open_ : 0 < depth)
    (ends : braceScan body q depth = (body.length, 1)) :
    braceEnd (body ++ rbrace :: rest) q depth = some (body.length + 1) := by
  have within {q : Nat} (inside : q < body.length) :
      q < (body ++ rbrace :: rest).length := inside_within inside
  have same {q : Nat} (inside : q < body.length) :
      (body ++ rbrace :: rest).getD q 0 = body.getD q 0 := by
    have same := getD_within [] (rbrace :: rest) inside
    rwa [List.append_nil] at same
  fun_induction braceScan body q depth with
  | case1 q depth inside c brace ih =>
      rw [braceEnd, same inside.1, if_pos ⟨within inside.1, open_⟩, if_pos brace]
      exact ih (Nat.succ_pos _) ends
  | case2 q depth inside c notOpen closes ih =>
      rw [braceEnd, same inside.1, if_pos ⟨within inside.1, open_⟩, if_neg notOpen,
        if_pos closes]
      refine ih (Nat.pos_of_ne_zero fun zero => ?_) ends
      rw [zero, braceScan, if_neg fun both => absurd both.2 (Nat.lt_irrefl 0)] at ends
      exact absurd (congrArg Prod.snd ends) Nat.zero_ne_one
  | case3 q depth inside c notOpen notClose quoted ih =>
      have after := le_braceScan body (quotedEnd body (body.getD q 0) (q + 1) + 1) depth
      have stops : quotedEnd (body ++ []) (body.getD q 0) (q + 1) < body.length := by
        rw [List.append_nil]
        exact Nat.lt_of_lt_of_le after (Nat.le_of_eq (congrArg Prod.fst ends))
      have moved : quotedEnd (body ++ rbrace :: rest) (body.getD q 0) (q + 1) =
          quotedEnd (body ++ []) (body.getD q 0) (q + 1) := quotedEnd_within stops
      rw [List.append_nil] at moved
      rw [braceEnd, same inside.1, if_pos ⟨within inside.1, open_⟩, if_neg notOpen,
        if_neg notClose, if_pos quoted, moved]
      exact ih open_ ends
  | case4 q depth inside c notOpen notClose plain comment ih =>
      have after := le_braceScan body (commentEnd body (q + 2) + 2) depth
      have stops : commentEnd (body ++ []) (q + 2) + 1 < body.length := by
        rw [List.append_nil]
        exact Nat.lt_of_lt_of_le after (Nat.le_of_eq (congrArg Prod.fst ends))
      have moved : commentEnd (body ++ rbrace :: rest) (q + 2) = commentEnd (body ++ []) (q + 2) :=
        commentEnd_within stops
      rw [List.append_nil] at moved
      rw [braceEnd, same inside.1, if_pos ⟨within inside.1, open_⟩, if_neg notOpen,
        if_neg notClose, if_neg plain, if_pos ((opens_body (by decide) inside.1).2 comment), moved]
      exact ih open_ ends
  | case5 q depth inside c notOpen notClose plain noBlock comment ih =>
      have after := le_braceScan body
        (skipWhile (fun c : UInt8 => decide (c ≠ newline)) body body.length q + 1) depth
      have stops : skipWhile (fun c : UInt8 => decide (c ≠ newline)) (body ++ []) body.length q <
          body.length := by
        rw [List.append_nil]
        exact Nat.lt_of_lt_of_le after (Nat.le_of_eq (congrArg Prod.fst ends))
      have moved : skipWhile (fun c : UInt8 => decide (c ≠ newline)) (body ++ rbrace :: rest)
          (body ++ rbrace :: rest).length q =
            skipWhile (fun c : UInt8 => decide (c ≠ newline)) (body ++ []) body.length q :=
        skipWhile_within stops (Nat.le_refl _) (List.length_append ▸ Nat.le_add_right _ _)
      rw [List.append_nil] at moved
      rw [braceEnd, same inside.1, if_pos ⟨within inside.1, open_⟩, if_neg notOpen,
        if_neg notClose, if_neg plain,
        if_neg fun opens => noBlock ((opens_body (by decide) inside.1).1 opens),
        if_pos ((opens_body (by decide) inside.1).2 comment), moved]
      exact ih open_ ends
  | case6 q depth inside c notOpen notClose plain noBlock noLine ih =>
      rw [braceEnd, same inside.1, if_pos ⟨within inside.1, open_⟩, if_neg notOpen,
        if_neg notClose, if_neg plain,
        if_neg fun opens => noBlock ((opens_body (by decide) inside.1).1 opens),
        if_neg fun opens => noLine ((opens_body (by decide) inside.1).1 opens)]
      exact ih open_ ends
  | case7 q depth outside =>
      obtain ⟨rfl, rfl⟩ := Prod.mk.inj ends
      have brace : (body ++ rbrace :: rest).getD body.length 0 = rbrace := by
        rw [List.getD_eq_getElem?_getD, List.getElem?_append_right (Nat.le_refl _), Nat.sub_self]
        rfl
      have inside : body.length < (body ++ rbrace :: rest).length := by
        rw [List.length_append, List.length_cons]
        omega
      rw [braceEnd, brace, if_pos ⟨inside, Nat.one_pos⟩, if_neg (by decide), if_pos rfl, braceEnd,
        if_neg fun both => absurd both.2 (Nat.lt_irrefl 0), if_pos rfl]

/-! ### A function and what is shared of it -/

theorem backBlank_within {idEnd back : Nat} (inside : back ≤ shared.length) :
    backBlank (shared ++ rest') idEnd back = backBlank (shared ++ rest) idEnd back := by
  induction back with
  | zero => rfl
  | succ back ih =>
      rw [backBlank, backBlank, getD_within rest rest' inside, ih (Nat.le_of_succ_le inside)]

theorem take_within (rest rest' : Bytes) {n : Nat} (inside : n ≤ shared.length) :
    (shared ++ rest').take n = (shared ++ rest).take n := by
  rw [List.take_append_of_le_length inside, List.take_append_of_le_length inside]

theorem nameAt_within {start stop : Nat} (inside : stop ≤ shared.length) :
    nameAt (shared ++ rest') start stop = nameAt (shared ++ rest) start stop := by
  unfold nameAt
  by_cases some_ : start ≤ stop
  · have cut (r : Bytes) : ((shared ++ r).drop start).take (stop - start) =
        ((shared ++ r).take stop).drop start := by
      rw [List.drop_take]
    rw [cut, cut, take_within rest rest' inside]
  · rw [Nat.sub_eq_zero_of_le (Nat.le_of_not_le some_)]
    rfl

/-- A function whose body opens in the shared text is found again with the end that the brace
scan gives it there. -/
theorem fnAt_header (rest' : Bytes) (found : fnAt (shared ++ rest) ls = some node)
    (before : node.bodyOff < shared.length) :
    fnAt (shared ++ rest') ls =
      (braceEnd (shared ++ rest') (node.bodyOff + 1) 1).map fun past =>
        { node with spanEnd := past } := by
  unfold fnAt at found
  split at found
  · cases found
  · case _ head scanned =>
      split at found
      · case isTrue named =>
          split at found
          · cases found
          · case _ close matched =>
              dsimp only at found
              split at found
              · case isTrue brace =>
                  obtain ⟨q, closed, rfl⟩ := Option.map_eq_some_iff.1 found
                  dsimp only at before ⊢
                  have passed := (headScan_spec scanned).2.2 (Nat.le_refl ls)
                    fun some_ => absurd some_ (Nat.lt_irrefl 0)
                  obtain ⟨inLine, idEnd⟩ := passed named.1
                  obtain ⟨paren, _, _⟩ := matchParen_spec matched
                  have white := le_skipWhile isWhite (shared ++ rest) (shared ++ rest).length
                    (close + 1)
                  have closing : close < shared.length := by omega
                  have parens : head.paren < shared.length := by omega
                  have named' : head.idStart < head.idEnd ∧
                      backBlank (shared ++ rest') head.idEnd head.paren = head.idEnd := by
                    rw [backBlank_within (Nat.le_of_lt parens)]
                    exact named
                  have moved : skipWhile isWhite (shared ++ rest') (shared ++ rest').length
                      (close + 1) = skipWhile isWhite (shared ++ rest) (shared ++ rest).length
                        (close + 1) :=
                    skipWhile_within before (List.length_append ▸ Nat.le_add_right _ _)
                      (List.length_append ▸ Nat.le_add_right _ _)
                  have name : nameAt (shared ++ rest') head.idStart head.idEnd =
                      nameAt (shared ++ rest) head.idStart head.idEnd :=
                    nameAt_within (by omega)
                  have line : lineOf (shared ++ rest') ls = lineOf (shared ++ rest) ls := by
                    unfold lineOf
                    rw [take_within rest rest' (by omega)]
                  unfold fnAt
                  rw [headScan_within scanned parens]
                  dsimp only
                  rw [if_pos named', matchParen_within matched closing]
                  dsimp only
                  rw [moved, getD_within rest rest' before, if_pos ⟨inside_within before, brace.2⟩,
                    name, line]
              · cases found
      · cases found

theorem fnAt_ends (found : fnAt s ls = some node) :
    braceEnd s (node.bodyOff + 1) 1 = some node.spanEnd := by
  have span := fnAt_spec found
  have before : node.bodyOff < s.length := by
    have past := span.past
    have inside := span.inside
    omega
  rw [← List.append_nil s] at found
  have again := fnAt_header [] found before
  rw [found] at again
  obtain ⟨past, ends, same⟩ := Option.map_eq_some_iff.1 again.symm
  rw [List.append_nil] at ends
  rw [ends, ← same]

theorem fnAt_within (rest' : Bytes) (found : fnAt (shared ++ rest) ls = some node)
    (before : node.spanEnd ≤ shared.length) : fnAt (shared ++ rest') ls = some node := by
  have past := (fnAt_spec found).past
  rw [fnAt_header rest' found (by omega),
    braceEnd_within (fnAt_ends found) Nat.one_pos before]
  rfl

theorem lineAt_start (start : isIdStart (s.getD ls 0)) (inside : ls < s.length) :
    lineAt s ls =
      match fnAt s ls with
      | some node => (some node, node.spanEnd)
      | none => (none, nextLine s (lineEnd s ls)) := by
  have first : s[ls]? = some (s.getD ls 0) := by
    rw [List.getD_eq_getElem?_getD, List.getElem?_eq_getElem inside]
    rfl
  have notDefine : ¬ isDefine s ls (lineEnd s ls) := by
    intro define
    rw [Option.some.inj (first.symm.trans (isDefine_first define))] at start
    exact absurd start (by decide)
  have some_ : ls < lineEnd s ls := by
    refine lt_skipWhile inside ?_
    rw [first, Option.any_some]
    refine decide_eq_true fun same => ?_
    rw [same] at start
    exact absurd start (by decide)
  unfold lineAt
  dsimp only
  rw [if_neg notDefine, if_pos ⟨start, some_⟩]
  cases found : fnAt s ls with
  | none => rfl
  | some node =>
      have last := (fnAt_spec found).inside
      dsimp only
      split
      · rfl
      · rw [show s.length = node.spanEnd by omega]

theorem lineAt_other (other : ¬ isIdStart (s.getD ls 0)) :
    lineAt s ls =
      (if isDefine s ls (lineEnd s ls) then defineAt s ls (lineEnd s ls) else none,
        nextLine s (lineEnd s ls)) := by
  unfold lineAt
  dsimp only
  split
  · rfl
  · rw [if_neg fun start => other start.1]

theorem nextLine_within (rest' : Bytes)
    (before : nextLine (shared ++ rest) (lineEnd (shared ++ rest) ls) < shared.length) :
    lineEnd (shared ++ rest) ls < shared.length ∧
      lineEnd (shared ++ rest') ls = lineEnd (shared ++ rest) ls ∧
      nextLine (shared ++ rest') (lineEnd (shared ++ rest') ls) =
        nextLine (shared ++ rest) (lineEnd (shared ++ rest) ls) := by
  have inside : lineEnd (shared ++ rest) ls < shared.length := by
    unfold nextLine at before
    split at before <;> omega
  have same : lineEnd (shared ++ rest') ls = lineEnd (shared ++ rest) ls :=
    skipWhile_within inside (List.length_append ▸ Nat.le_add_right _ _)
      (List.length_append ▸ Nat.le_add_right _ _)
  refine ⟨inside, same, ?_⟩
  unfold nextLine
  rw [same, if_pos (inside_within inside), if_pos (inside_within inside)]

theorem isDefine_within (rest rest' : Bytes) {le : Nat} (inside : le < shared.length) :
    isDefine (shared ++ rest') ls le = isDefine (shared ++ rest) ls le := by
  unfold isDefine
  by_cases long : 8 ≤ le - ls
  · have cut (r : Bytes) :
        ((shared ++ r).drop ls).take 7 = ((shared ++ r).take (ls + 7)).drop ls := by
      rw [List.drop_take, Nat.add_sub_cancel_left]
    rw [cut, cut, take_within rest rest' (by omega), getD_within rest rest' (by omega)]
  · simp [long]

theorem defineAt_within {le : Nat} (inside : le < shared.length) :
    (defineAt (shared ++ rest') ls le).map Node.sig =
      (defineAt (shared ++ rest) ls le).map Node.sig := by
  have until_ (p : UInt8 → Bool) (i : Nat) :
      skipWhile p (shared ++ rest') le i = skipWhile p (shared ++ rest) le i :=
    skipWhile_until (Nat.le_of_lt inside)
  have name : defineName (shared ++ rest') ls le = defineName (shared ++ rest) ls le := by
    unfold defineName
    simp only [until_]
    by_cases before : skipWhile isBlank (shared ++ rest) le (ls + 7) < le
    · rw [getD_within rest rest' (Nat.lt_trans before inside)]
    · simp [before]
  unfold defineAt
  rw [name]
  cases found : defineName (shared ++ rest) ls le with
  | none => rfl
  | some named =>
      have stops : named.2 ≤ le := by
        unfold defineName at found
        dsimp only at found
        split at found
        · case isTrue here =>
            cases found
            exact skipWhile_le (Nat.le_of_lt here.1)
        · cases found
      simp only [Option.map_some, Node.sig]
      rw [nameAt_within (by omega)]

/-- A line that ends in the shared text is read in the same way, unless it comes to begin a
function. -/
theorem lineAt_within (rest' : Bytes) (inside : ls < shared.length)
    (before : (lineAt (shared ++ rest) ls).2 < shared.length)
    (quiet : isIdStart ((shared ++ rest).getD ls 0) → fnAt (shared ++ rest) ls = none →
      fnAt (shared ++ rest') ls = none) :
    (lineAt (shared ++ rest') ls).1.map Node.sig =
        (lineAt (shared ++ rest) ls).1.map Node.sig ∧
      (lineAt (shared ++ rest') ls).2 = (lineAt (shared ++ rest) ls).2 := by
  have first := getD_within rest rest' inside
  by_cases start : isIdStart ((shared ++ rest).getD ls 0)
  · rw [lineAt_start start (inside_within inside)] at before ⊢
    rw [lineAt_start (first ▸ start) (inside_within inside)]
    cases found : fnAt (shared ++ rest) ls with
    | none =>
        rw [found] at before
        rw [quiet start found]
        exact ⟨rfl, (nextLine_within rest' before).2.2⟩
    | some node =>
        rw [found] at before
        rw [fnAt_within rest' found (Nat.le_of_lt before)]
        exact ⟨rfl, rfl⟩
  · rw [lineAt_other start] at before ⊢
    rw [lineAt_other (first ▸ start)]
    obtain ⟨ends, line, next⟩ := nextLine_within rest' before
    refine ⟨?_, next⟩
    dsimp only
    rw [line, isDefine_within rest rest' ends]
    split
    · exact defineAt_within ends
    · rfl

end Metal.Edit
