import Metal.Edit.Spans

namespace Metal.Edit

open Metal.Lib

/-! What the scanners find in a text depends only on the bytes they have come over: not on
what stands before them, and not on what follows. -/

variable {shared rest rest' : Bytes} {i : Nat}

section Behind

variable (before s : Bytes)

theorem inside_behind :
    before.length + i < (before ++ s).length ↔ i < s.length := by
  rw [List.length_append]
  omega

theorem getD_behind (i : Nat) : (before ++ s).getD (before.length + i) 0 = s.getD i 0 := by
  rw [List.getD_eq_getElem?_getD, List.getElem?_append_right (Nat.le_add_right _ _),
    Nat.add_sub_cancel_left, List.getD_eq_getElem?_getD]

theorem opens_behind (second : UInt8) :
    opens (before ++ s) (before.length + i) second ↔ opens s i second := by
  unfold opens
  rw [getD_behind, Nat.add_assoc, getD_behind, inside_behind]

theorem skipWhile_behind (p : UInt8 → Bool) (i : Nat) :
    skipWhile p (before ++ s) (before ++ s).length (before.length + i) =
      before.length + skipWhile p s s.length i := by
  rw [List.length_append, skipWhile_shift]

theorem quotedEnd_behind (q : UInt8) (i : Nat) :
    quotedEnd (before ++ s) q (before.length + i) = before.length + quotedEnd s q i := by
  induction i using quotedEnd.induct s q with
  | case1 i here escaped ih =>
      rw [quotedEnd, quotedEnd.eq_def s]
      simp only [Nat.add_assoc, inside_behind, getD_behind]
      rw [if_pos here, if_pos here, if_pos escaped, if_pos escaped]
      exact ih
  | case2 i here plain ih =>
      rw [quotedEnd, quotedEnd.eq_def s]
      simp only [Nat.add_assoc, inside_behind, getD_behind]
      rw [if_pos here, if_pos here, if_neg plain, if_neg plain]
      exact ih
  | case3 i closed =>
      rw [quotedEnd, quotedEnd.eq_def s]
      simp only [Nat.add_assoc, inside_behind, getD_behind]
      rw [if_neg closed, if_neg closed]

theorem commentEnd_behind (i : Nat) :
    commentEnd (before ++ s) (before.length + i) = before.length + commentEnd s i := by
  induction i using commentEnd.induct s with
  | case1 i here ih =>
      rw [commentEnd, commentEnd.eq_def s]
      simp only [Nat.add_assoc, inside_behind, getD_behind]
      rw [if_pos here, if_pos here]
      exact ih
  | case2 i closed =>
      rw [commentEnd, commentEnd.eq_def s]
      simp only [Nat.add_assoc, inside_behind, getD_behind]
      rw [if_neg closed, if_neg closed]

theorem matchParen_behind (i depth : Nat) :
    matchParen (before ++ s) (before.length + i) depth =
      (matchParen s i depth).map (before.length + ·) := by
  induction left : s.length - i using Nat.strong_induction_on generalizing i depth with
  | _ left ih =>
      -- Every branch that goes on does so from a later place.
      have later {j : Nat} (inside : i < s.length) (further : i < j) (depth : Nat) :=
        ih (s.length - j) (by omega) j depth rfl
      have pastQuote := le_quotedEnd s (s.getD i 0) (i + 1)
      have pastComment := le_commentEnd s (i + 2)
      rw [matchParen, matchParen.eq_def s]
      simp only [Nat.add_assoc, inside_behind, getD_behind, opens_behind, quotedEnd_behind,
        commentEnd_behind]
      split_ifs <;> first | rfl | exact later ‹_› (by omega) _

theorem braceEnd_behind (q depth : Nat) :
    braceEnd (before ++ s) (before.length + q) depth =
      (braceEnd s q depth).map (before.length + ·) := by
  induction left : s.length - q using Nat.strong_induction_on generalizing q depth with
  | _ left ih =>
      have later {j : Nat} (inside : q < s.length ∧ 0 < depth) (further : q < j) (depth : Nat) :=
        ih (s.length - j) (by omega) j depth rfl
      have pastQuote := le_quotedEnd s (s.getD q 0) (q + 1)
      have pastComment := le_commentEnd s (q + 2)
      have pastLine := le_skipWhile (fun c : UInt8 => decide (c ≠ newline)) s s.length q
      rw [braceEnd, braceEnd.eq_def s]
      simp only [Nat.add_assoc, inside_behind, getD_behind, opens_behind, quotedEnd_behind,
        commentEnd_behind, skipWhile_behind]
      split_ifs <;> first | rfl | exact later ‹_› (by omega) _

theorem nameAt_behind (start stop : Nat) :
    nameAt (before ++ s) (before.length + start) (before.length + stop) =
      nameAt s start stop := by
  unfold nameAt
  rw [List.drop_length_add_append, Nat.add_sub_add_left]

def Ids (idStart idEnd idStart' idEnd' : Nat) : Prop :=
  (¬ idStart < idEnd ∧ ¬ idStart' < idEnd') ∨
    (idStart' = before.length + idStart ∧ idEnd' = before.length + idEnd)

inductive Heads : Option Head → Option Head → Prop
  | none : Heads none none
  | some {head head' : Head} (paren : head'.paren = before.length + head.paren)
      (ids : Ids before head.idStart head.idEnd head'.idStart head'.idEnd) :
      Heads (some head) (some head')

theorem headScan_behind (p idStart idEnd : Nat) :
    ∀ idStart' idEnd', Ids before idStart idEnd idStart' idEnd' →
      Heads before (headScan s p idStart idEnd)
        (headScan (before ++ s) (before.length + p) idStart' idEnd') := by
  induction left : s.length - p using Nat.strong_induction_on generalizing p idStart idEnd with
  | _ left ih =>
      intro idStart' idEnd' ids
      have later {j : Nat} (inside : p < s.length) (further : p < j) {idStart idEnd : Nat} :=
        ih (s.length - j) (by omega) j idStart idEnd rfl
      have pastComment := le_commentEnd s (p + 2)
      rw [headScan, headScan.eq_def (before ++ s)]
      simp only [Nat.add_assoc, inside_behind, getD_behind, opens_behind, commentEnd_behind,
        skipWhile_behind]
      split_ifs
      · exact later ‹_› (lt_idEnd ‹_› ‹_›) _ _ (.inr ⟨rfl, rfl⟩)
      · exact .some rfl ids
      · exact .none
      · exact .none
      · exact later ‹_› (by omega) _ _ ids
      · exact .none
      · exact later ‹_› (by omega) _ _ ids
      · exact .none

theorem backBlank_behind {idEnd back : Nat} (after : idEnd ≤ back) :
    backBlank (before ++ s) (before.length + idEnd) (before.length + back) =
      before.length + backBlank s idEnd back := by
  induction back with
  | zero =>
      obtain rfl := Nat.le_zero.1 after
      rw [backBlank, Nat.add_zero]
      cases before.length with
      | zero => rfl
      | succ n => rw [backBlank, if_neg fun goes => absurd goes.1 (Nat.lt_irrefl _)]
  | succ back ih =>
      rw [← Nat.add_assoc, backBlank, backBlank, getD_behind]
      by_cases goes : idEnd < back + 1 ∧ isBlank (s.getD back 0)
      · rw [if_pos goes, if_pos ⟨by omega, goes.2⟩]
        exact ih (by omega)
      · rw [if_neg goes, if_neg fun both => goes ⟨by omega, both.2⟩, Nat.add_assoc]

def Node.moved (k line : Nat) (node : Node) : Node :=
  { node with
    nameOff := k + node.nameOff, spanStart := k + node.spanStart
    spanEnd := k + node.spanEnd, bodyOff := k + node.bodyOff, line := line }

theorem fnAt_behind (ls : Nat) :
    fnAt (before ++ s) (before.length + ls) =
      (fnAt s ls).map (Node.moved before.length (lineOf (before ++ s) (before.length + ls))) := by
  have unset : Ids before 0 0 0 0 := .inl ⟨Nat.lt_irrefl 0, Nat.lt_irrefl 0⟩
  have scanned := headScan_behind before s ls 0 0 0 0 unset
  have passes (head : Head) (same : headScan s ls 0 0 = some head) :=
    (headScan_spec same).2.2 (Nat.le_refl ls) fun some_ => absurd some_ (Nat.lt_irrefl 0)
  unfold fnAt
  generalize headScan s ls 0 0 = first at scanned passes
  generalize headScan (before ++ s) (before.length + ls) 0 0 = second at scanned
  cases scanned with
  | none => rfl
  | @some head head' paren ids =>
      dsimp only
      rcases ids with ⟨none_, none_'⟩ | ⟨start, stop⟩
      · rw [if_neg fun named => none_' named.1, if_neg fun named => none_ named.1]
        rfl
      · by_cases some_ : head.idStart < head.idEnd
        · have after := (passes head rfl some_).2
          have named : (head'.idStart < head'.idEnd ∧
              backBlank (before ++ s) head'.idEnd head'.paren = head'.idEnd) ↔
                (head.idStart < head.idEnd ∧ backBlank s head.idEnd head.paren = head.idEnd) := by
            rw [start, stop, paren, backBlank_behind before s after]
            omega
          simp only [named]
          rw [paren, start, stop, nameAt_behind, matchParen_behind]
          split
          · cases matchParen s head.paren 0 with
            | none => rfl
            | some close =>
                simp only [Option.map_some, Nat.add_assoc, skipWhile_behind, inside_behind,
                  getD_behind, braceEnd_behind]
                split
                · rw [Option.map_map, Option.map_map]
                  rfl
                · rfl
          · rfl
        · rw [if_neg fun named => some_ (by omega), if_neg fun named => some_ named.1]
          rfl

theorem lineEnd_behind (ls : Nat) :
    lineEnd (before ++ s) (before.length + ls) = before.length + lineEnd s ls :=
  skipWhile_behind before s _ ls

theorem nextLine_behind (le : Nat) :
    nextLine (before ++ s) (before.length + le) = before.length + nextLine s le := by
  unfold nextLine
  simp only [inside_behind, Nat.add_assoc]
  split <;> rfl

theorem isDefine_behind (ls le : Nat) :
    isDefine (before ++ s) (before.length + ls) (before.length + le) = isDefine s ls le := by
  unfold isDefine
  rw [Nat.add_sub_add_left, List.drop_length_add_append, Nat.add_assoc, getD_behind]

theorem defineName_behind (ls le : Nat) :
    defineName (before ++ s) (before.length + ls) (before.length + le) =
      (defineName s ls le).map fun (ns, ne) => (before.length + ns, before.length + ne) := by
  unfold defineName
  simp only [Nat.add_assoc, skipWhile_shift, getD_behind, Nat.add_lt_add_iff_left]
  split <;> rfl

def Node.sig (node : Node) : Kind × Bytes := (node.kind, node.name)

theorem defineAt_behind (ls le : Nat) :
    (defineAt (before ++ s) (before.length + ls) (before.length + le)).map Node.sig =
      (defineAt s ls le).map Node.sig := by
  unfold defineAt
  rw [defineName_behind]
  cases defineName s ls le with
  | none => rfl
  | some name =>
      simp only [Option.map_some, Node.sig]
      rw [nameAt_behind]

theorem lineAt_behind (i : Nat) :
    (lineAt (before ++ s) (before.length + i)).1.map Node.sig = (lineAt s i).1.map Node.sig ∧
      (lineAt (before ++ s) (before.length + i)).2 = before.length + (lineAt s i).2 := by
  unfold lineAt
  simp only [lineEnd_behind, isDefine_behind, getD_behind, fnAt_behind, nextLine_behind,
    Nat.add_lt_add_iff_left]
  split
  · exact ⟨defineAt_behind before s i _, rfl⟩
  · split
    · cases fnAt s i with
      | none => exact ⟨rfl, rfl⟩
      | some node =>
          refine ⟨rfl, ?_⟩
          simp only [Option.map_some, Node.moved, List.length_append, Nat.add_lt_add_iff_left]
          split <;> rfl
    · exact ⟨rfl, rfl⟩

theorem Parsed.behind {i : Nat} {nodes : List Node} (parsed : Parsed s i nodes) :
    ∃ nodes', Parsed (before ++ s) (before.length + i) nodes' ∧
      nodes'.map Node.sig = nodes.map Node.sig := by
  induction parsed with
  | done outside => exact ⟨[], .done fun inside => outside ((inside_behind before s).1 inside), rfl⟩
  | @quiet i nodes inside nothing rest ih =>
      obtain ⟨nodes', parsed', same⟩ := ih
      obtain ⟨found, next⟩ := lineAt_behind before s i
      rw [nothing, Option.map_none, Option.map_eq_none_iff] at found
      exact ⟨nodes', .quiet ((inside_behind before s).2 inside) found (next ▸ parsed'), same⟩
  | @node i node nodes inside here rest ih =>
      obtain ⟨nodes', parsed', same⟩ := ih
      obtain ⟨found, next⟩ := lineAt_behind before s i
      rw [here, Option.map_some] at found
      obtain ⟨node', found, sig⟩ := Option.map_eq_some_iff.1 found
      refine ⟨node' :: nodes', .node ((inside_behind before s).2 inside) found (next ▸ parsed'), ?_⟩
      rw [List.map_cons, List.map_cons, sig, same]

end Behind

theorem getD_within (rest rest' : Bytes) (inside : i < shared.length) :
    (shared ++ rest').getD i 0 = (shared ++ rest).getD i 0 := by
  rw [List.getD_eq_getElem?_getD, List.getElem?_append_left inside, List.getD_eq_getElem?_getD,
    List.getElem?_append_left inside]

theorem inside_within (inside : i < shared.length) : i < (shared ++ rest).length := by
  rw [List.length_append]
  omega

theorem opens_within {second : UInt8} (inside : i + 1 < shared.length) :
    opens (shared ++ rest') i second ↔ opens (shared ++ rest) i second := by
  unfold opens
  rw [getD_within rest rest' (Nat.lt_of_succ_lt inside), getD_within rest rest' inside]
  exact and_congr_right fun _ =>
    and_congr_left fun _ => iff_of_true (inside_within inside) (inside_within inside)

theorem quotedEnd_within {q : UInt8} (before : quotedEnd (shared ++ rest) q i < shared.length) :
    quotedEnd (shared ++ rest') q i = quotedEnd (shared ++ rest) q i := by
  induction i using quotedEnd.induct (shared ++ rest) q with
  | case1 i here escaped ih =>
      rw [quotedEnd, if_pos here, if_pos escaped] at before
      have after := le_quotedEnd (shared ++ rest) q (i + 2)
      have first : i < shared.length := by omega
      have second : i + 1 < shared.length := by omega
      rw [quotedEnd, quotedEnd.eq_def (shared ++ rest), if_pos here, if_pos escaped,
        if_pos ⟨inside_within first, getD_within rest rest' first ▸ here.2⟩,
        if_pos ⟨getD_within rest rest' first ▸ escaped.1, inside_within second⟩]
      exact ih before
  | case2 i here plain ih =>
      rw [quotedEnd, if_pos here, if_neg plain] at before
      have after := le_quotedEnd (shared ++ rest) q (i + 1)
      have first : i < shared.length := by omega
      have second : i + 1 < shared.length := by omega
      rw [quotedEnd, quotedEnd.eq_def (shared ++ rest), if_pos here, if_neg plain,
        if_pos ⟨inside_within first, getD_within rest rest' first ▸ here.2⟩, if_neg]
      · exact ih before
      · rintro ⟨escape, _⟩
        rw [getD_within rest rest' first] at escape
        exact plain ⟨escape, inside_within second⟩
  | case3 i closed =>
      rw [quotedEnd, if_neg closed] at before
      rw [quotedEnd, quotedEnd.eq_def (shared ++ rest), if_neg closed, if_neg]
      rintro ⟨_, other⟩
      rw [getD_within rest rest' before] at other
      exact closed ⟨inside_within before, other⟩

theorem commentEnd_within (before : commentEnd (shared ++ rest) i + 1 < shared.length) :
    commentEnd (shared ++ rest') i = commentEnd (shared ++ rest) i := by
  induction i using commentEnd.induct (shared ++ rest) with
  | case1 i here ih =>
      rw [commentEnd, if_pos here] at before
      have after := le_commentEnd (shared ++ rest) (i + 1)
      have second : i + 1 < shared.length := by omega
      rw [commentEnd, commentEnd.eq_def (shared ++ rest), if_pos here, if_pos]
      · exact ih before
      · rw [getD_within rest rest' (Nat.lt_of_succ_lt second), getD_within rest rest' second]
        exact ⟨inside_within second, here.2⟩
  | case2 i closed =>
      rw [commentEnd, if_neg closed] at before
      rw [commentEnd, commentEnd.eq_def (shared ++ rest), if_neg closed, if_neg]
      rw [getD_within rest rest' (Nat.lt_of_succ_lt before), getD_within rest rest' before]
      exact fun open_ => closed ⟨inside_within before, open_.2⟩

theorem matchParen_within {depth close : Nat}
    (found : matchParen (shared ++ rest) i depth = some close) (before : close < shared.length) :
    matchParen (shared ++ rest') i depth = some close := by
  fun_induction matchParen (shared ++ rest) i depth with
  | case1 i depth inside c open_ ih =>
      have after := (matchParen_spec found).1
      have here : i < shared.length := by omega
      rw [matchParen, getD_within rest rest' here, if_pos (inside_within here), if_pos open_]
      exact ih found
  | case2 i inside c notOpen closes =>
      cases found
      rw [matchParen, getD_within rest rest' before, if_pos (inside_within before),
        if_neg notOpen, if_pos closes, if_pos rfl]
  | case3 i depth inside c notOpen closes more ih =>
      have after := (matchParen_spec found).1
      have here : i < shared.length := by omega
      rw [matchParen, getD_within rest rest' here, if_pos (inside_within here), if_neg notOpen,
        if_pos closes, if_neg more]
      exact ih found
  | case4 i depth inside c notOpen notClose quoted ih =>
      have after := (matchParen_spec found).1
      have past := le_quotedEnd (shared ++ rest) c (i + 1)
      have here : i < shared.length := by omega
      have ends : quotedEnd (shared ++ rest) c (i + 1) <
          shared.length := by omega
      rw [matchParen, getD_within rest rest' here, if_pos (inside_within here), if_neg notOpen,
        if_neg notClose, if_pos quoted, quotedEnd_within ends]
      exact ih found
  | case5 i depth inside c notOpen notClose plain comment ih =>
      have after := (matchParen_spec found).1
      have past := le_commentEnd (shared ++ rest) (i + 2)
      have here : i + 1 < shared.length := by omega
      have ends : commentEnd (shared ++ rest) (i + 2) + 1 < shared.length := by omega
      rw [matchParen, getD_within rest rest' (Nat.lt_of_succ_lt here),
        if_pos (inside_within (Nat.lt_of_succ_lt here)), if_neg notOpen, if_neg notClose,
        if_neg plain, if_pos ((opens_within here).2 comment), commentEnd_within ends]
      exact ih found
  | case6 i depth inside c notOpen notClose plain code ih =>
      have after := (matchParen_spec found).1
      have here : i + 1 < shared.length := by omega
      rw [matchParen, getD_within rest rest' (Nat.lt_of_succ_lt here),
        if_pos (inside_within (Nat.lt_of_succ_lt here)), if_neg notOpen, if_neg notClose,
        if_neg plain, if_neg fun opens => code ((opens_within here).1 opens)]
      exact ih found
  | case7 i depth outside =>
      cases found

theorem headScan_within {p idStart idEnd : Nat} {head : Head}
    (found : headScan (shared ++ rest) p idStart idEnd = some head)
    (before : head.paren < shared.length) :
    headScan (shared ++ rest') p idStart idEnd = some head := by
  fun_induction headScan (shared ++ rest) p idStart idEnd with
  | case1 p idStart idEnd inside c start past ih =>
      have after := (headScan_spec found).1
      have longer := lt_idEnd inside start
      have ends : skipWhile isIdChar (shared ++ rest) (shared ++ rest).length p <
          shared.length := by omega
      have here : p < shared.length := by omega
      rw [headScan, getD_within rest rest' here, if_pos (inside_within here), if_pos start,
        skipWhile_within ends (List.length_append ▸ Nat.le_add_right _ _)
          (List.length_append ▸ Nat.le_add_right _ _)]
      exact ih found
  | case2 p idStart idEnd inside c notStart paren =>
      cases found
      rw [headScan, getD_within rest rest' before, if_pos (inside_within before),
        if_neg notStart, if_pos paren]
  | case3 p idStart idEnd inside c notStart notParen stops =>
      cases found
  | case4 p idStart idEnd inside c notStart notParen goes comment =>
      cases found
  | case5 p idStart idEnd inside c notStart notParen goes noLine comment ih =>
      have after := (headScan_spec found).1
      have past := le_commentEnd (shared ++ rest) (p + 2)
      have here : p + 1 < shared.length := by omega
      have ends : commentEnd (shared ++ rest) (p + 2) + 1 < shared.length := by omega
      rw [headScan, getD_within rest rest' (Nat.lt_of_succ_lt here),
        if_pos (inside_within (Nat.lt_of_succ_lt here)), if_neg notStart, if_neg notParen,
        if_neg goes, if_neg fun opens => noLine ((opens_within here).1 opens),
        if_pos ((opens_within here).2 comment), commentEnd_within ends]
      exact ih found
  | case6 p idStart idEnd inside c notStart notParen goes noLine noBlock ends =>
      cases found
  | case7 p idStart idEnd inside c notStart notParen goes noLine noBlock more ih =>
      have after := (headScan_spec found).1
      have here : p + 1 < shared.length := by omega
      rw [headScan, getD_within rest rest' (Nat.lt_of_succ_lt here),
        if_pos (inside_within (Nat.lt_of_succ_lt here)), if_neg notStart, if_neg notParen,
        if_neg goes, if_neg fun opens => noLine ((opens_within here).1 opens),
        if_neg fun opens => noBlock ((opens_within here).1 opens), if_neg more]
      exact ih found
  | case8 p idStart idEnd outside =>
      cases found

theorem braceEnd_within {q depth past : Nat}
    (found : braceEnd (shared ++ rest) q depth = some past) (open_ : 0 < depth)
    (before : past ≤ shared.length) : braceEnd (shared ++ rest') q depth = some past := by
  fun_induction braceEnd (shared ++ rest) q depth with
  | case1 q depth inside c brace ih =>
      have after := (braceEnd_spec found (Nat.succ_pos _)).1
      have here : q < shared.length := by omega
      rw [braceEnd, getD_within rest rest' here, if_pos ⟨inside_within here, open_⟩,
        if_pos brace]
      exact ih found (Nat.succ_pos _)
  | case2 q depth inside c notOpen closes ih =>
      have here : q < shared.length := by
        by_cases more : 0 < depth - 1
        · have after := (braceEnd_spec found more).1
          omega
        · rw [braceEnd, if_neg fun both => more both.2, if_pos (by omega)] at found
          cases found
          omega
      rw [braceEnd, getD_within rest rest' here, if_pos ⟨inside_within here, open_⟩,
        if_neg notOpen, if_pos closes]
      by_cases more : 0 < depth - 1
      · exact ih found more
      · rw [braceEnd, if_neg fun both => more both.2, if_pos (by omega)] at found ⊢
        exact found
  | case3 q depth inside c notOpen notClose quoted ih =>
      have after := (braceEnd_spec found open_).1
      have past := le_quotedEnd (shared ++ rest) c (q + 1)
      have here : q < shared.length := by omega
      have ends : quotedEnd (shared ++ rest) c (q + 1) <
          shared.length := by omega
      rw [braceEnd, getD_within rest rest' here, if_pos ⟨inside_within here, open_⟩,
        if_neg notOpen, if_neg notClose, if_pos quoted, quotedEnd_within ends]
      exact ih found open_
  | case4 q depth inside c notOpen notClose plain comment ih =>
      have after := (braceEnd_spec found open_).1
      have past := le_commentEnd (shared ++ rest) (q + 2)
      have here : q + 1 < shared.length := by omega
      have ends : commentEnd (shared ++ rest) (q + 2) + 1 < shared.length := by omega
      rw [braceEnd, getD_within rest rest' (Nat.lt_of_succ_lt here),
        if_pos ⟨inside_within (Nat.lt_of_succ_lt here), open_⟩, if_neg notOpen,
        if_neg notClose, if_neg plain, if_pos ((opens_within here).2 comment),
        commentEnd_within ends]
      exact ih found open_
  | case5 q depth inside c notOpen notClose plain noBlock comment ih =>
      have after := (braceEnd_spec found open_).1
      have past := le_skipWhile (fun c : UInt8 => decide (c ≠ newline)) (shared ++ rest)
        (shared ++ rest).length q
      have here : q + 1 < shared.length := by omega
      have ends : skipWhile (fun c : UInt8 => decide (c ≠ newline)) (shared ++ rest)
          (shared ++ rest).length q < shared.length := by omega
      rw [braceEnd, getD_within rest rest' (Nat.lt_of_succ_lt here),
        if_pos ⟨inside_within (Nat.lt_of_succ_lt here), open_⟩, if_neg notOpen,
        if_neg notClose, if_neg plain, if_neg fun opens => noBlock ((opens_within here).1 opens),
        if_pos ((opens_within here).2 comment),
        skipWhile_within ends (List.length_append ▸ Nat.le_add_right _ _)
          (List.length_append ▸ Nat.le_add_right _ _)]
      exact ih found open_
  | case6 q depth inside c notOpen notClose plain noBlock noLine ih =>
      have after := (braceEnd_spec found open_).1
      have here : q + 1 < shared.length := by omega
      rw [braceEnd, getD_within rest rest' (Nat.lt_of_succ_lt here),
        if_pos ⟨inside_within (Nat.lt_of_succ_lt here), open_⟩, if_neg notOpen,
        if_neg notClose, if_neg plain, if_neg fun opens => noBlock ((opens_within here).1 opens),
        if_neg fun opens => noLine ((opens_within here).1 opens)]
      exact ih found open_
  | case7 q outside => exact absurd open_ (Nat.lt_irrefl 0)
  | case8 q depth outside more =>
      cases found

end Metal.Edit
