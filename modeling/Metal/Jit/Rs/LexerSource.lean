import Metal.Jit.Rs.LexerRun

namespace Metal.Jit.Rs.Lex

open Metal.Lib

/-! The tokens of a source and the gaps between them are the source. -/

/-- The rest of nested block comments, from a depth to where the outermost closes. -/
inductive Closes : Nat → Bytes → Prop where
  | done : Closes 0 []
  | opens {depth : Nat} {text : Bytes} : Closes (depth + 2) text →
      Closes (depth + 1) (slash :: star :: text)
  | closes {depth : Nat} {text : Bytes} : Closes depth text →
      Closes (depth + 1) (star :: slash :: text)
  | byte {depth : Nat} {c : UInt8} {text : Bytes} : ¬ (c = slash ∧ peek text 0 = star) →
      ¬ (c = star ∧ peek text 0 = slash) → Closes (depth + 1) text → Closes (depth + 1) (c :: text)

/-- Whitespace and comments; a line comment goes up to a newline or the end. -/
inductive Gap : Bytes → Bytes → Prop where
  | nothing (rest : Bytes) : Gap [] rest
  | white {c : UInt8} {gap rest : Bytes} : isWhite c = true → Gap gap rest → Gap (c :: gap) rest
  | line {body gap rest : Bytes} : (∀ c ∈ body, c ≠ newline) →
      (gap ++ rest = [] ∨ peek (gap ++ rest) 0 = newline) → Gap gap rest →
      Gap (slash :: slash :: (body ++ gap)) rest
  | block {text gap rest : Bytes} : Closes 1 text → Gap gap rest →
      Gap (slash :: star :: (text ++ gap)) rest

theorem skipBlock_closes {depth : Nat} {line : UInt32} {rest : Bytes}
    (closed : (skipBlock depth line rest).1 = 0) :
    ∃ text, rest = text ++ (skipBlock depth line rest).2.rest ∧ Closes depth text := by
  induction depth, line, rest using skipBlock.induct with
  | case1 line rest =>
      rewrite [skipBlock]
      exact ⟨[], rfl, .done⟩
  | case2 depth line | case3 depth line d =>
      rw [skipBlock] at closed
      exact absurd closed (Nat.succ_ne_zero depth)
  | case4 depth line d e rest opens ih =>
      rw [skipBlock, if_pos opens] at closed ⊢
      obtain ⟨rfl, rfl⟩ := opens
      obtain ⟨text, same, closes⟩ := ih closed
      exact ⟨slash :: star :: text, congrArg (slash :: star :: ·) same, .opens closes⟩
  | case5 depth line d e rest opens closes ih =>
      rw [skipBlock, if_neg opens, if_pos closes] at closed ⊢
      obtain ⟨rfl, rfl⟩ := closes
      obtain ⟨text, same, closes⟩ := ih closed
      exact ⟨star :: slash :: text, congrArg (star :: slash :: ·) same, .closes closes⟩
  | case6 depth line d e rest opens closes ih =>
      rw [skipBlock, if_neg opens, if_neg closes] at closed ⊢
      obtain ⟨text, same, inside⟩ := ih closed
      refine ⟨d :: text, congrArg (d :: ·) same, ?_⟩
      have first_ : peek text 0 = e := by
        cases text with
        | nil => cases inside
        | cons c text => exact (List.cons.inj same).1.symm
      rw [← first_] at opens closes
      exact .byte opens closes inside

theorem peek_dropWhile (rest : Bytes) :
    rest.dropWhile (· != newline) = [] ∨ peek (rest.dropWhile (· != newline)) 0 = newline := by
  induction rest with
  | nil => exact .inl rfl
  | cons c rest ih =>
      rw [List.dropWhile_cons]
      split
      next => exact ih
      next same =>
        refine .inr ?_
        change c = newline
        simpa using same

theorem Skips.gap {a b : Cursor} (skips : Skips a b) :
    ∃ gap, a.rest = gap ++ b.rest ∧ Gap gap b.rest := by
  induction skips with
  | nothing cur => exact ⟨[], rfl, .nothing _⟩
  | @byte c rest line cur white _ ih =>
      obtain ⟨gap, same, isGap⟩ := ih
      exact ⟨c :: gap, congrArg (c :: ·) same, .white white isGap⟩
  | @line rest line cur _ ih =>
      obtain ⟨gap, same, isGap⟩ := ih
      change rest.dropWhile _ = gap ++ cur.rest at same
      refine ⟨slash :: slash :: (rest.takeWhile (· != newline) ++ gap), ?_, .line ?_ ?_ isGap⟩
      · rw [List.cons_append, List.cons_append, List.append_assoc, ← same,
          List.takeWhile_append_dropWhile]
      · intro c member
        simpa using List.mem_takeWhile_imp member
      · rw [← same]
        exact peek_dropWhile rest
  | @block rest line cur cur' closed _ ih =>
      obtain ⟨gap, same, isGap⟩ := ih
      obtain ⟨text, same', closes⟩ := skipBlock_closes (congrArg Prod.fst closed)
      rw [closed] at same'
      refine ⟨slash :: star :: (text ++ gap), ?_, .block closes isGap⟩
      change slash :: star :: rest = _
      rw [same', same, List.cons_append, List.cons_append, List.append_assoc]

structure Longest (kind : Kind) (text rest : Bytes) : Prop where
  operator : (text, kind) ∈ operators
  longest : ∀ op ∈ operators, op.1 <+: text ++ rest → op.1.length ≤ text.length

theorem lexPunct_longest {at_ : Cursor} {lexeme : Lexeme} (some_ : at_.rest ≠ [])
    (lexed : lexPunct at_ = .ok lexeme) : Longest lexeme.kind lexeme.text lexeme.cur.rest := by
  obtain ⟨mark, same, isMark⟩ := (lexPunct_reads some_ lexed).text
  have three : ∀ op ∈ punct3, op.1.length = 3 := by decide
  have two : ∀ op ∈ punct2, op.1.length = 2 := by decide
  have upTo3 : ∀ op ∈ operators, op.1.length ≤ 3 := by decide +kernel
  have upTo2 : ∀ op ∈ operators, op ∉ punct3 → op.1.length ≤ 2 := by decide +kernel
  have upTo1 : ∀ op ∈ operators, op ∉ punct3 ++ punct2 → op.1.length ≤ 1 := by decide +kernel
  rw [lexPunct] at lexed
  split at lexed
  next op kind found =>
    obtain rfl := Except.ok.inj lexed
    dsimp only at same ⊢
    have fitting := List.find?_some found
    have here := List.isPrefixOf_iff_prefix.mp fitting
    have whole : op ++ at_.rest.drop op.length = at_.rest := by
      obtain ⟨after, isRest⟩ := here
      change op ++ after = at_.rest at isRest
      rw [← isRest, List.drop_left]
    refine ⟨List.mem_append_left _ (List.mem_of_find?_eq_some found), fun other member fits => ?_⟩
    rw [whole] at fits
    rw [List.find?_append] at found
    cases long : punct3.find? (fun p => p.1.isPrefixOf at_.rest) with
    | some p =>
        rw [long] at found
        obtain rfl := Option.some.inj found
        have length := three _ (List.mem_of_find?_eq_some long)
        change op.length = 3 at length
        rw [length]
        exact upTo3 other member
    | none =>
        rw [long, Option.none_or] at found
        have length := two _ (List.mem_of_find?_eq_some found)
        change op.length = 2 at length
        rw [length]
        refine upTo2 other member fun isThree => ?_
        exact List.find?_eq_none.mp long other isThree (List.isPrefixOf_iff_prefix.mpr fits)
  next none_ =>
    dsimp only at lexed
    split at lexed
    next isPunct =>
      obtain rfl := Except.ok.inj lexed
      refine ⟨List.mem_append_right _ (List.mem_map.mpr ⟨_, List.contains_iff_mem.mp isPunct, rfl⟩),
        fun other member fits => upTo1 other member fun longer => ?_⟩
      refine List.find?_eq_none.mp none_ other longer (List.isPrefixOf_iff_prefix.mpr ?_)
      cases rest : at_.rest with
      | nil => exact absurd rest some_
      | cons c after =>
          rw [rest] at fits
          exact fits
    next => cases lexed

/-- Behind `pre` the source has these tokens, which begin at these places, and the end. -/
inductive Laid : Bytes → Bytes → List Token → List Nat → Prop where
  | end_ {pre gap : Bytes} {line : UInt32} : Gap gap [] →
      Laid pre gap [⟨.end_, line, []⟩] [(pre ++ gap).length]
  | token {pre gap mark rest : Bytes} {t : Token} {tokens : List Token} {starts : List Nat} :
      Gap gap (mark ++ t.text ++ rest) → mark = [] ∨ mark = ascii "r#" ∧ t.kind = .ident →
      t.text ≠ [] → (t.kind.isOperator = true → Longest t.kind t.text rest) →
      Laid (pre ++ gap ++ mark ++ t.text) rest tokens starts →
      Laid pre (gap ++ (mark ++ t.text ++ rest)) (t :: tokens) ((pre ++ gap ++ mark).length :: starts)

/-- A token's text is what the source has from its start on, and ends before the next start. -/
def Spans (src : Bytes) : List Token → List Nat → Prop
  | [], [] => True
  | t :: tokens, start :: starts =>
      (src.drop start).take t.text.length = t.text ∧
        (∀ next ∈ starts, start + t.text.length ≤ next) ∧ Spans src tokens starts
  | _, _ => False

theorem Laid.spans {pre rest : Bytes} {tokens : List Token} {starts : List Nat}
    (laid : Laid pre rest tokens starts) :
    Spans (pre ++ rest) tokens starts ∧ ∀ start ∈ starts, pre.length ≤ start := by
  induction laid with
  | @end_ pre gap line _ =>
      refine ⟨⟨rfl, nofun, trivial⟩, fun start member => ?_⟩
      rw [List.mem_singleton.mp member, List.length_append]
      exact Nat.le_add_right _ _
  | @token pre gap mark rest t tokens starts _ _ _ _ _ ih =>
      obtain ⟨spans, behind⟩ := ih
      have same :
          pre ++ (gap ++ (mark ++ t.text ++ rest)) = pre ++ gap ++ mark ++ (t.text ++ rest) := by
        simp only [List.append_assoc]
      have whole :
          pre ++ gap ++ mark ++ t.text ++ rest = pre ++ (gap ++ (mark ++ t.text ++ rest)) := by
        simp only [List.append_assoc]
      rw [whole] at spans
      refine ⟨⟨?_, fun next member => ?_, spans⟩, fun start member => ?_⟩
      · rw [same, List.drop_left, List.take_left]
      · have after := behind next member
        rwa [List.length_append] at after
      · rcases List.mem_cons.mp member with rfl | member
        · rw [List.length_append, List.length_append]
          omega
        · have after := behind start member
          simp only [List.length_append] at after
          omega

variable {grant : Nat → Bool}

theorem Toks.push_list {toks toks' : Toks} {t : Token} (pushed : toks.push grant t = some toks') :
    toks'.list = toks.list ++ [t] := by
  rw [Toks.push] at pushed
  split at pushed
  · split at pushed
    · rw [← Option.some.inj pushed]
    · exact nomatch pushed
  · rw [← Option.some.inj pushed]

theorem push_list {toks toks' : Toks} {lexeme : Lexeme}
    (pushed : push grant toks lexeme = .ok toks') :
    toks'.list = toks.list ++ [⟨lexeme.kind, lexeme.cur.line, lexeme.text⟩] := by
  rw [push] at pushed
  split at pushed
  · split at pushed
    · exact nomatch pushed
    next taken =>
      obtain rfl := Except.ok.inj pushed
      have list := Toks.push_list taken
      exact list
  · exact nomatch pushed

structure Takes (lx lx' : Lexer) (gap mark : Bytes) (t : Token) : Prop where
  list : lx'.toks.list = lx.toks.list ++ [t]
  rest : lx.cur.rest = gap ++ (mark ++ t.text ++ lx'.cur.rest)
  gap : Gap gap (mark ++ t.text ++ lx'.cur.rest)
  mark : mark = [] ∨ mark = ascii "r#" ∧ t.kind = .ident
  some_ : t.text ≠ []
  operator : t.kind.isOperator = true → Longest t.kind t.text lx'.cur.rest
  line : t.line = lx'.cur.line
  lines : ∃ cur hidden, skipTrivia lx.cur.line lx.cur.rest = .ok cur ∧ Passes lx.cur lx'.cur hidden ∧
    (hidden ≠ 0 ↔ Hides cur)

theorem turn_takes {fuel : Nat} {lx lx' : Lexer}
    (turns : Lexer.turn grant fuel lx = some (.next lx')) :
    ∃ gap mark t, Takes lx lx' gap mark t := by
  obtain ⟨cur, lexeme, skips, some_, lexed, pushed, isCur⟩ := turn_next turns
  obtain ⟨hidden, reads, hides⟩ := lexToken_reads some_ lexed
  obtain ⟨gap, same, isGap⟩ := (skipTrivia_skips skips).gap
  obtain ⟨mark, same', isMark⟩ := reads.text
  have passes := (skipTrivia_skips skips).passes.trans reads.passes
  rw [Nat.zero_add] at passes
  rw [same'] at same isGap
  rw [← isCur] at same isGap passes
  exact ⟨gap, mark, _, push_list pushed, same, isGap, isMark, reads.some_, fun operator =>
    isCur ▸ lexPunct_longest some_ (reads.operator operator), congrArg Cursor.line isCur.symm,
    cur, hidden, skips, passes, hides⟩

theorem loop_laid {fuel : Nat} {lx : Lexer} {toks : Toks}
    (ends : loop (Lexer.turn grant) fuel lx = some (.ok toks)) (pre : Bytes) :
    ∃ tokens starts, toks.list = lx.toks.list ++ tokens ∧ Laid pre lx.cur.rest tokens starts := by
  induction fuel generalizing lx pre with
  | zero => cases ends
  | succ fuel ih =>
      rw [loop] at ends
      split at ends
      next => cases ends
      next r turns =>
        obtain rfl := Option.some.inj ends
        obtain ⟨cur, skips, empty, pushed⟩ := turn_done turns
        obtain ⟨gap, same, isGap⟩ := (skipTrivia_skips skips).gap
        rw [empty] at same isGap
        rw [List.append_nil] at same
        change lx.cur.rest = gap at same
        rw [same]
        exact ⟨_, _, Toks.push_list pushed, .end_ isGap⟩
      next lx' turns =>
        obtain ⟨gap, mark, t, takes⟩ := turn_takes turns
        obtain ⟨tokens, starts, list, laid⟩ := ih ends (pre ++ gap ++ mark ++ t.text)
        have laid' := Laid.token takes.gap takes.mark takes.some_ takes.operator laid
        rw [← takes.rest] at laid'
        refine ⟨t :: tokens, _, ?_, laid'⟩
        rw [list, takes.list, List.append_assoc]
        rfl

/-- A source that the lexer accepts is its tokens with whitespace, comments and the marks of raw
identifiers between them; the tokens before the end are not empty, and an operator is the longest
one that stands there. -/
theorem run_lossless {grant : Nat → Bool} {fuel : Nat} {src : Bytes} {toks : Toks}
    (ends : Lexer.run grant fuel src = some (.ok toks)) :
    ∃ starts, Laid [] src toks.list starts ∧ Spans src toks.list starts := by
  obtain ⟨tokens, starts, list, laid⟩ := loop_laid ends []
  change toks.list = tokens at list
  rw [list]
  exact ⟨starts, laid, laid.spans.1⟩

/-- `a <<= r#b /* c */` -/
def shifted : Bytes := ascii "a <<= r#b /* c */"

theorem run_lossless_shifted : ∃ starts,
    Laid [] shifted [⟨.ident, 1, ascii "a"⟩, ⟨.shleq, 1, ascii "<<="⟩, ⟨.ident, 1, ascii "b"⟩,
      ⟨.end_, 1, []⟩] starts ∧
    Spans shifted [⟨.ident, 1, ascii "a"⟩, ⟨.shleq, 1, ascii "<<="⟩, ⟨.ident, 1, ascii "b"⟩,
      ⟨.end_, 1, []⟩] starts :=
  @run_lossless (fun _ => true) 5 shifted ⟨_, 256, 4⟩ (by decide +kernel)

end Metal.Jit.Rs.Lex
