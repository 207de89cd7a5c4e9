import Mathlib.Data.List.Forall2
import Metal.Jit.Rs.LexerSource

namespace Metal.Jit.Rs.Lex

open Metal.Lib

/-! The lines of tokens: the newlines that the lexer does not count shift all that follows. -/

def Lexer.Hides (lx : Lexer) : Prop :=
  ∃ cur, skipTrivia lx.cur.line lx.cur.rest = .ok cur ∧ Lex.Hides cur

def LinesRight (src : Bytes) (tokens : List Token) (starts : List Nat) : Prop :=
  List.Forall₂ (fun t start => newlines t.text = 0 →
    t.line.toNat = 1 + newlines (src.take start)) tokens starts

/-- What the tokens from a place on say about newlines that are hidden there. -/
structure Counted (grant : Nat → Bool) (lx : Lexer) (pre : Bytes) (tokens : List Token)
    (starts : List Nat) (hidden : Nat) : Prop where
  laid : Laid pre lx.cur.rest tokens starts
  few : hidden ≤ newlines lx.cur.rest
  hides : hidden ≠ 0 ↔ ∃ lx', Comes (Lexer.turn grant) lx lx' ∧ lx'.Hides
  last : ∃ line, tokens.getLast? = some ⟨.end_, line, []⟩ ∧
    line + UInt32.ofNat hidden = lx.cur.line + UInt32.ofNat (newlines lx.cur.rest)
  right : hidden = 0 → lx.cur.line = 1 + UInt32.ofNat (newlines pre) →
    List.Forall₂ (fun t start => newlines t.text = 0 →
      t.line = 1 + UInt32.ofNat (newlines ((pre ++ lx.cur.rest).take start))) tokens starts

theorem not_hides_empty {cur : Cursor} (empty : cur.rest = []) : ¬ Hides cur := by
  obtain ⟨rest, line⟩ := cur
  obtain rfl : rest = [] := empty
  rintro (literal | ⟨isStart, -⟩)
  · exact not_literalHides (show peek [] 0 ≠ quote by decide)
      (fun isTick => absurd isTick (show peek [] 0 ≠ tick by decide)) literal
  · exact absurd isStart (show ¬ isIdentStart 0 = true by decide)

variable {grant : Nat → Bool}

theorem counted_end {fuel : Nat} {lx : Lexer} {toks : Toks}
    (turns : Lexer.turn grant fuel lx = some (.done (.ok toks))) (pre : Bytes) :
    ∃ tokens starts hidden, toks.list = lx.toks.list ++ tokens ∧
      Counted grant lx pre tokens starts hidden := by
  obtain ⟨cur, skips, empty, pushed⟩ := turn_done turns
  obtain ⟨gap, same, isGap⟩ := (skipTrivia_skips skips).gap
  rw [empty] at same isGap
  rw [List.append_nil] at same
  change lx.cur.rest = gap at same
  obtain ⟨text, same', -, line⟩ := (skipTrivia_skips skips).passes
  rw [empty, List.append_nil] at same'
  change lx.cur.rest = text at same'
  rw [← same'] at line
  have laid : Laid pre lx.cur.rest [⟨.end_, cur.line, []⟩] [(pre ++ lx.cur.rest).length] :=
    .end_ (same ▸ isGap)
  refine ⟨_, _, 0, Toks.push_list pushed, laid, Nat.zero_le _, ?_, ⟨_, rfl, line⟩, ?_⟩
  · refine iff_of_false (absurd rfl) ?_
    rintro ⟨lx', comes, cur', skips', hides⟩
    rcases comes_iff.mp comes with rfl | ⟨lx'', turns', -⟩
    · obtain rfl := Except.ok.inj (skips.symm.trans skips')
      exact not_hides_empty empty hides
    · exact nomatch Turns.unique (turn_steady grant) ⟨fuel, turns⟩ turns'
  · intro _ begins
    refine .cons (fun _ => ?_) .nil
    have total : cur.line = lx.cur.line + UInt32.ofNat (newlines lx.cur.rest) :=
      (UInt32.add_zero _).symm.trans line
    change cur.line =
      1 + UInt32.ofNat (newlines ((pre ++ lx.cur.rest).take (pre ++ lx.cur.rest).length))
    rw [List.take_length, newlines_append, UInt32.ofNat_add, ← UInt32.add_assoc, ← begins]
    exact total

theorem counted_next {lx lx' : Lexer} {pre gap mark : Bytes} {t : Token}
    (turns : Turns (Lexer.turn grant) lx (.next lx')) (takes : Takes lx lx' gap mark t)
    {tokens : List Token} {starts : List Nat} {hidden : Nat}
    (counted : Counted grant lx' (pre ++ gap ++ mark ++ t.text) tokens starts hidden) :
    ∃ starts' hidden', Counted grant lx pre (t :: tokens) starts' hidden' := by
  obtain ⟨cur, here, skips, ⟨text, same, few, line⟩, hides⟩ := takes.lines
  have isText : text = gap ++ mark ++ t.text := by
    have both : text ++ lx'.cur.rest = gap ++ mark ++ t.text ++ lx'.cur.rest := by
      rw [← same, takes.rest]
      simp only [List.append_assoc]
    exact List.append_cancel_right both
  have laid := Laid.token takes.gap takes.mark takes.some_ takes.operator counted.laid
  rw [← takes.rest] at laid
  refine ⟨_, here + hidden, laid, ?_, ?_, ?_, ?_⟩
  · rw [same, newlines_append]
    exact Nat.add_le_add few counted.few
  · have split : here + hidden ≠ 0 ↔ here ≠ 0 ∨ hidden ≠ 0 := by omega
    rw [split, hides, counted.hides]
    constructor
    · rintro (hides | ⟨lx'', comes, hides⟩)
      · exact ⟨lx, .start, cur, skips, hides⟩
      · exact ⟨lx'', comes_iff.mpr (.inr ⟨lx', turns, comes⟩), hides⟩
    · rintro ⟨lx'', comes, hides⟩
      rcases comes_iff.mp comes with rfl | ⟨lx1, turns', comes'⟩
      · obtain ⟨cur', skips', hides⟩ := hides
        obtain rfl := Except.ok.inj (skips.symm.trans skips')
        exact .inl hides
      · obtain rfl := Turn.next.inj (Turns.unique (turn_steady grant) turns turns')
        exact .inr ⟨lx'', comes', hides⟩
  · obtain ⟨last, isLast, total⟩ := counted.last
    refine ⟨last, ?_, ?_⟩
    · rw [List.getLast?_cons, isLast]
      rfl
    · rw [same, newlines_append, UInt32.ofNat_add, UInt32.ofNat_add]
      grind
  · intro none_ begins
    obtain ⟨rfl, rfl⟩ := Nat.add_eq_zero_iff.mp none_
    have total : lx'.cur.line = lx.cur.line + UInt32.ofNat (newlines text) :=
      (UInt32.add_zero _).symm.trans line
    have whole : pre ++ lx.cur.rest = pre ++ gap ++ mark ++ t.text ++ lx'.cur.rest := by
      rw [same, isText]
      simp only [List.append_assoc]
    rw [whole]
    refine .cons (fun plain => ?_) (counted.right rfl ?_)
    · rw [takes.line, total, isText, List.append_assoc (pre ++ gap ++ mark), List.take_left, begins]
      simp only [newlines_append, UInt32.ofNat_add, plain]
      grind
    · rw [total, isText, begins]
      simp only [newlines_append, UInt32.ofNat_add]
      grind

theorem loop_counted {fuel : Nat} {lx : Lexer} {toks : Toks}
    (ends : loop (Lexer.turn grant) fuel lx = some (.ok toks)) (pre : Bytes) :
    ∃ tokens starts hidden, toks.list = lx.toks.list ++ tokens ∧
      Counted grant lx pre tokens starts hidden := by
  induction fuel generalizing lx pre with
  | zero => cases ends
  | succ fuel ih =>
      rw [loop] at ends
      split at ends
      next => cases ends
      next r turns =>
        obtain rfl := Option.some.inj ends
        exact counted_end turns pre
      next lx' turns =>
        obtain ⟨gap, mark, t, takes⟩ := turn_takes turns
        obtain ⟨tokens, starts, hidden, list, counted⟩ := ih ends (pre ++ gap ++ mark ++ t.text)
        obtain ⟨starts', hidden', counted'⟩ := counted_next ⟨fuel, turns⟩ takes counted
        refine ⟨t :: tokens, starts', hidden', ?_, counted'⟩
        rw [list, takes.list, List.append_assoc]
        rfl

/-- The end is behind the whole source. -/
theorem Laid.last {pre rest : Bytes} {tokens : List Token} {starts : List Nat}
    {rel : Token → Nat → Prop} (laid : Laid pre rest tokens starts)
    (all : List.Forall₂ rel tokens starts) :
    ∃ line, tokens.getLast? = some ⟨.end_, line, []⟩ ∧ rel ⟨.end_, line, []⟩ (pre ++ rest).length := by
  induction laid with
  | end_ => exact ⟨_, rfl, (List.forall₂_cons.mp all).1⟩
  | @token pre gap mark rest t tokens starts _ _ _ _ _ ih =>
      obtain ⟨line, isLast, holds⟩ := ih (List.forall₂_cons.mp all).2
      refine ⟨line, ?_, ?_⟩
      · rw [List.getLast?_cons, isLast]
        rfl
      · simpa only [List.append_assoc] using holds

theorem newlines_take_le (src : Bytes) (n : Nat) : newlines (src.take n) ≤ newlines src :=
  (List.take_sublist n src).count_le newline

theorem toNat_ofNat_line {n : Nat} (small : n < 2 ^ 32) : (UInt32.ofNat n).toNat = n := by
  rw [UInt32.toNat_ofNat', Nat.mod_eq_of_lt small]

/-- The lines of an accepted source are right just when they can be written and no newline is
hidden. -/
theorem run_lines_iff {grant : Nat → Bool} {fuel : Nat} {src : Bytes} {toks : Toks}
    (ends : Lexer.run grant fuel src = some (.ok toks)) :
    (∃ starts, Laid [] src toks.list starts ∧ LinesRight src toks.list starts) ↔
      newlines src + 1 < 2 ^ 32 ∧
        ∀ lx, Comes (Lexer.turn grant) (Lexer.new src) lx → ¬ lx.Hides := by
  obtain ⟨tokens, starts, hidden, list, counted⟩ := loop_counted ends []
  change toks.list = tokens at list
  rw [list]
  have none_ : (∀ lx, Comes (Lexer.turn grant) (Lexer.new src) lx → ¬ lx.Hides) ↔ hidden = 0 := by
    rw [← not_exists.trans (forall_congr' fun _ => not_and), ← counted.hides, Decidable.not_not]
  rw [none_]
  constructor
  · rintro ⟨starts', laid, right⟩
    obtain ⟨line, isLast, isRight⟩ := laid.last right
    obtain ⟨line', isLast', total⟩ := counted.last
    obtain rfl := (Token.mk.inj (Option.some.inj (isLast.symm.trans isLast'))).2.1
    have exact_ : line.toNat = 1 + newlines src := by
      have isRight := isRight rfl
      rwa [List.nil_append, List.take_length] at isRight
    have fits : newlines src + 1 < 2 ^ 32 := by
      have below := line.toNat_lt
      omega
    refine ⟨fits, ?_⟩
    have few : hidden ≤ newlines src := counted.few
    have sum := congrArg UInt32.toNat total
    change (line + UInt32.ofNat hidden).toNat = (1 + UInt32.ofNat (newlines src)).toNat at sum
    rw [UInt32.toNat_add, UInt32.toNat_add, toNat_ofNat_line (by omega),
      toNat_ofNat_line (by omega), exact_, UInt32.toNat_one] at sum
    omega
  · rintro ⟨fits, rfl⟩
    refine ⟨starts, counted.laid, ?_⟩
    refine (counted.right rfl rfl).imp fun t start right plain => ?_
    have few := newlines_take_le src start
    rw [right plain, UInt32.toNat_add, UInt32.toNat_one, List.nil_append]
    change (1 + (UInt32.ofNat (newlines (src.take start))).toNat) % _ = _
    rw [toNat_ofNat_line (by omega), Nat.mod_eq_of_lt (by omega)]

def escaped : Bytes := [quote, backslash, newline, quote] ++ ascii " x"

def escapedToks : Toks :=
  ⟨[⟨.stringLiteral, 1, [quote, backslash, newline, quote]⟩, ⟨.ident, 1, ascii "x"⟩,
    ⟨.end_, 1, []⟩], 256, 3⟩

theorem escaped_lines : Lexer.run (fun _ => true) 4 escaped = some (.ok escapedToks) ∧
    ¬ ∃ starts, Laid [] escaped escapedToks.list starts ∧
      LinesRight escaped escapedToks.list starts := by
  refine ⟨by decide +kernel, ?_⟩
  rintro ⟨starts, laid, right⟩
  obtain ⟨line, isLast, isRight⟩ := laid.last right
  obtain rfl := (Token.mk.inj (Option.some.inj isLast)).2.1
  exact absurd (isRight rfl) (by decide)

/-- A text in which no byte is escaped, and no character or group begins. -/
def Simple (text : Bytes) : Prop := ∀ c ∈ text, c ≠ backslash ∧ c ≠ tick ∧ c ≠ bang

instance (text : Bytes) : Decidable (Simple text) :=
  inferInstanceAs (Decidable (∀ c ∈ text, _))

theorem Simple.suffix {text rest : Bytes} (simple : Simple text) (inside : rest <:+ text) :
    Simple rest := fun c member => simple c (inside.subset member)

theorem Simple.peek {text : Bytes} (simple : Simple text) :
    Lex.peek text 0 ≠ tick ∧ Lex.peek text 0 ≠ bang := by
  cases text with
  | nil => decide
  | cons c rest => exact (simple c (List.mem_cons_self ..)).2

theorem Simple.escapedNewlines {text : Bytes} (simple : Simple text) :
    escapedNewlines text = 0 := by
  fun_induction Lex.escapedNewlines text with
  | case1 => rfl
  | case2 => rfl
  | case3 d rest => exact absurd rfl (simple backslash (List.mem_cons_self ..)).1
  | case4 => rfl
  | case5 c d rest _ _ ih => exact ih (simple.suffix (List.suffix_cons ..))

theorem Simple.not_literalHides {rest : Bytes} (simple : Simple rest) : ¬ LiteralHides rest := by
  rintro (⟨-, hides⟩ | ⟨isTick, -⟩)
  · exact hides (simple.suffix (List.drop_suffix ..)).escapedNewlines
  · exact simple.peek.1 isTick

theorem Simple.not_hides {cur : Cursor} (simple : Simple cur.rest) : ¬ Hides cur := by
  have after := simple.suffix (List.dropWhile_suffix isIdentCont)
  rintro (literal | ⟨-, ⟨-, literal⟩ | group⟩)
  · exact simple.not_literalHides literal
  · exact after.not_literalHides literal
  · exact not_groupHides after.peek.2 group

/-- The lexer hides no newline of a simple source. -/
theorem Simple.not_lexer_hides {src : Bytes} (simple : Simple src) {lx : Lexer}
    (comes : Comes (Lexer.turn grant) (Lexer.new src) lx) : ¬ lx.Hides := by
  have inside : lx.cur.rest <:+ src := by
    induction comes with
    | start => exact List.suffix_refl _
    | turn _ turns inside =>
        obtain ⟨fuel, turns⟩ := turns
        obtain ⟨_, _, _, takes⟩ := turn_takes turns
        obtain ⟨_, _, _, passes, _⟩ := takes.lines
        exact passes.suffix.trans inside
  rintro ⟨cur, skips, hides⟩
  exact (simple.suffix ((skipTrivia_skips skips).passes.suffix.trans inside)).not_hides hides

/-- Four lines, with a string over two of them and a comment over two. -/
def spread : Bytes :=
  [97, newline, quote, 98, newline, 99, quote, 32, slash, star, newline, star, slash, 100]

def spreadToks : Toks :=
  ⟨[⟨.ident, 1, ascii "a"⟩, ⟨.stringLiteral, 3, [quote, 98, newline, 99, quote]⟩,
    ⟨.ident, 4, ascii "d"⟩, ⟨.end_, 4, []⟩], 256, 4⟩

theorem run_lines_iff_spread : ∃ starts, Laid [] spread spreadToks.list starts ∧
    LinesRight spread spreadToks.list starts := by
  have simple : Simple spread := by decide +kernel
  exact (@run_lines_iff (fun _ => true) 5 spread spreadToks (by decide +kernel)).mpr
    ⟨by decide, fun _ comes => simple.not_lexer_hides comes⟩

end Metal.Jit.Rs.Lex
