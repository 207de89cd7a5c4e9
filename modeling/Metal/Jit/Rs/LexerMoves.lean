import Metal.Jit.Rs.Lexer

namespace Metal.Jit.Rs.Lex

open Metal.Lib

/-! What each part of the lexer passes: bytes of the source, and newlines that it counts or not. -/

def newlines (text : Bytes) : Nat := text.count newline

/-- From a place to a later one; `hidden` newlines between them are not counted. -/
def Passes (a b : Cursor) (hidden : Nat) : Prop :=
  ∃ text, a.rest = text ++ b.rest ∧ hidden ≤ newlines text ∧
    b.line + UInt32.ofNat hidden = a.line + UInt32.ofNat (newlines text)

theorem newlines_append (text text' : Bytes) :
    newlines (text ++ text') = newlines text + newlines text' := List.count_append

theorem newlines_cons (c : UInt8) (text : Bytes) :
    newlines (c :: text) = newlines text + if c = newline then 1 else 0 := by
  rw [newlines, List.count_cons]
  simp only [beq_iff_eq]
  rfl

variable {p : UInt8 → Bool}

theorem newlines_zero {text : Bytes} (plain : p newline = false) (all : ∀ c ∈ text, p c = true) :
    newlines text = 0 := by
  rw [newlines, List.count_eq_zero]
  intro member
  exact Bool.noConfusion (plain.symm.trans (all _ member))

namespace Passes

variable {a b c : Cursor} {hidden hidden' : Nat}

theorem suffix (passes : Passes a b hidden) : b.rest <:+ a.rest := by
  obtain ⟨text, same, -⟩ := passes
  exact ⟨text, same.symm⟩

theorem refl (a : Cursor) : Passes a a 0 := ⟨[], rfl, Nat.le_refl _, rfl⟩

theorem trans (passes : Passes a b hidden) (passes' : Passes b c hidden') :
    Passes a c (hidden + hidden') := by
  obtain ⟨text, same, few, line⟩ := passes
  obtain ⟨text', same', few', line'⟩ := passes'
  refine ⟨text ++ text', by rw [same, same', List.append_assoc], ?_, ?_⟩
  · rw [newlines_append]
    exact Nat.add_le_add few few'
  · rw [newlines_append, UInt32.ofNat_add, UInt32.ofNat_add]
    grind

/-- A byte whose newline is counted. -/
theorem byte (d : UInt8) (rest : Bytes) (line : UInt32) :
    Passes ⟨d :: rest, line⟩ ⟨rest, lineAfter d line⟩ 0 := by
  refine ⟨[d], rfl, Nat.zero_le _, ?_⟩
  rw [newlines_cons, lineAfter]
  split
  · exact UInt32.add_zero _
  · rfl

/-- Bytes that are passed at once. -/
theorem over_ (text rest : Bytes) (line : UInt32) :
    Passes ⟨text ++ rest, line⟩ ⟨rest, line⟩ (newlines text) :=
  ⟨text, rfl, Nat.le_refl _, rfl⟩

theorem plain {text : Bytes} (none_ : newlines text = 0) (rest : Bytes) (line : UInt32) :
    Passes ⟨text ++ rest, line⟩ ⟨rest, line⟩ 0 := none_ ▸ over_ text rest line

theorem drop (rest : Bytes) (n : Nat) (line : UInt32) :
    Passes ⟨rest, line⟩ ⟨rest.drop n, line⟩ (newlines (rest.take n)) := by
  have passes := over_ (rest.take n) (rest.drop n) line
  rwa [List.take_append_drop] at passes

theorem dropWhile (plain : p newline = false) (rest : Bytes) (line : UInt32) :
    Passes ⟨rest, line⟩ ⟨rest.dropWhile p, line⟩ 0 := by
  have none_ : newlines (rest.takeWhile p) = 0 :=
    newlines_zero plain fun c member => List.mem_takeWhile_imp member
  have passes := Passes.plain none_ (rest.dropWhile p) line
  rwa [List.takeWhile_append_dropWhile] at passes

end Passes

theorem skipBlock_passes (depth : Nat) (line : UInt32) (rest : Bytes) :
    Passes ⟨rest, line⟩ (skipBlock depth line rest).2 0 := by
  fun_induction skipBlock depth line rest with
  | case1 line rest =>
      exact .refl _
  | case2 depth line =>
      exact .refl _
  | case3 depth line d =>
      exact .byte d [] line
  | case4 depth line d e rest opens ih =>
      obtain ⟨rfl, rfl⟩ := opens
      exact (Passes.plain (show newlines [slash, star] = 0 by decide) rest line).trans ih
  | case5 depth line d e rest opens closes ih =>
      obtain ⟨rfl, rfl⟩ := closes
      exact (Passes.plain (show newlines [star, slash] = 0 by decide) rest line).trans ih
  | case6 depth line d e rest opens closes ih =>
      exact (Passes.byte d (e :: rest) line).trans ih

variable {rest : Bytes}

theorem cons_of_peek {b : UInt8} (here : peek rest 0 = b) (some_ : b ≠ 0) :
    ∃ after, rest = b :: after := by
  cases rest with
  | nil => exact (some_ here.symm).elim
  | cons c after => exact ⟨after, by rw [show c = b from here]⟩

inductive Skips : Cursor → Cursor → Prop where
  | nothing (cur : Cursor) : Skips cur cur
  | byte {c : UInt8} {rest : Bytes} {line : UInt32} {cur : Cursor} : isWhite c = true →
      Skips ⟨rest, lineAfter c line⟩ cur → Skips ⟨c :: rest, line⟩ cur
  | line {rest : Bytes} {line : UInt32} {cur : Cursor} :
      Skips ⟨rest.dropWhile (· != newline), line⟩ cur → Skips ⟨slash :: slash :: rest, line⟩ cur
  | block {rest : Bytes} {line : UInt32} {cur cur' : Cursor} : skipBlock 1 line rest = (0, cur') →
      Skips cur' cur → Skips ⟨slash :: star :: rest, line⟩ cur

theorem skipTrivia_skips {line : UInt32} {cur : Cursor} (skips : skipTrivia line rest = .ok cur) :
    Skips ⟨rest, line⟩ cur := by
  induction line, rest using skipTrivia.induct with
  | case1 line =>
      rw [skipTrivia] at skips
      obtain rfl := Except.ok.inj skips
      exact .nothing _
  | case2 line rest ih =>
      rw [skipTrivia, if_pos rfl] at skips
      exact .byte (by decide) (ih skips)
  | case3 line c rest notLine blank ih =>
      rw [skipTrivia, if_neg notLine, if_pos blank] at skips
      refine .byte (by rw [isWhite, blank, Bool.true_or]) ?_
      rw [lineAfter, if_neg notLine]
      exact ih skips
  | case4 line c rest notLine notBlank comment ih =>
      rw [skipTrivia, if_neg notLine, if_neg notBlank, if_pos comment] at skips
      obtain ⟨rfl, second⟩ := comment
      obtain ⟨after, rfl⟩ := cons_of_peek second (by decide)
      exact .line (ih skips)
  | case5 line c rest notLine notBlank notComment block cur' closed ih =>
      rw [skipTrivia, if_neg notLine, if_neg notBlank, if_neg notComment, if_pos block] at skips
      obtain ⟨rfl, second⟩ := block
      obtain ⟨after, rfl⟩ := cons_of_peek second (by decide)
      split at skips
      next mid same =>
        obtain rfl : mid = cur' := (Prod.mk.inj (same.symm.trans closed)).2
        exact .block closed (ih skips)
      next => exact nomatch skips
  | case6 line c rest notLine notBlank notComment block depth cur' closed =>
      rw [skipTrivia, if_neg notLine, if_neg notBlank, if_neg notComment, if_pos block] at skips
      split at skips
      next mid same => exact nomatch (Prod.mk.inj (same.symm.trans closed)).1
      next => exact nomatch skips
  | case7 line c rest notLine notBlank notComment notBlock =>
      rw [skipTrivia, if_neg notLine, if_neg notBlank, if_neg notComment, if_neg notBlock] at skips
      obtain rfl := Except.ok.inj skips
      exact .nothing _

theorem Skips.passes {a b : Cursor} (skips : Skips a b) : Passes a b 0 := by
  induction skips with
  | nothing cur => exact .refl cur
  | @byte c rest line cur _ _ ih => exact (Passes.byte c rest line).trans ih
  | @line rest line cur _ ih =>
      have pair := Passes.plain (show newlines [slash, slash] = 0 by decide) rest line
      exact (pair.trans (.dropWhile rfl rest line)).trans ih
  | @block rest line cur cur' closed _ ih =>
      have pair := Passes.plain (show newlines [slash, star] = 0 by decide) rest line
      have inside := skipBlock_passes 1 line rest
      rw [closed] at inside
      exact (pair.trans inside).trans ih

def escapedNewlines : Bytes → Nat
  | [] => 0
  | [_] => 0
  | c :: d :: rest =>
      if c = backslash then newlines [d] + escapedNewlines rest
      else if c = quote then 0
      else escapedNewlines (d :: rest)

theorem stringBody_passes {line : UInt32} {cur : Cursor} (ends : stringBody line rest = .ok cur) :
    Passes ⟨rest, line⟩ cur (escapedNewlines rest) := by
  fun_induction stringBody line rest with
  | case1 line => exact nomatch ends
  | case2 line =>
      obtain rfl := Except.ok.inj ends
      exact .plain (show newlines [quote] = 0 by decide) [] line
  | case3 line c open_ =>
      exact nomatch ends
  | case4 line d rest ih =>
      rw [escapedNewlines, if_pos rfl]
      have pair := Passes.over_ [backslash, d] rest line
      rw [newlines_cons, if_neg (by decide), Nat.add_zero] at pair
      exact pair.trans (ih ends)
  | case5 line d rest notEscape =>
      rw [escapedNewlines, if_neg notEscape, if_pos rfl]
      obtain rfl := Except.ok.inj ends
      exact .plain (show newlines [quote] = 0 by decide) (d :: rest) line
  | case6 line c d rest notEscape open_ ih =>
      rw [escapedNewlines, if_neg notEscape, if_neg open_, ← Nat.zero_add (escapedNewlines _)]
      exact (Passes.byte c (d :: rest) line).trans (ih ends)

variable {k : Nat}

theorem newlines_take (plain : ∀ i < k, peek rest i ≠ newline) : newlines (rest.take k) = 0 := by
  induction k generalizing rest with
  | zero => rfl
  | succ k ih =>
      cases rest with
      | nil => rfl
      | cons c rest =>
          rw [List.take_succ_cons, newlines_cons,
            if_neg (show c ≠ newline from plain 0 (Nat.succ_pos k)),
            ih fun i less => plain (i + 1) (Nat.succ_lt_succ less)]

theorem Passes.peeked (plain : ∀ i < k, peek rest i ≠ newline) (line : UInt32) :
    Passes ⟨rest, line⟩ ⟨rest.drop k, line⟩ 0 :=
  newlines_take plain ▸ .drop rest k line

theorem peek_of_takeWhile {i : Nat} (inside : i < (rest.takeWhile p).length) :
    p (peek rest i) = true := by
  induction rest generalizing i with
  | nil => exact absurd inside (Nat.not_lt_zero i)
  | cons c rest ih =>
      rw [List.takeWhile_cons] at inside
      split at inside
      next holds =>
        cases i with
        | zero => exact holds
        | succ i => exact ih (Nat.lt_of_succ_lt_succ inside)
      next => exact absurd inside (Nat.not_lt_zero i)

/-- Some bytes of a run that no newline belongs to. -/
theorem Passes.run (plain : p newline = false) (few : k ≤ (rest.takeWhile p).length)
    (line : UInt32) : Passes ⟨rest, line⟩ ⟨rest.drop k, line⟩ 0 := by
  refine .peeked (fun i less same => ?_) line
  have holds := peek_of_takeWhile (Nat.lt_of_lt_of_le less few)
  rw [same, plain] at holds
  exact Bool.noConfusion holds

/-- A literal of characters is not empty, and all of it is there. -/
theorem skipCharBody_literal (literal : skipCharBody rest = .literal k) :
    0 < k ∧ k ≤ rest.length := by
  have there {i : Nat} (here : peek rest i = tick) : i < rest.length := by
    by_contra outside
    rw [peek, List.getD_eq_getElem?_getD, List.getElem?_eq_none (Nat.le_of_not_lt outside)] at here
    exact absurd here (by decide)
  rw [skipCharBody] at literal
  split at literal
  · split at literal
    next closed =>
      obtain rfl := CharBody.literal.inj literal
      exact ⟨by decide, there closed⟩
    next => exact nomatch literal
  · split at literal
    · exact nomatch literal
    · split at literal
      next closed =>
        obtain rfl := CharBody.literal.inj literal
        exact ⟨by decide, there closed.2⟩
      next =>
        split at literal
        · exact nomatch literal
        · exact nomatch literal

theorem rawBody_passes {hashes : Nat} {line : UInt32} {cur : Cursor}
    (ends : rawBody hashes line rest = .ok cur) : Passes ⟨rest, line⟩ cur 0 := by
  induction rest generalizing line with
  | nil => exact nomatch ends
  | cons c rest ih =>
      rw [rawBody] at ends
      split at ends
      next closed =>
        obtain rfl := Except.ok.inj ends
        obtain ⟨rfl, few⟩ := closed
        exact (Passes.byte quote rest line).trans (.run (by decide) few line)
      next => exact (Passes.byte c rest line).trans (ih ends)

theorem skipDigits_passes (rest : Bytes) (line : UInt32) :
    Passes ⟨rest, line⟩ ⟨skipDigits rest, line⟩ 0 := .dropWhile (by decide) rest line

theorem fraction_passes (rest : Bytes) (line : UInt32) :
    Passes ⟨rest, line⟩ ⟨(fraction rest).2, line⟩ 0 := by
  rw [fraction]
  split
  next isDot =>
    refine (Passes.peeked (fun i less => ?_) line).trans (skipDigits_passes (rest.drop 1) line)
    obtain rfl := Nat.lt_one_iff.mp less
    rw [isDot.1]
    decide
  next => exact .refl _

theorem exponent_passes (isFloat : Bool) (rest : Bytes) (line : UInt32) :
    Passes ⟨rest, line⟩ ⟨(exponent isFloat rest).2, line⟩ 0 := by
  rw [exponent]
  split
  next mark =>
    refine (Passes.peeked (fun i less => ?_) line).trans (skipDigits_passes _ line)
    match i with
    | 0 => rcases mark.1 with same | same <;> rw [same] <;> decide
    | 1 =>
        rw [exponentMark] at less
        split at less
        next sign => rcases sign with same | same <;> rw [same] <;> decide
        next => exact absurd less (by decide)
    | i + 2 =>
        rw [exponentMark] at less
        split at less <;> omega
  next => exact .refl _

theorem numberBody_passes (start : Bytes) (line : UInt32) :
    Passes ⟨start, line⟩ ⟨(numberBody start).2, line⟩ 0 := by
  rw [numberBody]
  split
  next radix =>
    refine (Passes.peeked (fun i less => ?_) line).trans (.dropWhile (by decide) _ line)
    match i with
    | 0 =>
        rw [radix.1]
        decide
    | 1 => rcases radix.2 with same | same | same <;> rw [same] <;> decide
  next =>
    exact ((skipDigits_passes start line).trans (fraction_passes _ line)).trans
      (exponent_passes _ _ line)

inductive GroupStep (n : UInt8) : GroupState → GroupState → Prop where
  | string {depth : Nat} {line : UInt32} {rest : Bytes} {cur : Cursor} :
      stringBody line rest = .ok cur →
      GroupStep n ⟨depth + 1, ⟨quote :: rest, line⟩⟩ ⟨depth + 1, cur⟩
  | literal {depth k : Nat} {line : UInt32} {rest : Bytes} :
      skipCharBody (tick :: rest) = .literal k →
      GroupStep n ⟨depth + 1, ⟨tick :: rest, line⟩⟩ ⟨depth + 1, ⟨(tick :: rest).drop k, line⟩⟩
  | refused {depth : Nat} {line : UInt32} {rest : Bytes} :
      skipCharBody (tick :: rest) = .refused →
      GroupStep n ⟨depth + 1, ⟨tick :: rest, line⟩⟩ ⟨depth + 1, ⟨tick :: rest, line⟩⟩
  | comment {depth : Nat} {line : UInt32} {rest : Bytes} {cur : Cursor} :
      skipTrivia line (slash :: slash :: rest) = .ok cur →
      GroupStep n ⟨depth + 1, ⟨slash :: slash :: rest, line⟩⟩ ⟨depth + 1, cur⟩
  | byte {depth : Nat} {c : UInt8} {line : UInt32} {rest : Bytes} : c ≠ quote →
      (c = tick → skipCharBody (c :: rest) = .other) → ¬ (c = slash ∧ peek rest 0 = slash) →
      GroupStep n ⟨depth + 1, ⟨c :: rest, line⟩⟩
        ⟨depthAfter n c (depth + 1), ⟨rest, lineAfter c line⟩⟩

variable {s' s : GroupState} {unterminated : Bytes} {n : UInt8}

theorem groupTurn_next (turns : groupTurn n unterminated s = .next s') : GroupStep n s s' := by
  obtain ⟨depth, rest, line⟩ := s
  rw [groupTurn] at turns
  cases rest with
  | nil =>
      dsimp only at turns
      split at turns
      · exact nomatch turns
      · exact nomatch turns
  | cons c rest =>
      dsimp only at turns
      cases depth with
      | zero => exact nomatch turns
      | succ depth =>
          rw [if_neg (Nat.succ_ne_zero depth)] at turns
          split at turns
          next isQuote =>
            subst isQuote
            rw [skipStringBody] at turns
            split at turns
            · exact nomatch turns
            next cur ends =>
              obtain rfl := Turn.next.inj turns
              exact .string ends
          next notQuote =>
            split at turns
            next k literal =>
              obtain rfl := Turn.next.inj turns
              split at literal
              next isTick =>
                subst isTick
                exact .literal literal
              next => exact nomatch literal
            next refused =>
              obtain rfl := Turn.next.inj turns
              split at refused
              next isTick =>
                subst isTick
                exact .refused refused
              next => exact nomatch refused
            next other =>
              split at turns
              next comment =>
                obtain ⟨rfl, second⟩ := comment
                obtain ⟨after, rfl⟩ := cons_of_peek second (by decide)
                split at turns
                · exact nomatch turns
                next cur skips =>
                  obtain rfl := Turn.next.inj turns
                  exact .comment skips
              next notComment =>
                obtain rfl := Turn.next.inj turns
                refine .byte notQuote (fun isTick => ?_) notComment
                rwa [if_pos isTick] at other

theorem groupTurn_done {cur : Cursor} (turns : groupTurn n unterminated s = .done (.ok cur)) :
    s = ⟨0, cur⟩ := by
  obtain ⟨depth, rest, line⟩ := s
  rw [groupTurn] at turns
  split at turns
  · split at turns
    next zero =>
      obtain rfl := Except.ok.inj (Turn.done.inj turns)
      exact congrArg (GroupState.mk · _) zero
    next => cases turns
  · split at turns
    next zero =>
      obtain rfl := Except.ok.inj (Turn.done.inj turns)
      exact congrArg (GroupState.mk · _) zero
    next =>
      split at turns
      · split at turns
        · cases turns
        · cases turns
      · split at turns
        · cases turns
        · cases turns
        · split at turns
          · split at turns
            · cases turns
            · cases turns
          · cases turns

/-- The literal that begins here has newlines that are not counted: behind a backslash of a
string, or as a character. -/
def LiteralHides (rest : Bytes) : Prop :=
  (peek rest 0 = quote ∧ escapedNewlines (rest.drop 1) ≠ 0) ∨
    (peek rest 0 = tick ∧ ∃ k, skipCharBody rest = .literal k ∧ newlines (rest.take k) ≠ 0)

theorem literalHides_string (rest : Bytes) :
    LiteralHides (quote :: rest) ↔ escapedNewlines rest ≠ 0 := by
  constructor
  · rintro (⟨-, hides⟩ | ⟨isTick, -⟩)
    · exact hides
    · exact absurd isTick (show quote ≠ tick by decide)
  · exact fun hides => .inl ⟨rfl, hides⟩

theorem literalHides_char (literal : skipCharBody (tick :: rest) = .literal k) :
    LiteralHides (tick :: rest) ↔ newlines ((tick :: rest).take k) ≠ 0 := by
  constructor
  · rintro (⟨isQuote, -⟩ | ⟨-, k', literal', hides⟩)
    · exact absurd isQuote (show tick ≠ quote by decide)
    · obtain rfl := CharBody.literal.inj (literal.symm.trans literal')
      exact hides
  · exact fun hides => .inr ⟨rfl, k, literal, hides⟩

theorem not_literalHides (notQuote : peek rest 0 ≠ quote)
    (notLiteral : peek rest 0 = tick → ∀ k, skipCharBody rest ≠ .literal k) :
    ¬ LiteralHides rest := by
  rintro (⟨isQuote, -⟩ | ⟨isTick, k, literal, -⟩)
  · exact notQuote isQuote
  · exact notLiteral isTick k literal

theorem GroupStep.passes (step : GroupStep n s s') :
    ∃ hidden, Passes s.cur s'.cur hidden ∧ (hidden ≠ 0 ↔ LiteralHides s.cur.rest) := by
  cases step with
  | @string depth line rest cur ends =>
      have mark := Passes.plain (show newlines [quote] = 0 by decide) rest line
      refine ⟨_, mark.trans (stringBody_passes ends), ?_⟩
      rw [literalHides_string, Nat.zero_add]
  | @literal depth k line rest literal =>
      exact ⟨_, .drop (tick :: rest) k line, (literalHides_char literal).symm⟩
  | @refused depth line rest refused =>
      refine ⟨0, .refl _, iff_of_false (absurd rfl) (not_literalHides
        (show tick ≠ quote by decide) fun _ k literal => ?_)⟩
      exact CharBody.noConfusion (refused.symm.trans literal)
  | @comment depth line rest cur skips =>
      exact ⟨0, (skipTrivia_skips skips).passes,
        iff_of_false (absurd rfl) (not_literalHides (show slash ≠ quote by decide)
          fun isTick => absurd isTick (show slash ≠ tick by decide))⟩
  | @byte depth c line rest notQuote other notComment =>
      refine ⟨0, .byte c rest line, iff_of_false (absurd rfl)
        (not_literalHides notQuote fun isTick k literal => ?_)⟩
      exact CharBody.noConfusion ((other isTick).symm.trans literal)

def Refused (s : GroupState) : Prop :=
  s.depth ≠ 0 ∧ peek s.cur.rest 0 = tick ∧ skipCharBody s.cur.rest = .refused

theorem GroupStep.shorter (step : GroupStep n s s') :
    Refused s ∨ s'.cur.rest.length < s.cur.rest.length := by
  cases step with
  | string ends => exact .inr (Nat.lt_succ_of_le (stringBody_passes ends).suffix.length_le)
  | literal literal =>
      obtain ⟨positive, inside⟩ := skipCharBody_literal literal
      refine .inr ?_
      change ((tick :: _).drop _).length < (tick :: _).length
      rw [List.length_drop]
      omega
  | refused refused => exact .inl ⟨Nat.succ_ne_zero _, rfl, refused⟩
  | @comment depth line rest cur skips =>
      refine .inr ?_
      rw [skipTrivia, if_neg (by decide), if_neg (by decide), if_pos ⟨rfl, rfl⟩] at skips
      have inside := (skipTrivia_skips skips).passes.suffix
      have shorter := (inside.trans (List.dropWhile_suffix _)).length_le
      exact Nat.lt_succ_of_le shorter
  | byte => exact .inr (Nat.lt_succ_self _)

theorem GroupStep.open_ (step : GroupStep n s s') : s.depth ≠ 0 := by
  cases step <;> exact Nat.succ_ne_zero _

variable {fuel : Nat}

/-- A group that ends hides newlines just where one of its literals does. -/
theorem group_passes {cur : Cursor}
    (ends : loop (groupLoop n unterminated) fuel s = some (.ok cur)) :
    ∃ hidden, Passes s.cur cur hidden ∧
      (hidden ≠ 0 ↔ ∃ s', Comes (groupLoop n unterminated) s s' ∧ s'.depth ≠ 0 ∧
        LiteralHides s'.cur.rest) := by
  induction fuel generalizing s with
  | zero => cases ends
  | succ fuel ih =>
      rw [loop, groupLoop] at ends
      cases turns : groupTurn n unterminated s with
      | done r =>
          rw [turns] at ends
          obtain rfl := Option.some.inj ends
          obtain rfl := groupTurn_done turns
          refine ⟨0, .refl _, iff_of_false (absurd rfl) ?_⟩
          rintro ⟨s', comes, open_, -⟩
          rcases comes_iff.mp comes with rfl | ⟨s'', ⟨_, turns'⟩, -⟩
          · exact open_ rfl
          · cases (Option.some.inj turns').symm.trans turns
      | next s' =>
          rw [turns] at ends
          have step := groupTurn_next turns
          obtain ⟨hidden, passes, here⟩ := step.passes
          obtain ⟨hidden', passes', later⟩ := ih ends
          refine ⟨hidden + hidden', passes.trans passes', ?_⟩
          have split : hidden + hidden' ≠ 0 ↔ hidden ≠ 0 ∨ hidden' ≠ 0 := by omega
          rw [split, here, later]
          constructor
          · rintro (hides | ⟨s'', comes, open_, hides⟩)
            · exact ⟨s, .start, step.open_, hides⟩
            · exact ⟨s'', comes_iff.mpr (.inr ⟨s', ⟨0, congrArg some turns⟩, comes⟩), open_, hides⟩
          · rintro ⟨s'', comes, open_, hides⟩
            rcases comes_iff.mp comes with rfl | ⟨s1, ⟨_, turns'⟩, comes'⟩
            · exact .inl hides
            · obtain rfl := Turn.next.inj (turns.symm.trans (Option.some.inj turns'))
              exact .inr ⟨s'', comes', open_, hides⟩

def operators : List (Bytes × Kind) := punct3 ++ punct2 ++ punct1.map fun c => ([c], .punct)

def Kind.isOperator (kind : Kind) : Bool := operators.any fun op => decide (op.2 = kind)

/-- What a token is read from: its text, for a raw identifier behind `r#`. -/
structure Reads (at_ : Cursor) (lexeme : Lexeme) (hidden : Nat) : Prop where
  text : ∃ mark, at_.rest = mark ++ lexeme.text ++ lexeme.cur.rest ∧
    (mark = [] ∨ mark = ascii "r#" ∧ lexeme.kind = .ident)
  some_ : lexeme.text ≠ []
  passes : Passes at_ lexeme.cur hidden
  operator : lexeme.kind.isOperator = true → lexPunct at_ = .ok lexeme

variable {at_ : Cursor}

theorem Reads.shorter {lexeme : Lexeme} {hidden : Nat} (reads : Reads at_ lexeme hidden) :
    lexeme.cur.rest.length < at_.rest.length := by
  obtain ⟨mark, same, -⟩ := reads.text
  have some_ := List.length_pos_iff.mpr reads.some_
  rw [same, List.length_append, List.length_append]
  omega

theorem upTo_text (kind : Kind) {start : Bytes} {cur : Cursor} (inside : cur.rest <:+ start)
    (shorter : cur.rest.length < start.length) :
    start = (Lexeme.upTo kind start cur).text ++ cur.rest ∧
      (Lexeme.upTo kind start cur).text ≠ [] := by
  obtain ⟨text, same⟩ := inside
  have length : start.length - cur.rest.length = text.length := by
    rw [← same, List.length_append, Nat.add_sub_cancel]
  have isText : (Lexeme.upTo kind start cur).text = text := by
    rw [Lexeme.upTo, length, ← same, List.take_left']
    rfl
  rw [isText]
  refine ⟨same.symm, ?_⟩
  rintro rfl
  rw [← same] at shorter
  exact Nat.lt_irrefl _ shorter

theorem upTo_reads {kind : Kind} {start : Bytes} {line : UInt32} {cur : Cursor} {hidden : Nat}
    (word : kind.isOperator = false) (passes : Passes ⟨start, line⟩ cur hidden)
    (shorter : cur.rest.length < start.length) :
    Reads ⟨start, line⟩ (.upTo kind start cur) hidden :=
  have ⟨same, some_⟩ := upTo_text kind passes.suffix shorter
  ⟨⟨[], same, .inl rfl⟩, some_, passes, fun operator => absurd (word.symm.trans operator) nofun⟩

/-- Passing a run that holds here leaves less. -/
theorem dropWhile_shorter (some_ : rest ≠ []) (here : p (peek rest 0) = true) :
    (rest.dropWhile p).length < rest.length := by
  cases rest with
  | nil => exact absurd rfl some_
  | cons c rest =>
      rw [List.dropWhile_cons, if_pos (show p c = true from here)]
      exact Nat.lt_succ_of_le (List.dropWhile_suffix p).length_le

theorem some_of_start (zero : p 0 = false) (here : p (peek rest 0) = true) : rest ≠ [] := by
  rintro rfl
  exact Bool.noConfusion (zero.symm.trans here)

theorem isIdentCont_of_start {b : UInt8} (start : isIdentStart b = true) : isIdentCont b = true := by
  rw [isIdentCont]
  rw [isIdentStart] at start
  rw [start, Bool.true_or]

theorem lexNumber_reads {lexeme : Lexeme} (digit : isDigit (peek at_.rest 0) = true)
    (lexed : lexNumber at_ = .ok lexeme) : Reads at_ lexeme 0 := by
  obtain ⟨start, line⟩ := at_
  have some_ : start ≠ [] := some_of_start (by decide) digit
  rw [lexNumber] at lexed
  dsimp only at lexed
  split at lexed
  next =>
    obtain rfl := Except.ok.inj lexed
    have passes := (numberBody_passes start line).trans
      (.dropWhile (show isIdentCont newline = false by decide) _ line)
    have word :
        (if (numberBody start).1 then Kind.floatLiteral else .intLiteral).isOperator = false := by
      split <;> decide
    refine upTo_reads word passes (Nat.lt_of_le_of_lt (List.dropWhile_suffix _).length_le ?_)
    rw [numberBody]
    split
    next =>
      refine Nat.lt_of_le_of_lt (List.dropWhile_suffix _).length_le ?_
      rw [List.length_drop]
      have positive := List.length_pos_iff.mpr some_
      omega
    next =>
      have fewer : (skipDigits start).length < start.length :=
        dropWhile_shorter some_ (by rw [digit, Bool.true_or])
      have fraction_ := (fraction_passes (skipDigits start) line).suffix.length_le
      have exponent_ := (exponent_passes (fraction (skipDigits start)).1
        (fraction (skipDigits start)).2 line).suffix.length_le
      exact Nat.lt_of_le_of_lt exponent_ (Nat.lt_of_le_of_lt fraction_ fewer)
  next => exact nomatch lexed

theorem lexPunct_reads {lexeme : Lexeme} (some_ : at_.rest ≠ [])
    (lexed : lexPunct at_ = .ok lexeme) : Reads at_ lexeme 0 := by
  obtain ⟨rest, line⟩ := at_
  have lexed' := lexed
  rw [lexPunct] at lexed
  split at lexed
  next op kind found =>
    obtain rfl := Except.ok.inj lexed
    have member := List.mem_of_find?_eq_some found
    have isPrefix := List.find?_some found
    obtain ⟨after, rfl⟩ := List.isPrefixOf_iff_prefix.mp isPrefix
    have plain : ∀ p ∈ punct3 ++ punct2, p.1 ≠ [] ∧ newlines p.1 = 0 := by decide
    obtain ⟨notEmpty, none_⟩ := plain _ member
    dsimp only at lexed' ⊢
    rw [List.drop_left] at lexed' ⊢
    exact ⟨⟨[], rfl, .inl rfl⟩, notEmpty, .plain none_ after line, fun _ => lexed'⟩
  next =>
    dsimp only at lexed
    split at lexed
    next isPunct =>
      obtain rfl := Except.ok.inj lexed
      cases rest with
      | nil => exact absurd rfl some_
      | cons c rest =>
          have plain : ∀ c ∈ punct1, newlines [c] = 0 := by decide +kernel
          exact ⟨⟨[], rfl, .inl rfl⟩, List.cons_ne_nil _ _,
            .plain (plain c (List.contains_iff_mem.mp isPunct)) rest line, fun _ => lexed'⟩
    next => exact nomatch lexed

section Literals

variable {kind : Kind} {start : Bytes} {line : UInt32} {cur : Cursor} {lexeme : Lexeme}

theorem lexString_reads (word : kind.isOperator = false) (passes : Passes ⟨start, line⟩ cur 0)
    (isQuote : peek cur.rest 0 = quote)
    (lexed : lexString kind start cur = .ok lexeme) :
    ∃ hidden, Reads ⟨start, line⟩ lexeme hidden ∧ (hidden ≠ 0 ↔ LiteralHides cur.rest) := by
  obtain ⟨after, same⟩ := cons_of_peek isQuote (by decide)
  obtain ⟨rest, curLine⟩ := cur
  obtain rfl : rest = quote :: after := same
  rw [lexString, skipStringBody] at lexed
  split at lexed
  next => exact nomatch lexed
  next cur' ends =>
    obtain rfl := Except.ok.inj lexed
    have ends : stringBody curLine after = .ok cur' := ends
    have mark := Passes.plain (show newlines [quote] = 0 by decide) after curLine
    have body := stringBody_passes ends
    have all : Passes ⟨start, line⟩ cur' (escapedNewlines after) := by
      simpa using (passes.trans mark).trans body
    have shorter := Nat.lt_succ_of_le body.suffix.length_le
    exact ⟨_, upTo_reads word all (Nat.lt_of_lt_of_le shorter passes.suffix.length_le),
      (literalHides_string after).symm⟩

theorem lexChar_reads (word : kind.isOperator = false) (passes : Passes ⟨start, line⟩ cur 0)
    (isTick : peek cur.rest 0 = tick)
    (lexed : lexChar kind start cur (skipCharBody cur.rest) = some (.ok lexeme)) :
    ∃ hidden, Reads ⟨start, line⟩ lexeme hidden ∧ (hidden ≠ 0 ↔ LiteralHides cur.rest) := by
  obtain ⟨after, same⟩ := cons_of_peek isTick (by decide)
  obtain ⟨rest, curLine⟩ := cur
  obtain rfl : rest = tick :: after := same
  cases body : skipCharBody (tick :: after) with
  | other | refused =>
      rw [body] at lexed
      exact nomatch lexed
  | literal k =>
      rw [body] at lexed
      obtain rfl := Except.ok.inj (Option.some.inj lexed)
      obtain ⟨positive, inside⟩ := skipCharBody_literal body
      have shorter : ((tick :: after).drop k).length < (tick :: after).length := by
        rw [List.length_drop]
        omega
      refine ⟨_, upTo_reads word (passes.trans (.drop (tick :: after) k curLine))
        (Nat.lt_of_lt_of_le shorter passes.suffix.length_le), ?_⟩
      rw [literalHides_char body, Nat.zero_add]

theorem lexRawString_reads {isByte : Bool} (passes : Passes ⟨start, line⟩ cur 0)
    (shorter : cur.rest.length < start.length)
    (lexed : lexRawString start cur isByte = .ok lexeme) : Reads ⟨start, line⟩ lexeme 0 := by
  rw [lexRawString] at lexed
  split at lexed
  next => exact nomatch lexed
  next isQuote =>
    split at lexed
    next => exact nomatch lexed
    next cur' ends =>
      obtain rfl := Except.ok.inj lexed
      have few : _ ≤ (cur.rest.takeWhile (· == hash)).length := Nat.le_refl _
      have hashes := Passes.run (by decide) few cur.line
      have mark : Passes _ ⟨(cur.rest.drop _).drop 1, cur.line⟩ 0 := Passes.peeked (fun i less => by
        obtain rfl := Nat.lt_one_iff.mp less
        rw [Decidable.not_not.mp isQuote]
        decide) cur.line
      have body := rawBody_passes ends
      have inside := ((hashes.trans mark).trans body).suffix.length_le
      exact upTo_reads (by cases isByte <;> decide) (((passes.trans hashes).trans mark).trans body)
        (Nat.lt_of_le_of_lt inside shorter)

end Literals

theorem lexLifetime_reads {lexeme : Lexeme} (isTick : peek at_.rest 0 = tick)
    (lexed : lexLifetime at_ = .ok lexeme) : Reads at_ lexeme 0 := by
  obtain ⟨after, same⟩ := cons_of_peek isTick (by decide)
  obtain ⟨rest, line⟩ := at_
  obtain rfl : rest = tick :: after := same
  rw [lexLifetime] at lexed
  split at lexed
  next =>
    obtain rfl := Except.ok.inj lexed
    have mark := Passes.plain (show newlines [tick] = 0 by decide) after line
    exact upTo_reads (by decide) (mark.trans (.dropWhile (by decide) after line))
      (Nat.lt_succ_of_le (List.dropWhile_suffix isIdentCont).length_le)
  next => exact nomatch lexed

theorem defBody_suffix {body : Bytes} (found : defBody rest = some body) : body <:+ rest := by
  rw [defBody] at found
  split at found
  next =>
    obtain rfl := Option.some.inj found
    exact (((List.drop_suffix 1 _).trans (List.dropWhile_suffix _)).trans
      (List.dropWhile_suffix _)).trans (List.dropWhile_suffix _)
  next => exact nomatch found

theorem groupAt_spec {word body : Bytes}
    (found : groupAt word rest = some (n, unterminated, body)) :
    body <:+ rest ∧ peek rest 0 = bang := by
  rw [groupAt] at found
  split at found
  next body' isDef =>
    obtain rfl := (Prod.mk.inj (Prod.mk.inj (Option.some.inj found)).2).2
    split at isDef
    next head => exact ⟨(defBody_suffix isDef).trans (List.drop_suffix 1 rest), head.2⟩
    next => exact nomatch isDef
  next =>
    split at found
    next head =>
      obtain rfl := (Prod.mk.inj (Prod.mk.inj (Option.some.inj found)).2).2
      exact ⟨List.drop_suffix 2 rest, head.1⟩
    next => exact nomatch found

/-- A macro's group that begins behind a word: a newline before its bracket, or one that a
literal in it hides. -/
def GroupHides (word rest : Bytes) (line : UInt32) : Prop :=
  ∃ n unterminated body, groupAt word rest = some (n, unterminated, body) ∧
    (newlines (rest.take (rest.length - body.length)) ≠ 0 ∨
      ∃ s, Comes (groupLoop n unterminated) ⟨1, ⟨body, line⟩⟩ s ∧ s.depth ≠ 0 ∧
        LiteralHides s.cur.rest)

def Hides (at_ : Cursor) : Prop :=
  LiteralHides at_.rest ∨ isIdentStart (peek at_.rest 0) = true ∧
    ((at_.rest.takeWhile isIdentCont = ascii "b" ∧ LiteralHides (at_.rest.dropWhile isIdentCont)) ∨
      GroupHides (at_.rest.takeWhile isIdentCont) (at_.rest.dropWhile isIdentCont) at_.line)

theorem lexWord_reads {start : Bytes} {line : UInt32} {lexeme : Lexeme}
    (passes : Passes ⟨start, line⟩ ⟨rest, line⟩ 0) (shorter : rest.length < start.length)
    (lexed : lexWord fuel start ⟨rest, line⟩ = some (.ok lexeme)) :
    ∃ hidden, Reads ⟨start, line⟩ lexeme hidden ∧
      (hidden ≠ 0 ↔ GroupHides (start.takeWhile isIdentCont) rest line) := by
  rw [lexWord] at lexed
  cases found : groupAt (start.takeWhile isIdentCont) rest with
  | none =>
      rw [found] at lexed
      obtain rfl := Except.ok.inj (Option.some.inj lexed)
      refine ⟨0, upTo_reads (by decide) passes shorter, iff_of_false (absurd rfl) ?_⟩
      rintro ⟨n, unterminated, body, found', -⟩
      exact nomatch found.symm.trans found'
  | some g =>
      obtain ⟨n, unterminated, body⟩ := g
      rw [found] at lexed
      obtain ⟨result, ends, closed⟩ := Option.map_eq_some_iff.mp lexed
      cases result with
      | error failure => exact nomatch closed
      | ok cur =>
          obtain rfl := Except.ok.inj closed
          obtain ⟨hidden, inner, hides⟩ := group_passes ends
          have inside := (groupAt_spec found).1
          have head := Passes.drop rest (rest.length - body.length) line
          rw [← List.suffix_iff_eq_drop.mp inside] at head
          refine ⟨_, upTo_reads (by decide) ((passes.trans head).trans inner) (Nat.lt_of_le_of_lt
            (Nat.le_trans inner.suffix.length_le inside.length_le) shorter), ?_⟩
          have split (a b : Nat) : 0 + a + b ≠ 0 ↔ a ≠ 0 ∨ b ≠ 0 := by omega
          rw [split, hides]
          constructor
          · exact fun some_ => ⟨n, unterminated, body, found, some_⟩
          · rintro ⟨n', unterminated', body', found', some_⟩
            obtain ⟨rfl, rest'⟩ := Prod.mk.inj (Option.some.inj (found.symm.trans found'))
            obtain ⟨rfl, rfl⟩ := Prod.mk.inj rest'
            exact some_

theorem hides_start {start : Bytes} {line : UInt32} (isStart : isIdentStart (peek start 0) = true) :
    Hides ⟨start, line⟩ ↔
      (start.takeWhile isIdentCont = ascii "b" ∧ LiteralHides (start.dropWhile isIdentCont)) ∨
        GroupHides (start.takeWhile isIdentCont) (start.dropWhile isIdentCont) line := by
  refine ⟨fun hides => (hides.resolve_left (not_literalHides (fun isQuote => ?_)
    fun isTick => ?_)).2, fun hides => .inr ⟨isStart, hides⟩⟩
  · change peek start 0 = quote at isQuote
    rw [isQuote] at isStart
    exact absurd isStart (by decide)
  · change peek start 0 = tick at isTick
    rw [isTick] at isStart
    exact absurd isStart (by decide)

theorem not_groupHides {word : Bytes} {line : UInt32} (other : peek rest 0 ≠ bang) :
    ¬ GroupHides word rest line :=
  fun ⟨_, _, _, found, _⟩ => other (groupAt_spec found).2

theorem lexIdent_reads {lexeme : Lexeme} (isStart : isIdentStart (peek at_.rest 0) = true)
    (lexed : lexIdent fuel at_ = some (.ok lexeme)) :
    ∃ hidden, Reads at_ lexeme hidden ∧ (hidden ≠ 0 ↔ Hides at_) := by
  obtain ⟨start, line⟩ := at_
  change isIdentStart (peek start 0) = true at isStart
  have word : Passes ⟨start, line⟩ ⟨start.dropWhile isIdentCont, line⟩ 0 :=
    .dropWhile (by decide) start line
  have shorter : (start.dropWhile isIdentCont).length < start.length :=
    dropWhile_shorter (some_of_start (by decide) isStart) (isIdentCont_of_start isStart)
  rw [lexIdent] at lexed
  dsimp only at lexed
  rw [hides_start isStart]
  have parts : start.takeWhile isIdentCont ++ start.dropWhile isIdentCont = start :=
    List.takeWhile_append_dropWhile
  generalize isName : start.takeWhile isIdentCont = name at *
  generalize start.dropWhile isIdentCont = after at *
  have raw {other : Bytes} (isOther : name = other) (differs : other ≠ ascii "b")
      (mark : peek after 0 = quote ∨ peek after 0 = hash) :
      ¬ ((name = ascii "b" ∧ LiteralHides after) ∨ GroupHides name after line) := by
    rintro (⟨isB, -⟩ | group)
    · exact differs (isOther.symm.trans isB)
    · refine not_groupHides ?_ group
      rcases mark with same | same <;> rw [same] <;> decide
  have byte (isB : name = ascii "b") (other : peek after 0 ≠ bang) :
      LiteralHides after ↔
        (name = ascii "b" ∧ LiteralHides after) ∨ GroupHides name after line :=
    ⟨fun hides => .inl ⟨isB, hides⟩, fun hides => (hides.resolve_right (not_groupHides other)).2⟩
  split at lexed
  next isRaw =>
    have plain := iff_of_false (absurd (rfl : 0 = 0)) (raw isRaw.1 (by decide) isRaw.2)
    split at lexed
    next ident =>
      obtain rfl := Except.ok.inj (Option.some.inj lexed)
      obtain ⟨id, rfl⟩ := cons_of_peek ident.1 (by decide)
      have idWord : Passes ⟨id, line⟩ ⟨id.dropWhile isIdentCont, line⟩ 0 :=
        .dropWhile (by decide) id line
      have idStart : isIdentStart (peek id 0) = true := ident.2.2
      have idShorter : (id.dropWhile isIdentCont).length < id.length :=
        dropWhile_shorter (some_of_start (by decide) idStart) (isIdentCont_of_start idStart)
      obtain ⟨same, some_⟩ := upTo_text .ident idWord.suffix idShorter
      have mark := Passes.plain (show newlines [hash] = 0 by decide) id line
      refine ⟨0, ⟨⟨ascii "r#", ?_, .inr ⟨rfl, rfl⟩⟩, some_, (word.trans mark).trans idWord,
        fun operator => absurd (show Kind.ident.isOperator = true from operator) (by decide)⟩, plain⟩
      have isMarked : start = ascii "r#" ++ id := by
        rw [← parts, isRaw.1]
        rfl
      rw [List.append_assoc]
      exact isMarked.trans (congrArg (ascii "r#" ++ ·) same)
    next => exact ⟨0, lexRawString_reads word shorter (Option.some.inj lexed), plain⟩
  next =>
    split at lexed
    next isRaw =>
      exact ⟨0, lexRawString_reads word shorter (Option.some.inj lexed),
        iff_of_false (absurd rfl) (raw isRaw.1 (by decide) isRaw.2)⟩
    next =>
      split at lexed
      next isString =>
        rw [← byte isString.1 (by rw [isString.2]; decide)]
        exact lexString_reads (by decide) word isString.2 (Option.some.inj lexed)
      next notString =>
        split at lexed
        next lexeme' taken =>
          split at taken
          next isChar =>
            rw [← byte isChar.1 (by rw [isChar.2]; decide)]
            exact lexChar_reads (by decide) word isChar.2 (taken.trans lexed)
          next => exact nomatch taken
        next other =>
          have notByte : ¬ (name = ascii "b" ∧ LiteralHides after) := by
            rintro ⟨isB, hides⟩
            refine not_literalHides (fun isQuote => notString ⟨isB, isQuote⟩)
              (fun isTick k literal => ?_) hides
            rw [if_pos ⟨isB, isTick⟩, literal] at other
            exact nomatch other
          rw [or_iff_right notByte, ← isName]
          exact lexWord_reads word shorter lexed

/-- Every token is read from where it begins, and newlines are lost where it hides them. -/
theorem lexToken_reads {lexeme : Lexeme} (some_ : at_.rest ≠ [])
    (lexed : lexToken fuel at_ = some (.ok lexeme)) :
    ∃ hidden, Reads at_ lexeme hidden ∧ (hidden ≠ 0 ↔ Hides at_) := by
  have hides (notStart : ¬ isIdentStart (peek at_.rest 0) = true) :
      Hides at_ ↔ LiteralHides at_.rest :=
    or_iff_left fun start => notStart start.1
  rw [lexToken] at lexed
  split at lexed
  next isStart => exact lexIdent_reads isStart lexed
  next notStart =>
    rw [hides notStart]
    split at lexed
    next digit =>
      refine ⟨0, lexNumber_reads digit (Option.some.inj lexed), iff_of_false (absurd rfl)
        (not_literalHides (fun isQuote => ?_) fun isTick => ?_)⟩
      · rw [isQuote] at digit
        exact absurd digit (by decide)
      · rw [isTick] at digit
        exact absurd digit (by decide)
    next =>
      split at lexed
      next isQuote => exact lexString_reads (by decide) (.refl _) isQuote (Option.some.inj lexed)
      next notQuote =>
        split at lexed
        next isTick =>
          split at lexed
          next lexeme' taken => exact lexChar_reads (by decide) (.refl _) isTick (taken.trans lexed)
          next other =>
            refine ⟨0, lexLifetime_reads isTick (Option.some.inj lexed), iff_of_false (absurd rfl)
              (not_literalHides notQuote fun _ k literal => ?_)⟩
            rw [literal] at other
            exact nomatch other
        next notTick =>
          exact ⟨0, lexPunct_reads some_ (Option.some.inj lexed), iff_of_false (absurd rfl)
            (not_literalHides notQuote fun isTick => absurd isTick notTick)⟩

end Metal.Jit.Rs.Lex
