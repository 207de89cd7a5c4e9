import Metal.Jit.Rs.LexerMoves

namespace Metal.Jit.Rs.Lex

open Metal.Lib

/-! The turns of the lexer's main loop, and when the loop ends: a macro's group must not come to
a tick that is refused, for the loop over a group does not see the refusal. -/

variable {fuel : Nat} {grant : Nat → Bool}

theorem turn_next {lx lx' : Lexer} (turns : Lexer.turn grant fuel lx = some (.next lx')) :
    ∃ cur lexeme, skipTrivia lx.cur.line lx.cur.rest = .ok cur ∧ cur.rest ≠ [] ∧
      lexToken fuel cur = some (.ok lexeme) ∧ push grant lx.toks lexeme = .ok lx'.toks ∧
      lx'.cur = lexeme.cur := by
  rw [Lexer.turn] at turns
  split at turns
  next => exact nomatch turns
  next cur skips =>
    split at turns
    next => split at turns <;> exact nomatch turns
    next some_ =>
      split at turns
      next => exact nomatch turns
      next =>
        split at turns
        next => exact nomatch turns
        next => exact nomatch turns
        next lexeme lexed =>
          split at turns
          next => exact nomatch turns
          next toks pushed =>
            obtain rfl := Turn.next.inj (Option.some.inj turns)
            exact ⟨cur, lexeme, skips, some_, lexed, pushed, rfl⟩

theorem turn_done {lx : Lexer} {toks : Toks}
    (turns : Lexer.turn grant fuel lx = some (.done (.ok toks))) :
    ∃ cur, skipTrivia lx.cur.line lx.cur.rest = .ok cur ∧ cur.rest = [] ∧
      lx.toks.push grant ⟨.end_, cur.line, []⟩ = some toks := by
  rw [Lexer.turn] at turns
  split at turns
  next => exact nomatch turns
  next cur skips =>
    split at turns
    next empty =>
      split at turns
      next => exact nomatch turns
      next toks' pushed =>
        obtain rfl := Except.ok.inj (Turn.done.inj (Option.some.inj turns))
        exact ⟨cur, skips, empty, pushed⟩
    next =>
      split at turns
      next => exact nomatch turns
      next =>
        split at turns
        next => exact nomatch turns
        next => exact nomatch turns
        next => split at turns <;> exact nomatch turns

theorem turn_shorter {lx lx' : Lexer} (turns : Turns (Lexer.turn grant) lx (.next lx')) :
    lx'.cur.rest.length < lx.cur.rest.length := by
  obtain ⟨fuel, turns⟩ := turns
  obtain ⟨cur, lexeme, skips, some_, lexed, -, isCur⟩ := turn_next turns
  obtain ⟨hidden, reads, -⟩ := lexToken_reads some_ lexed
  rw [isCur]
  exact Nat.lt_of_lt_of_le reads.shorter (skipTrivia_skips skips).passes.suffix.length_le

theorem groupLoop_steady (n : UInt8) (unterminated : Bytes) : Steady (groupLoop n unterminated) :=
  .of_total _

theorem lexWord_steady {fuel' : Nat} (more : fuel ≤ fuel') {start : Bytes} {cur : Cursor}
    {r : Except Failure Lexeme} (lexed : lexWord fuel start cur = some r) :
    lexWord fuel' start cur = some r := by
  rw [lexWord] at lexed ⊢
  cases found : groupAt (start.takeWhile isIdentCont) cur.rest with
  | none =>
      rw [found] at lexed
      exact lexed
  | some g =>
      rw [found] at lexed
      obtain ⟨result, ends, closed⟩ := Option.map_eq_some_iff.mp lexed
      exact Option.map_eq_some_iff.mpr ⟨result, (groupLoop_steady _ _).loop more ends, closed⟩

theorem lexToken_steady {fuel' : Nat} (more : fuel ≤ fuel') {at_ : Cursor}
    {r : Except Failure Lexeme} (lexed : lexToken fuel at_ = some r) :
    lexToken fuel' at_ = some r := by
  rw [lexToken] at lexed ⊢
  split at lexed
  next isStart =>
    rw [if_pos isStart]
    rw [lexIdent] at lexed ⊢
    split at lexed
    next isRaw => rwa [if_pos isRaw]
    next notRaw =>
      rw [if_neg notRaw]
      split at lexed
      next isRaw => rwa [if_pos isRaw]
      next notRaw =>
        rw [if_neg notRaw]
        split at lexed
        next isString => rwa [if_pos isString]
        next notString =>
          rw [if_neg notString]
          split at lexed
          next => exact lexed
          next => exact lexWord_steady more lexed
  next notStart => rwa [if_neg notStart]

theorem turn_steady (grant : Nat → Bool) : Steady (Lexer.turn grant) := by
  intro fuel fuel' lx t more turns
  rw [Lexer.turn] at turns ⊢
  cases skips : skipTrivia lx.cur.line lx.cur.rest with
  | error failure =>
      rw [skips] at turns
      exact turns
  | ok cur =>
      rw [skips] at turns
      dsimp only at turns ⊢
      split at turns
      next empty => rwa [if_pos empty]
      next some_ =>
        rw [if_neg some_]
        split at turns
        next full => rwa [if_pos full]
        next room =>
          rw [if_neg room]
          cases lexed : lexToken fuel cur with
          | none =>
              rw [lexed] at turns
              exact nomatch turns
          | some r =>
              rw [lexed] at turns
              rw [lexToken_steady more lexed]
              exact turns

theorem groupTurn_refused {n : UInt8} {unterminated : Bytes} {s : GroupState}
    (refused : Refused s) : groupTurn n unterminated s = .next s := by
  obtain ⟨depth, rest, line⟩ := s
  obtain ⟨open_, isTick, body⟩ := refused
  obtain ⟨after, rfl⟩ := cons_of_peek isTick (by decide)
  rw [groupTurn]
  dsimp only
  rw [if_neg open_, if_neg (by decide), if_pos rfl, body]

theorem group_ends_iff {n : UInt8} {unterminated : Bytes} {s : GroupState} :
    (∃ r, Ends (groupLoop n unterminated) s r) ↔
      ∀ s', Comes (groupLoop n unterminated) s s' → ¬ Refused s' := by
  rw [ends_iff (groupLoop_steady n unterminated) fun s => s.cur.rest.length]
  · constructor
    · intro changes s' comes refused
      obtain ⟨t, ⟨fuel, turns⟩, differs⟩ := changes s' comes
      exact differs ((Option.some.inj turns).symm.trans (groupTurn_refused refused))
    · intro passed s' comes
      refine ⟨_, ⟨0, rfl⟩, fun same => ?_⟩
      rcases (groupTurn_next same).shorter with refused | less
      · exact passed s' comes refused
      · exact Nat.lt_irrefl _ less
  · rintro s s' ⟨fuel, turns⟩
    have turns := Option.some.inj turns
    rcases (groupTurn_next turns).shorter with refused | less
    · exact .inl (Turn.next.inj (turns.symm.trans (groupTurn_refused refused)))
    · exact .inr less

/-- The word that begins here has a macro's group in which the loop stays at a refused tick. -/
def StuckAt (at_ : Cursor) : Prop :=
  isIdentStart (peek at_.rest 0) = true ∧ ∃ n unterminated body,
    groupAt (at_.rest.takeWhile isIdentCont) (at_.rest.dropWhile isIdentCont) =
      some (n, unterminated, body) ∧
    ∃ s, Comes (groupLoop n unterminated) ⟨1, ⟨body, at_.line⟩⟩ s ∧ Refused s

theorem lexToken_word {at_ : Cursor} (isStart : isIdentStart (peek at_.rest 0) = true)
    (isBang : peek (at_.rest.dropWhile isIdentCont) 0 = bang) (fuel : Nat) :
    lexToken fuel at_ = lexWord fuel at_.rest ⟨at_.rest.dropWhile isIdentCont, at_.line⟩ := by
  have other {b : UInt8} (differs : b ≠ bang) : peek (at_.rest.dropWhile isIdentCont) 0 ≠ b := by
    rw [isBang]
    exact differs.symm
  have notQuote := other (show quote ≠ bang by decide)
  have notHash := other (show hash ≠ bang by decide)
  have notTick := other (show tick ≠ bang by decide)
  rw [lexToken, if_pos isStart, lexIdent]
  simp only [notQuote, notHash, notTick, or_self, and_false, if_false]

theorem lexToken_ends_iff (at_ : Cursor) :
    (∃ fuel r, lexToken fuel at_ = some r) ↔ ¬ StuckAt at_ := by
  constructor
  · rintro ⟨fuel, r, lexed⟩ ⟨isStart, n, unterminated, body, found, s, comes, refused⟩
    rw [lexToken_word isStart (groupAt_spec found).2, lexWord, found] at lexed
    obtain ⟨result, ends, -⟩ := Option.map_eq_some_iff.mp lexed
    exact group_ends_iff.mp ⟨result, fuel, ends⟩ s comes refused
  · intro free
    by_cases isStart : isIdentStart (peek at_.rest 0) = true
    · cases found : groupAt (at_.rest.takeWhile isIdentCont) (at_.rest.dropWhile isIdentCont) with
      | some g =>
          obtain ⟨n, unterminated, body⟩ := g
          have passed : ∀ s, Comes (groupLoop n unterminated) ⟨1, ⟨body, at_.line⟩⟩ s →
              ¬ Refused s := fun s comes refused =>
            free ⟨isStart, n, unterminated, body, found, s, comes, refused⟩
          obtain ⟨result, fuel, ends⟩ := group_ends_iff.mpr passed
          refine ⟨fuel, closedGroup at_.rest result, ?_⟩
          rw [lexToken_word isStart (groupAt_spec found).2, lexWord, found]
          exact Option.map_eq_some_iff.mpr ⟨result, ends, rfl⟩
      | none =>
          refine ⟨0, ?_⟩
          rw [lexToken, if_pos isStart, lexIdent]
          dsimp only
          split
          · split <;> exact ⟨_, rfl⟩
          · split
            · exact ⟨_, rfl⟩
            · split
              · exact ⟨_, rfl⟩
              · split
                · exact ⟨_, rfl⟩
                · rw [lexWord, found]
                  exact ⟨_, rfl⟩
    · refine ⟨0, ?_⟩
      rw [lexToken, if_neg isStart]
      split
      · exact ⟨_, rfl⟩
      · split
        · exact ⟨_, rfl⟩
        · split
          · split <;> exact ⟨_, rfl⟩
          · exact ⟨_, rfl⟩

/-- Behind the trivia here stands a word whose group the lexer does not leave. -/
def Lexer.Stuck (lx : Lexer) : Prop :=
  ∃ cur, skipTrivia lx.cur.line lx.cur.rest = .ok cur ∧ lx.toks.n < maxToks ∧ StuckAt cur

theorem turn_ends_iff (grant : Nat → Bool) (lx : Lexer) :
    (∃ t, Turns (Lexer.turn grant) lx t) ↔ ¬ lx.Stuck := by
  have some_ {cur : Cursor} (stuck : StuckAt cur) : cur.rest ≠ [] :=
    some_of_start (by decide) stuck.1
  constructor
  · rintro ⟨t, fuel, turns⟩ ⟨cur, skips, room, stuck⟩
    rw [Lexer.turn, skips] at turns
    dsimp only at turns
    rw [if_neg (some_ stuck), if_neg (Nat.not_le_of_lt room)] at turns
    cases lexed : lexToken fuel cur with
    | none =>
        rw [lexed] at turns
        exact nomatch turns
    | some r => exact (lexToken_ends_iff cur).mp ⟨fuel, r, lexed⟩ stuck
  · intro free
    cases skips : skipTrivia lx.cur.line lx.cur.rest with
    | error failure =>
        refine ⟨.done (.error failure), 0, ?_⟩
        rw [Lexer.turn, skips]
    | ok cur =>
        suffices some_ : ∃ fuel t, Lexer.turn grant fuel lx = some t by
          obtain ⟨fuel, t, turns⟩ := some_
          exact ⟨t, fuel, turns⟩
        by_cases stuck : StuckAt cur
        · have full : maxToks ≤ lx.toks.n :=
            Nat.le_of_not_lt fun room => free ⟨cur, skips, room, stuck⟩
          refine ⟨0, ?_⟩
          rw [Lexer.turn, skips]
          dsimp only
          rw [if_neg (some_ stuck), if_pos full]
          exact ⟨_, rfl⟩
        · obtain ⟨fuel, r, lexed⟩ := (lexToken_ends_iff cur).mpr stuck
          refine ⟨fuel, ?_⟩
          rw [Lexer.turn, skips]
          dsimp only
          rw [lexed]
          split
          · split <;> exact ⟨_, rfl⟩
          · split
            · exact ⟨_, rfl⟩
            · split
              next same => exact nomatch same
              next => exact ⟨_, rfl⟩
              next => split <;> exact ⟨_, rfl⟩

/-- The lexer ends, whatever the arena gives, just when no macro's group that it comes to has a
tick that is refused. -/
theorem run_ends_iff (grant : Nat → Bool) (src : Bytes) :
    (∃ fuel r, Lexer.run grant fuel src = some r) ↔
      ∀ lx, Comes (Lexer.turn grant) (Lexer.new src) lx → ¬ lx.Stuck := by
  have ends : (∃ fuel r, Lexer.run grant fuel src = some r) ↔
      ∃ r, Ends (Lexer.turn grant) (Lexer.new src) r :=
    ⟨fun ⟨fuel, r, same⟩ => ⟨r, fuel, same⟩, fun ⟨r, fuel, same⟩ => ⟨fuel, r, same⟩⟩
  rw [ends, ends_iff (turn_steady grant) (fun lx => lx.cur.rest.length)
    fun lx lx' turns => .inr (turn_shorter turns)]
  refine forall_congr' fun lx => imp_congr_right fun _ => ?_
  rw [← turn_ends_iff grant lx]
  refine ⟨fun ⟨t, turns, _⟩ => ⟨t, turns⟩, fun ⟨t, turns⟩ => ⟨t, turns, ?_⟩⟩
  rintro rfl
  exact Nat.lt_irrefl _ (turn_shorter turns)

/-- `m!(` and a tick, a backslash and two letters. -/
def endless : Bytes := ascii "m!(" ++ [tick, backslash] ++ ascii "ab"

theorem endless_hangs : ¬ ∃ fuel r, Lexer.run (fun _ => true) fuel endless = some r := by
  rintro ⟨fuel, r, ends⟩
  have stuck : (Lexer.new endless).Stuck := by
    refine ⟨⟨endless, 1⟩, by decide +kernel, by decide, by decide, 40,
      ascii "unterminated macro invocation", [tick, backslash] ++ ascii "ab", by decide +kernel,
      _, .start, by decide, by decide, by decide⟩
  cases fuel with
  | zero => cases ends
  | succ fuel =>
      rw [Lexer.run, loop] at ends
      cases turns : Lexer.turn (fun _ => true) fuel (Lexer.new endless) with
      | none =>
          rw [turns] at ends
          cases ends
      | some t => exact (turn_ends_iff _ _).mp ⟨t, fuel, turns⟩ stuck

end Metal.Jit.Rs.Lex
