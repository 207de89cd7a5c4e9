import Mathlib.Data.List.Infix
import Metal.Jit.Rs.LexerRun

namespace Metal.Jit.Rs.Lex

open Metal.Lib

/-! Where the token of a macro ends, against where its first bracket is closed. -/

/-- The raw string that begins here: its `#`s and what stands behind its quote. -/
def rawAt (rest : Bytes) : Option (Nat × Bytes) :=
  let word := rest.takeWhile isIdentCont
  let after := rest.dropWhile isIdentCont
  let hashes := (after.takeWhile (· == hash)).length
  if (word = ascii "r" ∨ word = ascii "br") ∧ peek (after.drop hashes) 0 = quote then
    some (hashes, after.drop (hashes + 1))
  else none

/-- One piece of a group, with the brackets that are open before and behind it: a literal, a
comment (with the whitespace and comments behind a `//`), a word, or any other byte. -/
inductive Piece (n : UInt8) : Nat → Bytes → Nat → Bytes → Prop where
  | string {depth : Nat} {rest : Bytes} {line : UInt32} {cur : Cursor} :
      stringBody line rest = .ok cur → Piece n (depth + 1) (quote :: rest) (depth + 1) cur.rest
  | literal {depth k : Nat} {rest : Bytes} : skipCharBody (tick :: rest) = .literal k →
      Piece n (depth + 1) (tick :: rest) (depth + 1) ((tick :: rest).drop k)
  | comment {depth : Nat} {rest : Bytes} {line : UInt32} {cur : Cursor} :
      skipTrivia line (slash :: slash :: rest) = .ok cur →
      Piece n (depth + 1) (slash :: slash :: rest) (depth + 1) cur.rest
  | block {depth : Nat} {rest : Bytes} {line : UInt32} {cur : Cursor} :
      skipBlock 1 line rest = (0, cur) →
      Piece n (depth + 1) (slash :: star :: rest) (depth + 1) cur.rest
  | raw {depth hashes : Nat} {rest body : Bytes} {line : UInt32} {cur : Cursor} :
      rawAt rest = some (hashes, body) → rawBody hashes line body = .ok cur →
      Piece n (depth + 1) rest (depth + 1) cur.rest
  | word {depth : Nat} {rest : Bytes} : isIdentCont (peek rest 0) = true → rawAt rest = none →
      Piece n (depth + 1) rest (depth + 1) (rest.dropWhile isIdentCont)
  | byte {depth : Nat} {c : UInt8} {rest : Bytes} : c ≠ quote →
      (c = tick → skipCharBody (c :: rest) = .other) →
      ¬ (c = slash ∧ (peek rest 0 = slash ∨ peek rest 0 = star)) → isIdentCont c = false →
      Piece n (depth + 1) (c :: rest) (depthAfter n c (depth + 1)) rest

inductive Reaches (n : UInt8) : Nat → Bytes → Bytes → Prop where
  | closed {rest : Bytes} : Reaches n 0 rest rest
  | piece {depth depth' : Nat} {rest rest' stop : Bytes} : Piece n depth rest depth' rest' →
      Reaches n depth' rest' stop → Reaches n depth rest stop

inductive Between (n : UInt8) (depth : Nat) (rest : Bytes) : Nat → Bytes → Prop where
  | start : Between n depth rest depth rest
  | piece {depth' depth'' : Nat} {rest' rest'' : Bytes} : Between n depth rest depth' rest' →
      Piece n depth' rest' depth'' rest'' → Between n depth rest depth'' rest''

def TameRaw (hashes : Nat) (body : Bytes) : Prop :=
  ∃ text after, body = text ++ quote :: after ∧ (∀ c ∈ text, c ≠ quote ∧ c ≠ backslash) ∧
    hashes ≤ (after.takeWhile (· == hash)).length

def TameAt (rest : Bytes) : Prop :=
  ¬ (peek rest 0 = slash ∧ peek rest 1 = star) ∧
    ∀ hashes body, rawAt rest = some (hashes, body) → TameRaw hashes body

/-- No block comment begins between the pieces, and no raw string with a backslash or a quote. -/
def Tame (n : UInt8) (depth : Nat) (rest : Bytes) : Prop :=
  ∀ depth' rest', Between n depth rest depth' rest' → depth' ≠ 0 → TameAt rest'

variable {rest : Bytes} {depth : Nat}

theorem Between.before {n : UInt8} {depth' depth'' : Nat} {rest' rest'' : Bytes}
    (piece : Piece n depth rest depth' rest') (between : Between n depth' rest' depth'' rest'') :
    Between n depth rest depth'' rest'' := by
  induction between with
  | start => exact .piece .start piece
  | piece _ last ih => exact .piece ih last

theorem Tame.next {n : UInt8} {depth' : Nat} {rest' : Bytes} (tame : Tame n depth rest)
    (piece : Piece n depth rest depth' rest') : Tame n depth' rest' :=
  fun _ _ between => tame _ _ (between.before piece)

/-! ## Bytes that the loop passes one by one -/

def isPlain (n c : UInt8) : Prop :=
  c ≠ quote ∧ c ≠ tick ∧ c ≠ slash ∧ c ≠ n ∧ c ≠ closeOf n

theorem isPlain_word {n c : UInt8} (opening : isOpening n = true)
    (word : (isIdentCont c || c == hash) = true) : isPlain n c := by
  have brackets : n = 40 ∨ n = 91 ∨ n = 123 := by
    simpa [isOpening, or_assoc] using opening
  have differs {b : UInt8} (other : (isIdentCont b || b == hash) = false) : c ≠ b := by
    rintro rfl
    exact Bool.noConfusion (other.symm.trans word)
  rcases brackets with rfl | rfl | rfl
  all_goals exact ⟨differs (by decide), differs (by decide), differs (by decide),
    differs (by decide), differs (by decide)⟩

theorem groupTurn_plain {n c : UInt8} (plain : isPlain n c) (unterminated : Bytes) (depth : Nat)
    (rest : Bytes) (line : UInt32) :
    groupTurn n unterminated ⟨depth + 1, ⟨c :: rest, line⟩⟩ =
      .next ⟨depth + 1, ⟨rest, lineAfter c line⟩⟩ := by
  obtain ⟨notQuote, notTick, notSlash, notOpen, notClose⟩ := plain
  rw [groupTurn]
  dsimp only
  rw [if_neg (Nat.succ_ne_zero depth), if_neg notQuote, if_neg notTick]
  dsimp only
  rw [if_neg fun both => notSlash both.1, depthAfter, if_neg notOpen, if_neg notClose]

section Simulation

variable {n : UInt8} {unterminated : Bytes} {r : Except Failure Cursor}

variable {line : UInt32} {fuel : Nat}

theorem loop_plain {text : Bytes} (plain : ∀ c ∈ text, isPlain n c)
    (ends : loop (groupLoop n unterminated) fuel ⟨depth + 1, ⟨text ++ rest, line⟩⟩ = some r) :
    ∃ fuel' line', fuel' + text.length ≤ fuel ∧
      loop (groupLoop n unterminated) fuel' ⟨depth + 1, ⟨rest, line'⟩⟩ = some r := by
  induction text generalizing fuel line with
  | nil => exact ⟨fuel, line, Nat.le_refl _, ends⟩
  | cons c text ih =>
      cases fuel with
      | zero => exact nomatch ends
      | succ fuel =>
          rw [List.cons_append, loop, groupLoop,
            groupTurn_plain (plain c (List.mem_cons_self ..))] at ends
          obtain ⟨fuel', line', few, ends'⟩ :=
            ih (fun b member => plain b (List.mem_cons_of_mem c member)) ends
          exact ⟨fuel', line', Nat.succ_le_succ few, ends'⟩

theorem stringBody_first {text : Bytes} (tame : ∀ c ∈ text, c ≠ quote ∧ c ≠ backslash)
    (rest : Bytes) (line : UInt32) :
    ∃ line', stringBody line (text ++ quote :: rest) = .ok ⟨rest, line'⟩ := by
  induction text generalizing line with
  | nil =>
      cases rest with
      | nil => exact ⟨line, by rw [List.nil_append, stringBody, if_pos rfl]⟩
      | cons d rest =>
          exact ⟨line, by rw [List.nil_append, stringBody, if_neg (by decide), if_pos rfl]⟩
  | cons c text ih =>
      obtain ⟨notQuote, notEscape⟩ := tame c (List.mem_cons_self ..)
      obtain ⟨line', ends⟩ :=
        ih (fun b member => tame b (List.mem_cons_of_mem c member)) (lineAfter c line)
      refine ⟨line', ?_⟩
      obtain ⟨d, after, more⟩ : ∃ d after, text ++ quote :: rest = d :: after := by
        cases text with
        | nil => exact ⟨quote, rest, rfl⟩
        | cons d text => exact ⟨d, text ++ quote :: rest, rfl⟩
      rw [List.cons_append, more, stringBody, if_neg notEscape, if_neg notQuote, ← more]
      exact ends

theorem rawBody_first {hashes : Nat} {text : Bytes} (tame : ∀ c ∈ text, c ≠ quote ∧ c ≠ backslash)
    (closes : hashes ≤ (rest.takeWhile (· == hash)).length) (line : UInt32) :
    ∃ line', rawBody hashes line (text ++ quote :: rest) = .ok ⟨rest.drop hashes, line'⟩ := by
  induction text generalizing line with
  | nil => exact ⟨line, by rw [List.nil_append, rawBody, if_pos ⟨rfl, closes⟩]⟩
  | cons c text ih =>
      obtain ⟨line', ends⟩ :=
        ih (fun b member => tame b (List.mem_cons_of_mem c member)) (lineAfter c line)
      refine ⟨line', ?_⟩
      rw [List.cons_append, rawBody, if_neg fun both => (tame c (List.mem_cons_self ..)).1 both.1]
      exact ends

/-- The bytes of a raw string's opening, and its body. -/
theorem rawAt_spec {body : Bytes} {hashes : Nat} (found : rawAt rest = some (hashes, body)) :
    ∃ opening, rest = opening ++ quote :: body ∧
      ∀ c ∈ opening, (isIdentCont c || c == hash) = true := by
  rw [rawAt] at found
  split at found
  next raw =>
    obtain ⟨rfl, rfl⟩ := Prod.mk.inj (Option.some.inj found)
    generalize isAfter : rest.dropWhile isIdentCont = after at *
    obtain ⟨body, same⟩ := cons_of_peek raw.2 (by decide)
    refine ⟨rest.takeWhile isIdentCont ++ after.takeWhile (· == hash), ?_, fun c member => ?_⟩
    · have split : after.takeWhile (· == hash) ++ after.dropWhile (· == hash) = after :=
        List.takeWhile_append_dropWhile
      have dropped :
          after.drop (after.takeWhile (· == hash)).length = after.dropWhile (· == hash) := by
        conv => lhs; arg 2; rw [← split]
        rw [List.drop_left]
      rw [← List.drop_drop, same, List.drop_one, List.tail_cons, List.append_assoc, ← same, dropped,
        split, ← isAfter, List.takeWhile_append_dropWhile]
    · rcases List.mem_append.mp member with word | mark
      · rw [List.mem_takeWhile_imp word, Bool.true_or]
      · rw [List.mem_takeWhile_imp mark, Bool.or_true]
  next => exact nomatch found

theorem loop_string {cur : Cursor} (body : stringBody line rest = .ok cur)
    (ends : loop (groupLoop n unterminated) fuel ⟨depth + 1, ⟨quote :: rest, line⟩⟩ = some r) :
    ∃ fuel', fuel' < fuel ∧ loop (groupLoop n unterminated) fuel' ⟨depth + 1, cur⟩ = some r := by
  cases fuel with
  | zero => exact nomatch ends
  | succ fuel =>
      have turn : groupTurn n unterminated ⟨depth + 1, ⟨quote :: rest, line⟩⟩ =
          .next ⟨depth + 1, cur⟩ := by
        rw [groupTurn]
        dsimp only
        rw [if_neg (Nat.succ_ne_zero depth), if_pos rfl, skipStringBody, List.drop_one,
          List.tail_cons, body]
      rw [loop, groupLoop, turn] at ends
      exact ⟨fuel, Nat.lt_succ_self _, ends⟩

/-- A word or a tame raw string is one piece for several turns. -/
theorem word_piece (opening : isOpening n = true) (word : isIdentCont (peek rest 0) = true)
    (tame : TameAt rest)
    (ends : loop (groupLoop n unterminated) fuel ⟨depth + 1, ⟨rest, line⟩⟩ = some r) :
    ∃ rest' fuel' line', Piece n (depth + 1) rest (depth + 1) rest' ∧ fuel' < fuel ∧
      loop (groupLoop n unterminated) fuel' ⟨depth + 1, ⟨rest', line'⟩⟩ = some r := by
  cases raw : rawAt rest with
  | none =>
      have parts : rest.takeWhile isIdentCont ++ rest.dropWhile isIdentCont = rest :=
        List.takeWhile_append_dropWhile
      have some_ : 0 < (rest.takeWhile isIdentCont).length := by
        have shorter := dropWhile_shorter (some_of_start (by decide) word) word
        have whole := congrArg List.length parts
        rw [List.length_append] at whole
        omega
      rw [← parts] at ends
      obtain ⟨fuel', line', few, ends'⟩ := loop_plain (fun c member => isPlain_word opening
        (by rw [List.mem_takeWhile_imp member, Bool.true_or])) ends
      exact ⟨_, fuel', line', .word word raw, by omega, ends'⟩
  | some found =>
      obtain ⟨hashes, body⟩ := found
      obtain ⟨head, rfl, plain⟩ := rawAt_spec raw
      obtain ⟨text, after, rfl, noQuote, closes⟩ := tame.2 hashes body raw
      obtain ⟨fuel₁, line₁, few₁, ends₁⟩ :=
        loop_plain (fun c member => isPlain_word opening (plain c member)) ends
      obtain ⟨line₂, isBody⟩ := stringBody_first noQuote after line₁
      obtain ⟨fuel₂, few₂, ends₂⟩ := loop_string isBody ends₁
      have marks : ∀ c ∈ after.take hashes, isPlain n c := by
        intro c member
        refine isPlain_word opening ?_
        have inside : after.take hashes <+: after.takeWhile (· == hash) := by
          refine List.prefix_of_prefix_length_le (List.take_prefix _ _) (List.takeWhile_prefix _) ?_
          exact Nat.le_trans (List.length_take_le _ _) closes
        rw [List.mem_takeWhile_imp (inside.subset member), Bool.or_true]
      rw [← List.take_append_drop hashes after] at ends₂
      obtain ⟨fuel₃, line₃, few₃, ends₃⟩ := loop_plain marks ends₂
      obtain ⟨line₄, isRaw⟩ := rawBody_first noQuote closes line
      exact ⟨_, fuel₃, line₃, .raw raw isRaw, by omega, ends₃⟩

/-- In a tame group the loop ends where the brackets are closed: its turns go from piece to
piece, and through words and raw strings byte by byte. -/
theorem group_reaches (opening : isOpening n = true) {cur : Cursor} (tame : Tame n depth rest)
    (ends : loop (groupLoop n unterminated) fuel ⟨depth, ⟨rest, line⟩⟩ = some (.ok cur)) :
    Reaches n depth rest cur.rest := by
  induction fuel using Nat.strongRecOn generalizing depth rest line with
  | ind fuel ih =>
      cases fuel with
      | zero => exact nomatch ends
      | succ fuel =>
          have whole := ends
          rw [loop, groupLoop] at ends
          cases turns : groupTurn n unterminated ⟨depth, ⟨rest, line⟩⟩ with
          | done r =>
              rw [turns] at ends
              obtain rfl := Option.some.inj ends
              obtain ⟨rfl, isCur⟩ := GroupState.mk.inj (groupTurn_done turns)
              rw [← isCur]
              exact .closed
          | next s' =>
              rw [turns] at ends
              have step := groupTurn_next turns
              obtain ⟨depth, rfl⟩ := Nat.exists_eq_succ_of_ne_zero step.open_
              have here := tame _ _ .start (Nat.succ_ne_zero depth)
              by_cases word : isIdentCont (peek rest 0) = true
              · obtain ⟨rest', fuel', line', piece, less, ends'⟩ := word_piece opening word here whole
                exact .piece piece (ih fuel' less (tame.next piece) ends')
              · cases step with
                | string body =>
                    have piece := @Piece.string n depth _ _ _ body
                    exact .piece piece (ih fuel (Nat.lt_succ_self _) (tame.next piece) ends)
                | literal literal =>
                    have piece := @Piece.literal n depth _ _ literal
                    exact .piece piece (ih fuel (Nat.lt_succ_self _) (tame.next piece) ends)
                | refused => exact ih fuel (Nat.lt_succ_self _) tame ends
                | comment skips =>
                    have piece := @Piece.comment n depth _ _ _ skips
                    exact .piece piece (ih fuel (Nat.lt_succ_self _) (tame.next piece) ends)
                | @byte _ c _ after notQuote other notComment =>
                    have plain : ¬ (c = slash ∧ (peek after 0 = slash ∨ peek after 0 = star)) := by
                      rintro ⟨isSlash, second | second⟩
                      · exact notComment ⟨isSlash, second⟩
                      · exact here.1 ⟨isSlash, second⟩
                    have piece := @Piece.byte n depth _ _ notQuote other plain
                      (Bool.eq_false_iff.mpr word)
                    exact .piece piece (ih fuel (Nat.lt_succ_self _) (tame.next piece) ends)

end Simulation

theorem isOpening_groupAt {word unterminated body : Bytes} {n : UInt8}
    (found : groupAt word rest = some (n, unterminated, body)) : isOpening n = true := by
  rw [groupAt] at found
  split at found
  next =>
    obtain rfl := (Prod.mk.inj (Option.some.inj found)).1
    decide
  next =>
    split at found
    next head =>
      obtain rfl := (Prod.mk.inj (Option.some.inj found)).1
      exact head.2
    next => cases found

variable {start : Bytes} {lexeme : Lexeme}

theorem lexWord_invoc {fuel : Nat} {at_ : Cursor}
    (lexed : lexWord fuel start at_ = some (.ok lexeme)) (isMacro : lexeme.kind = .macroInvoc) :
    ∃ n unterminated body,
      groupAt (start.takeWhile isIdentCont) at_.rest = some (n, unterminated, body) ∧
      group n unterminated fuel ⟨body, at_.line⟩ = some (.ok lexeme.cur) := by
  rw [lexWord] at lexed
  split at lexed
  next n unterminated body found =>
    obtain ⟨result, ends, closed⟩ := Option.map_eq_some_iff.mp lexed
    cases result with
    | error failure => cases closed
    | ok cur =>
        obtain rfl := Except.ok.inj closed
        exact ⟨n, unterminated, body, found, ends⟩
  next =>
    obtain rfl := Except.ok.inj (Option.some.inj lexed)
    cases isMacro

theorem lexString_kind {kind : Kind} {cur : Cursor}
    (lexed : lexString kind start cur = .ok lexeme) : lexeme.kind = kind := by
  rw [lexString] at lexed
  split at lexed
  · cases lexed
  · rw [← Except.ok.inj lexed]
    rfl

theorem lexChar_kind {kind : Kind} {cur : Cursor} {body : CharBody}
    (lexed : lexChar kind start cur body = some (.ok lexeme)) : lexeme.kind = kind := by
  cases body with
  | literal k =>
      rw [← Except.ok.inj (Option.some.inj lexed)]
      rfl
  | other => exact nomatch lexed
  | refused => exact nomatch lexed

theorem lexRawString_kind {cur : Cursor} {isByte : Bool}
    (lexed : lexRawString start cur isByte = .ok lexeme) : lexeme.kind ≠ .macroInvoc := by
  rw [lexRawString] at lexed
  split at lexed
  · cases lexed
  · split at lexed
    · cases lexed
    · rw [← Except.ok.inj lexed]
      cases isByte <;> rintro ⟨⟩

theorem lexToken_invoc {fuel : Nat} {at_ : Cursor} (lexed : lexToken fuel at_ = some (.ok lexeme))
    (isMacro : lexeme.kind = .macroInvoc) :
    lexWord fuel at_.rest ⟨at_.rest.dropWhile isIdentCont, at_.line⟩ = some (.ok lexeme) := by
  have other {kind : Kind} (isKind : lexeme.kind = kind) (differs : kind ≠ .macroInvoc) : False :=
    differs (isKind.symm.trans isMacro)
  rw [lexToken] at lexed
  split at lexed
  next =>
    rw [lexIdent] at lexed
    split at lexed
    next =>
      split at lexed
      next =>
        obtain rfl := Except.ok.inj (Option.some.inj lexed)
        cases isMacro
      next => exact (lexRawString_kind (Option.some.inj lexed) isMacro).elim
    next =>
      split at lexed
      next => exact (lexRawString_kind (Option.some.inj lexed) isMacro).elim
      next =>
        split at lexed
        next => exact (other (lexString_kind (Option.some.inj lexed)) (by decide)).elim
        next =>
          split at lexed
          next lexeme' taken =>
            split at taken
            next => exact (other (lexChar_kind (taken.trans lexed)) (by decide)).elim
            next => cases taken
          next => exact lexed
  next =>
    split at lexed
    next =>
      have number := Option.some.inj lexed
      rw [lexNumber] at number
      split at number
      split at number
      next isFloat _ _ _ =>
        obtain rfl := Except.ok.inj number
        cases isFloat <;> cases isMacro
      next => cases number
    next =>
      split at lexed
      next => exact (other (lexString_kind (Option.some.inj lexed)) (by decide)).elim
      next =>
        split at lexed
        next =>
          split at lexed
          next lexeme' taken => exact (other (lexChar_kind (taken.trans lexed)) (by decide)).elim
          next =>
            have lifetime := Option.some.inj lexed
            rw [lexLifetime] at lifetime
            split at lifetime
            next =>
              obtain rfl := Except.ok.inj lifetime
              cases isMacro
            next => cases lifetime
        next =>
          have punct := Option.some.inj lexed
          rw [lexPunct] at punct
          split at punct
          next op kind found =>
            obtain rfl := Except.ok.inj punct
            have kinds : ∀ op ∈ punct3 ++ punct2, op.2 ≠ .macroInvoc := by decide
            exact (kinds _ (List.mem_of_find?_eq_some found) isMacro).elim
          next =>
            dsimp only at punct
            split at punct
            next =>
              obtain rfl := Except.ok.inj punct
              cases isMacro
            next => cases punct

/-- A macro's token ends with the bracket that closes its first, where no block comment begins in
the group but behind a line comment and no raw string in it has a quote or a backslash. -/
theorem macro_closes {fuel : Nat} {at_ : Cursor} {lexeme : Lexeme}
    (lexed : lexToken fuel at_ = some (.ok lexeme)) (isMacro : lexeme.kind = .macroInvoc) :
    ∃ n unterminated body,
      groupAt (at_.rest.takeWhile isIdentCont) (at_.rest.dropWhile isIdentCont) =
        some (n, unterminated, body) ∧
      (Tame n 1 body → Reaches n 1 body lexeme.cur.rest) := by
  obtain ⟨n, unterminated, body, found, ends⟩ := lexWord_invoc (lexToken_invoc lexed isMacro) isMacro
  exact ⟨n, unterminated, body, found, fun tame =>
    group_reaches (isOpening_groupAt found) tame ends⟩

theorem piece_bracket (piece : Piece 40 1 [41] depth rest) : depth = 0 ∧ rest = [] := by
  generalize open_ : 1 = d at piece
  generalize text : ([41] : Bytes) = t at piece
  cases piece with
  | string | literal | comment | block => exact absurd (List.cons.inj text).1 (by decide)
  | raw found =>
      rw [← text, show rawAt [41] = none by decide] at found
      exact nomatch found
  | word word =>
      rw [← text] at word
      exact absurd word (by decide)
  | byte =>
      obtain ⟨rfl, rfl⟩ := List.cons.inj text
      obtain rfl := Nat.succ.inj open_
      exact ⟨by decide, rfl⟩

/-- `m!(/*)*/)` -/
def commented : Bytes := ascii "m!(" ++ [slash, star, 41, star, slash, 41]

/-- Its token ends inside the comment. -/
theorem commented_cut :
    lexToken 9 ⟨commented, 1⟩ =
        some (.ok ⟨.macroInvoc, ascii "m!(" ++ [slash, star, 41], ⟨[star, slash, 41], 1⟩⟩) ∧
      groupAt (commented.takeWhile isIdentCont) (commented.dropWhile isIdentCont) =
        some (40, ascii "unterminated macro invocation", [slash, star, 41, star, slash, 41]) ∧
      ¬ Reaches 40 1 [slash, star, 41, star, slash, 41] [star, slash, 41] := by
  refine ⟨by decide +kernel, by decide +kernel, fun reaches => ?_⟩
  have bracket : Reaches 40 1 [41] [star, slash, 41] := by
    generalize open_ : 1 = d at reaches
    generalize text : [slash, star, 41, star, slash, 41] = t at reaches
    cases reaches with
    | closed => exact absurd open_ (by decide)
    | piece piece rest =>
        cases piece with
        | string | literal => exact absurd (List.cons.inj text).1 (by decide)
        | comment => exact absurd (List.cons.inj (List.cons.inj text).2).1 (by decide)
        | block closed =>
            obtain ⟨-, -, rfl⟩ := (List.cons.inj text).imp id List.cons.inj
            obtain rfl := Nat.succ.inj open_
            rw [← (Prod.mk.inj closed).2] at rest
            exact rest
        | raw found =>
            rw [← text, show rawAt [slash, star, 41, star, slash, 41] = none by decide] at found
            exact nomatch found
        | word word =>
            rw [← text] at word
            exact absurd word (by decide)
        | byte _ _ plain =>
            obtain ⟨rfl, rfl⟩ := List.cons.inj text
            exact (plain ⟨rfl, .inr rfl⟩).elim
  generalize stop : [star, slash, 41] = t at bracket
  cases bracket with
  | piece piece rest =>
      obtain ⟨rfl, rfl⟩ := piece_bracket piece
      cases rest with
      | closed => exact absurd stop (by decide)
      | piece piece => cases piece

theorem rawAt_suffix {hashes : Nat} {body : Bytes} (found : rawAt rest = some (hashes, body)) :
    body <:+ rest := by
  unfold rawAt at found
  dsimp only at found
  split at found
  · cases found
    exact (List.drop_suffix ..).trans (List.dropWhile_suffix _)
  · cases found

theorem Piece.suffix {n : UInt8} {depth' : Nat} {rest' : Bytes}
    (piece : Piece n depth rest depth' rest') : rest' <:+ rest := by
  cases piece with
  | string ends => exact (stringBody_passes ends).suffix.trans (List.suffix_cons ..)
  | literal => exact List.drop_suffix ..
  | comment skips => exact (skipTrivia_skips skips).passes.suffix
  | @block _ rest line cur closed =>
      have inside := skipBlock_suffix 1 line rest
      rw [closed] at inside
      exact inside.trans ((List.suffix_cons ..).trans (List.suffix_cons ..))
  | raw found ends => exact (rawBody_passes ends).suffix.trans (rawAt_suffix found)
  | word => exact List.dropWhile_suffix _
  | byte => exact List.suffix_cons ..

/-- A text in which nowhere a block comment or a raw string could begin. -/
theorem tame_of_tails {n : UInt8} (plain : ∀ rest' ∈ rest.tails,
    ¬ (peek rest' 0 = slash ∧ peek rest' 1 = star) ∧ rawAt rest' = none) : Tame n depth rest := by
  intro depth' rest' between _
  have inside : rest' <:+ rest := by
    clear * - between
    induction between with
    | start => exact List.suffix_refl _
    | piece _ piece inside => exact piece.suffix.trans inside
  obtain ⟨noBlock, noRaw⟩ := plain rest' ((List.mem_tails ..).mpr inside)
  exact ⟨noBlock, fun _ _ found => nomatch noRaw.symm.trans found⟩

/-- A string, a character and a comment with brackets in them, and brackets that nest. -/
def nested : Bytes :=
  [quote, 41, quote, tick, 41, tick, 40, 40, slash, slash, 41, newline, 41, 120, 41, 41]

theorem macro_closes_nested : Tame 40 1 (nested ++ [59]) ∧ Reaches 40 1 (nested ++ [59]) [59] := by
  obtain ⟨n, unterminated, body, found, closes⟩ := @macro_closes 20
    ⟨ascii "m!(" ++ nested ++ [59], 1⟩ ⟨.macroInvoc, ascii "m!(" ++ nested, ⟨[59], 2⟩⟩
    (by decide +kernel) rfl
  have group : groupAt (ascii "m") (ascii "!(" ++ nested ++ [59]) =
      some (40, ascii "unterminated macro invocation", nested ++ [59]) := by decide +kernel
  obtain ⟨rfl, rest⟩ := Prod.mk.inj (Option.some.inj (group.symm.trans found))
  obtain ⟨-, rfl⟩ := Prod.mk.inj rest
  exact ⟨tame_of_tails (by decide +kernel), closes (tame_of_tails (by decide +kernel))⟩

end Metal.Jit.Rs.Lex
