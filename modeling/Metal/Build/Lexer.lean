import Metal.Build.Manifest

namespace Metal.Build.Manifest

open Metal.Lib
open Metal.Lib.Json

/-! What the loops of the lexer read: none goes past the end of the text, and the two
over a string agree. -/

theorem scanTo_eq (stops : UInt8 → Bool) (s : Bytes) :
    ∃ shorter, scanTo stops s = .ok ⟨s.dropWhile fun c => !stops c, shorter⟩ := by
  induction s with
  | nil =>
      refine ⟨Nat.le_refl _, ?_⟩
      rw [scanTo, dif_pos rfl]
      rfl
  | cons c s ih =>
      obtain ⟨shorter, scanned⟩ := ih
      rw [scanTo, dif_neg (List.cons_ne_nil c s)]
      cases here : stops c with
      | true =>
          have stay : (c :: s).dropWhile (fun c => !stops c) = c :: s := by
            rw [List.dropWhile_cons_of_neg (by rw [here]; decide)]
          refine ⟨by rw [stay], ?_⟩
          change (if stops c then _ else _) = _
          rw [if_pos here]
          congr 2
          exact stay.symm
      | false =>
          have move : (c :: s).dropWhile (fun c => !stops c) = s.dropWhile fun c => !stops c := by
            rw [List.dropWhile_cons_of_pos (by rw [here]; rfl)]
          refine ⟨by rw [move]; exact shorter.trans (Nat.le_succ _), ?_⟩
          change (if stops c then _ else _) = _
          rw [if_neg (by rw [here]; decide)]
          change (scanTo stops s >>= _) = _
          rw [scanned]
          change Except.ok _ = Except.ok _
          congr 2
          exact move.symm

/-- What the parser does at the end of a run: it gives a value with `post`, or it
refuses the text. -/
def Safe {α : Type} (post : α → Prop) (x : Reader α) : Prop :=
  (∃ a, x = .ok a ∧ post a) ∨ ∃ code text line, x = .error (.refused code text line)

variable {α β : Type} {post : α → Prop} {after : β → Prop} {x : Reader α} {f : α → Reader β}

theorem Safe.ok {a : α} (holds : post a) : Safe post (.ok a) := .inl ⟨a, rfl, holds⟩

theorem Safe.refuse (text : String) (lx : Lex) : Safe post (refuse text lx) :=
  .inr ⟨_, _, _, rfl⟩

theorem Safe.bind (first : Safe post x) (next : ∀ a, post a → Safe after (f a)) :
    Safe after (x >>= f) := by
  obtain ⟨a, rfl, holds⟩ | ⟨code, text, line, rfl⟩ := first
  · exact next a holds
  · exact .inr ⟨code, text, line, rfl⟩

theorem Safe.mono {post' : α → Prop} (safe : Safe post x) (weaker : ∀ a, post a → post' a) :
    Safe post' x := by
  obtain ⟨a, is, holds⟩ | refused := safe
  · exact .inl ⟨a, is, weaker a holds⟩
  · exact .inr refused

theorem scanTo_safe (stops : UInt8 → Bool) (s : Bytes) : Safe (fun _ => True) (scanTo stops s) := by
  obtain ⟨_, scanned⟩ := scanTo_eq stops s
  exact .inl ⟨_, scanned, trivial⟩

variable {s : Bytes}

theorem deref_safe (some_ : s ≠ []) : Safe (fun _ => True) (deref s) := by
  cases s with
  | nil => exact absurd rfl some_
  | cons c s => exact .ok trivial

theorem lexPeek_safe (lx : Lex) : Safe (fun c => c ≠ 0 → lx.rest ≠ []) (lexPeek lx) := by
  rw [lexPeek]
  split
  case isTrue => exact .ok fun nonzero => absurd rfl nonzero
  case isFalse some_ => exact (deref_safe some_).mono fun _ _ _ => some_

theorem lexSkipWs_nil (line asked : Nat) : lexSkipWs ⟨[], line, asked⟩ = .ok ⟨[], line, asked⟩ := by
  rw [lexSkipWs, dif_pos rfl]

theorem lexSkipWs_cons (c : UInt8) (s : Bytes) (line asked : Nat) :
    lexSkipWs ⟨c :: s, line, asked⟩ =
      if isBlank c then lexSkipWs ⟨s, line, asked⟩
      else if c = newline then lexSkipWs ⟨s, line + 1, asked⟩
      else if c = hash then lexSkipWs ⟨s.dropWhile fun d => !(d = newline : Bool), line, asked⟩
      else .ok ⟨c :: s, line, asked⟩ := by
  obtain ⟨_, scanned⟩ := scanTo_eq (· = newline) s
  rw [lexSkipWs, dif_neg (List.cons_ne_nil c s)]
  change (if isBlank c then _ else if c = newline then _ else if c = hash then
    skipLine s >>= _ else _) = _
  rw [skipLine, scanned]
  rfl

theorem lexSkipWs_safe (s : Bytes) (line asked : Nat) :
    Safe (fun lx => lx.rest.length ≤ s.length) (lexSkipWs ⟨s, line, asked⟩) := by
  induction length : s.length using Nat.strong_induction_on generalizing s line with
  | _ n ih =>
      cases s with
      | nil =>
          rw [lexSkipWs_nil]
          exact .ok (Nat.zero_le _)
      | cons c s =>
          rw [List.length_cons] at length
          have shorter (t : Bytes) (line' : Nat) (le : t.length ≤ s.length) :
              Safe (fun lx => lx.rest.length ≤ n) (lexSkipWs ⟨t, line', asked⟩) :=
            (ih t.length (by omega) t line' rfl).mono fun lx le' => by omega
          rw [lexSkipWs_cons]
          split
          · exact shorter s line (Nat.le_refl _)
          split
          · exact shorter s (line + 1) (Nat.le_refl _)
          split
          · exact shorter _ line (List.length_dropWhile_le _ s)
          · exact .ok length.le

theorem scanString_nil (len : Nat) : scanString [] len = .ok none := by
  rw [scanString, dif_pos rfl]

theorem scanString_quote (s : Bytes) (len : Nat) :
    scanString (quote :: s) len = .ok (some (quote :: s, len)) := by
  rw [scanString, dif_neg (List.cons_ne_nil quote s)]
  rfl

theorem scanString_newline (s : Bytes) (len : Nat) : scanString (newline :: s) len = .ok none := by
  rw [scanString, dif_neg (List.cons_ne_nil newline s)]
  rfl

def Escapes (c : UInt8) (s : Bytes) : Prop :=
  c = backslash ∧ (s.head? = some quote ∨ s.head? = some backslash)

instance (c : UInt8) (s : Bytes) : Decidable (Escapes c s) :=
  inferInstanceAs (Decidable (_ ∧ _))

variable {c : UInt8}

theorem escaped_eq {guard : Prop} [Decidable guard] (inside : guard → s ≠ [])
    (outside : ¬ guard → ¬ Escapes c s) :
    escaped c guard (c :: s) = .ok (decide (Escapes c s)) := by
  rw [escaped]
  split
  case isTrue both =>
    obtain ⟨d, rest, rfl⟩ := List.exists_cons_of_ne_nil (inside both.2)
    change Except.ok _ = Except.ok _
    congr 1
    simp [Escapes, both.1]
  case isFalse neither =>
    have no : ¬ Escapes c s := fun escapes =>
      neither ⟨escapes.1, by_contra fun no => outside no escapes⟩
    rw [decide_eq_false no]
    rfl

theorem not_escapes_nil (c : UInt8) : ¬ Escapes c [] := by
  rintro ⟨-, next | next⟩ <;> nomatch next

theorem scanString_cons {len : Nat} (inner : c ≠ quote) (same : c ≠ newline) :
    scanString (c :: s) len =
      if Escapes c s then scanString s.tail (len + 1) else scanString s (len + 1) := by
  have skips : escaped c (s ≠ []) (c :: s) = .ok (decide (Escapes c s)) :=
    escaped_eq id fun ended => by
      rw [not_not.mp ended]
      exact not_escapes_nil c
  rw [scanString, dif_neg (List.cons_ne_nil c s)]
  change (if c = quote then _ else if c = newline then _ else escaped c (s ≠ []) (c :: s) >>= _) = _
  rw [if_neg inner, if_neg same, skips]
  change (if decide (Escapes c s) = true then _ else _) = _
  rw [ite_congr (decide_eq_true_eq) (fun _ => rfl) fun _ => rfl]
  rfl

theorem copyString_stop {stop : Nat} {r : Bytes} (done : r.length ≤ stop) (out : Bytes) :
    copyString stop r out = .ok out := by
  rw [copyString, dif_neg (Nat.not_lt.mpr done)]
  rfl

theorem copyString_cons {stop : Nat} (more : stop ≤ s.length)
    (whole : Escapes c s → stop < s.length) (out : Bytes) :
    copyString stop (c :: s) out =
      if Escapes c s then copyString stop s.tail (out ++ s.take 1)
      else copyString stop s (out ++ [c]) := by
  have skips : escaped c (stop + 1 < (c :: s).length) (c :: s) = .ok (decide (Escapes c s)) := by
    refine escaped_eq (fun inside => ?_) fun outside escapes => ?_
    · rintro rfl
      exact Nat.not_lt_zero stop (Nat.lt_of_succ_lt_succ inside)
    · exact outside (Nat.succ_lt_succ (whole escapes))
  rw [copyString, dif_pos (show stop < (c :: s).length from Nat.lt_succ_of_le more)]
  change (escaped c (stop + 1 < (c :: s).length) (c :: s) >>= _) = _
  rw [skips]
  change (if decide (Escapes c s) = true then deref s >>= _ else _) = _
  by_cases escapes : Escapes c s
  · obtain ⟨d, rest, rfl⟩ := List.exists_cons_of_ne_nil
      (List.ne_nil_of_length_pos (Nat.zero_lt_of_lt (whole escapes)))
    rw [if_pos (decide_eq_true escapes), if_pos escapes]
    rfl
  · rw [if_neg (by rw [decide_eq_false escapes]; decide), if_neg escapes]
    rfl

/-- The two loops over a string agree: the second writes as many bytes as the first
has counted, and it ends at the closing quote. -/
theorem scan_copy (s : Bytes) (len : Nat) :
    scanString s len = .ok none ∨
      ∃ closing written, scanString s len = .ok (some (closing, len + written.length)) ∧
        closing ≠ [] ∧ closing.length ≤ s.length ∧
          ∀ out, copyString closing.length s out = .ok (out ++ written) := by
  induction length : s.length using Nat.strong_induction_on generalizing s len with
  | _ n ih =>
      cases s with
      | nil => exact .inl (scanString_nil len)
      | cons c s =>
          rw [List.length_cons] at length
          rcases eq_or_ne c quote with rfl | inner
          · refine .inr ⟨quote :: s, [], scanString_quote s len, List.cons_ne_nil quote s,
              length.le, fun out => ?_⟩
            rw [copyString_stop (Nat.le_refl _), List.append_nil]
          rcases eq_or_ne c newline with rfl | same
          · exact .inl (scanString_newline s len)
          rw [scanString_cons inner same]
          by_cases escapes : Escapes c s
          · obtain ⟨d, rest, rfl⟩ : ∃ d rest, s = d :: rest := by
              cases s with
              | nil => exact absurd escapes (not_escapes_nil c)
              | cons d rest => exact ⟨d, rest, rfl⟩
            rw [List.length_cons] at length
            rw [if_pos escapes]
            obtain missing | ⟨closing, written, found, some_, le, copied⟩ :=
              ih rest.length (by omega) rest (len + 1) rfl
            · exact .inl missing
            · refine .inr ⟨closing, d :: written, ?_, some_, by omega, fun out => ?_⟩
              · rw [List.length_cons, Nat.add_comm written.length, ← Nat.add_assoc]
                exact found
              · rw [copyString_cons (by rw [List.length_cons]; omega)
                  (fun _ => by rw [List.length_cons]; omega), if_pos escapes]
                change copyString closing.length rest (out ++ [d]) = _
                rw [copied, List.append_assoc]
                rfl
          · rw [if_neg escapes]
            obtain missing | ⟨closing, written, found, some_, le, copied⟩ :=
              ih s.length (by omega) s (len + 1) rfl
            · exact .inl missing
            · refine .inr ⟨closing, c :: written, ?_, some_, by omega, fun out => ?_⟩
              · rw [List.length_cons, Nat.add_comm written.length, ← Nat.add_assoc]
                exact found
              · rw [copyString_cons le fun yes => absurd yes escapes, if_neg escapes, copied,
                  List.append_assoc]
                rfl

theorem parseString_safe (serves : Nat → Bool) (lx : Lex) :
    Safe (fun result => result.2.rest.length ≤ lx.rest.length) (parseString serves lx) := by
  rw [parseString]
  obtain missing | ⟨closing, written, found, -, le, copied⟩ := scan_copy lx.rest 0
  · rw [missing]
    exact .ok (Nat.le_refl _)
  · rw [found]
    change Safe _ (if !serves lx.asked then _ else _)
    have shorter : closing.tail.length ≤ lx.rest.length := by
      rw [List.length_tail]
      omega
    split
    · exact .ok shorter
    · rw [copied []]
      change Safe _ (if written.length = 0 + written.length then _ else _)
      rw [if_pos (Nat.zero_add _).symm]
      exact .ok shorter

theorem parseKey_safe (serves : Nat → Bool) (lx : Lex) :
    Safe (fun result => result.2.rest.length < lx.rest.length) (parseKey serves lx) := by
  rw [parseKey]
  refine (scanTo_safe _ lx.rest).bind fun scanned _ => ?_
  obtain ⟨rest, le⟩ := scanned
  dsimp only
  split
  case isTrue => exact .refuse _ _
  case isFalse nonzero =>
    split
    · exact .refuse _ _
    · refine .ok ?_
      change rest.length < lx.rest.length
      omega

theorem expect_safe (lx : Lex) (c : UInt8) :
    Safe (fun result => ∀ lx', result = some lx' → lx'.rest.length < lx.rest.length)
      (expect lx c) := by
  rw [expect]
  split
  case isTrue => exact .ok nofun
  case isFalse some_ =>
    refine (deref_safe some_).bind fun d _ => .ok ?_
    rintro lx' is
    split at is
    · obtain rfl := Option.some.inj is
      exact length_tail_lt some_
    · nomatch is

theorem stringsPush_rest (serves : Nat → Bool) (v : CString) (s : Strings) (lx : Lex) :
    (stringsPush serves v s lx).2.rest = lx.rest := by
  rw [stringsPush]
  split
  · rfl
  split
  · split <;> rfl
  · rfl

theorem parseItems_safe (serves : Nat → Bool) {fuel : Nat} {lx : Lex} (s : Strings)
    (enough : lx.rest.length < fuel) :
    Safe (fun result => result.2.rest.length ≤ lx.rest.length) (parseItems serves fuel lx s) := by
  induction fuel generalizing lx s with
  | zero => omega
  | succ fuel ih =>
      obtain ⟨start, line, asked⟩ := lx
      change start.length < fuel + 1 at enough
      rw [parseItems]
      refine (lexSkipWs_safe start line asked).bind fun lx le => ?_
      refine (lexPeek_safe lx).bind fun c _ => ?_
      split
      · refine .ok ?_
        change lx.rest.tail.length ≤ start.length
        rw [List.length_tail]
        omega
      split
      · exact .refuse _ _
      refine (expect_safe lx quote).bind fun opened shorter => ?_
      cases opened with
      | none => exact .refuse _ _
      | some lx' =>
          have shorter := shorter lx' rfl
          refine (parseString_safe serves lx').bind fun result le' => ?_
          obtain ⟨val, lx''⟩ := result
          cases val with
          | none => exact .refuse _ _
          | some val =>
              have rest := stringsPush_rest serves (.ofBytes val) s lx''
              dsimp only
              generalize stringsPush serves (.ofBytes val) s lx'' = pushed at rest ⊢
              obtain ⟨s', lx₂⟩ := pushed
              change lx₂.rest = lx''.rest at rest
              change lx''.rest.length ≤ lx'.rest.length at le'
              rw [← rest] at le'
              refine (lexSkipWs_safe lx₂.rest lx₂.line lx₂.asked).bind fun lx₃ le₃ => ?_
              refine (lexPeek_safe lx₃).bind fun c _ => ?_
              have short : (if c = comma then { lx₃ with rest := lx₃.rest.tail } else lx₃).rest.length
                  ≤ lx₃.rest.length := by
                split
                · rw [List.length_tail]
                  exact Nat.sub_le _ _
                · exact Nat.le_refl _
              have next : (if c = comma then { lx₃ with rest := lx₃.rest.tail } else lx₃).rest.length
                  < fuel := by omega
              exact (ih s' next).mono fun result le => by omega

theorem trimBack_safe {start : Bytes} {n : Nat} (inside : n ≤ start.length) :
    Safe (fun m => m ≤ n) (trimBack start n) := by
  induction n with
  | zero => exact .ok (Nat.le_refl _)
  | succ n ih =>
      have some_ : start.drop n ≠ [] := List.ne_nil_of_length_pos (by rw [List.length_drop]; omega)
      refine (deref_safe some_).bind fun c _ => ?_
      split
      · exact (ih (by omega)).mono fun m le => Nat.le_succ_of_le le
      · exact .ok (Nat.le_refl _)

theorem parseBare_safe (lx : Lex) :
    Safe (fun after => after.rest.length ≤ lx.rest.length) (parseBare lx) := by
  rw [parseBare]
  refine (scanTo_safe _ lx.rest).bind fun scanned _ => ?_
  obtain ⟨rest, _⟩ := scanned
  refine (trimBack_safe (Nat.sub_le _ _)).bind fun n _ => ?_
  dsimp only
  split
  · exact .refuse _ _
  · refine .ok ?_
    change (lx.rest.drop n).length ≤ lx.rest.length
    rw [List.length_drop]
    exact Nat.sub_le _ _

theorem setScalar_safe (key val : CString) (lx : Lex) (m : Parsed) :
    Safe (fun _ => True) (setScalar key val lx m) := by
  rw [setScalar]
  split
  · exact .ok trivial
  split
  · exact .refuse _ _
  · exact .ok trivial

theorem parseEntry_safe (serves : Nat → Bool) {fuel : Nat} {lx : Lex} (m : Parsed)
    (enough : lx.rest.length ≤ fuel) :
    Safe (fun result => result.2.rest.length < lx.rest.length) (parseEntry serves fuel lx m) := by
  rw [parseEntry]
  refine (parseKey_safe serves lx).bind fun keyed shorter => ?_
  obtain ⟨key, lx₁⟩ := keyed
  change lx₁.rest.length < lx.rest.length at shorter
  refine (lexSkipWs_safe lx₁.rest lx₁.line lx₁.asked).bind fun lx₂ le₂ => ?_
  refine (expect_safe lx₂ equals).bind fun expected less => ?_
  cases expected with
  | none => exact .refuse _ _
  | some lx₃ =>
      have less := less lx₃ rfl
      refine (lexSkipWs_safe lx₃.rest lx₃.line lx₃.asked).bind fun lx₄ le₄ => ?_
      have tail : lx₄.rest.tail.length ≤ lx₄.rest.length := by
        rw [List.length_tail]
        exact Nat.sub_le _ _
      refine (lexPeek_safe lx₄).bind fun c _ => ?_
      split
      · refine (parseString_safe serves { lx₄ with rest := lx₄.rest.tail }).bind fun result le => ?_
        obtain ⟨val, lx₅⟩ := result
        cases val with
        | none => exact .refuse _ _
        | some val =>
            refine (setScalar_safe key (.ofBytes val) lx₅ m).bind fun m' _ => .ok ?_
            change lx₅.rest.length ≤ lx₄.rest.tail.length at le
            change lx₅.rest.length < lx.rest.length
            omega
      split
      · split
        · exact .refuse _ _
        · have fits : lx₄.rest.tail.length < fuel := by omega
          refine (parseItems_safe serves _ fits).bind fun result le => .ok ?_
          change result.2.rest.length ≤ lx₄.rest.tail.length at le
          change result.2.rest.length < lx.rest.length
          omega
      · refine (parseBare_safe lx₄).bind fun lx₅ le => .ok ?_
        change lx₅.rest.length < lx.rest.length
        omega

theorem length_skipLine (other : c ≠ newline) :
    Safe (fun t => t.1.length ≤ s.length) (skipLine (c :: s)) := by
  obtain ⟨shorter, scanned⟩ := scanTo_eq (· = newline) (c :: s)
  refine .inl ⟨_, scanned, ?_⟩
  have passes : (!decide (c = newline)) = true := by simpa using other
  change ((c :: s).dropWhile fun d => !decide (d = newline)).length ≤ s.length
  rw [List.dropWhile_cons, passes]
  exact List.length_dropWhile_le _ s

theorem parseEntries_safe (serves : Nat → Bool) {fuel : Nat} {lx : Lex} (m : Parsed)
    (enough : lx.rest.length < fuel) : Safe (fun _ => True) (parseEntries serves fuel lx m) := by
  induction fuel generalizing lx m with
  | zero => omega
  | succ fuel ih =>
      obtain ⟨start, line, asked⟩ := lx
      change start.length < fuel + 1 at enough
      rw [parseEntries]
      refine (lexSkipWs_safe start line asked).bind fun lx le => ?_
      split
      case isTrue => exact .ok trivial
      case isFalse some_ =>
        obtain ⟨rest, line, asked⟩ := lx
        obtain ⟨c, s, rfl⟩ := List.exists_cons_of_ne_nil some_
        change (c :: s).length ≤ start.length at le
        rw [List.length_cons] at le
        change Safe _ (if c = open_ then _ else _)
        split
        case isTrue bracket =>
          refine (length_skipLine (by rw [bracket]; decide)).bind fun t shorter => ?_
          refine ih m ?_
          change t.1.length < fuel
          omega
        case isFalse =>
          refine (parseEntry_safe serves m (by change s.length + 1 ≤ fuel + 1; omega)).bind
            fun result shorter => ?_
          refine ih _ ?_
          change result.2.rest.length < s.length + 1 at shorter
          omega

/-- On every text and for every answer of the arena the parser comes to its end without
reading past the end of the text or miscounting a string. -/
theorem unitParse_safe (arena : Bool) (serves : Nat → Bool) (bytes : Option Bytes) :
    Safe (fun _ => True) (unitParse arena serves bytes) := by
  rw [unitParse.eq_def]
  split
  · refine (parseEntries_safe serves .empty (Nat.lt_succ_self _)).bind fun result _ => ?_
    obtain ⟨m, lx⟩ := result
    dsimp only
    split
    · exact .inr ⟨_, _, _, rfl⟩
    split
    · exact .refuse _ _
    · exact .ok trivial
  · exact .refuse _ _

end Metal.Build.Manifest
