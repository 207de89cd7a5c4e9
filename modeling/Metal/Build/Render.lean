import Metal.Build.Lexer

namespace Metal.Build.Manifest

open Metal.Lib
open Metal.Lib.Json

/-! Manifests as they are written, and that the parser reads the unit back. -/

inductive Blank : Bytes → Prop
  | nil : Blank []
  | blank {c : UInt8} {s : Bytes} (is : isBlank c = true) (rest : Blank s) : Blank (c :: s)
  | newline {s : Bytes} (rest : Blank s) : Blank (newline :: s)
  | comment {text s : Bytes} (line : newline ∉ text) (rest : Blank s) :
      Blank (hash :: (text ++ newline :: s))

inductive Filler : Bytes → Prop
  | blank {gap : Bytes} (blank : Blank gap) : Filler gap
  | table {gap text s : Bytes} (blank : Blank gap) (line : newline ∉ text) (rest : Filler s) :
      Filler (gap ++ open_ :: (text ++ newline :: s))

inductive Ending : Bytes → Prop
  | whole {filler : Bytes} (is : Filler filler) : Ending filler
  | comment {filler text : Bytes} (is : Filler filler) (line : newline ∉ text) :
      Ending (filler ++ hash :: text)
  | table {filler text : Bytes} (is : Filler filler) (line : newline ∉ text) :
      Ending (filler ++ open_ :: text)

def escape (s : Bytes) : Bytes :=
  s.flatMap fun c => if c = quote ∨ c = backslash then [backslash, c] else [c]

inductive Items : List CString → Bytes → Prop
  | nil {gap : Bytes} (blank : Blank gap) : Items [] (gap ++ [close])
  | cons {gap gap' sep rest : Bytes} {s : CString} {ss : List CString} (blank : Blank gap)
      (blank' : Blank gap') (comma_ : sep = [] ∨ sep = [comma]) (items : Items ss rest) :
      Items (s :: ss) (gap ++ quote :: (escape s.bytes ++ quote :: (gap' ++ (sep ++ rest))))

inductive Key
  | scalar (k : ScalarKey)
  | array (k : ArrayKey)
  deriving DecidableEq

def Key.name : Key → CString
  | .scalar k => k.name
  | .array k => k.name

def Unit.scalar (u : Unit) : ScalarKey → CString
  | .fqn => u.fqn
  | .impl => u.impl
  | .version => u.version

def Unit.array (u : Unit) : ArrayKey → List CString
  | .sources => u.sources
  | .includeDirs => u.includeDirs
  | .defines => u.defines
  | .depends => u.depends

inductive Value (u : Unit) : Key → Bytes → Prop
  | scalar (k : ScalarKey) : Value u (.scalar k) (quote :: (escape (u.scalar k).bytes ++ [quote]))
  | array {k : ArrayKey} {items : Bytes} (are : Items (u.array k) items) :
      Value u (.array k) (open_ :: items)

inductive Text (u : Unit) : List Key → Bytes → Prop
  | ending {s : Bytes} (is : Ending s) : Text u [] s
  | entry {key : Key} {keys : List Key} {filler gap gap' value rest : Bytes}
      (before : Filler filler) (blank : Blank gap) (blank' : Blank gap') (is : Value u key value)
      (others : Text u keys rest) :
      Text u (key :: keys)
        (filler ++ (key.name.bytes ++ (gap ++ equals :: (gap' ++ (value ++ rest)))))

/-- The unit can be written: its scalars fit their fields, and no string has a line
break. -/
structure Unit.Fits (u : Unit) : Prop where
  fqn : u.fqn.bytes ≠ []
  impl : u.impl.bytes ≠ []
  room : ∀ k, (u.scalar k).length < k.room
  scalarLine : ∀ k, newline ∉ (u.scalar k).bytes
  arrayLine : ∀ k, ∀ s ∈ u.array k, newline ∉ s.bytes

structure Complete (u : Unit) (keys : List Key) : Prop where
  nodup : keys.Nodup
  scalar : ∀ k, Key.scalar k ∉ keys → u.scalar k = .empty
  array : ∀ k, Key.array k ∉ keys → u.array k = []

theorem dropWhile_line {text : Bytes} (line : newline ∉ text) (s : Bytes) :
    (text ++ newline :: s).dropWhile (fun d => !(d = newline : Bool)) = newline :: s := by
  rw [List.dropWhile_append_of_pos, List.dropWhile_cons_of_neg (by decide)]
  intro c member
  have other : c ≠ newline := fun same => line (same ▸ member)
  simpa using other

theorem dropWhile_last {text : Bytes} (line : newline ∉ text) :
    text.dropWhile (fun d => !(d = newline : Bool)) = [] := by
  rw [List.dropWhile_eq_nil_iff]
  intro c member
  have other : c ≠ newline := fun same => line (same ▸ member)
  simpa using other

variable {gap : Bytes}

theorem lexSkipWs_gap (blank : Blank gap) (s : Bytes) (line asked : Nat) :
    ∃ line', lexSkipWs ⟨gap ++ s, line, asked⟩ = lexSkipWs ⟨s, line', asked⟩ := by
  induction blank generalizing line with
  | nil => exact ⟨line, rfl⟩
  | blank is rest ih =>
      obtain ⟨line', skipped⟩ := ih line
      refine ⟨line', ?_⟩
      rw [List.cons_append, lexSkipWs_cons, if_pos is, skipped]
  | newline rest ih =>
      obtain ⟨line', skipped⟩ := ih (line + 1)
      refine ⟨line', ?_⟩
      rw [List.cons_append, lexSkipWs_cons, if_neg (by decide), if_pos rfl, skipped]
  | comment text rest ih =>
      obtain ⟨line', skipped⟩ := ih (line + 1)
      refine ⟨line', ?_⟩
      rw [List.cons_append, lexSkipWs_cons, if_neg (by decide), if_neg (by decide), if_pos rfl,
        List.append_assoc, List.cons_append, dropWhile_line text, lexSkipWs_cons,
        if_neg (by decide), if_pos rfl, skipped]

def Solid (c : UInt8) : Prop := isBlank c = false ∧ c ≠ newline ∧ c ≠ hash

instance (c : UInt8) : Decidable (Solid c) := inferInstanceAs (Decidable (_ ∧ _))

variable {c : UInt8}

theorem lexSkipWs_solid (solid : Solid c) (s : Bytes) (line asked : Nat) :
    lexSkipWs ⟨c :: s, line, asked⟩ = .ok ⟨c :: s, line, asked⟩ := by
  rw [lexSkipWs_cons, if_neg (by rw [solid.1]; decide), if_neg solid.2.1, if_neg solid.2.2]

theorem lexSkipWs_token (blank : Blank gap) (solid : Solid c) (s : Bytes) (line asked : Nat) :
    ∃ line', lexSkipWs ⟨gap ++ c :: s, line, asked⟩ = .ok ⟨c :: s, line', asked⟩ := by
  obtain ⟨line', skipped⟩ := lexSkipWs_gap blank (c :: s) line asked
  exact ⟨line', skipped.trans (lexSkipWs_solid solid s line' asked)⟩

theorem escape_cons (c : UInt8) (s : Bytes) :
    escape (c :: s) =
      (if c = quote ∨ c = backslash then [backslash, c] else [c]) ++ escape s := rfl

theorem length_escape (s rest : Bytes) :
    rest.length + 1 ≤ (escape s ++ quote :: rest).length := by
  rw [List.length_append, List.length_cons]
  exact Nat.le_add_left _ _

theorem escapes_special (special : c = quote ∨ c = backslash) (s : Bytes) :
    Escapes backslash (c :: s) := by
  refine ⟨rfl, ?_⟩
  rcases special with rfl | rfl
  · exact .inl rfl
  · exact .inr rfl

variable {s : Bytes}

theorem scanString_escape (line : newline ∉ s) (rest : Bytes) (len : Nat) :
    scanString (escape s ++ quote :: rest) len = .ok (some (quote :: rest, len + s.length)) := by
  induction s generalizing len with
  | nil => exact scanString_quote rest len
  | cons c s ih =>
      have others : newline ∉ s := fun member => line (List.mem_cons_of_mem c member)
      have same : c ≠ newline := fun is => line (is ▸ List.mem_cons_self)
      rw [escape_cons, List.length_cons, Nat.add_comm s.length, ← Nat.add_assoc]
      split
      case isTrue special =>
        change scanString (backslash :: c :: (escape s ++ quote :: rest)) len = _
        rw [scanString_cons (by decide) (by decide), if_pos (escapes_special special _)]
        exact ih others (len + 1)
      case isFalse plain =>
        rw [not_or] at plain
        change scanString (c :: (escape s ++ quote :: rest)) len = _
        rw [scanString_cons plain.1 same, if_neg fun escapes => plain.2 escapes.1]
        exact ih others (len + 1)

theorem copyString_escape (s rest out : Bytes) :
    copyString (rest.length + 1) (escape s ++ quote :: rest) out = .ok (out ++ s) := by
  induction s generalizing out with
  | nil =>
      rw [List.append_nil]
      exact copyString_stop (r := quote :: rest) (Nat.le_refl (rest.length + 1)) out
  | cons c s ih =>
      have more := length_escape s rest
      rw [escape_cons]
      split
      case isTrue special =>
        change copyString _ (backslash :: c :: (escape s ++ quote :: rest)) out = _
        rw [copyString_cons (Nat.le_succ_of_le more) (fun _ => Nat.lt_succ_of_le more),
          if_pos (escapes_special special _)]
        change copyString _ (escape s ++ quote :: rest) (out ++ [c]) = _
        rw [ih, List.append_assoc]
        rfl
      case isFalse plain =>
        rw [not_or] at plain
        change copyString _ (c :: (escape s ++ quote :: rest)) out = _
        rw [copyString_cons more fun escapes => absurd escapes.1 plain.2,
          if_neg fun escapes => plain.2 escapes.1, ih, List.append_assoc]
        rfl

abbrev roomy : Nat → Bool := fun _ => true

theorem parseString_escape (line : newline ∉ s) (rest : Bytes) (at_ asked : Nat) :
    parseString roomy ⟨escape s ++ quote :: rest, at_, asked⟩ =
      .ok (some s, ⟨rest, at_, asked + 1⟩) := by
  rw [parseString, scanString_escape line rest 0]
  change (copyString (rest.length + 1) (escape s ++ quote :: rest) [] >>= _) = _
  rw [copyString_escape s rest []]
  change (if s.length = 0 + s.length then _ else _) = _
  rw [if_pos (Nat.zero_add _).symm]
  rfl

def endsKey (c : UInt8) : Bool := c = equals || c = newline || c = hash || isBlank c

theorem gap_endsKey (blank : Blank gap) (rest : Bytes) :
    ∃ c s, gap ++ equals :: rest = c :: s ∧ endsKey c = true := by
  cases blank with
  | nil => exact ⟨equals, rest, rfl, by decide⟩
  | blank is _ => exact ⟨_, _, rfl, by rw [endsKey, is, Bool.or_true]⟩
  | newline _ => exact ⟨newline, _, rfl, by decide⟩
  | comment _ _ => exact ⟨hash, _, rfl, by decide⟩

theorem name_plain (key : Key) :
    key.name.bytes ≠ [] ∧ ∀ c ∈ key.name.bytes, endsKey c = false := by
  cases key with
  | scalar k => cases k <;> decide +kernel
  | array k => cases k <;> decide +kernel

theorem name_front (key : Key) :
    ∃ c name, key.name.bytes = c :: name ∧ Solid c ∧ c ≠ open_ := by
  cases key with
  | scalar k | array k => cases k <;> exact ⟨_, _, rfl, by decide, by decide⟩

theorem parseKey_name (key : Key) (blank : Blank gap) (rest : Bytes) (line asked : Nat) :
    parseKey roomy ⟨key.name.bytes ++ (gap ++ equals :: rest), line, asked⟩ =
      .ok (key.name, ⟨gap ++ equals :: rest, line, asked + 1⟩) := by
  obtain ⟨some_, plain⟩ := name_plain key
  obtain ⟨c, s, front, ends⟩ := gap_endsKey blank rest
  obtain ⟨shorter, scanned⟩ := scanTo_eq endsKey (key.name.bytes ++ (gap ++ equals :: rest))
  have left : (key.name.bytes ++ (gap ++ equals :: rest)).dropWhile (fun c => !endsKey c) =
      gap ++ equals :: rest := by
    rw [List.dropWhile_append_of_pos fun c member => by rw [plain c member]; rfl, front,
      List.dropWhile_cons_of_neg (by rw [ends]; decide)]
  have length : (key.name.bytes ++ (gap ++ equals :: rest)).length -
      (gap ++ equals :: rest).length = key.name.bytes.length := by
    rw [List.length_append, Nat.add_sub_cancel]
  rw [parseKey, keyEnd]
  change (scanTo endsKey _ >>= _) = _
  rw [scanned]
  generalize (key.name.bytes ++ (gap ++ equals :: rest)).dropWhile (fun c => !endsKey c) = t
    at left shorter
  subst left
  change (if _ - _ = 0 then _ else _) = _
  rw [length, if_neg (mt List.length_eq_zero_iff.mp some_)]
  change Except.ok (CString.ofBytes ((key.name.bytes ++ _).take _), _) = _
  rw [List.take_left, CString.ofBytes_bytes]

theorem expect_self (c : UInt8) (s : Bytes) (line asked : Nat) :
    expect ⟨c :: s, line, asked⟩ c = .ok (some ⟨s, line, asked⟩) := by
  rw [expect, if_neg (List.cons_ne_nil c s)]
  change Except.ok (if c = c then _ else _) = _
  rw [if_pos rfl]
  rfl

theorem lexPeek_cons (c : UInt8) (s : Bytes) (line asked : Nat) :
    lexPeek ⟨c :: s, line, asked⟩ = .ok c := by
  rw [lexPeek, if_neg (List.cons_ne_nil c s)]
  rfl

theorem stringsPush_roomy (v : CString) {s : Strings} (room : s.oom = false) (lx : Lex) :
    ∃ cap asked, stringsPush roomy v s lx =
      (⟨s.items ++ [v], cap, false⟩, { lx with asked := asked }) := by
  rw [stringsPush, if_neg (by rw [room]; decide)]
  split
  · exact ⟨_, _, rfl⟩
  · refine ⟨s.cap, lx.asked, ?_⟩
    rw [room]

variable {ss : List CString}

theorem Items.strip {items : Bytes} (are : Items ss items) :
    ∃ gap c s, Blank gap ∧ Solid c ∧ c ≠ comma ∧ items = gap ++ c :: s ∧ Items ss (c :: s) := by
  cases are with
  | nil blank => exact ⟨_, close, [], blank, by decide, by decide, rfl, .nil .nil⟩
  | cons blank blank' comma_ others =>
      exact ⟨_, quote, _, blank, by decide, by decide, rfl, .cons .nil blank' comma_ others⟩

theorem behind_string {sep : Bytes} (blank : Blank gap) (comma_ : sep = [] ∨ sep = [comma])
    {items : Bytes} (are : Items ss items) (r : Bytes) (line asked : Nat) :
    ∃ c s line' items', Items ss items' ∧ items'.length ≤ items.length ∧
      lexSkipWs ⟨gap ++ (sep ++ (items ++ r)), line, asked⟩ = .ok ⟨c :: s, line', asked⟩ ∧
        (if c = comma then s else c :: s) = items' ++ r := by
  rcases comma_ with rfl | rfl
  · obtain ⟨gap', c, s, blank', solid, other, rfl, stripped⟩ := are.strip
    obtain ⟨line₁, first⟩ := lexSkipWs_gap blank (gap' ++ c :: (s ++ r)) line asked
    obtain ⟨line₂, second⟩ := lexSkipWs_token blank' solid (s ++ r) line₁ asked
    refine ⟨c, s ++ r, line₂, c :: s, stripped, ?_, ?_, if_neg other⟩
    · rw [List.length_append]
      exact Nat.le_add_left _ _
    · rw [List.nil_append, List.append_assoc, List.cons_append, first, second]
  · obtain ⟨line', skipped⟩ :=
      lexSkipWs_token (c := comma) blank (by decide) (items ++ r) line asked
    exact ⟨comma, items ++ r, line', items, are, Nat.le_refl _, skipped, if_pos rfl⟩

variable {fuel : Nat}

theorem parseItems_items (lines : ∀ s ∈ ss, newline ∉ s.bytes) {items : Bytes}
    (are : Items ss items) (r : Bytes) (enough : (items ++ r).length < fuel) (line asked : Nat)
    (st : Strings) (room : st.oom = false) :
    ∃ cap line' asked', parseItems roomy fuel ⟨items ++ r, line, asked⟩ st =
      .ok (⟨st.items ++ ss, cap, false⟩, ⟨r, line', asked'⟩) := by
  induction ss generalizing items fuel line asked st with
  | nil =>
      cases are with
      | nil blank =>
          obtain ⟨line', skipped⟩ := lexSkipWs_token (c := close) blank (by decide) r line asked
          cases fuel with
          | zero => omega
          | succ fuel =>
              refine ⟨st.cap, line', asked, ?_⟩
              rw [parseItems, List.append_assoc, List.cons_append, List.nil_append, skipped]
              dsimp only [bind, Except.bind]
              rw [lexPeek_cons]
              dsimp only
              rw [if_pos rfl, List.append_nil, ← room]
              rfl
  | cons s ss ih =>
      cases are with
      | cons blank blank' comma_ others =>
          rename_i gap gap' sep rest
          cases fuel with
          | zero => omega
          | succ fuel =>
              have line_s := lines s List.mem_cons_self
              have lines_ss := fun other member => lines other (List.mem_cons_of_mem s member)
              obtain ⟨line₁, opened⟩ := lexSkipWs_token (c := quote) blank (by decide)
                (escape s.bytes ++ quote :: (gap' ++ (sep ++ (rest ++ r)))) line asked
              obtain ⟨cap, asked₂, pushed⟩ := stringsPush_roomy s room
                ⟨gap' ++ (sep ++ (rest ++ r)), line₁, asked + 1⟩
              obtain ⟨c, behind, line₃, items', are', le, skipped, next⟩ :=
                behind_string blank' comma_ others r line₁ asked₂
              have short : (items' ++ r).length < fuel := by
                simp only [List.length_append, List.length_cons] at enough ⊢
                omega
              obtain ⟨cap', line', asked', read⟩ :=
                ih lines_ss are' short line₃ asked₂ ⟨st.items ++ [s], cap, false⟩ rfl
              refine ⟨cap', line', asked', ?_⟩
              have text : gap ++ quote :: (escape s.bytes ++ quote :: (gap' ++ (sep ++ rest))) ++ r =
                  gap ++ quote :: (escape s.bytes ++ quote :: (gap' ++ (sep ++ (rest ++ r)))) := by
                simp only [List.append_assoc, List.cons_append]
              rw [parseItems, text, opened]
              dsimp only [bind, Except.bind]
              rw [lexPeek_cons]
              dsimp only
              rw [if_neg (by decide), if_neg (List.cons_ne_nil _ _), expect_self]
              dsimp only
              rw [parseString_escape line_s]
              dsimp only
              rw [CString.ofBytes_bytes, pushed]
              dsimp only
              rw [skipped]
              dsimp only
              rw [lexPeek_cons]
              dsimp only
              have place : (if c = comma then (⟨behind, line₃, asked₂⟩ : Lex)
                  else ⟨c :: behind, line₃, asked₂⟩) = ⟨items' ++ r, line₃, asked₂⟩ := by
                rw [← next]
                split <;> rfl
              rw [List.tail_cons, place, read, List.append_assoc]
              rfl

structure Holds (u : Unit) (done : List Key) (m : Parsed) : Prop where
  scalar : ∀ k, m.scalar k = if Key.scalar k ∈ done then u.scalar k else .empty
  items : ∀ k, (m.array k).items = if Key.array k ∈ done then u.array k else []
  room : ∀ k, (m.array k).oom = false

theorem holds_empty (u : Unit) : Holds u [] .empty :=
  ⟨fun _ => rfl, fun _ => rfl, fun _ => rfl⟩

theorem scalarOf_name (k : ScalarKey) : scalarOf k.name = some k := by cases k <;> decide

theorem arrayOf_name (k : ArrayKey) : arrayOf k.name = some k := by cases k <;> decide

variable {u : Unit} {done : List Key} {m : Parsed}

theorem Holds.setScalar (holds : Holds u done m) (k : ScalarKey) :
    Holds u (.scalar k :: done)
      { m with scalar := fun k' => if k' = k then u.scalar k else m.scalar k' } := by
  refine ⟨fun k' => ?_, fun k' => ?_, holds.room⟩
  · rcases eq_or_ne k' k with rfl | other
    · rw [if_pos List.mem_cons_self]
      exact if_pos rfl
    · have same : Key.scalar k' ∈ Key.scalar k :: done ↔ Key.scalar k' ∈ done := by
        simp [other]
      rw [if_congr same rfl rfl, ← holds.scalar k']
      exact if_neg other
  · have same : Key.array k' ∈ Key.scalar k :: done ↔ Key.array k' ∈ done := by simp
    rw [if_congr same rfl rfl]
    exact holds.items k'

theorem Holds.setArray (holds : Holds u done m) {k : ArrayKey} {s : Strings}
    (items : s.items = u.array k) (room : s.oom = false) :
    Holds u (.array k :: done)
      { m with array := fun k' => if k' = k then s else m.array k' } := by
  refine ⟨fun k' => ?_, fun k' => ?_, fun k' => ?_⟩
  · have same : Key.scalar k' ∈ Key.array k :: done ↔ Key.scalar k' ∈ done := by simp
    rw [if_congr same rfl rfl]
    exact holds.scalar k'
  · rcases eq_or_ne k' k with rfl | other
    · rw [if_pos List.mem_cons_self, ← items]
      exact congrArg Strings.items (if_pos rfl)
    · have same : Key.array k' ∈ Key.array k :: done ↔ Key.array k' ∈ done := by
        simp [other]
      rw [if_congr same rfl rfl, ← holds.items k']
      exact congrArg Strings.items (if_neg other)
  · rcases eq_or_ne k' k with rfl | other
    · exact (congrArg Strings.oom (if_pos rfl)).trans room
    · exact (congrArg Strings.oom (if_neg other)).trans (holds.room k')

theorem setScalar_name (k : ScalarKey) {val : CString} (fits : val.length < k.room) (lx : Lex)
    (m : Parsed) :
    setScalar (Key.scalar k).name val lx m =
      .ok { m with scalar := fun k' => if k' = k then val else m.scalar k' } := by
  have known : scalarOf (Key.scalar k).name = some k := scalarOf_name k
  rw [setScalar, known]
  exact if_neg (Nat.not_le.mpr fits)

theorem parseEntry_value (fits : u.Fits) (holds : Holds u done m) {key : Key} (fresh : key ∉ done)
    {gap' value : Bytes} (blank : Blank gap) (blank' : Blank gap') (is : Value u key value)
    (r : Bytes) (line asked : Nat)
    (enough : (key.name.bytes ++ (gap ++ equals :: (gap' ++ (value ++ r)))).length ≤ fuel) :
    ∃ m' line' asked', Holds u (key :: done) m' ∧
      parseEntry roomy fuel
          ⟨key.name.bytes ++ (gap ++ equals :: (gap' ++ (value ++ r))), line, asked⟩ m =
        .ok (m', ⟨r, line', asked'⟩) := by
  obtain ⟨line₁, first⟩ :=
    lexSkipWs_token (c := equals) blank (by decide) (gap' ++ (value ++ r)) line (asked + 1)
  simp only [parseEntry, parseKey_name key blank, bind, Except.bind, first, expect_self]
  cases is with
  | scalar k =>
      obtain ⟨line₂, second⟩ := lexSkipWs_token (c := quote) blank' (by decide)
        (escape (u.scalar k).bytes ++ quote :: r) line₁ (asked + 1)
      have text : gap' ++ (quote :: (escape (u.scalar k).bytes ++ [quote]) ++ r) =
          gap' ++ quote :: (escape (u.scalar k).bytes ++ quote :: r) := by
        simp only [List.append_assoc, List.cons_append, List.nil_append]
      refine ⟨_, line₂, asked + 1 + 1, holds.setScalar k, ?_⟩
      rw [text, second]
      dsimp only
      rw [lexPeek_cons]
      dsimp only
      rw [if_pos rfl, List.tail_cons, parseString_escape (fits.scalarLine k)]
      dsimp only
      rw [CString.ofBytes_bytes, setScalar_name k (fits.room k)]
      rfl
  | @array k items are =>
      have known : arrayOf (Key.array k).name = some k := arrayOf_name k
      have unread : (m.array k).items = [] := by rw [holds.items k, if_neg fresh]
      obtain ⟨line₂, second⟩ :=
        lexSkipWs_token (c := open_) blank' (by decide) (items ++ r) line₁ (asked + 1)
      have short : (items ++ r).length < fuel := by
        simp only [List.length_append, List.length_cons] at enough ⊢
        omega
      obtain ⟨cap, line₃, asked₃, read⟩ := parseItems_items (fits.arrayLine k) are r short line₂
        (asked + 1) (m.array k) (holds.room k)
      rw [unread, List.nil_append] at read
      refine ⟨_, line₃, asked₃, holds.setArray (k := k) (s := ⟨u.array k, cap, false⟩) rfl rfl, ?_⟩
      rw [List.cons_append, second]
      dsimp only
      rw [lexPeek_cons]
      dsimp only
      rw [if_neg (by decide), if_pos rfl, List.tail_cons, known]
      dsimp only
      rw [read]
      rfl

theorem skipLine_line {text : Bytes} (other : c ≠ newline) (line : newline ∉ text) (s : Bytes) :
    ∃ shorter, skipLine (c :: (text ++ newline :: s)) = .ok ⟨newline :: s, shorter⟩ := by
  have whole : newline ∉ c :: text := by
    rw [List.mem_cons]
    exact not_or.mpr ⟨other.symm, line⟩
  obtain ⟨shorter, scanned⟩ := scanTo_eq (· = newline) (c :: (text ++ newline :: s))
  have left : (c :: (text ++ newline :: s)).dropWhile (fun d => !(d = newline : Bool)) =
      newline :: s := dropWhile_line whole s
  rw [skipLine, scanned]
  generalize (c :: (text ++ newline :: s)).dropWhile (fun d => !(d = newline : Bool)) = t
    at left shorter
  subst left
  exact ⟨shorter, rfl⟩

theorem skipLine_last {text : Bytes} (other : c ≠ newline) (line : newline ∉ text) :
    ∃ shorter, skipLine (c :: text) = .ok ⟨[], shorter⟩ := by
  have whole : newline ∉ c :: text := by
    rw [List.mem_cons]
    exact not_or.mpr ⟨other.symm, line⟩
  obtain ⟨shorter, scanned⟩ := scanTo_eq (· = newline) (c :: text)
  have left := dropWhile_last whole
  rw [skipLine, scanned]
  generalize (c :: text).dropWhile (fun d => !(d = newline : Bool)) = t at left shorter
  subst left
  exact ⟨shorter, rfl⟩

theorem parseEntries_newline (fuel : Nat) (s : Bytes) (line asked : Nat) (m : Parsed) :
    parseEntries roomy fuel ⟨newline :: s, line, asked⟩ m =
      parseEntries roomy fuel ⟨s, line + 1, asked⟩ m := by
  cases fuel with
  | zero => rfl
  | succ fuel =>
      have skipped : lexSkipWs ⟨newline :: s, line, asked⟩ = lexSkipWs ⟨s, line + 1, asked⟩ := by
        rw [lexSkipWs_cons, if_neg (by decide), if_pos rfl]
      rw [parseEntries, parseEntries, skipped]

theorem parseEntries_filler {filler : Bytes} (is : Filler filler) (s : Bytes)
    (enough : (filler ++ s).length < fuel) (line asked : Nat) (m : Parsed) :
    ∃ fuel' line', s.length < fuel' ∧ parseEntries roomy fuel ⟨filler ++ s, line, asked⟩ m =
      parseEntries roomy fuel' ⟨s, line', asked⟩ m := by
  induction is generalizing fuel line with
  | @blank gap blank =>
      cases fuel with
      | zero => omega
      | succ fuel =>
          obtain ⟨line', skipped⟩ := lexSkipWs_gap blank s line asked
          rw [List.length_append] at enough
          refine ⟨fuel + 1, line', by omega, ?_⟩
          rw [parseEntries, parseEntries, skipped]
  | @table gap text rest blank line_ others ih =>
      cases fuel with
      | zero => omega
      | succ fuel =>
          obtain ⟨line₁, skipped⟩ := lexSkipWs_token (c := open_) blank (by decide)
            (text ++ newline :: (rest ++ s)) line asked
          have text_eq : gap ++ open_ :: (text ++ newline :: rest) ++ s =
              gap ++ open_ :: (text ++ newline :: (rest ++ s)) := by
            simp only [List.append_assoc, List.cons_append]
          rw [text_eq] at enough ⊢
          simp only [List.length_append, List.length_cons] at enough
          obtain ⟨shorter, scanned⟩ :=
            skipLine_line (c := open_) (by decide) line_ (rest ++ s)
          have less : (rest ++ s).length < fuel := by
            rw [List.length_append]
            omega
          obtain ⟨fuel', line', short, read⟩ := ih less (line₁ + 1)
          refine ⟨fuel', line', short, ?_⟩
          rw [← read, parseEntries, skipped]
          dsimp only [bind, Except.bind]
          rw [if_neg (List.cons_ne_nil _ _)]
          dsimp only [deref]
          rw [if_pos rfl, scanned]
          exact parseEntries_newline fuel (rest ++ s) line₁ asked m

theorem parseEntries_nil (enough : 0 < fuel) (line asked : Nat) (m : Parsed) :
    parseEntries roomy fuel ⟨[], line, asked⟩ m = .ok (m, ⟨[], line, asked⟩) := by
  cases fuel with
  | zero => omega
  | succ fuel =>
      rw [parseEntries, lexSkipWs_nil]
      rfl

theorem parseEntries_ending (is : Ending s) (enough : s.length < fuel) (line asked : Nat)
    (m : Parsed) : ∃ lx, parseEntries roomy fuel ⟨s, line, asked⟩ m = .ok (m, lx) := by
  cases is with
  | whole filler =>
      obtain ⟨fuel', line', short, read⟩ :=
        parseEntries_filler filler [] (by rwa [List.append_nil]) line asked m
      rw [List.append_nil] at read
      exact ⟨_, read.trans (parseEntries_nil short line' asked m)⟩
  | @comment filler text is line_ =>
      obtain ⟨fuel', line', short, read⟩ :=
        parseEntries_filler is (hash :: text) enough line asked m
      refine ⟨_, read.trans (Eq.trans ?_
        (parseEntries_nil (Nat.zero_lt_of_lt short) line' asked m))⟩
      have skipped : lexSkipWs ⟨hash :: text, line', asked⟩ = lexSkipWs ⟨[], line', asked⟩ := by
        rw [lexSkipWs_cons, if_neg (by decide), if_neg (by decide), if_pos rfl,
          dropWhile_last line_]
      cases fuel' with
      | zero => cases short
      | succ fuel' => rw [parseEntries, parseEntries, skipped]
  | @table filler text is line_ =>
      obtain ⟨fuel', line', short, read⟩ :=
        parseEntries_filler is (open_ :: text) enough line asked m
      cases fuel' with
      | zero => cases short
      | succ fuel' =>
          rw [List.length_cons] at short
          obtain ⟨line₁, skipped⟩ := lexSkipWs_token (c := open_) .nil (by decide) text line' asked
          obtain ⟨shorter, scanned⟩ := skipLine_last (c := open_) (by decide) line_
          refine ⟨_, read.trans (Eq.trans ?_
            (parseEntries_nil (show 0 < fuel' by omega) line₁ asked m))⟩
          rw [List.nil_append] at skipped
          rw [parseEntries, skipped]
          dsimp only [bind, Except.bind]
          rw [if_neg (List.cons_ne_nil _ _)]
          dsimp only [deref]
          rw [if_pos rfl, scanned]

theorem parseEntries_text (fits : u.Fits) {keys : List Key} (text : Text u keys s)
    (nodup : keys.Nodup) (fresh : ∀ key ∈ keys, key ∉ done) (holds : Holds u done m)
    (enough : s.length < fuel) (line asked : Nat) :
    ∃ m' lx, parseEntries roomy fuel ⟨s, line, asked⟩ m = .ok (m', lx) ∧
      Holds u (keys.reverse ++ done) m' := by
  induction text generalizing done m fuel line asked with
  | ending is =>
      obtain ⟨lx, read⟩ := parseEntries_ending is enough line asked m
      exact ⟨m, lx, read, holds⟩
  | @entry key keys filler gap gap' value rest before blank blank' is others ih =>
      obtain ⟨unseen, nodup⟩ := List.nodup_cons.mp nodup
      obtain ⟨fuel', line₁, short, passed⟩ := parseEntries_filler before
        (key.name.bytes ++ (gap ++ equals :: (gap' ++ (value ++ rest)))) enough line asked m
      cases fuel' with
      | zero => nomatch short
      | succ fuel' =>
          obtain ⟨m₁, line₂, asked₂, holds₁, read⟩ := parseEntry_value fits holds
            (fresh key List.mem_cons_self) blank blank' is rest line₁ asked (Nat.le_of_lt short)
          have others_fresh : ∀ other ∈ keys, other ∉ key :: done := by
            intro other member
            rw [List.mem_cons]
            exact not_or.mpr ⟨fun same => unseen (same ▸ member),
              fresh other (List.mem_cons_of_mem key member)⟩
          have rest_short : rest.length < fuel' := by
            have := List.length_pos_iff.mpr (name_plain key).1
            simp only [List.length_append, List.length_cons] at short
            omega
          obtain ⟨m', lx, read', holds'⟩ :=
            ih nodup others_fresh holds₁ rest_short line₂ asked₂
          refine ⟨m', lx, ?_, ?_⟩
          · obtain ⟨c, name, front, solid, other⟩ := name_front key
            rw [passed, parseEntries]
            rw [front, List.cons_append] at read ⊢
            rw [lexSkipWs_solid solid]
            dsimp only [bind, Except.bind]
            rw [if_neg (List.cons_ne_nil _ _)]
            dsimp only [deref]
            rw [if_neg other, read]
            exact read'
          · rw [List.reverse_cons, List.append_assoc]
            exact holds'

/-- A unit that is written with any gaps, comments, table lines, order of the entries and
trailing commas is read back as it is. -/
theorem unitParse_text (fits : u.Fits) {keys : List Key} (complete : Complete u keys)
    {bytes : Bytes} (text : Text u keys bytes) :
    unitParse true roomy (some bytes) = .ok u := by
  obtain ⟨m, lx, read, holds⟩ := parseEntries_text fits text complete.nodup
    (fun _ _ => List.not_mem_nil) (holds_empty u) (Nat.lt_succ_self _) 1 0
  rw [List.append_nil] at holds
  have scalar (k : ScalarKey) : m.scalar k = u.scalar k := by
    rw [holds.scalar k]
    split
    case isTrue => rfl
    case isFalse absent => exact (complete.scalar k (by simpa using absent)).symm
  have items (k : ArrayKey) : (m.array k).items = u.array k := by
    rw [holds.items k]
    split
    case isTrue => rfl
    case isFalse absent => exact (complete.array k (by simpa using absent)).symm
  have named : ¬ ((u.scalar .fqn).bytes = [] ∨ (u.scalar .impl).bytes = []) :=
    not_or.mpr ⟨fits.fqn, fits.impl⟩
  rw [unitParse, read]
  dsimp only [bind, Except.bind]
  rw [holds.room, holds.room, holds.room, holds.room, if_neg (by decide), scalar, scalar,
    if_neg named, scalar, items, items, items, items]
  rfl

/-- A written unit is read back as it is; and whatever the text is and the arena answers,
the parser comes to its end, within the text and with no string miscounted. -/
theorem unitParse_roundtrip :
    (∀ (u : Unit) (keys : List Key) (bytes : Bytes), u.Fits → Complete u keys →
      Text u keys bytes → unitParse true roomy (some bytes) = .ok u) ∧
      ∀ (arena : Bool) (serves : Nat → Bool) (bytes : Option Bytes),
        Safe (fun _ => True) (unitParse arena serves bytes) :=
  ⟨fun _ _ _ fits complete text => unitParse_text fits complete text, unitParse_safe⟩

def plainUnit : Unit :=
  ⟨nameA, ⟨ascii "c", by decide⟩, .empty, [⟨ascii "x.c", by decide⟩], [], [], []⟩

theorem unitParse_roundtrip_plain :
    unitParse true roomy
        (some (ascii "[unit]\nfqn = \"a\" # name\nimpl=\"c\"\nsources=[\n\"x.c\",]")) =
      .ok plainUnit := by
  have space : Blank [32] := .blank (by decide) .nil
  have end_ : Blank [newline] := .newline .nil
  have remark : Blank (ascii " # name\n") :=
    .blank (by decide) (@Blank.comment (ascii " name") [] (by decide) .nil)
  have header : Filler (ascii "[unit]\n") :=
    @Filler.table [] (ascii "unit]") [] .nil (by decide) (.blank .nil)
  have fits : plainUnit.Fits := by
    refine ⟨by decide, by decide, fun k => ?_, fun k => ?_, fun k => ?_⟩ <;> cases k <;> decide
  have complete : Complete plainUnit [.scalar .fqn, .scalar .impl, .array .sources] := by
    refine ⟨by decide, fun k => ?_, fun k => ?_⟩ <;> cases k <;> decide
  have sources : Items (plainUnit.array .sources) (ascii "\n\"x.c\",]") :=
    .cons end_ .nil (.inr rfl) (.nil .nil)
  have text : Text plainUnit [.scalar .fqn, .scalar .impl, .array .sources]
      (ascii "[unit]\nfqn = \"a\" # name\nimpl=\"c\"\nsources=[\n\"x.c\",]") :=
    .entry header space space (.scalar .fqn) <|
      .entry (.blank remark) .nil .nil (.scalar .impl) <|
        .entry (.blank end_) .nil .nil (.array sources) (.ending (.whole (.blank .nil)))
  exact unitParse_roundtrip.1 plainUnit _ _ fits complete text

end Metal.Build.Manifest
