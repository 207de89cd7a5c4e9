import Metal.Lib.CString
import Metal.Lib.Scan

namespace Metal.Edit

open Metal.Lib

/-! `edit/__impl__`: the spans of the functions and defines of a C source, and the edits
that go by them. -/

def nameMax : Nat := 96

inductive Kind
  | fn
  | define
  deriving DecidableEq

/-- `pm_metal_edit_node_t` -/
structure Node where
  kind : Kind
  name : Bytes
  nameOff : Nat
  spanStart : Nat
  spanEnd : Nat
  bodyOff : Nat
  valueOff : Nat
  valueLen : Nat
  line : Nat
  deriving DecidableEq

inductive Err
  | args
  | notFound
  | noMem
  deriving DecidableEq

/-- The knob of the source; `soft` is zero until it is set. -/
structure Knob where
  soft : Nat
  small : soft ≤ 16 * 1024 * 1024

/-- `limit_now(&pm_edit_limit_source)` -/
def Knob.now (knob : Knob) : Nat := if knob.soft ≠ 0 then knob.soft else 128 * 1024

def apostrophe : UInt8 := 39
def lparen : UInt8 := 40
def rparen : UInt8 := 41
def star : UInt8 := 42
def semicolon : UInt8 := 59
def lbrace : UInt8 := 123
def rbrace : UInt8 := 125

def isIdStart (c : UInt8) : Bool := (97 ≤ c ∧ c ≤ 122) ∨ (65 ≤ c ∧ c ≤ 90) ∨ c = 95

def isIdChar (c : UInt8) : Bool := isIdStart c ∨ (48 ≤ c ∧ c ≤ 57)

def isBlank (c : UInt8) : Bool := c = 32 ∨ c = 9

def isWhite (c : UInt8) : Bool := isBlank c ∨ c = 13 ∨ c = newline

def lineOf (s : Bytes) (off : Nat) : Nat :=
  1 + ((s.take off).takeWhile (· ≠ 0)).count newline

def quotedEnd (s : Bytes) (q : UInt8) (i : Nat) : Nat :=
  if i < s.length ∧ s.getD i 0 ≠ q then
    if s.getD i 0 = backslash ∧ i + 1 < s.length then quotedEnd s q (i + 2)
    else quotedEnd s q (i + 1)
  else i
termination_by s.length - i

def commentEnd (s : Bytes) (i : Nat) : Nat :=
  if i + 1 < s.length ∧ ¬ (s.getD i 0 = star ∧ s.getD (i + 1) 0 = slash) then
    commentEnd s (i + 1)
  else i
termination_by s.length - i

theorem le_quotedEnd (s : Bytes) (q : UInt8) (i : Nat) : i ≤ quotedEnd s q i := by
  induction i using quotedEnd.induct s q with
  | case1 i here escaped ih =>
      rw [quotedEnd, if_pos here, if_pos escaped]
      omega
  | case2 i here plain ih =>
      rw [quotedEnd, if_pos here, if_neg plain]
      omega
  | case3 i closed =>
      exact Nat.le_of_eq (by rw [quotedEnd, if_neg closed])

theorem le_commentEnd (s : Bytes) (i : Nat) : i ≤ commentEnd s i := by
  induction i using commentEnd.induct s with
  | case1 i here ih =>
      rw [commentEnd, if_pos here]
      omega
  | case2 i closed =>
      exact Nat.le_of_eq (by rw [commentEnd, if_neg closed])

def opens (s : Bytes) (i : Nat) (second : UInt8) : Prop :=
  s.getD i 0 = slash ∧ i + 1 < s.length ∧ s.getD (i + 1) 0 = second

instance (s : Bytes) (i : Nat) (second : UInt8) : Decidable (opens s i second) :=
  inferInstanceAs (Decidable (_ ∧ _))

/-- `match_paren`; the depth counts from zero before the open paren. -/
def matchParen (s : Bytes) (i depth : Nat) : Option Nat :=
  if i < s.length then
    let c := s.getD i 0
    if c = lparen then matchParen s (i + 1) (depth + 1)
    else if c = rparen then
      if depth = 1 then some i else matchParen s (i + 1) (depth - 1)
    else if c = quote ∨ c = apostrophe then matchParen s (quotedEnd s c (i + 1) + 1) depth
    else if opens s i star then matchParen s (commentEnd s (i + 2) + 2) depth
    else matchParen s (i + 1) depth
  else none
termination_by s.length - i
decreasing_by
  all_goals
    have := le_quotedEnd s (s.getD i 0) (i + 1)
    have := le_commentEnd s (i + 2)
    omega

structure Head where
  idStart : Nat
  idEnd : Nat
  paren : Nat

theorem isIdChar_of_start {c : UInt8} (start : isIdStart c) : isIdChar c := by
  simp [isIdChar, start]

theorem lt_idEnd {s : Bytes} {p : Nat} (inside : p < s.length)
    (start : isIdStart (s.getD p 0)) : p < skipWhile isIdChar s s.length p := by
  refine lt_skipWhile inside ?_
  rw [List.getElem?_eq_getElem inside, Option.any_some]
  rw [List.getD_eq_getElem?_getD, List.getElem?_eq_getElem inside] at start
  exact isIdChar_of_start start

def headScan (s : Bytes) (p idStart idEnd : Nat) : Option Head :=
  if p < s.length then
    let c := s.getD p 0
    if isIdStart c then
      let past := skipWhile isIdChar s s.length p
      headScan s past p past
    else if c = lparen then some ⟨idStart, idEnd, p⟩
    else if c = semicolon ∨ c = equals ∨ c = lbrace ∨ c = rbrace ∨ c = quote ∨
        c = apostrophe then none
    else if opens s p slash then none
    else if opens s p star then headScan s (commentEnd s (p + 2) + 1) idStart idEnd
    else if c = newline then none
    else headScan s (p + 1) idStart idEnd
  else none
termination_by s.length - p
decreasing_by
  · have := lt_idEnd ‹_› ‹_›
    omega
  · have := le_commentEnd s (p + 2)
    omega
  · omega

def backBlank (s : Bytes) (idEnd : Nat) : Nat → Nat
  | 0 => 0
  | back + 1 =>
      if idEnd < back + 1 ∧ isBlank (s.getD back 0) then backBlank s idEnd back else back + 1

def braceEnd (s : Bytes) (q depth : Nat) : Option Nat :=
  if q < s.length ∧ 0 < depth then
    let c := s.getD q 0
    if c = lbrace then braceEnd s (q + 1) (depth + 1)
    else if c = rbrace then braceEnd s (q + 1) (depth - 1)
    else if c = quote ∨ c = apostrophe then braceEnd s (quotedEnd s c (q + 1) + 1) depth
    else if opens s q star then braceEnd s (commentEnd s (q + 2) + 2) depth
    else if opens s q slash then
      braceEnd s (skipWhile (· ≠ newline) s s.length q + 1) depth
    else braceEnd s (q + 1) depth
  else if depth = 0 then some q
  else none
termination_by s.length - q
decreasing_by
  all_goals
    have := le_quotedEnd s (s.getD q 0) (q + 1)
    have := le_commentEnd s (q + 2)
    have := le_skipWhile (fun c : UInt8 => decide (c ≠ newline)) s s.length q
    omega

def lineEnd (s : Bytes) (ls : Nat) : Nat := skipWhile (· ≠ newline) s s.length ls

def nextLine (s : Bytes) (le : Nat) : Nat := if le < s.length then le + 1 else le

def nameAt (s : Bytes) (start stop : Nat) : Bytes :=
  ((s.drop start).take (stop - start)).take (nameMax - 1)

def isDefine (s : Bytes) (ls le : Nat) : Bool :=
  8 ≤ le - ls ∧ (s.drop ls).take 7 = ascii "#define" ∧ isBlank (s.getD (ls + 7) 0)

def defineName (s : Bytes) (ls le : Nat) : Option (Nat × Nat) :=
  let p := skipWhile isBlank s le (ls + 7)
  if p < le ∧ isIdStart (s.getD p 0) then some (p, skipWhile isIdChar s le p)
  else none

/-- Where the value of a define is looked for. Behind a glued paren without its match that
is the start of the source: `(uint32_t)-1 + 1`. -/
def defineBody (s : Bytes) (ne le : Nat) : Nat :=
  if ne < le ∧ s.getD ne 0 = lparen then
    match matchParen s ne 0 with
    | some close => close + 1
    | none => 0
  else ne

def defineAt (s : Bytes) (ls le : Nat) : Option Node :=
  (defineName s ls le).map fun (ns, ne) =>
    let body := defineBody s ne le
    let value := skipWhile isBlank s le body
    { kind := .define
      name := nameAt s ns ne
      nameOff := ns
      spanStart := ls
      spanEnd := nextLine s le
      bodyOff := body
      valueOff := value
      valueLen := skipWhile (fun c => ¬ isBlank c) s le value - value
      line := lineOf s ls }

def fnAt (s : Bytes) (ls : Nat) : Option Node :=
  match headScan s ls 0 0 with
  | none => none
  | some head =>
      if head.idStart < head.idEnd ∧ backBlank s head.idEnd head.paren = head.idEnd then
        match matchParen s head.paren 0 with
        | none => none
        | some close =>
            let b := skipWhile isWhite s s.length (close + 1)
            if b < s.length ∧ s.getD b 0 = lbrace then
              (braceEnd s (b + 1) 1).map fun q =>
                { kind := .fn
                  name := nameAt s head.idStart head.idEnd
                  nameOff := head.idStart
                  spanStart := ls
                  spanEnd := q
                  bodyOff := b
                  valueOff := 0
                  valueLen := 0
                  line := lineOf s ls }
            else none
      else none

def lineAt (s : Bytes) (ls : Nat) : Option Node × Nat :=
  let le := lineEnd s ls
  if isDefine s ls le then (defineAt s ls le, nextLine s le)
  else if isIdStart (s.getD ls 0) ∧ ls < le then
    match fnAt s ls with
    | some node => (some node, if node.spanEnd < s.length then node.spanEnd else s.length)
    | none => (none, nextLine s le)
  else (none, nextLine s le)

variable {s : Bytes} {i depth close ls q : Nat}

theorem matchParen_spec (found : matchParen s i depth = some close) :
    i ≤ close ∧ close < s.length ∧ s.getD close 0 = rparen := by
  fun_induction matchParen s i depth with
  | case1 i depth inside c open_ ih =>
      exact (ih found).imp_left Nat.le_of_succ_le
  | case2 i inside c notOpen closes =>
      cases found
      exact ⟨Nat.le_refl _, inside, closes⟩
  | case3 i depth inside c notOpen closes more ih =>
      exact (ih found).imp_left Nat.le_of_succ_le
  | case4 i depth inside c notOpen notClose quoted ih =>
      have past := le_quotedEnd s c (i + 1)
      exact (ih found).imp_left fun later => by omega
  | case5 i depth inside c notOpen notClose plain comment ih =>
      have past := le_commentEnd s (i + 2)
      exact (ih found).imp_left fun later => by omega
  | case6 i depth inside c notOpen notClose plain code ih =>
      exact (ih found).imp_left Nat.le_of_succ_le
  | case7 i depth outside =>
      cases found

/-- An identifier that was passed lies between the start of the line and the scan. -/
def Passed (ls p idStart idEnd : Nat) : Prop := idStart < idEnd → ls ≤ idStart ∧ idEnd ≤ p

theorem headScan_spec {p idStart idEnd : Nat} {head : Head}
    (found : headScan s p idStart idEnd = some head) :
    p ≤ head.paren ∧ head.paren < s.length ∧ ∀ {ls}, ls ≤ p → Passed ls p idStart idEnd →
      Passed ls head.paren head.idStart head.idEnd := by
  fun_induction headScan s p idStart idEnd with
  | case1 p idStart idEnd inside c start past ih =>
      have longer := lt_idEnd inside start
      obtain ⟨later, within, passes⟩ := ih found
      exact ⟨by omega, within, fun from_ _ => passes (by omega) fun _ => ⟨from_, Nat.le_refl _⟩⟩
  | case2 p idStart idEnd inside c notStart paren =>
      cases found
      exact ⟨Nat.le_refl p, inside, fun _ passed => passed⟩
  | case3 p idStart idEnd inside c notStart notParen stops =>
      cases found
  | case4 p idStart idEnd inside c notStart notParen goes comment =>
      cases found
  | case5 p idStart idEnd inside c notStart notParen goes noLine comment ih =>
      have past := le_commentEnd s (p + 2)
      obtain ⟨later, within, passes⟩ := ih found
      exact ⟨by omega, within, fun from_ passed =>
        passes (by omega) fun some_ => (passed some_).imp_right (by omega)⟩
  | case6 p idStart idEnd inside c notStart notParen goes noLine noBlock ends =>
      cases found
  | case7 p idStart idEnd inside c notStart notParen goes noLine noBlock more ih =>
      obtain ⟨later, within, passes⟩ := ih found
      exact ⟨by omega, within, fun from_ passed =>
        passes (by omega) fun some_ => (passed some_).imp_right (by omega)⟩
  | case8 p idStart idEnd outside =>
      cases found

theorem braceEnd_spec {past : Nat} (found : braceEnd s q depth = some past)
    (open_ : 0 < depth) :
    q < past ∧ past ≤ s.length ∧ s.getD (past - 1) 0 = rbrace := by
  fun_induction braceEnd s q depth with
  | case1 q depth inside c brace ih =>
      exact (ih found (Nat.succ_pos _)).imp_left Nat.lt_of_succ_lt
  | case2 q depth inside c notOpen closes ih =>
      by_cases more : 0 < depth - 1
      · exact (ih found more).imp_left Nat.lt_of_succ_lt
      · have last : depth - 1 = 0 := Nat.eq_zero_of_not_pos more
        rw [braceEnd, if_neg fun both => more both.2, if_pos last] at found
        cases found
        exact ⟨Nat.lt_succ_self q, inside.1, closes⟩
  | case3 q depth inside c notOpen notClose quoted ih =>
      have past := le_quotedEnd s c (q + 1)
      exact (ih found open_).imp_left fun later => by omega
  | case4 q depth inside c notOpen notClose plain comment ih =>
      have past := le_commentEnd s (q + 2)
      exact (ih found open_).imp_left fun later => by omega
  | case5 q depth inside c notOpen notClose plain noBlock comment ih =>
      have past := le_skipWhile (fun c : UInt8 => decide (c ≠ newline)) s s.length q
      exact (ih found open_).imp_left fun later => by omega
  | case6 q depth inside c notOpen notClose plain noBlock noLine ih =>
      exact (ih found open_).imp_left Nat.lt_of_succ_lt
  | case7 q outside =>
      exact absurd open_ (Nat.lt_irrefl 0)
  | case8 q depth outside more =>
      cases found

/-- A function's span from the line's start to the brace that closes the body. -/
structure FnSpan (s : Bytes) (ls : Nat) (node : Node) : Prop where
  kind : node.kind = .fn
  start : node.spanStart = ls
  inLine : ls ≤ node.nameOff
  body : node.nameOff < node.bodyOff
  past : node.bodyOff + 1 < node.spanEnd
  inside : node.spanEnd ≤ s.length
  opens : s.getD node.bodyOff 0 = lbrace
  closes : s.getD (node.spanEnd - 1) 0 = rbrace

theorem fnAt_spec {node : Node} (found : fnAt s ls = some node) : FnSpan s ls node := by
  unfold fnAt at found
  split at found
  · cases found
  · case _ head scanned =>
      split at found
      · case isTrue named =>
          split at found
          · cases found
          · case _ close matched =>
              dsimp only at found
              split at found
              · case isTrue brace =>
                  obtain ⟨q, closed, rfl⟩ := Option.map_eq_some_iff.1 found
                  have passed := (headScan_spec scanned).2.2 (Nat.le_refl ls)
                    fun some_ => absurd some_ (Nat.lt_irrefl 0)
                  obtain ⟨inLine, idEnd⟩ := passed named.1
                  obtain ⟨paren, _, _⟩ := matchParen_spec matched
                  obtain ⟨past, inside, closes⟩ := braceEnd_spec closed Nat.one_pos
                  have white := le_skipWhile isWhite s s.length (close + 1)
                  have := named.1
                  exact ⟨rfl, rfl, inLine, by dsimp only; omega, past, inside, brace.2, closes⟩
              · cases found
      · cases found

theorem le_lineEnd (s : Bytes) (ls : Nat) : ls ≤ lineEnd s ls :=
  le_skipWhile _ s s.length ls

theorem nextLine_spec (inside : ls < s.length) :
    ls < nextLine s (lineEnd s ls) ∧ lineEnd s ls ≤ nextLine s (lineEnd s ls) ∧
      nextLine s (lineEnd s ls) ≤ s.length := by
  have after := le_lineEnd s ls
  have within : lineEnd s ls ≤ s.length := skipWhile_le (Nat.le_of_lt inside)
  unfold nextLine
  split <;> omega

theorem lineAt_next (inside : ls < s.length) :
    ls < (lineAt s ls).2 ∧ (lineAt s ls).2 ≤ s.length ∧
      ∀ node ∈ (lineAt s ls).1, node.spanStart = ls ∧ node.spanEnd = (lineAt s ls).2 := by
  have ⟨later, _, within⟩ := nextLine_spec inside
  unfold lineAt
  dsimp only
  split
  · refine ⟨later, within, fun node there => ?_⟩
    obtain ⟨_, _, rfl⟩ := Option.map_eq_some_iff.1 there
    exact ⟨rfl, rfl⟩
  · split
    · cases found : fnAt s ls with
      | none => exact ⟨later, within, nofun⟩
      | some node =>
          have span := fnAt_spec found
          have inLine := span.inLine
          have body := span.body
          have past := span.past
          have last : (if node.spanEnd < s.length then node.spanEnd else s.length) =
              node.spanEnd := by
            have := span.inside
            split <;> omega
          dsimp only
          rw [last]
          refine ⟨by omega, span.inside, ?_⟩
          rintro _ ⟨⟩
          exact ⟨span.start, rfl⟩
    · exact ⟨later, within, nofun⟩

/-- The loop of the parse; `room` tells whether one more node can be had. -/
def parseFrom (room : Nat → Bool) (s : Bytes) (i : Nat) (nodes : List Node) :
    Except Err (List Node) :=
  if i < s.length then
    match (lineAt s i).1 with
    | none => parseFrom room s (lineAt s i).2 nodes
    | some node =>
        if room nodes.length then parseFrom room s (lineAt s i).2 (nodes ++ [node])
        else .error .noMem
  else .ok nodes
termination_by s.length - i
decreasing_by
  all_goals
    have later := (lineAt_next (show i < s.length from ‹_›)).1
    omega

def parseC (knob : Knob) (room : Nat → Bool) (s : Bytes) : Except Err (List Node) :=
  if s.length = 0 ∨ s.length > knob.now then .error .args else parseFrom room s 0 []

def locate (nodes : List Node) (kind : Kind) (name : Bytes) : Option Node :=
  nodes.find? fun node => node.kind = kind ∧ node.name = name

/-- The bytes from `start` on, `removed` of them, give way to the new ones; `alloc` tells
whether there is memory for the result. -/
def splice (knob : Knob) (alloc : Bool) (s : Bytes) (start removed : Nat) (insert : Bytes) :
    Except Err Bytes :=
  if start > s.length ∨ start + removed > s.length then .error .args
  else if s.length - removed + insert.length ≥ knob.now then .error .noMem
  else if ¬ alloc then .error .noMem
  else .ok (s.take start ++ insert ++ s.drop (start + removed))

def setDefine (knob : Knob) (alloc : Bool) (s : Bytes) (nodes : List Node) (name value : Bytes) :
    Except Err Bytes :=
  match locate nodes .define name with
  | none => .error .notFound
  | some node =>
      if node.valueLen = 0 then .error .args
      else splice knob alloc s node.valueOff node.valueLen value

def setFnBody (knob : Knob) (alloc : Bool) (s : Bytes) (nodes : List Node)
    (name bodyText : Bytes) : Except Err Bytes :=
  match locate nodes .fn name with
  | none => .error .notFound
  | some node =>
      if node.bodyOff ≥ s.length ∨ s.getD node.bodyOff 0 ≠ lbrace then .error .args
      else if node.spanEnd - 1 ≥ s.length ∨ s.getD (node.spanEnd - 1) 0 ≠ rbrace then
        .error .args
      else
        splice knob alloc s (node.bodyOff + 1) (node.spanEnd - 1 - (node.bodyOff + 1)) bodyText

end Metal.Edit
