import Metal.Lib.CString

namespace Metal.Lib.Json

/-! Quoted strings in a text of bytes, and the JSON values made of them. -/

inductive Escaped : Bytes → Prop
  | nil : Escaped []
  | plain {b : UInt8} {rest : Bytes} (noQuote : b ≠ quote)
      (noEscape : b ≠ backslash) (tail : Escaped rest) : Escaped (b :: rest)
  | escape {b : UInt8} {rest : Bytes} (tail : Escaped rest) :
      Escaped (backslash :: b :: rest)

variable {after body before : Bytes}

theorem Escaped.before_quote (escaped : Escaped body) (split : body = before ++ quote :: after) :
    before.getLast? = some backslash := by
  induction escaped generalizing before with
  | nil => simp at split
  | plain noQuote _ _ ih =>
      cases before with
      | nil => exact absurd (List.cons.inj split).1 noQuote
      | cons first before =>
          have last := ih (List.cons.inj split).2
          rw [List.getLast?_cons, last]
          rfl
  | escape _ ih =>
      match before with
      | [] => cases (List.cons.inj split).1
      | [first] =>
          rw [(List.cons.inj split).1]
          rfl
      | first :: second :: before =>
          have last := ih (List.cons.inj (List.cons.inj split).2).2
          rw [List.getLast?_cons, List.getLast?_cons, last]
          rfl

variable {second first : Bytes}

theorem Escaped.unique {after' : Bytes} (left : Escaped first) (right : Escaped second)
    (same : first ++ quote :: after = second ++ quote :: after') : first = second := by
  induction left generalizing second with
  | nil =>
      cases right with
      | nil => rfl
      | plain noQuote => exact absurd (List.cons.inj same).1.symm noQuote
      | escape => cases (List.cons.inj same).1
  | plain noQuote noEscape _ ih =>
      cases right with
      | nil => exact absurd (List.cons.inj same).1 noQuote
      | plain _ _ tail =>
          obtain ⟨head, rest⟩ := List.cons.inj same
          rw [head, ih tail rest]
      | escape => exact absurd (List.cons.inj same).1 noEscape
  | escape _ ih =>
      cases right with
      | nil => cases (List.cons.inj same).1
      | plain _ noEscape => exact absurd (List.cons.inj same).1.symm noEscape
      | escape tail =>
          obtain ⟨head, rest⟩ := List.cons.inj (List.cons.inj same).2
          rw [head, ih tail rest]

theorem prefix_unique {after' : Bytes} (left : quote ∉ first) (right : quote ∉ second)
    (same : first ++ quote :: after = second ++ quote :: after') :
    first = second ∧ after = after' := by
  induction first generalizing second with
  | nil =>
      cases second with
      | nil => exact ⟨rfl, (List.cons.inj same).2⟩
      | cons b second =>
          rw [← (List.cons.inj same).1] at right
          exact absurd List.mem_cons_self right
  | cons b first ih =>
      cases second with
      | nil =>
          rw [(List.cons.inj same).1] at left
          exact absurd List.mem_cons_self left
      | cons b' second =>
          obtain ⟨head, rest⟩ := List.cons.inj same
          obtain ⟨tail, after⟩ := ih
            (fun member => left (List.mem_cons_of_mem b member))
            (fun member => right (List.mem_cons_of_mem b' member)) rest
          exact ⟨by rw [head, tail], after⟩

theorem suffix_unique {before' : Bytes} (left : quote ∉ first) (right : quote ∉ second)
    (same : before ++ quote :: first = before' ++ quote :: second) : first = second := by
  have reversed : first.reverse ++ quote :: before.reverse =
      second.reverse ++ quote :: before'.reverse := by
    simpa using congrArg List.reverse same
  have heads := (prefix_unique (by simpa using left) (by simpa using right)
    reversed).1
  exact List.reverse_injective heads

/-! A text read as its strings, each with what stands before it. -/

def text : List (Bytes × Bytes) → Bytes → Bytes
  | [], last => last
  | (outer, body) :: rest, last =>
      outer ++ quote :: (body ++ quote :: text rest last)

theorem text_last (pairs : List (Bytes × Bytes)) (last last' : Bytes) :
    text pairs (last ++ last') = text pairs last ++ last' := by
  induction pairs with
  | nil => rfl
  | cons pair pairs ih =>
      obtain ⟨outer, body⟩ := pair
      simp [text, ih]

variable {pairs : List (Bytes × Bytes)}

theorem text_closes (nonempty : pairs ≠ []) (last : Bytes) :
    ∃ before, text pairs last = before ++ quote :: last := by
  induction pairs with
  | nil => exact absurd rfl nonempty
  | cons pair pairs ih =>
      obtain ⟨outer, body⟩ := pair
      cases pairs with
      | nil => exact ⟨outer ++ quote :: body, by simp [text]⟩
      | cons next pairs =>
          obtain ⟨before, closes⟩ := ih (List.cons_ne_nil next pairs)
          refine ⟨outer ++ quote :: (body ++ quote :: before), ?_⟩
          rw [text, closes]
          simp

structure Quoted (pairs : List (Bytes × Bytes)) (last : Bytes) : Prop where
  outer : ∀ pair ∈ pairs, quote ∉ pair.1
  body : ∀ pair ∈ pairs, Escaped pair.2
  last : quote ∉ last

variable {last : Bytes}

theorem Quoted.tail {pair : Bytes × Bytes} (quoted : Quoted (pair :: pairs) last) :
    Quoted pairs last where
  outer other member := quoted.outer other (List.mem_cons_of_mem pair member)
  body other member := quoted.body other (List.mem_cons_of_mem pair member)
  last := quoted.last

inductive Delimits (pairs : List (Bytes × Bytes)) (last before after : Bytes) :
    Prop
  | opens (front back : List (Bytes × Bytes)) (outer body : Bytes)
      (split : pairs = front ++ (outer, body) :: back)
      (left : before = text front outer)
      (right : after = body ++ quote :: text back last)
  | closes (front back : List (Bytes × Bytes)) (outer body : Bytes)
      (split : pairs = front ++ (outer, body) :: back)
      (left : before = text front (outer ++ quote :: body))
      (right : after = text back last)

theorem Delimits.cons (delimits : Delimits pairs last before after) (outer body : Bytes) :
    Delimits ((outer, body) :: pairs) last
      (outer ++ quote :: (body ++ quote :: before)) after := by
  cases delimits with
  | opens front back outer' body' split left right =>
      refine .opens ((outer, body) :: front) back outer' body' ?_ ?_ right
      · rw [split]
        rfl
      · rw [left]
        rfl
  | closes front back outer' body' split left right =>
      refine .closes ((outer, body) :: front) back outer' body' ?_ ?_ right
      · rw [split]
        rfl
      · rw [left]
        rfl

theorem quote_cases {rest : Bytes} (split : first ++ quote :: rest = before ++ quote :: after) :
    (before = first ∧ after = rest) ∨
      (∃ between, before = first ++ quote :: between ∧
        rest = between ++ quote :: after) ∨
      ∃ between, first = before ++ quote :: between := by
  rcases List.append_eq_append_iff.mp split with
    ⟨between, beforeIs, tail⟩ | ⟨between, firstIs, tail⟩
  · cases between with
    | nil =>
        rw [List.append_nil] at beforeIs
        exact .inl ⟨beforeIs, (List.cons.inj tail).2.symm⟩
    | cons b between =>
        obtain ⟨rfl, behind⟩ := List.cons.inj tail
        exact .inr (.inl ⟨between, beforeIs, behind⟩)
  · cases between with
    | nil =>
        rw [List.append_nil] at firstIs
        exact .inl ⟨firstIs.symm, (List.cons.inj tail).2⟩
    | cons b between =>
        obtain ⟨rfl, -⟩ := List.cons.inj tail
        exact .inr (.inr ⟨between, firstIs⟩)

theorem Quoted.delimits (quoted : Quoted pairs last)
    (split : text pairs last = before ++ quote :: after)
    (unescaped : before.getLast? ≠ some backslash) : Delimits pairs last before after := by
  induction pairs generalizing before with
  | nil =>
      refine absurd ?_ quoted.last
      rw [show last = _ from split]
      simp
  | cons pair pairs ih =>
      obtain ⟨outer, body⟩ := pair
      have plain := quoted.outer (outer, body) List.mem_cons_self
      have escaped := quoted.body (outer, body) List.mem_cons_self
      rcases quote_cases split with
        ⟨beforeIs, afterIs⟩ | ⟨inner, beforeIs, tail⟩ | ⟨inner, outerIs⟩
      · exact .opens [] pairs outer body rfl beforeIs afterIs
      · -- the quote is behind the one that opens this string
        rcases quote_cases tail with
          ⟨innerIs, afterIs⟩ | ⟨behind, innerIs, tail'⟩ | ⟨behind, bodyIs⟩
        · refine .closes [] pairs outer body rfl ?_ afterIs
          rw [beforeIs, innerIs]
          rfl
        · rw [beforeIs, innerIs]
          refine (ih quoted.tail tail' ?_).cons outer body
          intro ends
          apply unescaped
          rw [beforeIs, innerIs]
          simp [ends, List.getLast?_append, List.getLast?_cons]
        · refine absurd ?_ unescaped
          rw [beforeIs, List.getLast?_append, List.getLast?_cons,
            escaped.before_quote bodyIs]
          rfl
      · refine absurd ?_ plain
        rw [outerIs]
        simp

/-! The members of the text: a string, a colon and a string. -/

def fields : List (Bytes × Bytes) → List (Bytes × Bytes)
  | (_, key) :: (outer, value) :: rest =>
      if outer = [colon] then (key, value) :: fields ((outer, value) :: rest)
      else fields ((outer, value) :: rest)
  | _ => []

theorem mem_fields_of_split {front back : List (Bytes × Bytes)} {outer key value : Bytes}
    (split : pairs = front ++ (outer, key) :: ([colon], value) :: back) :
    (key, value) ∈ fields pairs := by
  subst split
  induction front with
  | nil => simp [fields]
  | cons pair front ih =>
      obtain ⟨outer', body⟩ := pair
      cases front with
      | nil =>
          simp only [List.cons_append, List.nil_append, fields] at ih ⊢
          split <;> simp
      | cons next front =>
          obtain ⟨outer'', body'⟩ := next
          simp only [List.cons_append, fields] at ih ⊢
          split
          · exact List.mem_cons_of_mem _ ih
          · exact ih

theorem fields_of_no_colon (none : ∀ pair ∈ pairs, pair.1 ≠ [colon]) : fields pairs = [] := by
  induction pairs using fields.induct with
  | case1 outer key value rest _ =>
      exact absurd rfl (none ([colon], value) (by simp))
  | case2 outer key outer' value rest apart ih =>
      rw [fields, if_neg apart]
      exact ih fun pair member => none pair (List.mem_cons_of_mem _ member)
  | case3 pairs short => rw [fields.eq_2 pairs short]

def member (key value : Bytes) : Bytes :=
  quote :: (key ++ quote :: colon :: quote :: (value ++ [quote]))

theorem Quoted.mem_fields {key value : Bytes} (quoted : Quoted pairs last)
    (keys : ∀ field ∈ fields pairs, quote ∉ field.1) (plain : quote ∉ key)
    (ends : key.getLast? ≠ some backslash) (nonempty : key ≠ [])
    (notOuter : ∀ pair ∈ pairs, pair.1 ≠ key) (escaped : Escaped value)
    (found : member key value <:+: text pairs last) : (key, value) ∈ fields pairs := by
  obtain ⟨before, after, split⟩ := found
  have atClose : text pairs last = (before ++ quote :: key) ++
      quote :: (colon :: quote :: (value ++ quote :: after)) := by
    rw [← split, member]
    simp
  have unescaped : (before ++ quote :: key).getLast? ≠ some backslash := by
    rw [List.getLast?_append, List.getLast?_cons]
    cases last : key.getLast? with
    | none => exact absurd (List.getLast?_eq_none_iff.mp last) nonempty
    | some b =>
        rw [last] at ends
        simpa using ends
  cases quoted.delimits atClose unescaped with
  | opens front back outer body split left right =>
      have here : (outer, body) ∈ pairs := by simp [split]
      cases front with
      | nil =>
          refine absurd ?_ (quoted.outer (outer, body) here)
          rw [show outer = _ from left.symm]
          simp
      | cons pair front =>
          -- the text before the string would be the key
          obtain ⟨before', closes⟩ :=
            text_closes (List.cons_ne_nil pair front) outer
          rw [closes] at left
          refine absurd ?_ (notOuter (outer, body) here)
          exact (suffix_unique plain (quoted.outer (outer, body) here) left).symm
  | closes front back outer body split left right =>
      cases back with
      | nil =>
          refine absurd ?_ quoted.last
          rw [show last = _ from right.symm]
          simp
      | cons next back =>
          obtain ⟨outer', value'⟩ := next
          have there : (outer', value') ∈ pairs := by simp [split]
          have colonOnly : quote ∉ [colon] := by decide
          obtain ⟨outerIs, valueIs⟩ := prefix_unique colonOnly
            (quoted.outer (outer', value') there) right
          obtain rfl := escaped.unique (quoted.body (outer', value') there)
            valueIs
          subst outerIs
          have field := mem_fields_of_split split
          rw [text_last] at left
          have keyIs : key = body :=
            suffix_unique plain (keys (body, value) field) left
          rw [keyIs]
          exact field

theorem text_tail_suffix (pair : Bytes × Bytes) (pairs : List (Bytes × Bytes))
    (last : Bytes) : text pairs last <:+ text (pair :: pairs) last :=
  ⟨pair.1 ++ quote :: (pair.2 ++ [quote]), by simp [text]⟩

theorem infix_of_mem_fields {key value : Bytes} (last : Bytes)
    (field : (key, value) ∈ fields pairs) : member key value <:+: text pairs last := by
  induction pairs using fields.induct with
  | case1 outer key' value' rest ih =>
      rw [fields, if_pos rfl] at field
      rcases List.mem_cons.mp field with here | behind
      · obtain ⟨rfl, rfl⟩ := Prod.mk.inj here
        exact ⟨outer, text rest last, by simp [text, member]⟩
      · exact (ih behind).trans (text_tail_suffix ..).isInfix
  | case2 outer key' outer' value' rest apart ih =>
      rw [fields, if_neg apart] at field
      exact (ih field).trans (text_tail_suffix ..).isInfix
  | case3 pairs short =>
      rw [fields] at field
      · cases field
      · exact short

/-! JSON strings, arrays and objects. The rules leave out numbers, literals and
blanks, so what they accept is JSON. -/

def isHex (b : UInt8) : Bool :=
  (48 ≤ b ∧ b ≤ 57) ∨ (97 ≤ b ∧ b ≤ 102) ∨ (65 ≤ b ∧ b ≤ 70)

inductive IsBody : Bytes → Prop
  | nil : IsBody []
  | plain {b : UInt8} {rest : Bytes} (visible : 32 ≤ b) (noQuote : b ≠ quote)
      (noEscape : b ≠ backslash) (tail : IsBody rest) : IsBody (b :: rest)
  | escape {b : UInt8} {rest : Bytes} (known : b ∈ ascii "\"\\/bfnrt")
      (tail : IsBody rest) : IsBody (backslash :: b :: rest)
  | unicode {a b c d : UInt8} {rest : Bytes}
      (hex : isHex a ∧ isHex b ∧ isHex c ∧ isHex d) (tail : IsBody rest) :
      IsBody (backslash :: 117 :: a :: b :: c :: d :: rest)

theorem isHex_plain {b : UInt8} (hex : isHex b = true) :
    32 ≤ b ∧ b ≠ quote ∧ b ≠ backslash := by
  refine ⟨?_, ?_, ?_⟩
  · rcases of_decide_eq_true hex with digit | lower | upper
    · exact UInt8.le_trans (by decide) digit.1
    · exact UInt8.le_trans (by decide) lower.1
    · exact UInt8.le_trans (by decide) upper.1
  · rintro rfl
    exact absurd hex (by decide)
  · rintro rfl
    exact absurd hex (by decide)

theorem IsBody.append (left : IsBody first) (right : IsBody second) : IsBody (first ++ second) := by
  induction left with
  | nil => exact right
  | plain visible noQuote noEscape _ ih =>
      exact .plain visible noQuote noEscape ih
  | escape known _ ih => exact .escape known ih
  | unicode hex _ ih => exact .unicode hex ih

theorem IsBody.escaped (isBody : IsBody body) : Escaped body := by
  induction isBody with
  | nil => exact .nil
  | plain _ noQuote noEscape _ ih => exact .plain noQuote noEscape ih
  | escape _ _ ih => exact .escape ih
  | unicode hex _ ih =>
      obtain ⟨-, noQuote₁, noEscape₁⟩ := isHex_plain hex.1
      obtain ⟨-, noQuote₂, noEscape₂⟩ := isHex_plain hex.2.1
      obtain ⟨-, noQuote₃, noEscape₃⟩ := isHex_plain hex.2.2.1
      obtain ⟨-, noQuote₄, noEscape₄⟩ := isHex_plain hex.2.2.2
      exact .escape (.plain noQuote₁ noEscape₁ (.plain noQuote₂ noEscape₂
        (.plain noQuote₃ noEscape₃ (.plain noQuote₄ noEscape₄ ih))))

theorem IsBody.visible (isBody : IsBody body) : ∀ b ∈ body, 32 ≤ b := by
  induction isBody with
  | nil => simp
  | plain visible _ _ _ ih => simpa using ⟨visible, ih⟩
  | escape known _ ih =>
      have printable : ∀ b ∈ ascii "\"\\/bfnrt", 32 ≤ b := by simp [ascii]
      simpa using ⟨by decide, printable _ known, ih⟩
  | unicode hex _ ih =>
      have first := (isHex_plain hex.1).1
      have second := (isHex_plain hex.2.1).1
      have third := (isHex_plain hex.2.2.1).1
      have fourth := (isHex_plain hex.2.2.2).1
      simpa using ⟨by decide, first, second, third, fourth, ih⟩

def isPlain (b : UInt8) : Bool := 32 ≤ b ∧ b ≠ quote ∧ b ≠ backslash

theorem IsBody.of_plain (plain : body.all isPlain = true) : IsBody body := by
  induction body with
  | nil => exact .nil
  | cons b body ih =>
      obtain ⟨here, behind⟩ := by simpa [isPlain] using plain
      refine .plain here.1 here.2.1 here.2.2 (ih ?_)
      simpa [isPlain] using behind

def string (body : Bytes) : Bytes := quote :: (body ++ [quote])

def join : List Bytes → Bytes
  | [] => []
  | item :: items => item ++ items.flatMap (comma :: ·)

inductive IsJson : Bytes → Prop
  | string {body : Bytes} (isBody : IsBody body) : IsJson (string body)
  | array {items : List Bytes} (values : ∀ item ∈ items, IsJson item) :
      IsJson (91 :: (join items ++ [93]))
  | object {members : List (Bytes × Bytes)}
      (keys : ∀ member ∈ members, IsBody member.1)
      (values : ∀ member ∈ members, IsJson member.2) :
      IsJson (123 :: (join (members.map fun member =>
        string member.1 ++ colon :: member.2) ++ [125]))

def IsObject (line : Bytes) : Prop := IsJson line ∧ line.head? = some 123

end Metal.Lib.Json
