import Metal.Edit.Parse

namespace Metal.Edit

open Metal.Lib

/-! The spans of a parsed source, and the bytes that an edit by them can change. -/

variable {s out : Bytes} {ls i : Nat} {node : Node} {nodes : List Node} {knob : Knob}
  {room : Nat → Bool} {alloc : Bool}

def nameEnd (s : Bytes) (start : Nat) : Nat := skipWhile isIdChar s s.length start

structure FnProper (s : Bytes) (node : Node) : Prop where
  name : node.spanStart ≤ node.nameOff ∧ node.nameOff < node.bodyOff
  body : node.bodyOff < node.spanEnd
  opens : s.getD node.bodyOff 0 = lbrace
  closes : s.getD (node.spanEnd - 1) 0 = rbrace

structure DefineProper (s : Bytes) (node : Node) : Prop where
  name : node.spanStart ≤ node.nameOff
  value : nameEnd s node.nameOff ≤ node.valueOff
  inside : node.valueOff + node.valueLen ≤ node.spanEnd

def ChangesOnly (s : Bytes) (node : Node) (out : Bytes) : Prop :=
  ∃ middle, out = s.take node.spanStart ++ middle ++ s.drop node.spanEnd

structure Proper (s : Bytes) (nodes : List Node) : Prop where
  inside : ∀ node ∈ nodes, node.spanStart < node.spanEnd ∧ node.spanEnd ≤ s.length
  apart : nodes.Pairwise fun a b => a.spanStart < b.spanStart ∧ a.spanEnd ≤ b.spanStart
  fns : ∀ node ∈ nodes, node.kind = .fn → FnProper s node
  defines : ∀ node ∈ nodes, node.kind = .define → DefineProper s node
  setDefine : ∀ knob alloc name value out,
    setDefine knob alloc s nodes name value = .ok out →
      ∃ node ∈ nodes, node.kind = .define ∧ node.name = name ∧ ChangesOnly s node out
  setFnBody : ∀ knob alloc name body out, setFnBody knob alloc s nodes name body = .ok out →
    ∃ node ∈ nodes, node.kind = .fn ∧ node.name = name ∧ ChangesOnly s node out

inductive Comes (s : Bytes) : Nat → Prop
  | start : Comes s 0
  | next {ls : Nat} (comes : Comes s ls) (inside : ls < s.length) : Comes s (lineAt s ls).2

theorem Comes.mem {starts : List Nat} (start : 0 ∈ starts)
    (next : ∀ ls ∈ starts, ls < s.length → (lineAt s ls).2 ∈ starts) {ls : Nat}
    (comes : Comes s ls) : ls ∈ starts := by
  induction comes with
  | start => exact start
  | next _ inside ih => exact next _ ih inside

/-- The name of the define at `ls` is directly followed by an open paren, at `ne`. -/
structure Glued (s : Bytes) (ls ne : Nat) : Prop where
  inside : ls < s.length
  define : isDefine s ls (lineEnd s ls)
  name : ∃ ns, defineName s ls (lineEnd s ls) = some (ns, ne)
  within : ne < lineEnd s ls
  paren : s.getD ne 0 = lparen

/-- Every paren that is glued to the name of a define has its match on the same line. -/
def ClosedInLine (s : Bytes) : Prop :=
  ∀ ls ne, Comes s ls → Glued s ls ne →
    ∃ close, matchParen s ne 0 = some close ∧ close < lineEnd s ls

theorem lineEnd_newline (inside : lineEnd s ls < s.length) :
    s.getD (lineEnd s ls) 0 = newline := by
  have stops := skipWhile_stops inside
  change s[lineEnd s ls]?.any (fun c => decide (c ≠ newline)) = false at stops
  rw [List.getElem?_eq_getElem inside, Option.any_some] at stops
  rw [List.getD_eq_getElem?_getD, List.getElem?_eq_getElem inside]
  simpa using stops

theorem lineEnd_le (inside : ls < s.length) : lineEnd s ls ≤ s.length :=
  skipWhile_le (Nat.le_of_lt inside)

theorem defineName_spec {ns ne : Nat} (inside : ls < s.length)
    (named : defineName s ls (lineEnd s ls) = some (ns, ne)) :
    ls + 7 ≤ ns ∧ ns < ne ∧ ne = nameEnd s ns ∧ ne ≤ lineEnd s ls := by
  have short := lineEnd_le inside
  unfold defineName at named
  dsimp only at named
  split at named
  · case isTrue here =>
      cases named
      have after := le_skipWhile isBlank s (lineEnd s ls) (ls + 7)
      generalize skipWhile isBlank s (lineEnd s ls) (ls + 7) = p at here after
      have readable : p < s.length := Nat.lt_of_lt_of_le here.1 short
      have start : s[p]?.any isIdChar := by
        have start := isIdChar_of_start here.2
        rw [List.getD_eq_getElem?_getD, List.getElem?_eq_getElem readable] at start
        rw [List.getElem?_eq_getElem readable]
        exact start
      have ends : lineEnd s ls < s.length → s[lineEnd s ls]?.any isIdChar = false := by
        intro more
        have last := lineEnd_newline more
        rw [List.getD_eq_getElem?_getD, List.getElem?_eq_getElem more] at last
        rw [List.getElem?_eq_getElem more, Option.any_some]
        rw [show s[lineEnd s ls] = newline from last]
        decide
      exact ⟨after, lt_skipWhile here.1 start,
        (skipWhile_eq short ends (Nat.le_of_lt here.1)).symm,
        skipWhile_le (Nat.le_of_lt here.1)⟩
  · cases named

theorem isDefine_first {le : Nat} (define : isDefine s ls le) : s[ls]? = some 35 := by
  unfold isDefine at define
  have ⟨_, text, _⟩ := of_decide_eq_true define
  have head := congrArg (fun text => text[0]?) text
  have hash : (ascii "#define")[0]? = some 35 := by decide
  simpa [List.getElem?_take, List.getElem?_drop, hash] using head

theorem isDefine_hash {le : Nat} (define : isDefine s ls le) : s[ls]?.any isBlank = false := by
  rw [isDefine_first define]
  decide

/-- The node of a define whose value is looked for from `body` on. -/
def defineNode (s : Bytes) (ls ns ne body : Nat) : Node :=
  let le := lineEnd s ls
  let value := skipWhile isBlank s le body
  { kind := .define
    name := nameAt s ns ne
    nameOff := ns
    spanStart := ls
    spanEnd := nextLine s le
    bodyOff := body
    valueOff := value
    valueLen := skipWhile (fun c => ¬ isBlank c) s le value - value
    line := lineOf s ls }

variable {ns ne body : Nat}

theorem defineAt_eq (named : defineName s ls (lineEnd s ls) = some (ns, ne)) :
    defineAt s ls (lineEnd s ls) =
      some (defineNode s ls ns ne (defineBody s ne (lineEnd s ls))) := by
  unfold defineAt
  rw [named]
  rfl

theorem defineNode_proper (inside : ls < s.length)
    (named : defineName s ls (lineEnd s ls) = some (ns, ne)) (behind : ne ≤ body)
    (before : body ≤ lineEnd s ls) : DefineProper s (defineNode s ls ns ne body) := by
  obtain ⟨name, _, ends, _⟩ := defineName_spec inside named
  have ⟨_, past, _⟩ := nextLine_spec inside
  have value := le_skipWhile isBlank s (lineEnd s ls) body
  have value' : skipWhile isBlank s (lineEnd s ls) body ≤ lineEnd s ls := skipWhile_le before
  generalize same : skipWhile isBlank s (lineEnd s ls) body = off at value value'
  have token : skipWhile (fun c => ¬ isBlank c) s (lineEnd s ls) off ≤ lineEnd s ls :=
    skipWhile_le value'
  have token' := le_skipWhile (fun c => ¬ isBlank c) s (lineEnd s ls) off
  refine ⟨Nat.le_trans (Nat.le_add_right ls 7) name, ?_, ?_⟩
  · change nameEnd s ns ≤ skipWhile isBlank s (lineEnd s ls) body
    omega
  · change skipWhile isBlank s (lineEnd s ls) body +
      (skipWhile (fun c => ¬ isBlank c) s (lineEnd s ls)
        (skipWhile isBlank s (lineEnd s ls) body) - skipWhile isBlank s (lineEnd s ls) body) ≤
        nextLine s (lineEnd s ls)
    rw [same]
    omega

/-- A paren without its match sends the parse back to the start of the source, and no
further than the line. -/
theorem unmatched_improper (inside : ls < s.length) (define : isDefine s ls (lineEnd s ls))
    (named : defineName s ls (lineEnd s ls) = some (ns, ne)) :
    ¬ DefineProper s (defineNode s ls ns ne 0) := by
  obtain ⟨name, some_, ends, _⟩ := defineName_spec inside named
  intro proper
  have value : nameEnd s ns ≤ skipWhile isBlank s (lineEnd s ls) 0 := proper.value
  have passes : ls < skipWhile isBlank s (lineEnd s ls) 0 := by omega
  have blank := skipWhile_skips (Nat.zero_le ls) passes
  exact absurd (blank.symm.trans (isDefine_hash define)) nofun

theorem later_improper {close : Nat}
    (matched : matchParen s ne 0 = some close) (later : lineEnd s ls ≤ close) :
    ¬ DefineProper s (defineNode s ls ns ne (close + 1)) := by
  obtain ⟨_, readable, paren⟩ := matchParen_spec matched
  have apart : lineEnd s ls ≠ close := by
    rintro same
    have last := lineEnd_newline (same ▸ readable)
    rw [same, paren] at last
    exact absurd last (by decide)
  intro proper
  have reaches : (defineNode s ls ns ne (close + 1)).valueOff ≤ nextLine s (lineEnd s ls) :=
    Nat.le_trans (Nat.le_add_right _ _) proper.inside
  have value : close + 1 ≤ (defineNode s ls ns ne (close + 1)).valueOff :=
    le_skipWhile isBlank s (lineEnd s ls) (close + 1)
  have last : nextLine s (lineEnd s ls) ≤ lineEnd s ls + 1 := by
    unfold nextLine
    split <;> omega
  omega

theorem defineAt_proper_iff (inside : ls < s.length) (define : isDefine s ls (lineEnd s ls))
    (named : defineName s ls (lineEnd s ls) = some (ns, ne)) :
    DefineProper s (defineNode s ls ns ne (defineBody s ne (lineEnd s ls))) ↔
      (Glued s ls ne → ∃ close, matchParen s ne 0 = some close ∧ close < lineEnd s ls) := by
  have short := (defineName_spec inside named).2.2.2
  unfold defineBody
  by_cases paren : ne < lineEnd s ls ∧ s.getD ne 0 = lparen
  · rw [if_pos paren]
    have glued : Glued s ls ne := ⟨inside, define, ⟨ns, named⟩, paren.1, paren.2⟩
    cases matched : matchParen s ne 0 with
    | none =>
        refine iff_of_false (unmatched_improper inside define named) fun closed => ?_
        obtain ⟨_, found, _⟩ := closed glued
        cases found
    | some close =>
        have behind := (matchParen_spec matched).1
        dsimp only
        by_cases later : lineEnd s ls ≤ close
        · refine iff_of_false (later_improper matched later) fun closed => ?_
          obtain ⟨_, ⟨⟩, before⟩ := closed glued
          omega
        · exact iff_of_true (defineNode_proper inside named (by omega) (by omega))
            fun _ => ⟨close, rfl, by omega⟩
  · rw [if_neg paren]
    exact iff_of_true (defineNode_proper inside named (Nat.le_refl ne) short)
      fun glued => absurd ⟨glued.within, glued.paren⟩ paren

inductive Parsed (s : Bytes) : Nat → List Node → Prop
  | done {i : Nat} (outside : ¬ i < s.length) : Parsed s i []
  | quiet {i : Nat} {nodes : List Node} (inside : i < s.length)
      (nothing : (lineAt s i).1 = none) (rest : Parsed s (lineAt s i).2 nodes) :
      Parsed s i nodes
  | node {i : Nat} {node : Node} {nodes : List Node} (inside : i < s.length)
      (here : (lineAt s i).1 = some node) (rest : Parsed s (lineAt s i).2 nodes) :
      Parsed s i (node :: nodes)

theorem parseFrom_parsed {found : List Node}
    (parsed : parseFrom room s i nodes = .ok found) :
    ∃ more, found = nodes ++ more ∧ Parsed s i more := by
  induction i, nodes using parseFrom.induct room s with
  | case1 i nodes inside nothing ih =>
      rw [parseFrom, if_pos inside, nothing] at parsed
      obtain ⟨more, same, rest⟩ := ih parsed
      exact ⟨more, same, .quiet inside nothing rest⟩
  | case2 i nodes inside node here fits ih =>
      rw [parseFrom, if_pos inside, here] at parsed
      dsimp only at parsed
      rw [if_pos fits] at parsed
      obtain ⟨more, same, rest⟩ := ih parsed
      exact ⟨node :: more, by rw [same, List.append_assoc]; rfl, .node inside here rest⟩
  | case3 i nodes inside node here full =>
      rw [parseFrom, if_pos inside, here] at parsed
      dsimp only at parsed
      rw [if_neg full] at parsed
      cases parsed
  | case4 i nodes outside =>
      rw [parseFrom, if_neg outside] at parsed
      cases parsed
      exact ⟨[], (List.append_nil _).symm, .done outside⟩

theorem Parsed.found (parsed : Parsed s i nodes) (comes : Comes s i) :
    ∀ node ∈ nodes, ∃ ls, i ≤ ls ∧ Comes s ls ∧ ls < s.length ∧ (lineAt s ls).1 = some node := by
  induction parsed with
  | done outside => nofun
  | quiet inside nothing rest ih =>
      intro node there
      obtain ⟨ls, after, found⟩ := ih (comes.next inside) node there
      exact ⟨ls, Nat.le_trans (Nat.le_of_lt (lineAt_next inside).1) after, found⟩
  | @node i node nodes inside here rest ih =>
      intro node' there
      rcases List.mem_cons.1 there with rfl | there
      · exact ⟨i, Nat.le_refl i, comes, inside, here⟩
      · obtain ⟨ls, after, found⟩ := ih (comes.next inside) node' there
        exact ⟨ls, Nat.le_trans (Nat.le_of_lt (lineAt_next inside).1) after, found⟩

theorem Parsed.reaches (parsed : Parsed s 0 nodes) (comes : Comes s ls) :
    ∃ before after, nodes = before ++ after ∧ Parsed s ls after := by
  induction comes with
  | start => exact ⟨[], nodes, rfl, parsed⟩
  | next comes inside ih =>
      obtain ⟨before, after, same, rest⟩ := ih
      cases rest with
      | done outside => exact absurd inside outside
      | quiet _ _ rest => exact ⟨before, after, same, rest⟩
      | @node _ node after _ _ rest =>
          exact ⟨before ++ [node], after, by rw [same, List.append_assoc]; rfl, rest⟩

theorem Parsed.mem (parsed : Parsed s 0 nodes) (comes : Comes s ls) (inside : ls < s.length)
    (here : (lineAt s ls).1 = some node) : node ∈ nodes := by
  obtain ⟨before, after, rfl, rest⟩ := parsed.reaches comes
  cases rest with
  | done outside => exact absurd inside outside
  | quiet _ nothing _ => cases nothing.symm.trans here
  | node _ here' _ =>
      obtain rfl := Option.some.inj (here'.symm.trans here)
      exact List.mem_append_right before List.mem_cons_self

theorem Parsed.apart (parsed : Parsed s i nodes) (comes : Comes s i) :
    nodes.Pairwise fun a b => a.spanStart < b.spanStart ∧ a.spanEnd ≤ b.spanStart := by
  induction parsed with
  | done outside => exact List.Pairwise.nil
  | quiet inside nothing rest ih => exact ih (comes.next inside)
  | node inside here rest ih =>
      refine List.Pairwise.cons (fun node' there => ?_) (ih (comes.next inside))
      obtain ⟨later, _, spans⟩ := lineAt_next inside
      obtain ⟨start, last⟩ := spans _ here
      obtain ⟨ls, after, _, inside', here'⟩ := rest.found (comes.next inside) node' there
      obtain ⟨start', _⟩ := (lineAt_next inside').2.2 _ here'
      omega

theorem lineAt_node (here : (lineAt s ls).1 = some node) :
    FnSpan s ls node ∨ isDefine s ls (lineEnd s ls) ∧ ∃ ns ne,
      defineName s ls (lineEnd s ls) = some (ns, ne) ∧
        node = defineNode s ls ns ne (defineBody s ne (lineEnd s ls)) := by
  unfold lineAt at here
  dsimp only at here
  split at here
  · case isTrue define =>
      cases named : defineName s ls (lineEnd s ls) with
      | none => simp [defineAt, named] at here
      | some name =>
          rw [defineAt_eq named] at here
          exact .inr ⟨define, name.1, name.2, rfl, (Option.some.inj here).symm⟩
  · split at here
    · cases found : fnAt s ls with
      | none =>
          rw [found] at here
          cases here
      | some fn =>
          rw [found] at here
          cases here
          exact .inl (fnAt_spec found)
    · cases here

theorem splice_changes {start removed : Nat} {insert : Bytes}
    (spliced : splice knob alloc s start removed insert = .ok out)
    (after : node.spanStart ≤ start) (before : start + removed ≤ node.spanEnd) :
    ChangesOnly s node out := by
  unfold splice at spliced
  split at spliced
  · cases spliced
  · split at spliced
    · cases spliced
    · split at spliced
      · cases spliced
      · cases spliced
        refine ⟨(s.take start).drop node.spanStart ++ insert ++
          (s.drop (start + removed)).take (node.spanEnd - (start + removed)), ?_⟩
        have first : s.take start =
            s.take node.spanStart ++ (s.take start).drop node.spanStart := by
          have cut := List.take_append_drop node.spanStart (s.take start)
          rw [List.take_take, Nat.min_eq_left after] at cut
          exact cut.symm
        have last : s.drop (start + removed) =
            (s.drop (start + removed)).take (node.spanEnd - (start + removed)) ++
              s.drop node.spanEnd := by
          have cut := List.take_append_drop (node.spanEnd - (start + removed))
            (s.drop (start + removed))
          rw [List.drop_drop, Nat.add_sub_of_le before] at cut
          exact cut.symm
        conv_lhs => rw [first, last]
        simp only [List.append_assoc]

theorem locate_spec {kind : Kind} {name : Bytes} (found : locate nodes kind name = some node) :
    node ∈ nodes ∧ node.kind = kind ∧ node.name = name := by
  unfold locate at found
  have hit := List.find?_some found
  exact ⟨List.mem_of_find?_eq_some found, of_decide_eq_true hit⟩

theorem setDefine_changes {name value : Bytes}
    (proper : ∀ node ∈ nodes, node.kind = .define → DefineProper s node)
    (done : setDefine knob alloc s nodes name value = .ok out) :
    ∃ node ∈ nodes, node.kind = .define ∧ node.name = name ∧ ChangesOnly s node out := by
  unfold setDefine at done
  cases found : locate nodes .define name with
  | none =>
      rw [found] at done
      cases done
  | some node =>
      rw [found] at done
      dsimp only at done
      obtain ⟨member, kind, named⟩ := locate_spec found
      obtain ⟨start, value, inside⟩ := proper node member kind
      have behind := le_skipWhile isIdChar s s.length node.nameOff
      change node.nameOff ≤ nameEnd s node.nameOff at behind
      split at done
      · cases done
      · exact ⟨node, member, kind, named, splice_changes done (by omega) inside⟩

theorem setFnBody_changes {name body : Bytes}
    (proper : ∀ node ∈ nodes, node.kind = .fn → node.spanStart ≤ node.bodyOff ∧
      node.bodyOff + 1 < node.spanEnd)
    (done : setFnBody knob alloc s nodes name body = .ok out) :
    ∃ node ∈ nodes, node.kind = .fn ∧ node.name = name ∧ ChangesOnly s node out := by
  unfold setFnBody at done
  cases found : locate nodes .fn name with
  | none =>
      rw [found] at done
      cases done
  | some node =>
      rw [found] at done
      dsimp only at done
      obtain ⟨member, kind, named⟩ := locate_spec found
      obtain ⟨start, past⟩ := proper node member kind
      split at done
      · cases done
      · split at done
        · cases done
        · exact ⟨node, member, kind, named, splice_changes done (by omega) (by omega)⟩

/-- What the parse says of a source is right exactly when each paren that is glued to the
name of a define has its match on the line. -/
theorem spans_proper_iff (parsed : parseC knob room s = .ok nodes) :
    Proper s nodes ↔ ClosedInLine s := by
  have list : Parsed s 0 nodes := by
    unfold parseC at parsed
    split at parsed
    · cases parsed
    · obtain ⟨more, rfl, list⟩ := parseFrom_parsed parsed
      exact list
  have found := list.found .start
  constructor
  · rintro proper ls ne comes glued
    obtain ⟨ns, named⟩ := glued.name
    have here : (lineAt s ls).1 =
        some (defineNode s ls ns ne (defineBody s ne (lineEnd s ls))) := by
      unfold lineAt
      dsimp only
      rw [if_pos glued.define, defineAt_eq named]
    have member := list.mem comes glued.inside here
    exact (defineAt_proper_iff glued.inside glued.define named).1
      (proper.defines _ member rfl) glued
  · intro closed
    have defines : ∀ node ∈ nodes, node.kind = .define → DefineProper s node := by
      intro node member kind
      obtain ⟨ls, _, comes, inside, here⟩ := found node member
      rcases lineAt_node here with fn | ⟨define, ns, ne, named, rfl⟩
      · exact absurd (fn.kind.symm.trans kind) nofun
      · exact (defineAt_proper_iff inside define named).2 (closed ls ne comes)
    have fns : ∀ node ∈ nodes, node.kind = .fn → ∃ ls, FnSpan s ls node := by
      intro node member kind
      obtain ⟨ls, _, _, _, here⟩ := found node member
      rcases lineAt_node here with fn | ⟨_, _, _, _, rfl⟩
      · exact ⟨ls, fn⟩
      · cases kind
    refine
      { inside := fun node member => ?_
        apart := list.apart .start
        fns := fun node member kind => ?_
        defines := defines
        setDefine := fun _ _ _ _ _ done => setDefine_changes defines done
        setFnBody := fun _ _ _ _ _ done => setFnBody_changes (fun node member kind => ?_) done }
    · obtain ⟨ls, _, _, inside, here⟩ := found node member
      obtain ⟨later, within, spans⟩ := lineAt_next inside
      obtain ⟨start, last⟩ := spans node here
      omega
    · obtain ⟨ls, span⟩ := fns node member kind
      have past := span.past
      exact ⟨⟨span.start ▸ span.inLine, span.body⟩, by omega, span.opens, span.closes⟩
    · obtain ⟨ls, span⟩ := fns node member kind
      have start := span.start
      have inLine := span.inLine
      have body := span.body
      exact ⟨by omega, span.past⟩

def Knob.unset : Knob := ⟨0, by decide⟩

def tidy : Bytes := ascii "#define A(x) 1\nint f(int a)\n\x7breturn a;\x7d\n"

theorem comes_tidy {ls : Nat} (comes : Comes tidy ls) : ls ∈ [0, 15, 39, 40] :=
  comes.mem (by decide) (by decide +kernel)

theorem spans_proper_iff_tidy :
    Proper tidy
      [⟨.define, ascii "A", 8, 0, 15, 12, 13, 1, 1⟩, ⟨.fn, ascii "f", 19, 15, 39, 28, 0, 0, 2⟩] := by
  have parsed : parseC Knob.unset (fun _ => true) tidy = .ok
      [⟨.define, ascii "A", 8, 0, 15, 12, 13, 1, 1⟩,
        ⟨.fn, ascii "f", 19, 15, 39, 28, 0, 0, 2⟩] := by
    decide +kernel
  refine (spans_proper_iff parsed).mpr fun ls ne comes glued => ?_
  have closes : ∀ ls ∈ [0, 15, 39, 40], isDefine tidy ls (lineEnd tidy ls) →
      (defineName tidy ls (lineEnd tidy ls)).all (fun name =>
        (matchParen tidy name.2 0).any (· < lineEnd tidy ls)) = true := by
    decide +kernel
  obtain ⟨ns, named⟩ := glued.name
  have closed := closes ls (comes_tidy comes) glued.define
  rw [named, Option.all_some, Option.any_eq_true] at closed
  obtain ⟨close, is, within⟩ := closed
  exact ⟨close, is, of_decide_eq_true within⟩

def unclosed : Bytes := ascii "int x;\n#define F(a\n"

/-- The value of the macro is the first word of the file: setting it changes the
declaration. -/
theorem spans_proper_fails :
    ¬ ∀ (knob : Knob) (room : Nat → Bool) (s : Bytes) (nodes : List Node),
      parseC knob room s = .ok nodes → Proper s nodes := by
  intro proper
  have parsed : parseC Knob.unset (fun _ => true) unclosed = .ok
      [⟨.define, ascii "F", 15, 7, 19, 0, 0, 3, 2⟩] := by
    decide +kernel
  have done : setDefine Knob.unset true unclosed [⟨.define, ascii "F", 15, 7, 19, 0, 0, 3, 2⟩]
      (ascii "F") (ascii "long") = .ok (ascii "long x;\n#define F(a\n") := by
    decide +kernel
  obtain ⟨node, member, _, _, middle, same⟩ :=
    (proper _ _ unclosed _ parsed).setDefine _ _ _ _ _ done
  rw [List.mem_singleton.1 member] at same
  have first := congrArg (fun bytes : Bytes => bytes[0]?) same
  have kept : (unclosed.take 7 ++ middle ++ unclosed.drop 19)[0]? = unclosed[0]? := by
    rw [List.append_assoc, List.getElem?_append_left (by decide +kernel)]
    decide +kernel
  rw [kept] at first
  exact absurd first (by decide +kernel)

end Metal.Edit
