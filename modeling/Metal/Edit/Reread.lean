import Metal.Edit.Rebody
import Mathlib.Data.List.Pairwise

namespace Metal.Edit

open Metal.Lib

/-! A text whose function got a new body, read again. -/

variable {shared old body more s out : Bytes} {ls i : Nat} {node : Node} {nodes : List Node}
  {knob : Knob} {room : Nat → Bool} {alloc : Bool} {name : Bytes}

def bodyOf (s : Bytes) (node : Node) : Bytes :=
  (s.drop (node.bodyOff + 1)).take (node.spanEnd - 1 - (node.bodyOff + 1))

/-- The edited text is read as the text was: the same functions and defines, with the new
body in the edited function and everything else as before; and the old body can be put back. -/
structure Reread (knob : Knob) (room : Nat → Bool) (s : Bytes) (nodes : List Node)
    (name : Bytes) (node : Node) (body : CString) (out : Bytes) (nodes' : List Node)
    (node' : Node) : Prop where
  parsed : parseC knob room out = .ok nodes'
  same : nodes'.map Node.sig = nodes.map Node.sig
  located : locate nodes' .fn name = some node'
  place : node'.bodyOff = node.bodyOff
  body : bodyOf out node' = body.bytes
  before : out.take (node.bodyOff + 1) = s.take (node.bodyOff + 1)
  after : out.drop (node'.spanEnd - 1) = s.drop (node.spanEnd - 1)
  back : setFnBody knob true out nodes' name (CString.ofBytes (bodyOf s node)).bytes = .ok s

def withBody (s : Bytes) (node : Node) (body : Bytes) : Bytes :=
  s.take (node.bodyOff + 1) ++ (body ++ s.drop (node.spanEnd - 1))

/-- No line before the function begins one with the new body that it did not begin before;
and the old text and body are such that they can be had again. -/
structure Settled (knob : Knob) (s : Bytes) (node : Node) (body : Bytes) : Prop where
  quiet : ∀ ls, Comes s ls → ls < node.spanStart → isIdStart (s.getD ls 0) →
    fnAt s ls = none → fnAt (withBody s node body) ls = none
  small : s.length < knob.now
  nulFree : 0 ∉ bodyOf s node

/-- A function in its text: what goes before its body, the body, and what follows. -/
structure Site (s : Bytes) (node : Node) (shared old more : Bytes) : Prop where
  text : s = shared ++ (old ++ rbrace :: more)
  opening : shared.length = node.bodyOff + 1
  ending : node.spanEnd = shared.length + old.length + 1

theorem Site.tail (site : Site s node shared old more) :
    s.drop (node.spanEnd - 1) = rbrace :: more := by
  rw [site.text, site.ending, Nat.add_sub_cancel, ← List.append_assoc, ← List.length_append,
    List.drop_left]

theorem Site.withBody (site : Site s node shared old more) (body : Bytes) :
    withBody s node body = shared ++ (body ++ rbrace :: more) := by
  rw [Edit.withBody, site.tail, ← site.opening, site.text, List.take_left]

theorem FnSpan.site (span : FnSpan s ls node) :
    Site s node (s.take (node.bodyOff + 1)) (bodyOf s node) (s.drop node.spanEnd) := by
  have past := span.past
  have inside := span.inside
  have length : (bodyOf s node).length = node.spanEnd - 1 - (node.bodyOff + 1) := by
    unfold bodyOf
    rw [List.length_take, List.length_drop]
    omega
  have first : (s.take (node.bodyOff + 1)).length = node.bodyOff + 1 := by
    rw [List.length_take]
    omega
  refine ⟨?_, first, by omega⟩
  have last : s.drop (node.spanEnd - 1) = rbrace :: s.drop node.spanEnd := by
    have closing : node.spanEnd - 1 < s.length := by omega
    have brace := span.closes
    rw [List.getD_eq_getElem?_getD, List.getElem?_eq_getElem closing] at brace
    rw [List.drop_eq_getElem_cons closing, Nat.sub_add_cancel (by omega)]
    exact congrArg (· :: _) brace
  have rest : s.drop (node.bodyOff + 1) = bodyOf s node ++ s.drop (node.spanEnd - 1) := by
    have cut := List.take_append_drop (node.spanEnd - 1 - (node.bodyOff + 1))
      (s.drop (node.bodyOff + 1))
    rw [List.drop_drop, Nat.add_sub_cancel' (by omega)] at cut
    exact cut.symm
  rw [← last, ← rest, List.take_append_drop]

theorem setFnBody_site (site : Site s node shared old more) (span : FnSpan s ls node)
    (located : locate nodes .fn name = some node) (body : Bytes) :
    setFnBody knob alloc s nodes name body =
      if s.length - old.length + body.length ≥ knob.now then .error .noMem
      else if ¬ alloc then .error .noMem
      else .ok (shared ++ (body ++ rbrace :: more)) := by
  have past := span.past
  have inside := span.inside
  have opening := site.opening
  have ending := site.ending
  unfold setFnBody
  rw [located]
  dsimp only
  rw [if_neg (not_or.2 ⟨by omega, not_not.2 span.opens⟩),
    if_neg (not_or.2 ⟨by omega, not_not.2 span.closes⟩)]
  have removed : node.spanEnd - 1 - (node.bodyOff + 1) = old.length := by omega
  have kept : s.take (node.bodyOff + 1) = shared := by
    rw [← opening, site.text, List.take_left]
  have rest : s.drop (node.bodyOff + 1 + old.length) = rbrace :: more := by
    rw [← opening, site.text, ← List.append_assoc, ← List.length_append, List.drop_left]
  unfold splice
  rw [removed, if_neg (by omega), kept, rest, List.append_assoc]

theorem parseFrom_room {found : List Node} (parsed : parseFrom room s i nodes = .ok found) :
    ∀ k, nodes.length ≤ k → k < found.length → room k = true := by
  induction i, nodes using parseFrom.induct room s with
  | case1 i nodes inside nothing ih =>
      rw [parseFrom, if_pos inside, nothing] at parsed
      exact ih parsed
  | case2 i nodes inside node here fits ih =>
      rw [parseFrom, if_pos inside, here] at parsed
      dsimp only at parsed
      rw [if_pos fits] at parsed
      intro k from_ before
      rcases Nat.eq_or_lt_of_le from_ with rfl | after
      · exact fits
      · exact ih parsed k (by rw [List.length_append]; exact after) before
  | case3 i nodes inside node here full =>
      rw [parseFrom, if_pos inside, here] at parsed
      dsimp only at parsed
      rw [if_neg full] at parsed
      cases parsed
  | case4 i nodes outside =>
      rw [parseFrom, if_neg outside] at parsed
      cases parsed
      exact fun k from_ before => absurd before (Nat.not_lt.2 from_)

theorem Parsed.run {more : List Node} (parsed : Parsed s i more) :
    ∀ nodes, (∀ k, nodes.length ≤ k → k < nodes.length + more.length → room k = true) →
      parseFrom room s i nodes = .ok (nodes ++ more) := by
  induction parsed with
  | done outside =>
      intro nodes _
      rw [parseFrom, if_neg outside, List.append_nil]
  | quiet inside nothing rest ih =>
      intro nodes fits
      rw [parseFrom, if_pos inside, nothing]
      exact ih nodes fits
  | @node i node more inside here rest ih =>
      intro nodes fits
      have first : room nodes.length = true := by
        refine fits nodes.length (Nat.le_refl _) ?_
        rw [List.length_cons]
        omega
      rw [parseFrom, if_pos inside, here]
      dsimp only
      rw [if_pos first, ih (nodes ++ [node]), List.append_assoc]
      · rfl
      · intro k from_ before
        rw [List.length_append, List.length_singleton] at from_ before
        refine fits k (by omega) ?_
        rw [List.length_cons]
        omega

theorem parsed_total (s : Bytes) (i : Nat) : ∃ nodes, Parsed s i nodes := by
  by_cases inside : i < s.length
  · have later := (lineAt_next inside).1
    obtain ⟨nodes, rest⟩ := parsed_total s (lineAt s i).2
    cases here : (lineAt s i).1 with
    | none => exact ⟨nodes, .quiet inside here rest⟩
    | some node => exact ⟨node :: nodes, .node inside here rest⟩
  · exact ⟨[], .done inside⟩
termination_by s.length - i
decreasing_by omega

variable {nodes' : List Node}

theorem Parsed.unique (first : Parsed s i nodes) (second : Parsed s i nodes') : nodes = nodes' := by
  induction first generalizing nodes' with
  | done outside =>
      cases second with
      | done => rfl
      | quiet inside => exact absurd inside outside
      | node inside => exact absurd inside outside
  | quiet inside nothing rest ih =>
      cases second with
      | done outside => exact absurd inside outside
      | quiet _ _ rest' => exact ih rest'
      | node _ here => exact absurd (nothing.symm.trans here) nofun
  | node inside here rest ih =>
      cases second with
      | done outside => exact absurd inside outside
      | quiet _ nothing => exact absurd (here.symm.trans nothing) nofun
      | node _ here' rest' =>
          obtain rfl := Option.some.inj (here.symm.trans here')
          rw [ih rest']

theorem Parsed.elsewhere (before before' : Bytes) {nodes : List Node}
    (parsed : Parsed (before ++ more) before.length nodes) :
    ∃ nodes', Parsed (before' ++ more) before'.length nodes' ∧
      nodes'.map Node.sig = nodes.map Node.sig := by
  obtain ⟨alone, total⟩ := parsed_total more 0
  obtain ⟨here, first, same⟩ := total.behind before more
  obtain ⟨there, second, same'⟩ := total.behind before' more
  obtain rfl := first.unique parsed
  exact ⟨there, second, same'.trans same.symm⟩

theorem lineAt_fn (inside : i < s.length) (here : (lineAt s i).1 = some node)
    (kind : node.kind = .fn) : isIdStart (s.getD i 0) ∧ fnAt s i = some node := by
  by_cases start : isIdStart (s.getD i 0)
  · rw [lineAt_start start inside] at here
    refine ⟨start, ?_⟩
    cases found : fnAt s i with
    | none =>
        rw [found] at here
        cases here
    | some fn =>
        rw [found] at here
        exact here
  · rw [lineAt_other start] at here
    dsimp only at here
    split at here
    · obtain ⟨_, _, rfl⟩ := Option.map_eq_some_iff.1 here
      cases kind
    · cases here

def Node.rebodied (node : Node) (body : Bytes) : Node :=
  { node with spanEnd := node.bodyOff + 1 + body.length + 1 }

theorem fnAt_rebodied (found : fnAt (shared ++ (old ++ rbrace :: more)) ls = some node)
    (opening : shared.length = node.bodyOff + 1) (balanced : Balanced body) :
    fnAt (shared ++ (body ++ rbrace :: more)) ls = some (node.rebodied body) := by
  have ends := braceEnd_behind shared (body ++ rbrace :: more) 0 1
  rw [Nat.add_zero, braceEnd_body more Nat.one_pos balanced, opening] at ends
  rw [fnAt_header _ found (by omega), ends]
  rfl

theorem Parsed.rebodied (site : Site s node shared old more) (kind : node.kind = .fn)
    (balanced : Balanced body)
    (quiet : ∀ ls, Comes s ls → ls < node.spanStart → isIdStart (s.getD ls 0) →
      fnAt s ls = none → fnAt (shared ++ (body ++ rbrace :: more)) ls = none)
    (parsed : Parsed s i nodes) (comes : Comes s i) :
    ∀ before after, nodes = before ++ node :: after →
      ∃ before' after', Parsed (shared ++ (body ++ rbrace :: more)) i
          (before' ++ node.rebodied body :: after') ∧
        before'.map Node.sig = before.map Node.sig ∧
        after'.map Node.sig = after.map Node.sig := by
  obtain ⟨rfl, opening, ending⟩ := site
  -- where the parse stands it has not yet come to the body
  have ahead {ls : Nat} {rest : List Node}
      (parsed : Parsed (shared ++ (old ++ rbrace :: more)) ls rest)
      (comes : Comes (shared ++ (old ++ rbrace :: more)) ls) (member : node ∈ rest) :
      ls ≤ node.spanStart ∧ node.spanStart < shared.length := by
    obtain ⟨ls', from_, _, inside, here⟩ := parsed.found comes node member
    have start := ((lineAt_next inside).2.2 node here).1
    have span := fnAt_spec (lineAt_fn inside here kind).2
    have inLine := span.inLine
    have body := span.body
    exact ⟨start ▸ from_, by omega⟩
  induction parsed with
  | done outside => simp
  | @quiet i nodes inside nothing rest ih =>
      intro before after split
      obtain ⟨later, within⟩ := ahead rest (comes.next inside)
        (split ▸ List.mem_append_right before List.mem_cons_self)
      have moves := (lineAt_next inside).1
      have near : i < shared.length := by omega
      have same := lineAt_within (body ++ rbrace :: more) near (by omega)
        (quiet i comes (by omega))
      rw [nothing, Option.map_none, Option.map_eq_none_iff] at same
      obtain ⟨before', after', parsed', rest'⟩ := ih (comes.next inside) before after split
      exact ⟨before', after', .quiet (inside_within (by omega)) same.1 (same.2 ▸ parsed'), rest'⟩
  | @node i first nodes inside here rest ih =>
      intro before after split
      cases before with
      | nil =>
          obtain ⟨rfl, rfl⟩ := List.cons.inj split
          obtain ⟨start, found⟩ := lineAt_fn inside here kind
          have span := fnAt_spec found
          have near : i < shared.length := by
            have inLine := span.inLine
            have body := span.body
            omega
          have found' := fnAt_rebodied found opening balanced
          have start' := getD_within (old ++ rbrace :: more) (body ++ rbrace :: more) near ▸ start
          have there := lineAt_start start' (inside_within near)
          rw [found'] at there
          have next := ((lineAt_next inside).2.2 first here).2
          rw [← next, ending] at rest
          have cut (b : Bytes) :
              shared ++ (b ++ rbrace :: more) = (shared ++ b ++ [rbrace]) ++ more := by
            simp
          have length (b : Bytes) :
              (shared ++ b ++ [rbrace]).length = shared.length + b.length + 1 := by
            simp only [List.length_append, List.length_singleton]
          rw [cut old, ← length old] at rest
          obtain ⟨after', parsed', same⟩ := rest.elsewhere _ (shared ++ body ++ [rbrace])
          refine ⟨[], after', .node (inside_within near) (congrArg Prod.fst there) ?_, rfl, same⟩
          rw [there]
          change Parsed _ (first.bodyOff + 1 + body.length + 1) after'
          rw [← opening, ← length body, cut body]
          exact parsed'
      | cons other before =>
          obtain ⟨rfl, rfl⟩ := List.cons.inj split
          obtain ⟨later, within⟩ := ahead rest (comes.next inside)
            (List.mem_append_right before List.mem_cons_self)
          have moves := (lineAt_next inside).1
          have near : i < shared.length := by omega
          have same := lineAt_within (body ++ rbrace :: more) near (by omega)
            (quiet i comes (by omega))
          rw [here, Option.map_some] at same
          obtain ⟨first', here', sig⟩ := Option.map_eq_some_iff.1 same.1
          obtain ⟨before', after', parsed', sigs, sigs'⟩ := ih (comes.next inside) before after rfl
          refine ⟨first' :: before', after',
            .node (inside_within (by omega)) here' (same.2 ▸ parsed'), ?_, sigs'⟩
          rw [List.map_cons, List.map_cons, sig, sigs]

theorem locate_split (located : locate nodes .fn name = some node) :
    ∃ before after, nodes = before ++ node :: after ∧ node.sig = (.fn, name) ∧
      ∀ other ∈ before, other.sig ≠ (.fn, name) := by
  obtain ⟨hit, before, after, split, misses⟩ := List.find?_eq_some_iff_append.1 located
  refine ⟨before, after, split, ?_, fun other member same => ?_⟩
  · have both := of_decide_eq_true hit
    exact Prod.ext both.1 both.2
  · have miss := misses other member
    rw [Bool.not_eq_true'] at miss
    exact of_decide_eq_false miss ⟨congrArg Prod.fst same, congrArg Prod.snd same⟩

theorem locate_of_split {before after : List Node} (sig : node.sig = (.fn, name))
    (misses : ∀ other ∈ before, other.sig ≠ (.fn, name)) :
    locate (before ++ node :: after) .fn name = some node := by
  refine List.find?_eq_some_iff_append.2 ⟨?_, before, after, rfl, fun other member => ?_⟩
  · exact decide_eq_true ⟨congrArg Prod.fst sig, congrArg Prod.snd sig⟩
  · rw [Bool.not_eq_true']
    exact decide_eq_false fun both => misses other member (Prod.ext both.1 both.2)

theorem located_site (parsed : parseC knob room s = .ok nodes)
    (located : locate nodes .fn name = some node) :
    Parsed s 0 nodes ∧ fnAt s node.spanStart = some node ∧
      isIdStart (s.getD node.spanStart 0) ∧ Comes s node.spanStart ∧
      Site s node (s.take (node.bodyOff + 1)) (bodyOf s node) (s.drop node.spanEnd) := by
  have list : Parsed s 0 nodes := by
    unfold parseC at parsed
    split at parsed
    · cases parsed
    · obtain ⟨_, rfl, list⟩ := parseFrom_parsed parsed
      exact list
  obtain ⟨member, kind, _⟩ := locate_spec located
  obtain ⟨ls, _, comes, inside, here⟩ := list.found .start node member
  obtain ⟨start, found⟩ := lineAt_fn inside here kind
  obtain rfl := ((lineAt_next inside).2.2 node here).1
  exact ⟨list, found, start, comes, (fnAt_spec found).site⟩

theorem reread_of_settled {body : CString} (parsed : parseC knob room s = .ok nodes)
    (located : locate nodes .fn name = some node)
    (done : setFnBody knob alloc s nodes name body.bytes = .ok out)
    (balanced : Balanced body.bytes) (settled : Settled knob s node body.bytes) :
    ∃ nodes' node', Reread knob room s nodes name node body out nodes' node' := by
  obtain ⟨list, found, _, _, site⟩ := located_site parsed located
  have span := fnAt_spec found
  generalize shape : s.take (node.bodyOff + 1) = shared at site
  generalize inner : bodyOf s node = old at site
  generalize tail : s.drop node.spanEnd = more at site
  have opening := site.opening
  have ending := site.ending
  rw [setFnBody_site site span located] at done
  split at done
  · cases done
  split at done
  · cases done
  case _ fits _ =>
  cases done
  have text := site.text
  have total : s.length = shared.length + old.length + 1 + more.length := by
    rw [text]
    simp only [List.length_append, List.length_cons]
    omega
  have quiet := settled.quiet
  rw [site.withBody] at quiet
  obtain ⟨before, after, split, sig, misses⟩ := locate_split located
  obtain ⟨before', after', parsed', sigs, sigs'⟩ :=
    list.rebodied site span.kind balanced quiet .start before after split
  have located' : locate (before' ++ node.rebodied body.bytes :: after') .fn name =
      some (node.rebodied body.bytes) := by
    refine locate_of_split sig fun other member same => ?_
    have there := List.mem_map_of_mem (f := Node.sig) member
    rw [sigs, same] at there
    obtain ⟨first, member, same⟩ := List.mem_map.1 there
    exact misses first member same
  have same : (before' ++ node.rebodied body.bytes :: after').map Node.sig =
      nodes.map Node.sig := by
    rw [split, List.map_append, List.map_append, List.map_cons, List.map_cons, sigs, sigs']
    rfl
  have length := congrArg List.length same
  rw [List.length_map, List.length_map] at length
  have size : (shared ++ (body.bytes ++ rbrace :: more)).length =
      shared.length + body.bytes.length + 1 + more.length := by
    simp only [List.length_append, List.length_cons]
    omega
  have rooms : ∀ k, 0 ≤ k → k < nodes.length → room k = true := by
    unfold parseC at parsed
    split at parsed
    · cases parsed
    · exact parseFrom_room parsed
  have found' : fnAt (shared ++ (body.bytes ++ rbrace :: more)) node.spanStart =
      some (node.rebodied body.bytes) := by
    rw [text] at found
    exact fnAt_rebodied found opening balanced
  have site' : Site (shared ++ (body.bytes ++ rbrace :: more)) (node.rebodied body.bytes) shared
      body.bytes more :=
    ⟨rfl, opening, opening ▸ rfl⟩
  refine ⟨_, _,
    { parsed := ?_, same := same, located := located', place := rfl, body := ?_, before := ?_
      after := ?_, back := ?_ }⟩
  · unfold parseC
    rw [if_neg (by omega), parsed'.run [] fun k _ before => rooms k (Nat.zero_le k) (by
      rw [List.length_nil, Nat.zero_add] at before
      omega)]
    rfl
  · unfold bodyOf Node.rebodied
    dsimp only
    rw [← opening, List.drop_left, Nat.add_sub_cancel, Nat.add_sub_cancel_left, List.take_left]
  · rw [shape, ← opening, List.take_left]
  · change (shared ++ (body.bytes ++ rbrace :: more)).drop
      (node.bodyOff + 1 + body.bytes.length) = _
    rw [text, ending, Nat.add_sub_cancel, ← opening, ← List.append_assoc, ← List.append_assoc,
      ← List.length_append, ← List.length_append, List.drop_left, List.drop_left]
  · have restored : (CString.ofBytes old).bytes = old := by
      have nulFree := settled.nulFree
      rw [inner] at nulFree
      change old.takeWhile (· ≠ 0) = old
      refine List.takeWhile_eq_self_iff.2 fun byte member => decide_eq_true ?_
      rintro rfl
      exact nulFree member
    have small := settled.small
    rw [inner, setFnBody_site site' (fnAt_spec found') located', restored, if_neg (by omega),
      if_neg (by simp), text]

theorem apart_either {a b : Node}
    (apart : nodes.Pairwise fun a b => a.spanStart < b.spanStart ∧ a.spanEnd ≤ b.spanStart)
    (memberA : a ∈ nodes) (memberB : b ∈ nodes) (differ : a ≠ b) :
    a.spanEnd ≤ b.spanStart ∨ b.spanEnd ≤ a.spanStart := by
  have symm : Std.Symm fun a b : Node =>
      a.spanEnd ≤ b.spanStart ∨ b.spanEnd ≤ a.spanStart := ⟨fun _ _ => Or.symm⟩
  have either : nodes.Pairwise fun a b : Node =>
      a.spanEnd ≤ b.spanStart ∨ b.spanEnd ≤ a.spanStart := apart.imp fun both => Or.inl both.2
  exact either.forall memberA memberB differ

/-- A line that begins no function in the old text begins none in the new one, if that is read
as the old one was: the function would take in the place where the new body stands. -/
theorem Reread.quiet {body : CString} {node' : Node}
    (reread : Reread knob room s nodes name node body (shared ++ (body.bytes ++ rbrace :: more))
      nodes' node') (site : Site s node shared old more)
    (found : fnAt s node.spanStart = some node)
    (comes : Comes (shared ++ (body.bytes ++ rbrace :: more)) ls) (before : ls < node.spanStart)
    (start : isIdStart (s.getD ls 0)) (none_ : fnAt s ls = none) :
    fnAt (shared ++ (body.bytes ++ rbrace :: more)) ls = none := by
  obtain ⟨list', found', _, comes', _⟩ := located_site reread.parsed reread.located
  obtain ⟨rfl, opening, ending⟩ := site
  have span := fnAt_spec found
  have span' := fnAt_spec found'
  have inLine := span.inLine
  have body_ := span.body
  have inLine' := span'.inLine
  have body' := span'.body
  have past' := span'.past
  have place := reread.place
  have near : ls < shared.length := by omega
  have inside : ls < (shared ++ (body.bytes ++ rbrace :: more)).length := inside_within near
  cases poses : fnAt (shared ++ (body.bytes ++ rbrace :: more)) ls with
  | none => rfl
  | some other =>
      have start' := getD_within (old ++ rbrace :: more) (body.bytes ++ rbrace :: more) near ▸ start
      have here := lineAt_start start' inside
      rw [poses] at here
      have member := list'.mem comes inside (congrArg Prod.fst here)
      have from_ := (fnAt_spec poses).start
      by_cases short : other.spanEnd ≤ shared.length
      · -- it is a function of the old text already
        exact absurd ((fnAt_within _ poses short).symm.trans none_) nofun
      · have apart := list'.apart .start
        have same : other = node' := by
          by_contra differ
          have either := apart_either apart member (locate_spec reread.located).1 differ
          omega
        -- its body is the function's, which the old text closes
        rw [same] at poses
        have ends := fnAt_ends found
        have again := fnAt_header (old ++ rbrace :: more) poses (by omega)
        rw [place, ends, Option.map_some] at again
        exact absurd (again.symm.trans none_) nofun

theorem Reread.comes {body : CString} {node' : Node}
    (reread : Reread knob room s nodes name node body (shared ++ (body.bytes ++ rbrace :: more))
      nodes' node') (site : Site s node shared old more)
    (found : fnAt s node.spanStart = some node) (comes : Comes s ls) :
    ls ≤ node.spanStart → Comes (shared ++ (body.bytes ++ rbrace :: more)) ls := by
  induction comes with
  | start => exact fun _ => .start
  | @next ls comes inside ih =>
      intro before
      have later := (lineAt_next inside).1
      have here := ih (by omega)
      have quiet := reread.quiet site found here (by omega)
      have span := fnAt_spec found
      have inLine := span.inLine
      have body_ := span.body
      have opening := site.opening
      obtain ⟨rfl, _, _⟩ := site
      have near : ls < shared.length := by omega
      have same := lineAt_within (body.bytes ++ rbrace :: more) near (by omega) quiet
      rw [← same.2]
      exact here.next (inside_within near)

theorem settled_of_reread {body : CString} {node' : Node}
    (parsed : parseC knob room s = .ok nodes) (located : locate nodes .fn name = some node)
    (done : setFnBody knob alloc s nodes name body.bytes = .ok out)
    (reread : Reread knob room s nodes name node body out nodes' node') :
    Settled knob s node body.bytes := by
  obtain ⟨list, found, _, comes, site⟩ := located_site parsed located
  have span := fnAt_spec found
  generalize shape : s.take (node.bodyOff + 1) = shared at site
  generalize inner : bodyOf s node = old at site
  generalize tail : s.drop node.spanEnd = more at site
  rw [setFnBody_site site span located] at done
  split at done
  · cases done
  split at done
  · cases done
  cases done
  have ends : (CString.ofBytes (bodyOf s node)).bytes = old ∧ s.length < knob.now := by
    obtain ⟨_, found', _, _, site'⟩ := located_site reread.parsed reread.located
    have back := reread.back
    rw [setFnBody_site site' (fnAt_spec found') reread.located] at back
    split at back
    · cases back
    split at back
    · cases back
    case _ fits _ =>
    have text := Except.ok.inj back
    have kept : (shared ++ (body.bytes ++ rbrace :: more)).take (node'.bodyOff + 1) = shared := by
      rw [reread.place, ← site.opening, List.take_left]
    have tail' := site'.tail.symm.trans (reread.after.trans site.tail)
    have restored : (CString.ofBytes (bodyOf s node)).bytes = old := by
      have same := text.trans site.text
      rw [kept, tail'] at same
      exact List.append_cancel_right (List.append_cancel_left same)
    rw [restored, reread.body] at fits
    have total := congrArg List.length site.text
    simp only [List.length_append, List.length_cons] at fits total
    exact ⟨restored, by omega⟩
  refine
    { quiet := fun ls comes before start none_ =>
        site.withBody body.bytes ▸ reread.quiet site found
          (reread.comes site found comes (Nat.le_of_lt before)) before start none_
      small := ends.2, nulFree := ?_ }
  rw [inner, ← ends.1]
  exact (CString.ofBytes (bodyOf s node)).nulFree

/-- An edited text is read as it should be exactly when the edit is settled. -/
theorem reread_iff {body : CString} (parsed : parseC knob room s = .ok nodes)
    (located : locate nodes .fn name = some node)
    (done : setFnBody knob alloc s nodes name body.bytes = .ok out)
    (balanced : Balanced body.bytes) :
    (∃ nodes' node', Reread knob room s nodes name node body out nodes' node') ↔
      Settled knob s node body.bytes :=
  ⟨fun ⟨_, _, reread⟩ => settled_of_reread parsed located done reread,
    reread_of_settled parsed located done balanced⟩

def tidyNodes : List Node :=
  [⟨.define, ascii "A", 8, 0, 15, 12, 13, 1, 1⟩, ⟨.fn, ascii "f", 19, 15, 39, 28, 0, 0, 2⟩]

theorem reread_iff_tidy :
    ∃ nodes' node', Reread Knob.unset (fun _ => true) tidy tidyNodes (ascii "f")
      ⟨.fn, ascii "f", 19, 15, 39, 28, 0, 0, 2⟩ ⟨ascii "return 2;", by decide⟩
      (tidy.take 29 ++ ascii "return 2;" ++ tidy.drop 38) nodes' node' := by
  have parsed : parseC Knob.unset (fun _ => true) tidy = .ok tidyNodes := by
    decide +kernel
  have done : setFnBody Knob.unset true tidy tidyNodes (ascii "f") (ascii "return 2;") =
      .ok (tidy.take 29 ++ ascii "return 2;" ++ tidy.drop 38) := by
    decide +kernel
  have before : ∀ ls ∈ [0, 15, 39, 40], ls < 15 → ¬ isIdStart (tidy.getD ls 0) := by
    decide +kernel
  refine (reread_iff parsed (by decide) done (by decide +kernel)).mpr
    { quiet := fun ls comes first start => absurd start (before ls (comes_tidy comes) first)
      small := by decide +kernel
      nulFree := by decide +kernel }

def remarked : Bytes := ascii "int g(int a, // don't\n  int b);\nint f(void) \x7b\x7d\n"

def hushed : CString := ⟨ascii "/* ') \x7b\x7d */", by decide⟩

/-- The parens of the declaration are matched in the comment of the new body, where a
function of its name seems to begin. -/
theorem reread_fails :
    ¬ ∀ (knob : Knob) (room : Nat → Bool) (alloc : Bool) (s : Bytes) (nodes : List Node)
      (name : Bytes) (node : Node) (body : CString) (out : Bytes),
      parseC knob room s = .ok nodes → locate nodes .fn name = some node →
        setFnBody knob alloc s nodes name body.bytes = .ok out → Balanced body.bytes →
          ∃ nodes' node', Reread knob room s nodes name node body out nodes' node' := by
  intro reread
  have parsed : parseC Knob.unset (fun _ => true) remarked =
      .ok [⟨.fn, ascii "f", 36, 32, 46, 44, 0, 0, 3⟩] := by
    decide +kernel
  have located : locate [⟨.fn, ascii "f", 36, 32, 46, 44, 0, 0, 3⟩] .fn (ascii "f") =
      some ⟨.fn, ascii "f", 36, 32, 46, 44, 0, 0, 3⟩ := by
    decide
  have done : setFnBody Knob.unset true remarked [⟨.fn, ascii "f", 36, 32, 46, 44, 0, 0, 3⟩]
      (ascii "f") hushed.bytes = .ok (remarked.take 45 ++ hushed.bytes ++ remarked.drop 45) := by
    decide +kernel
  have parsed' : parseC Knob.unset (fun _ => true)
      (remarked.take 45 ++ hushed.bytes ++ remarked.drop 45) =
        .ok [⟨.fn, ascii "g", 4, 0, 53, 51, 0, 0, 1⟩] := by
    decide +kernel
  obtain ⟨nodes', node', again⟩ :=
    reread _ _ _ remarked _ _ _ hushed _ parsed located done (by decide +kernel)
  obtain rfl := Except.ok.inj (parsed'.symm.trans again.parsed)
  exact absurd again.same (by decide)

end Metal.Edit
