import Metal.Lib.Words

namespace Metal.Net.Ipv6

open Metal.Lib

/-! `net/ipv6`: an address of 128 bits, read from text and written as text. -/

abbrev Address := Vector UInt8 16

abbrev Place := Fin 16

def hexv (c : UInt8) : Option Nat :=
  if 48 ≤ c ∧ c ≤ 57 then some (c.toNat - 48)
  else if 97 ≤ c ∧ c ≤ 102 then some (c.toNat - 97 + 10)
  else if 65 ≤ c ∧ c ≤ 70 then some (c.toNat - 65 + 10)
  else none

/-- The digits at the front: their value, their count and what follows them. -/
def hexDigits : (more v digits : Nat) → Bytes → Nat × Nat × Bytes
  | 0, v, digits, p => (v, digits, p)
  | _ + 1, v, digits, [] => (v, digits, [])
  | more + 1, v, digits, c :: p =>
      match hexv c with
      | none => (v, digits, c :: p)
      | some d => hexDigits more (v <<< 4 ||| d) (digits + 1) p

structure Groups where
  left : List UInt16
  right : List UInt16
  gap : Bool

def Groups.push (v : UInt16) (g : Groups) : Option Groups :=
  if !g.gap then
    if g.left.length ≥ 8 then none else some { g with left := g.left ++ [v] }
  else
    if g.right.length ≥ 8 then none else some { g with right := g.right ++ [v] }

theorem hexDigits_length (more v digits : Nat) (p : Bytes) :
    (hexDigits more v digits p).2.2.length + (hexDigits more v digits p).2.1 =
      p.length + digits := by
  fun_induction hexDigits more v digits p with
  | case1 => rfl
  | case2 => rfl
  | case3 => rfl
  | case4 more v digits c p d _ ih =>
      rw [ih, List.length_cons]
      omega

def skipColon (p : Bytes) : Bytes := if p.headD 0 = colon then p.tail else p

theorem skipColon_length_le (p : Bytes) : (skipColon p).length ≤ p.length := by
  rw [skipColon]
  split
  · rw [List.length_tail]
    exact Nat.sub_le _ _
  · exact Nat.le_refl _

def scan (g : Groups) (p : Bytes) : Option Groups :=
  if _empty : p = [] then some g
  else if p.take 2 = [colon, colon] then
    if g.gap then none
    else if p.getD 2 0 = colon then none
    else scan { g with gap := true } (p.drop 2)
  else if skipColon p = [] then some g
  else if _digits : (hexDigits 4 0 0 (skipColon p)).2.1 = 0 then none
  else
    let rest := (hexDigits 4 0 0 (skipColon p)).2.2
    if rest ≠ [] ∧ rest.headD 0 ≠ colon then none
    else
      match g.push (UInt16.ofNat (hexDigits 4 0 0 (skipColon p)).1) with
      | none => none
      | some g => scan g rest
  termination_by p.length
  decreasing_by
    · have some_ := List.length_pos_iff.mpr ‹_›
      rw [List.length_drop]
      omega
    · have total := hexDigits_length 4 0 0 (skipColon p)
      have shorter := skipColon_length_le p
      omega

/-- Two bytes for each group, from the group `o` on. -/
def putGroups (o : Nat) : List UInt16 → Address → Address
  | [], out => out
  | g :: groups, out =>
      putGroups (o + 1) groups
        ((out.setIfInBounds (o * 2) (g >>> 8).toUInt8).setIfInBounds (o * 2 + 1) g.toUInt8)

def parse (arena : Bool) (s : CString) : Option Address :=
  if !arena then none
  else if s.bytes.headD 0 = colon ∧ s.bytes.getD 1 0 ≠ colon then none
  else
    match scan ⟨[], [], false⟩ s.bytes with
    | none => none
    | some g =>
        if !g.gap ∧ g.left.length ≠ 8 then none
        else if g.gap ∧ g.left.length + g.right.length > 8 then none
        else
          some (putGroups (8 - g.right.length) g.right
            (putGroups 0 g.left (Vector.replicate 16 0)))

/-! ## The text forms

Hexadecimal forms of RFC 4291: eight groups, or fewer with one gap `::` that
stands for those left out. -/

def hexNumber (text : Bytes) : Nat := text.foldl (fun n c => 16 * n + (hexv c).getD 0) 0

structure Hextet (text : Bytes) (v : UInt16) : Prop where
  some : text ≠ []
  short : text.length ≤ 4
  hex : ∀ c ∈ text, (hexv c).isSome
  value : v = UInt16.ofNat (hexNumber text)

inductive Series : Bytes → List UInt16 → Prop
  | one {text : Bytes} {v : UInt16} (group : Hextet text v) : Series text [v]
  | cons {text rest : Bytes} {v : UInt16} {vs : List UInt16} (group : Hextet text v)
      (more : Series rest vs) : Series (text ++ colon :: rest) (v :: vs)

inductive Side : Bytes → List UInt16 → Prop
  | none : Side [] []
  | some {text : Bytes} {vs : List UInt16} (series : Series text vs) : Side text vs

def part (g : UInt16) (i : Nat) : UInt8 := (beBytes16 g).getD (i % 2) 0

def address (groups : List UInt16) : Address :=
  Vector.ofFn fun i => part (groups.getD (i / 2) 0) i

def filled (left right : List UInt16) : List UInt16 :=
  left ++ List.replicate (8 - left.length - right.length) 0 ++ right

inductive Denotes : Bytes → Address → Prop
  | full {text : Bytes} {vs : List UInt16} (series : Series text vs) (eight : vs.length = 8) :
      Denotes text (address vs)
  | gap {l r : Bytes} {ls rs : List UInt16} (left : Side l ls) (right : Side r rs)
      (fewer : ls.length + rs.length < 8) :
      Denotes (l ++ colon :: colon :: r) (address (filled ls rs))

def EmptyGap (text : Bytes) : Prop :=
  ∃ l ls r rs, Side l ls ∧ Side r rs ∧ ls.length + rs.length = 8 ∧
    text = l ++ colon :: colon :: r

def TrailingColon (text : Bytes) : Prop :=
  ∃ front last, text = front ++ [last] ++ [colon] ∧ last ≠ colon ∧
    ((∃ a, Denotes (front ++ [last]) a) ∨ EmptyGap (front ++ [last]))

theorem hexv_lt {c : UInt8} {d : Nat} (digit : hexv c = some d) : d < 16 := by
  simp only [hexv, UInt8.le_iff_toNat_le, UInt8.reduceToNat] at digit
  split at digit
  · cases digit
    omega
  · split at digit
    · cases digit
      omega
    · split at digit
      · cases digit
        omega
      · cases digit

theorem shift_or {c : UInt8} {d : Nat} (digit : hexv c = some d) (v : Nat) :
    v <<< 4 ||| d = 16 * v + (hexv c).getD 0 := by
  rw [← Nat.shiftLeft_add_eq_or_of_lt (hexv_lt digit), Nat.shiftLeft_eq, digit, Option.getD_some,
    Nat.mul_comm]

variable {text tail : Bytes}

theorem hexDigits_append (hex : ∀ c ∈ text, (hexv c).isSome) (stop : hexv (tail.headD 0) = none)
    {more : Nat} (short : text.length ≤ more) (v digits : Nat) :
    hexDigits more v digits (text ++ tail) =
      (text.foldl (fun n c => 16 * n + (hexv c).getD 0) v, digits + text.length, tail) := by
  induction text generalizing more v digits with
  | nil =>
      cases more with
      | zero => rfl
      | succ more =>
          cases tail with
          | nil => rfl
          | cons c tail =>
              rw [List.headD_cons] at stop
              rw [List.nil_append, hexDigits, stop]
              rfl
  | cons c text ih =>
      cases more with
      | zero => cases short
      | succ more =>
          obtain ⟨d, digit⟩ := Option.isSome_iff_exists.mp (hex c List.mem_cons_self)
          rw [List.cons_append, hexDigits, digit]
          change hexDigits more (v <<< 4 ||| d) (digits + 1) (text ++ tail) = _
          rw [ih (fun c member => hex c (List.mem_cons_of_mem _ member))
            (Nat.le_of_succ_le_succ short), shift_or digit, List.foldl_cons, List.length_cons]
          congr 2
          omega

theorem hexDigits_split (more v digits : Nat) (p : Bytes) :
    ∃ text rest, p = text ++ rest ∧ (∀ c ∈ text, (hexv c).isSome) ∧ text.length ≤ more ∧
      hexDigits more v digits p =
        (text.foldl (fun n c => 16 * n + (hexv c).getD 0) v, digits + text.length, rest) := by
  fun_induction hexDigits more v digits p with
  | case1 v digits p =>
      exact ⟨[], p, rfl, fun c member => (List.not_mem_nil member).elim, Nat.le_refl 0, rfl⟩
  | case2 more v digits =>
      exact ⟨[], [], rfl, fun c member => (List.not_mem_nil member).elim, Nat.zero_le _, rfl⟩
  | case3 more v digits c p _ =>
      exact ⟨[], c :: p, rfl, fun c member => (List.not_mem_nil member).elim, Nat.zero_le _, rfl⟩
  | case4 more v digits c p d digit ih =>
      obtain ⟨text, rest, split, hex, short, value⟩ := ih
      refine ⟨c :: text, rest, by rw [split, List.cons_append], ?_,
        Nat.succ_le_succ short, ?_⟩
      · intro x member
        rcases List.mem_cons.mp member with rfl | member
        · rw [digit]
          rfl
        · exact hex x member
      · rw [value, shift_or digit, List.foldl_cons, List.length_cons]
        congr 2
        omega

theorem hexv_colon : hexv colon = none := by decide

def Ends (tail : Bytes) : Prop := tail = [] ∨ ∃ rest, tail = colon :: rest

theorem Ends.stop (ends : Ends tail) : hexv (tail.headD 0) = none := by
  rcases ends with rfl | ⟨rest, rfl⟩
  · decide
  · exact hexv_colon

variable {v : UInt16}

theorem Hextet.front (group : Hextet text v) : ∃ c rest, text = c :: rest ∧ c ≠ colon := by
  cases text with
  | nil => exact absurd rfl group.some
  | cons c rest =>
      refine ⟨c, rest, rfl, ?_⟩
      rintro rfl
      have digit := group.hex colon List.mem_cons_self
      rw [hexv_colon] at digit
      cases digit

theorem Hextet.back (group : Hextet text v) :
    ∃ front last, text = front ++ [last] ∧ last ≠ colon := by
  refine ⟨_, _, (List.dropLast_concat_getLast group.some).symm, fun same => ?_⟩
  have digit := group.hex _ (List.getLast_mem group.some)
  rw [same, hexv_colon] at digit
  cases digit

theorem Hextet.digits (group : Hextet text v) (ends : Ends tail) :
    hexDigits 4 0 0 (text ++ tail) = (hexNumber text, text.length, tail) := by
  rw [hexDigits_append group.hex ends.stop group.short, Nat.zero_add, hexNumber]

def Groups.pushAll (g : Groups) : List UInt16 → Option Groups
  | [] => some g
  | v :: vs => (g.push v).bind fun g => g.pushAll vs

def Groups.side (g : Groups) : List UInt16 := if g.gap then g.right else g.left

def Groups.extend (g : Groups) (vs : List UInt16) : Groups :=
  if g.gap then { g with right := g.right ++ vs } else { g with left := g.left ++ vs }

theorem Groups.push_eq (g : Groups) (v : UInt16) :
    g.push v = if g.side.length < 8 then some (g.extend [v]) else none := by
  cases g with
  | mk left right gap =>
      cases gap with
      | false =>
          simp only [push, side, extend, Bool.not_false, if_true, Bool.false_eq_true, if_false,
            ge_iff_le, ← Nat.not_lt, ite_not]
      | true =>
          simp only [push, side, extend, Bool.not_true, if_true, Bool.false_eq_true, if_false,
            ge_iff_le, ← Nat.not_lt, ite_not]

theorem Groups.side_extend (g : Groups) (vs : List UInt16) :
    (g.extend vs).side = g.side ++ vs := by
  cases g with
  | mk left right gap => cases gap <;> rfl

theorem Groups.extend_extend (g : Groups) (vs more : List UInt16) :
    (g.extend vs).extend more = g.extend (vs ++ more) := by
  cases g with
  | mk left right gap =>
      cases gap with
      | false => exact congrArg (Groups.mk · right false) (List.append_assoc left vs more)
      | true => exact congrArg (Groups.mk left · true) (List.append_assoc right vs more)

theorem Groups.extend_nil (g : Groups) : g.extend [] = g := by
  cases g with
  | mk left right gap =>
      cases gap with
      | false => exact congrArg (Groups.mk · right false) (List.append_nil left)
      | true => exact congrArg (Groups.mk left · true) (List.append_nil right)

variable {vs : List UInt16}

theorem Groups.pushAll_eq (g : Groups) (small : g.side.length ≤ 8) :
    g.pushAll vs = if g.side.length + vs.length ≤ 8 then some (g.extend vs) else none := by
  induction vs generalizing g with
  | nil => rw [pushAll, List.length_nil, Nat.add_zero, if_pos small, extend_nil]
  | cons v vs ih =>
      rw [pushAll, push_eq]
      by_cases room : g.side.length < 8
      · have length : (g.extend [v]).side.length = g.side.length + 1 := by
          rw [side_extend, List.length_append, List.length_singleton]
        rw [if_pos room, Option.bind_some, ih _ (length ▸ room), length, extend_extend,
          List.length_cons, List.singleton_append, Nat.add_assoc, Nat.add_comm 1]
      · rw [if_neg room, Option.bind_none, if_neg]
        rw [List.length_cons]
        omega

variable {g : Groups} {p : Bytes}

theorem scan_group (group : Hextet text v) (ends : Ends tail)
    (at_ : p = text ++ tail ∨ p = colon :: (text ++ tail)) :
    scan g p = (g.push v).bind fun g => scan g tail := by
  obtain ⟨c, rest, front, solid⟩ := group.front
  have skipped : skipColon p = text ++ tail := by
    rcases at_ with rfl | rfl
    · rw [skipColon, front, List.cons_append, List.headD_cons, if_neg solid]
    · rw [skipColon, List.headD_cons, if_pos rfl, List.tail_cons]
  have some_ : p ≠ [] := by
    rcases at_ with rfl | rfl
    · rw [front]
      exact List.cons_ne_nil _ _
    · exact List.cons_ne_nil _ _
  have noGap : p.take 2 ≠ [colon, colon] := by
    rcases at_ with rfl | rfl
    · rw [front]
      exact fun same => solid (List.cons.inj same).1
    · rw [front]
      exact fun same => solid (List.cons.inj (List.cons.inj same).2).1
  have more : text ++ tail ≠ [] := by
    rw [front]
    exact List.cons_ne_nil _ _
  have count : text.length ≠ 0 := fun none_ => group.some (List.eq_nil_of_length_eq_zero none_)
  have end_ : ¬ (tail ≠ [] ∧ tail.headD 0 ≠ colon) := by
    rcases ends with rfl | ⟨rest, rfl⟩
    · exact fun bad => bad.1 rfl
    · exact fun bad => bad.2 rfl
  rw [scan, dif_neg some_, if_neg noGap, skipped, if_neg more]
  simp only [group.digits ends, dif_neg count, if_neg end_, ← group.value]
  cases g.push v with
  | none => rfl
  | some g => rfl

theorem scan_series (series : Series text vs) (ends : Ends tail)
    (at_ : p = text ++ tail ∨ p = colon :: (text ++ tail)) :
    scan g p = (g.pushAll vs).bind fun g => scan g tail := by
  induction series generalizing g p with
  | one group =>
      rw [scan_group group ends at_, Groups.pushAll]
      cases g.push _ with
      | none => rfl
      | some g => rfl
  | @cons text rest v vs group more ih =>
      rw [List.append_assoc, List.cons_append] at at_
      rw [scan_group group (.inr ⟨_, rfl⟩) at_, Groups.pushAll]
      cases g.push v with
      | none => rfl
      | some g => exact ih (.inr rfl)

def Passed (p tail : Bytes) (vs : List UInt16) : Prop :=
  (p = tail ∧ vs = []) ∨
    ∃ text, Series text vs ∧ Ends tail ∧ (p = text ++ tail ∨ p = colon :: (text ++ tail))

theorem Series.front (series : Series text vs) : ∃ c rest, text = c :: rest ∧ c ≠ colon := by
  cases series with
  | one group => exact group.front
  | cons group more =>
      obtain ⟨c, rest, front, solid⟩ := group.front
      exact ⟨c, _, by rw [front, List.cons_append], solid⟩

theorem Series.not_ends (series : Series text vs) (tail : Bytes) : ¬ Ends (text ++ tail) := by
  obtain ⟨c, rest, front, solid⟩ := series.front
  rw [front]
  rintro (none_ | ⟨after, same⟩)
  · cases none_
  · exact solid (List.cons.inj same).1

theorem Passed.cons {rest : Bytes} (group : Hextet text v) (ends : Ends rest)
    (passed : Passed rest tail vs) (at_ : p = text ++ rest ∨ p = colon :: (text ++ rest)) :
    Passed p tail (v :: vs) := by
  rcases passed with ⟨rfl, rfl⟩ | ⟨more, series, ends', at'⟩
  · exact .inr ⟨text, .one group, ends, at_⟩
  · have next : rest = colon :: (more ++ tail) := by
      rcases at' with same | next
      · exact absurd (same ▸ ends) (series.not_ends tail)
      · exact next
    subst next
    refine .inr ⟨text ++ colon :: more, .cons group series, ends', ?_⟩
    rw [List.append_assoc, List.cons_append]
    exact at_

theorem skipColon_cases (p : Bytes) : p = skipColon p ∨ p = colon :: skipColon p := by
  cases p with
  | nil => exact .inl rfl
  | cons c rest =>
      by_cases separator : c = colon
      · subst separator
        exact .inr rfl
      · rw [skipColon, List.headD_cons, if_neg separator]
        exact .inl rfl

theorem scan_passed {g' : Groups} (done : scan g p = some g') :
    ∃ vs tail g1, Passed p tail vs ∧ g.pushAll vs = some g1 ∧
      (((tail = [] ∨ tail = [colon]) ∧ g' = g1) ∨
        ∃ rest, tail = colon :: colon :: rest ∧ g1.gap = false ∧ rest.headD 0 ≠ colon ∧
          scan { g1 with gap := true } rest = some g') := by
  fun_induction scan g p with
  | case1 g => exact ⟨[], [], g, .inl ⟨rfl, rfl⟩, rfl, .inl ⟨.inl rfl, (Option.some.inj done).symm⟩⟩
  | case2 => cases done
  | case3 => cases done
  | case4 g p some_ double gap single ih =>
      have front : p = colon :: colon :: p.drop 2 := by
        conv => lhs; rw [← List.take_append_drop 2 p, double]
        rfl
      refine ⟨[], p, g, .inl ⟨rfl, rfl⟩, rfl,
        .inr ⟨p.drop 2, front, eq_false_of_ne_true gap, ?_, done⟩⟩
      rw [List.headD_eq_head?_getD, List.head?_drop, ← List.getD_eq_getElem?_getD]
      exact single
  | case5 g p some_ noGap last =>
      refine ⟨[], p, g, .inl ⟨rfl, rfl⟩, rfl, .inl ⟨.inr ?_, (Option.some.inj done).symm⟩⟩
      rcases skipColon_cases p with same | same
      · exact absurd (same.trans last) some_
      · rw [same, last]
  | case6 => cases done
  | case7 => cases done
  | case8 => cases done
  | case9 g p some_ noGap more digits rest ends g1 pushed ih =>
      obtain ⟨vs, tail, g2, passed, all, end_⟩ := ih done
      obtain ⟨text, rest', split, hex, short, value⟩ := hexDigits_split 4 0 0 (skipColon p)
      have rest_ : rest = rest' := by
        change (hexDigits 4 0 0 (skipColon p)).2.2 = rest'
        rw [value]
      have ends' : Ends rest := by
        cases rest_eq : rest with
        | nil => exact .inl rfl
        | cons c after =>
            by_cases separator : c = colon
            · exact .inr ⟨after, by rw [separator]⟩
            · rw [rest_eq] at ends
              exact absurd ⟨List.cons_ne_nil _ _, separator⟩ ends
      have group : Hextet text (UInt16.ofNat (hexDigits 4 0 0 (skipColon p)).1) := by
        refine ⟨?_, short, hex, ?_⟩
        · rintro rfl
          rw [value] at digits
          exact digits rfl
        · rw [value]
          rfl
      refine ⟨_ :: vs, tail, g2, passed.cons group ends' ?_, ?_, end_⟩
      · rw [rest_, ← split]
        exact skipColon_cases p
      · rw [Groups.pushAll, pushed, Option.bind_some, all]

def Groups.start : Groups := ⟨[], [], false⟩

theorem scan_last (last : tail = [] ∨ tail = [colon]) : scan g tail = some g := by
  rcases last with rfl | rfl
  · rw [scan, dif_pos rfl]
  · rw [scan, dif_neg (List.cons_ne_nil _ _), if_neg (by decide), if_pos (by decide)]

theorem scan_colons (noGap : g.gap = false) {rest : Bytes} (more : rest.headD 0 ≠ colon) :
    scan g (colon :: colon :: rest) = scan { g with gap := true } rest := by
  have third : (colon :: colon :: rest).getD 2 0 = rest.headD 0 := by
    cases rest <;> rfl
  have double : (colon :: colon :: rest).take 2 = [colon, colon] := rfl
  rw [scan, dif_neg (List.cons_ne_nil _ _), if_pos double, noGap, third,
    if_neg Bool.false_ne_true, if_neg more]
  rfl

theorem scan_side (side : Side text vs) (ends : Ends tail) (room : g.side.length + vs.length ≤ 8) :
    scan g (text ++ tail) = scan (g.extend vs) tail := by
  cases side with
  | none => rw [Groups.extend_nil, List.nil_append]
  | some series =>
      rw [scan_series series ends (.inl rfl), Groups.pushAll_eq g (Nat.le_of_add_right_le room),
        if_pos room, Option.bind_some]

theorem Side.headD_ne (side : Side text vs) (last : tail = [] ∨ (tail = [colon] ∧ text ≠ [])) :
    (text ++ tail).headD 0 ≠ colon := by
  cases side with
  | none =>
      rcases last with rfl | ⟨_, some_⟩
      · decide
      · exact absurd rfl some_
  | some series =>
      obtain ⟨c, rest, front, solid⟩ := series.front
      rw [front]
      exact solid

theorem scan_gap {l r : Bytes} {ls rs : List UInt16} (left : Side l ls) (right : Side r rs)
    (few : ls.length ≤ 8) (few' : rs.length ≤ 8) (last : tail = [] ∨ (tail = [colon] ∧ r ≠ [])) :
    scan Groups.start (l ++ colon :: colon :: (r ++ tail)) = some ⟨ls, rs, true⟩ := by
  have room : Groups.start.side.length + ls.length ≤ 8 := by
    rw [Groups.start, Groups.side]
    exact (Nat.zero_add _).symm ▸ few
  have room' : (Groups.mk ls [] true).side.length + rs.length ≤ 8 := by
    rw [Groups.side]
    exact (Nat.zero_add _).symm ▸ few'
  have ends : Ends tail := by
    rcases last with rfl | ⟨rfl, _⟩
    · exact .inl rfl
    · exact .inr ⟨[], rfl⟩
  have end_ : tail = [] ∨ tail = [colon] := last.imp id And.left
  rw [scan_side left (.inr ⟨_, rfl⟩) room]
  change scan ⟨ls, [], false⟩ _ = _
  rw [scan_colons rfl (right.headD_ne last)]
  change scan ⟨ls, [], true⟩ _ = _
  rw [scan_side right ends room', scan_last end_]
  rfl

theorem scan_full (series : Series text vs) (few : vs.length ≤ 8)
    (last : tail = [] ∨ tail = [colon]) :
    scan Groups.start (text ++ tail) = some ⟨vs, [], false⟩ := by
  have ends : Ends tail := last.imp id fun same => ⟨[], same⟩
  have room : Groups.start.side.length + vs.length ≤ 8 := by
    rw [Groups.start, Groups.side]
    exact (Nat.zero_add _).symm ▸ few
  rw [scan_side (.some series) ends room, scan_last last]
  rfl

theorem putGroup_get (o : Nat) (g : UInt16) (out : Address) (i : Place) :
    ((out.setIfInBounds (o * 2) (g >>> 8).toUInt8).setIfInBounds (o * 2 + 1) g.toUInt8)[i] =
      if i.val / 2 = o then part g i else out[i] := by
  simp only [Fin.getElem_fin, Vector.getElem_setIfInBounds]
  by_cases low : o * 2 + 1 = i.val
  · have odd : i.val % 2 = 1 := by omega
    rw [if_pos low, if_pos (by omega), part, odd]
    rfl
  · rw [if_neg low]
    by_cases high : o * 2 = i.val
    · have even : i.val % 2 = 0 := by omega
      rw [if_pos high, if_pos (by omega), part, even]
      rfl
    · rw [if_neg high, if_neg (by omega)]

theorem putGroups_get (o : Nat) (groups : List UInt16) (out : Address) (i : Place) :
    (putGroups o groups out)[i] =
      if o ≤ i.val / 2 ∧ i.val / 2 < o + groups.length then
        part (groups.getD (i.val / 2 - o) 0) i
      else out[i] := by
  induction groups generalizing o out with
  | nil =>
      rw [putGroups, if_neg]
      rw [List.length_nil]
      omega
  | cons g groups ih =>
      rw [putGroups, ih, putGroup_get, List.length_cons]
      by_cases first : i.val / 2 = o
      · rw [if_neg (by omega), if_pos first, if_pos (by omega), first, Nat.sub_self]
        rfl
      · rw [if_neg first]
        by_cases inside : o + 1 ≤ i.val / 2 ∧ i.val / 2 < o + 1 + groups.length
        · have next : i.val / 2 - o = (i.val / 2 - (o + 1)) + 1 := by omega
          rw [if_pos inside, if_pos (by omega), next, List.getD_cons_succ]
        · rw [if_neg inside, if_neg (by omega)]

theorem address_get (groups : List UInt16) (i : Place) :
    (address groups)[i] = part (groups.getD (i.val / 2) 0) i := by
  rw [address, Fin.getElem_fin, Vector.getElem_ofFn]

variable {left : List UInt16}

theorem filled_getD {right : List UInt16} (few : left.length + right.length ≤ 8) (j : Nat) :
    (filled left right).getD j 0 =
      if 8 - right.length ≤ j then right.getD (j - (8 - right.length)) 0 else left.getD j 0 := by
  have length : (left ++ List.replicate (8 - left.length - right.length) (0 : UInt16)).length =
      8 - right.length := by
    rw [List.length_append, List.length_replicate]
    omega
  simp only [filled, List.getD_eq_getElem?_getD]
  by_cases last : 8 - right.length ≤ j
  · rw [if_pos last, List.getElem?_append_right (length ▸ last), length]
  · rw [if_neg last, List.getElem?_append_left (by omega)]
    by_cases first : j < left.length
    · rw [List.getElem?_append_left first]
    · rw [List.getElem?_append_right (Nat.le_of_not_lt first), List.getElem?_replicate,
        if_pos (by omega), List.getElem?_eq_none (Nat.le_of_not_lt first)]
      rfl

theorem putGroups_eq {right : List UInt16} (few : left.length + right.length ≤ 8) :
    putGroups (8 - right.length) right (putGroups 0 left (Vector.replicate 16 0)) =
      address (filled left right) := by
  suffices each : ∀ i : Fin 16,
      (putGroups (8 - right.length) right (putGroups 0 left (Vector.replicate 16 0)))[i] =
        (address (filled left right))[i] by
    apply Vector.ext
    intro i inside
    exact each ⟨i, inside⟩
  intro i
  have inside : i.val / 2 < 8 := by omega
  rw [putGroups_get, putGroups_get, address_get, filled_getD few]
  by_cases last : 8 - right.length ≤ i.val / 2
  · rw [if_pos last, if_pos (by omega)]
  · rw [if_neg last, if_neg (by omega)]
    by_cases first : i.val / 2 < left.length
    · rw [if_pos (by omega), Nat.sub_zero]
    · rw [if_neg (by omega), List.getD_eq_getElem?_getD,
        List.getElem?_eq_none (Nat.le_of_not_lt first), Fin.getElem_fin, Vector.getElem_replicate]
      rw [part, Option.getD_none]
      rcases Nat.mod_two_eq_zero_or_one i.val with even | odd
      · rw [even]
        rfl
      · rw [odd]
        rfl

def Bare (text : Bytes) : Prop := text.headD 0 = colon ∧ text.getD 1 0 ≠ colon

theorem Series.not_bare (series : Series text vs) (tail : Bytes) : ¬ Bare (text ++ tail) := by
  obtain ⟨c, rest, front, solid⟩ := series.front
  rw [front]
  exact fun bare => solid bare.1

theorem Series.back (series : Series text vs) :
    ∃ front last, text = front ++ [last] ∧ last ≠ colon := by
  induction series with
  | one group => exact group.back
  | @cons text rest v vs group more ih =>
      obtain ⟨front, last, back, solid⟩ := ih
      exact ⟨text ++ colon :: front, last, by rw [back, List.append_assoc, List.cons_append], solid⟩

inductive Form : Bytes → Groups → Prop
  | full {text : Bytes} {vs : List UInt16} (series : Series text vs) (eight : vs.length = 8) :
      Form text ⟨vs, [], false⟩
  | gap {l r : Bytes} {ls rs : List UInt16} (left : Side l ls) (right : Side r rs)
      (few : ls.length + rs.length ≤ 8) : Form (l ++ colon :: colon :: r) ⟨ls, rs, true⟩

theorem Form.not_bare (form : Form text g) (tail : Bytes) : ¬ Bare (text ++ tail) := by
  cases form with
  | full series _ => exact series.not_bare tail
  | gap left right _ =>
      rw [List.append_assoc]
      cases left with
      | none => exact fun bare => bare.2 rfl
      | some series => exact series.not_bare _

theorem Form.back (form : Form text g) :
    (∃ front last, text = front ++ [last] ∧ last ≠ colon) ∨
      ∃ front, text = front ++ [colon] ++ [colon] := by
  cases form with
  | full series _ => exact .inl series.back
  | @gap l r ls rs left right _ =>
      cases right with
      | none => exact .inr ⟨l, by rw [List.append_assoc]; rfl⟩
      | some series =>
          obtain ⟨front, last, back, solid⟩ := series.back
          exact .inl ⟨l ++ colon :: colon :: front, last, by rw [back, List.append_assoc]; rfl,
            solid⟩

theorem Form.scan (form : Form text g)
    (last : tail = [] ∨ (tail = [colon] ∧ ¬ ∃ front, text = front ++ [colon])) :
    scan Groups.start (text ++ tail) = some g := by
  cases form with
  | full series eight => exact scan_full series eight.le (last.imp id And.left)
  | @gap l r ls rs left right few =>
      rw [List.append_assoc, List.cons_append, List.cons_append]
      refine scan_gap left right (by omega) (by omega) (last.imp id fun last => ⟨last.1, ?_⟩)
      rintro rfl
      exact last.2 ⟨l ++ [colon], by rw [List.append_assoc]; rfl⟩

theorem Form.unique {g' : Groups} (form : Form text g) (form' : Form text g') : g = g' :=
  Option.some.inj ((form.scan (.inl rfl)).symm.trans (form'.scan (.inl rfl)))

theorem filled_full (eight : vs.length = 8) : filled vs [] = vs := by
  rw [filled, eight]
  exact (List.append_nil _).trans (List.append_nil _)

theorem Denotes.form {a : Address} (denotes : Denotes text a) :
    ∃ g, Form text g ∧ a = address (filled g.left g.right) ∧
      (g.gap = true → g.left.length + g.right.length < 8) := by
  cases denotes with
  | full series eight =>
      refine ⟨_, .full series eight, ?_, fun gap => nomatch gap⟩
      rw [filled_full eight]
  | gap left right fewer => exact ⟨_, .gap left right fewer.le, rfl, fun _ => fewer⟩

theorem Form.denotes (form : Form text g) :
    Denotes text (address (filled g.left g.right)) ∨ EmptyGap text := by
  cases form with
  | full series eight =>
      have denotes := Denotes.full series eight
      refine .inl ?_
      rw [filled_full eight]
      exact denotes
  | @gap l r ls rs left right few =>
      rcases Nat.lt_or_eq_of_le few with fewer | eight
      · exact .inl (.gap left right fewer)
      · exact .inr ⟨l, ls, r, rs, left, right, eight, rfl⟩

theorem form_iff : (∃ g, Form text g) ↔ (∃ a, Denotes text a) ∨ EmptyGap text := by
  constructor
  · rintro ⟨g, form⟩
    exact form.denotes.imp_left fun denotes => ⟨_, denotes⟩
  · rintro (⟨a, denotes⟩ | ⟨l, ls, r, rs, left, right, eight, rfl⟩)
    · exact ⟨_, denotes.form.choose_spec.1⟩
    · exact ⟨_, .gap left right eight.le⟩

variable {s : CString}

theorem parse_of_scan (bare : ¬ Bare s.bytes) (scanned : scan Groups.start s.bytes = some g) :
    parse true s =
      if !g.gap ∧ g.left.length ≠ 8 then none
      else if g.gap ∧ g.left.length + g.right.length > 8 then none
      else some (putGroups (8 - g.right.length) g.right
        (putGroups 0 g.left (Vector.replicate 16 0))) := by
  have first : ¬ (s.bytes.headD 0 = colon ∧ s.bytes.getD 1 0 ≠ colon) := bare
  rw [Groups.start] at scanned
  rw [parse, Bool.not_true, if_neg Bool.false_ne_true, if_neg first, scanned]

theorem Form.parse (form : Form text g) (split : s.bytes = text ++ tail)
    (last : tail = [] ∨ (tail = [colon] ∧ ¬ ∃ front, text = front ++ [colon])) :
    parse true s = some (address (filled g.left g.right)) := by
  have few : g.left.length + g.right.length ≤ 8 := by
    cases form with
    | full _ eight => exact eight.le
    | gap _ _ few => exact few
  have full : ¬ ((!g.gap) = true ∧ g.left.length ≠ 8) := by
    cases form with
    | full _ eight => exact fun bad => bad.2 eight
    | gap _ _ _ => exact fun bad => Bool.false_ne_true bad.1
  rw [parse_of_scan (split ▸ form.not_bare tail) (split ▸ form.scan last), if_neg full,
    if_neg fun bad => Nat.not_lt.mpr few bad.2, putGroups_eq few]

theorem Passed.front (passed : Passed p tail vs) (bare : ¬ Bare p) :
    ∃ text, Side text vs ∧ p = text ++ tail := by
  rcases passed with ⟨rfl, rfl⟩ | ⟨text, series, ends, rfl | rfl⟩
  · exact ⟨[], .none, rfl⟩
  · exact ⟨text, .some series, rfl⟩
  · obtain ⟨c, rest, front, solid⟩ := series.front
    refine absurd ⟨rfl, ?_⟩ bare
    rw [front]
    exact solid

theorem Series.not_colon (series : Series text vs) (before : Bytes) :
    ¬ ∃ front, before ++ text = front ++ [colon] := by
  obtain ⟨front, last, back, solid⟩ := series.back
  rintro ⟨front', same⟩
  rw [back, ← List.append_assoc] at same
  exact solid (List.append_inj' same rfl |>.2 |> List.singleton_inj.mp)

theorem side_start {gap : Bool} (pushed : (Groups.mk left [] gap).pushAll vs = some g)
    (few : (Groups.mk left [] gap).side.length ≤ 8) : g = (Groups.mk left [] gap).extend vs := by
  rw [Groups.pushAll_eq _ few] at pushed
  split at pushed
  · exact (Option.some.inj pushed).symm
  · cases pushed

theorem form_of_parse {a : Address} (done : Ipv6.parse true s = some a) :
    ∃ text tail g, Form text g ∧ s.bytes = text ++ tail ∧
      (tail = [] ∨ (tail = [colon] ∧ ¬ ∃ front, text = front ++ [colon])) := by
  have bare : ¬ Bare s.bytes := by
    intro bare
    have first : s.bytes.headD 0 = colon ∧ s.bytes.getD 1 0 ≠ colon := bare
    rw [Ipv6.parse, Bool.not_true, if_neg Bool.false_ne_true, if_pos first] at done
    cases done
  cases scanned : Ipv6.scan Groups.start s.bytes with
  | none =>
      have first : ¬ (s.bytes.headD 0 = colon ∧ s.bytes.getD 1 0 ≠ colon) := bare
      rw [Groups.start] at scanned
      rw [Ipv6.parse, Bool.not_true, if_neg Bool.false_ne_true, if_neg first, scanned] at done
      cases done
  | some g =>
      rw [parse_of_scan bare scanned] at done
      obtain ⟨vs, tail, g1, passed, pushed, end_⟩ := scan_passed scanned
      obtain ⟨l, left, split⟩ := passed.front bare
      have pushed_ := side_start pushed (Nat.zero_le 8)
      rcases end_ with ⟨last, same⟩ | ⟨rest, gap, _, more, scanned'⟩
      · rw [same, pushed_] at done
        split at done
        · cases done
        · rename_i full
          have eight : vs.length = 8 := Decidable.not_not.mp fun few => full ⟨rfl, few⟩
          cases left with
          | none => cases eight
          | some series =>
              refine ⟨l, tail, _, .full series eight, split, last.imp id fun last => ⟨last, ?_⟩⟩
              exact series.not_colon []
      · rw [pushed_] at scanned'
        obtain ⟨vs', tail', g2, passed', pushed', end'⟩ := scan_passed scanned'
        obtain ⟨r, right, split'⟩ := passed'.front fun bare => more bare.1
        have pushed'_ := side_start pushed' (Nat.zero_le 8)
        rcases end' with ⟨last, same⟩ | ⟨_, _, noGap, _⟩
        · rw [same, pushed'_] at done
          split at done
          · cases done
          · split at done
            · cases done
            · rename_i few
              have few : vs.length + vs'.length ≤ 8 := Nat.not_lt.mp fun many => few ⟨rfl, many⟩
              refine ⟨l ++ colon :: colon :: r, tail', _, .gap left right few, ?_,
                last.imp id fun last => ⟨last, ?_⟩⟩
              · rw [split, gap, split', List.append_assoc, List.cons_append, List.cons_append]
              · cases right with
                | none =>
                    rw [split', last] at more
                    exact absurd rfl more
                | some series =>
                    have ends := series.not_colon (l ++ [colon, colon])
                    rw [List.append_assoc] at ends
                    exact ends
        · rw [pushed'_] at noGap
          cases noGap

theorem Denotes.parse {a : Address} (denotes : Denotes s.bytes a) : Ipv6.parse true s = some a := by
  obtain ⟨g, form, same, _⟩ := denotes.form
  rw [same]
  exact form.parse (List.append_nil _).symm (.inl rfl)

theorem not_denotes_of_colon (front : Bytes) {last : UInt8} (solid : last ≠ colon) (a : Address) :
    ¬ Denotes (front ++ [last] ++ [colon]) a := by
  intro denotes
  obtain ⟨g, form, _⟩ := denotes.form
  rcases form.back with ⟨front', last', same, solid'⟩ | ⟨front', same⟩
  · exact solid' (List.append_inj' same rfl |>.2 |> List.singleton_inj.mp).symm
  · have before := (List.append_inj' same rfl).1
    exact solid (List.append_inj' before rfl |>.2 |> List.singleton_inj.mp)

theorem EmptyGap.not_denotes (empty : EmptyGap text) (a : Address) : ¬ Denotes text a := by
  obtain ⟨l, ls, r, rs, left, right, eight, rfl⟩ := empty
  intro denotes
  obtain ⟨g, form, _, fewer⟩ := denotes.form
  have same := form.unique (.gap left right eight.le)
  subst same
  exact Nat.lt_irrefl 8 (eight ▸ fewer rfl)

/-- The code takes the forms of RFC 4291 and no others where the text has no
colon behind its last digit and no gap among eight groups. -/
theorem parse_iff (s : CString) :
    (∀ a, Ipv6.parse true s = some a ↔ Denotes s.bytes a) ↔
      ¬ TrailingColon s.bytes ∧ ¬ EmptyGap s.bytes := by
  refine ⟨fun exact_ => ⟨?_, fun empty => ?_⟩, fun ⟨noColon, noGap⟩ a => ⟨fun done => ?_, ?_⟩⟩
  · rintro ⟨front, last, split, solid, formed⟩
    obtain ⟨g, form⟩ := form_iff.mpr formed
    have taken := form.parse split (.inr ⟨rfl, fun ⟨front', same⟩ =>
      solid (List.append_inj' same rfl |>.2 |> List.singleton_inj.mp)⟩)
    exact not_denotes_of_colon front solid _ (split ▸ (exact_ _).mp taken)
  · obtain ⟨g, form⟩ := form_iff.mpr (.inr empty)
    have taken := form.parse (List.append_nil _).symm (.inl rfl)
    exact empty.not_denotes _ ((exact_ _).mp taken)
  · obtain ⟨text, tail, g, form, split, last⟩ := form_of_parse done
    rcases last with rfl | ⟨rfl, noColon'⟩
    · have taken := form.parse split (.inl rfl)
      rw [List.append_nil] at split
      rw [done] at taken
      rw [Option.some.inj taken]
      rw [split] at noGap ⊢
      exact form.denotes.resolve_right noGap
    · refine absurd ?_ noColon
      rcases form.back with ⟨front, last, back, solid⟩ | ⟨front, back⟩
      · subst back
        exact ⟨front, last, split, solid, form_iff.mp ⟨g, form⟩⟩
      · exact absurd ⟨_, back⟩ noColon'
  · exact Denotes.parse

/-- `::1` with a colon behind it. -/
theorem parse_fails :
    (∃ a, Ipv6.parse true (CString.ofBytes (ascii "::1:")) = some a) ∧
      ∀ a, ¬ Denotes (CString.ofBytes (ascii "::1:")).bytes a :=
  have one : (49 : UInt8) ≠ colon := by decide
  ⟨Option.isSome_iff_exists.mp (by decide +kernel),
    not_denotes_of_colon [colon, colon] one⟩

end Metal.Net.Ipv6
