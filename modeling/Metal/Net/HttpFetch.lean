import Metal.Net.HttpLength

namespace Metal.Net.HttpClient

open Metal.Lib

/-! What a fetch gives for a response of one Content-Length, however the transport
splits it. -/

structure HeaderField where
  name : Bytes
  value : Bytes
  named : 58 ∉ name
  oneLine : 13 ∉ name ∧ 13 ∉ value

def HeaderField.line (field : HeaderField) : Bytes := field.name ++ 58 :: field.value

def HeaderField.isLength (field : HeaderField) : Bool :=
  field.name.map lower = ascii "content-length"

def blank (c : UInt8) : Bool := c = 32 || c = 9

def HeaderField.number (field : HeaderField) : Option Nat :=
  let digits := ((field.value.dropWhile blank).reverse.dropWhile blank).reverse
  if digits ≠ [] ∧ digits.all isDigit then some (decimal digits) else none

structure Response where
  version : Bytes
  reason : Bytes
  fields : List HeaderField
  length : Nat
  versioned : version.length = 3
  oneLine : 13 ∉ version ∧ 13 ∉ reason
  one : (fields.filter HeaderField.isLength).map HeaderField.number = [some length]

namespace Response

def lines (r : Response) : List Bytes :=
  (ascii "HTTP/" ++ r.version ++ [32, 50] ++ r.reason) :: r.fields.map HeaderField.line

def head (r : Response) : Bytes := r.lines.flatMap (· ++ [13, 10]) ++ [13, 10]

end Response

/-- The splits of a stream into what `http_recv` returns before the end. -/
inductive Splits : Bytes → List Recv → Prop
  | nil : Splits [] []
  | wait {stream recvs} (rest : Splits stream recvs) : Splits stream (.wait :: recvs)
  | got {stream recvs chunk} (some_ : chunk ≠ []) (small : chunk.length ≤ recvMax)
      (rest : Splits stream recvs) : Splits (chunk ++ stream) (.got chunk :: recvs)

/-- The body of `n` bytes, or an error where the stream closes before. -/
def outcomeOf (n : Nat) (rest : Bytes) : Outcome :=
  if n ≤ rest.length then .done (rest.take n) else .error

def GetSound (mem : Nat → Bool) (r : Response) (rest : Bytes) : Prop :=
  ∀ recvs, Splits (r.head ++ rest) recvs →
    fetch mem (recvs ++ [Recv.closed]) = outcomeOf r.length rest

def HeadSound (mem : Nat → Bool) (r : Response) : Prop :=
  ∀ recvs, Splits r.head recvs → fetch mem (recvs ++ [Recv.closed]) = .done []

section HeaderEnd

variable {p q line more : Bytes} {e : Nat}

theorem findHdrEnd_cons (c : UInt8) (p : Bytes) :
    findHdrEnd (c :: p) =
      if (c :: p).take 4 = [13, 10, 13, 10] then some 4 else (findHdrEnd p).map (· + 1) := by
  rw [findHdrEnd.eq_def]
  split
  · rename_i here
    cases here
    rfl
  · rename_i _ _ other same
    cases same
    rw [if_neg]
    intro here
    obtain ⟨q, whole⟩ : [13, 10, 13, 10] <+: c :: p := here ▸ List.take_prefix 4 (c :: p)
    injection whole with first tail
    exact other q first.symm tail.symm
  · rename_i same
    cases same

theorem length_of_found (found : findHdrEnd p = some e) : 4 ≤ e ∧ e ≤ p.length := by
  induction p generalizing e with
  | nil => cases found
  | cons c p ih =>
      rw [findHdrEnd_cons] at found
      split at found
      · rename_i here
        have long := congrArg List.length here
        rw [List.length_take] at long
        cases found
        simp only [List.length_cons, List.length_nil] at long ⊢
        omega
      · obtain ⟨tail, later, rfl⟩ := Option.map_eq_some_iff.mp found
        have inside := ih later
        rw [List.length_cons]
        omega

theorem findHdrEnd_append (found : findHdrEnd p = some e) (q : Bytes) :
    findHdrEnd (p ++ q) = some e := by
  induction p generalizing e with
  | nil => cases found
  | cons c p ih =>
      rw [findHdrEnd_cons] at found
      rw [List.cons_append, findHdrEnd_cons]
      split at found
      · rename_i here
        have long := congrArg List.length here
        rw [List.length_take] at long
        have same : (c :: (p ++ q)).take 4 = (c :: p).take 4 := by
          rw [← List.cons_append, List.take_append_of_le_length]
          simp only [List.length_cons, List.length_nil] at long ⊢
          omega
        rw [same, if_pos here]
        exact found
      · rename_i other
        obtain ⟨tail, later, rfl⟩ := Option.map_eq_some_iff.mp found
        have long := length_of_found later
        have same : (c :: (p ++ q)).take 4 = (c :: p).take 4 := by
          rw [← List.cons_append, List.take_append_of_le_length]
          rw [List.length_cons]
          omega
        rw [same, if_neg other, ih later]
        rfl

theorem findHdrEnd_skip (plain : 13 ∉ line) (more : Bytes) :
    findHdrEnd (line ++ more) = (findHdrEnd more).map (· + line.length) := by
  induction line with
  | nil => simp
  | cons c line ih =>
      rw [List.mem_cons, not_or] at plain
      have other : (c :: (line ++ more)).take 4 ≠ [13, 10, 13, 10] := by
        intro here
        exact plain.1 (List.cons.inj here).1.symm
      rw [List.cons_append, findHdrEnd_cons, if_neg other, ih plain.2, Option.map_map]
      congr 1

theorem findHdrEnd_newline (line : more.head? ≠ some 13) :
    findHdrEnd ([13, 10] ++ more) = (findHdrEnd more).map (· + 2) := by
  have first : (13 :: 10 :: more).take 4 ≠ [13, 10, 13, 10] := by
    intro here
    refine line ?_
    cases more with
    | nil => cases here
    | cons b more =>
        simp only [List.take_succ_cons, List.cons.injEq] at here
        rw [here.2.2.1]
        rfl
  have second : (10 :: more).take 4 ≠ [13, 10, 13, 10] := by
    intro here
    exact absurd (List.cons.inj here).1 (by decide)
  rw [List.cons_append, List.cons_append, List.nil_append, findHdrEnd_cons, if_neg first,
    findHdrEnd_cons, if_neg second, Option.map_map]
  rfl

theorem findHdrEnd_lines {lines : List Bytes} (some_ : lines ≠ [])
    (plain : ∀ line ∈ lines, line ≠ [] ∧ 13 ∉ line) (rest : Bytes) :
    findHdrEnd (lines.flatMap (· ++ [13, 10]) ++ ([13, 10] ++ rest)) =
      some (lines.flatMap (· ++ [13, 10]) ++ [13, 10]).length := by
  induction lines with
  | nil => exact absurd rfl some_
  | cons line lines ih =>
      have here := plain line List.mem_cons_self
      rw [List.flatMap_cons, List.append_assoc, List.append_assoc, findHdrEnd_skip here.2]
      cases lines with
      | nil =>
          change some (4 + line.length) = _
          simp
          omega
      | cons next lines =>
          have there := plain next (List.mem_cons_of_mem _ List.mem_cons_self)
          have after := ih (List.cons_ne_nil _ _)
            (fun line member => plain line (List.mem_cons_of_mem _ member))
          rw [findHdrEnd_newline, after]
          · simp
            omega
          · obtain ⟨b, next, rfl⟩ := List.exists_cons_of_ne_nil there.1
            rintro ⟨⟩
            exact there.2 List.mem_cons_self

end HeaderEnd

namespace Response

variable (r : Response) (rest : Bytes)

theorem lines_plain : ∀ line ∈ r.lines, line ≠ [] ∧ 13 ∉ line := by
  intro line member
  rw [lines, List.mem_cons] at member
  rcases member with rfl | member
  · have plain := r.oneLine
    simp [ascii, plain]
  · obtain ⟨field, -, rfl⟩ := List.mem_map.mp member
    have plain := field.oneLine
    simp [HeaderField.line, plain]

theorem findHdrEnd_head : findHdrEnd (r.head ++ rest) = some r.head.length := by
  rw [head, List.append_assoc]
  exact findHdrEnd_lines (List.cons_ne_nil _ _) r.lines_plain rest

theorem findHdrEnd_take (n : Nat) :
    findHdrEnd ((r.head ++ rest).take n) =
      if r.head.length ≤ n then some r.head.length else none := by
  split
  · rename_i arrived
    rw [List.take_append, List.take_of_length_le arrived]
    exact r.findHdrEnd_head _
  · rename_i early
    cases found : findHdrEnd ((r.head ++ rest).take n) with
    | none => rfl
    | some e =>
        have inside := (length_of_found found).2
        have whole := findHdrEnd_append found ((r.head ++ rest).drop n)
        rw [List.take_append_drop, r.findHdrEnd_head] at whole
        cases whole
        rw [List.length_take] at inside
        omega

theorem head_start :
    ∃ more, 2 ≤ more.length ∧ r.head = ascii "HTTP/" ++ (r.version ++ 32 :: 50 :: more) := by
  refine ⟨r.reason ++ [13, 10] ++ (r.fields.map HeaderField.line).flatMap (· ++ [13, 10]) ++
    [13, 10], ?_, ?_⟩
  · simp only [List.length_append, List.length_cons, List.length_nil]
    omega
  · simp [head, lines]

end Response

/-- A capacity that `acc_put` comes to. -/
def Doubled (cap : Nat) : Prop := cap = 0 ∨ ∃ k ≤ 31, cap = 2 ^ k

def Grants (mem : Nat → Bool) : Prop := ∀ n ≤ 2 ^ 31, mem n = true

section Loop

variable {mem : Nat → Bool} {acc : Acc} {r : Response} {rest got todo bytes : Bytes}
  {recvs : List Recv}

theorem Doubled.start {cap : Nat} (doubled : Doubled cap) :
    ∃ k ≤ 31, (if cap = 0 then 256 else cap) = 2 ^ k := by
  rcases doubled with zero | ⟨k, small, power⟩
  · exact ⟨8, by decide, if_pos zero⟩
  · refine ⟨k, small, ?_⟩
    rw [if_neg, power]
    have positive : 0 < 2 ^ k := Nat.two_pow_pos k
    omega

theorem growCap_doubled {need k : Nat} (fits : need ≤ 2 ^ 31) (small : k ≤ 31) :
    ∃ j ≤ 31, growCap need (2 ^ k) = some (2 ^ j) := by
  by_cases enough : need ≤ 2 ^ k
  · exact ⟨k, small, by rw [growCap, if_pos enough]⟩
  · have under : k < 31 := by
      rcases Nat.lt_or_ge k 31 with under | most
      · exact under
      · rw [Nat.le_antisymm small most] at enough
        exact absurd fits enough
    have below : 2 ^ k < 2 ^ 31 := Nat.pow_lt_pow_right (by decide) under
    have positive : 0 < 2 ^ k := Nat.two_pow_pos k
    obtain ⟨j, most, grown⟩ := growCap_doubled fits (show k + 1 ≤ 31 from under)
    refine ⟨j, most, ?_⟩
    rw [growCap, if_neg enough, dif_neg (by omega), ← Nat.pow_succ]
    exact grown
  termination_by 31 - k

theorem accPut_granted (granted : Grants mem) (doubled : Doubled acc.cap)
    (fits : acc.bytes.length + bytes.length ≤ 2 ^ 31) :
    ∃ cap, Doubled cap ∧ accPut mem acc bytes = .put ⟨acc.bytes ++ bytes, cap⟩ := by
  rw [accPut]
  split
  · rename_i empty
    rw [List.eq_nil_of_length_eq_zero empty, List.append_nil]
    exact ⟨acc.cap, doubled, rfl⟩
  dsimp only
  split
  · obtain ⟨k, small, power⟩ := doubled.start
    obtain ⟨j, most, grown⟩ := growCap_doubled fits small
    rw [power, grown]
    dsimp only
    rw [granted _ (Nat.pow_le_pow_right (by decide) most)]
    exact ⟨2 ^ j, .inr ⟨j, most, rfl⟩, rfl⟩
  · exact ⟨acc.cap, doubled, rfl⟩

theorem finishBody_head (granted : Grants mem) (fits : got.length ≤ 2 ^ 31) :
    finishBody mem (r.head ++ got) =
      match parseClen r.head with
      | some clen =>
          if got.length < clen.toNat then .short else .body (got.take clen.toNat)
      | none => .body got := by
  obtain ⟨more, some_, start⟩ := r.head_start
  have long : ¬ ((r.head ++ got).length < 12 ∨ (r.head ++ got).take 5 ≠ ascii "HTTP/") := by
    rw [not_or, start]
    constructor
    · simp only [List.length_append, List.length_cons, r.versioned]
      change ¬ 5 + (3 + (more.length + 1 + 1)) + got.length < 12
      omega
    · rw [List.append_assoc]
      exact not_not_intro (@List.take_left _ (ascii "HTTP/") _)
  have status : (r.head ++ got).getD 9 0 = 50 := by
    rw [List.getD_eq_getElem?_getD, start, List.append_assoc,
      List.getElem?_append_right (by decide), List.append_assoc,
      List.getElem?_append_right (by rw [r.versioned]; decide), r.versioned]
    rfl
  rw [finishBody, r.findHdrEnd_head]
  dsimp only
  rw [if_neg long, if_neg (not_not_intro status), List.take_left, List.drop_left,
    List.length_append, Nat.add_sub_cancel_left]
  cases parseClen r.head with
  | none =>
      dsimp only
      rw [granted _ (by split <;> omega)]
      rfl
  | some clen =>
      dsimp only
      split
      · rfl
      · rw [granted _ (by split <;> omega)]
        rfl

/-- What the code still waits for after `n` bytes, if anything. -/
def Response.Unfinished (r : Response) (n : Nat) : Prop :=
  ∀ v, Shows r.head v → n < r.head.length + v

theorem Response.unfinished_iff {n : Nat} :
    r.Unfinished n ↔ ∀ v, parseClen r.head = some v → n < r.head.length + v.toNat :=
  ⟨fun waits _ parsed => waits _ (parseClen_eq_some.mp parsed), fun waits v shown => by
    obtain ⟨u, parsed, rfl⟩ := shows_iff.mp shown
    exact waits u parsed⟩

theorem receive_got (granted : Grants mem) (doubled : Doubled acc.cap) (more : List Recv)
    (whole : acc.bytes ++ bytes <+: r.head ++ rest)
    (fits : acc.bytes.length + bytes.length ≤ 2 ^ 31) :
    (∃ v, Shows r.head v ∧ r.head.length + v ≤ acc.bytes.length + bytes.length ∧
        receive mem acc (.got bytes :: more) = .done (rest.take v)) ∨
      r.Unfinished (acc.bytes.length + bytes.length) ∧
        ∃ cap, Doubled cap ∧
          receive mem acc (.got bytes :: more) = receive mem ⟨acc.bytes ++ bytes, cap⟩ more := by
  obtain ⟨cap, after, stored⟩ := accPut_granted granted doubled fits
  have size : acc.bytes.length + bytes.length ≤ r.head.length + rest.length := by
    rw [← List.length_append, ← List.length_append]
    exact whole.length_le
  have arrived : acc.bytes ++ bytes =
      (r.head ++ rest).take (acc.bytes.length + bytes.length) := by
    rw [← List.length_append]
    exact List.prefix_iff_eq_take.mp whole
  rw [r.unfinished_iff, receive, stored]
  dsimp only
  rw [arrived, r.findHdrEnd_take]
  generalize acc.bytes.length + bytes.length = n at fits size
  rcases Nat.lt_or_ge n r.head.length with early | enough
  · rw [if_neg (by omega)]
    exact .inr ⟨fun v _ => by omega, cap, after, rfl⟩
  have body : (r.head ++ rest).take n = r.head ++ rest.take (n - r.head.length) := by
    rw [List.take_append, List.take_of_length_le enough]
  have length : (rest.take (n - r.head.length)).length = n - r.head.length := by
    rw [List.length_take]
    omega
  rw [if_pos enough, body]
  dsimp only
  rw [List.take_left, List.length_append, length, Nat.add_sub_cancel_left]
  cases parsed : parseClen r.head with
  | none =>
      refine .inr ⟨fun v other => ?_, cap, after, rfl⟩
      cases other
  | some clen =>
      dsimp only
      split
      · rename_i last
        refine .inl ⟨clen.toNat, parseClen_eq_some.mp parsed, by omega, ?_⟩
        rw [finishBody_head granted (by omega), parsed, length]
        dsimp only
        rw [if_neg (by omega)]
        dsimp only
        rw [List.take_take, Nat.min_eq_left last]
      · refine .inr ⟨fun v same => ?_, cap, after, rfl⟩
        cases same
        omega

/-- How a fetch ends that has taken the stream, as the code reads its length. -/
def Ends (r : Response) (rest : Bytes) (out : Outcome) : Prop :=
  (∃ v, Shows r.head v ∧ out = outcomeOf v rest) ∨
    (∀ v, ¬ Shows r.head v) ∧ out = .done rest

theorem receive_closed (granted : Grants mem) (whole : acc.bytes = r.head ++ rest)
    (waits : r.Unfinished acc.bytes.length) (fits : acc.bytes.length ≤ 2 ^ 31) :
    Ends r rest (receive mem acc [.closed]) := by
  rw [whole, List.length_append] at waits fits
  rw [receive, whole, finishBody_head granted (by omega)]
  cases parsed : parseClen r.head with
  | none =>
      refine .inr ⟨fun v shown => ?_, rfl⟩
      obtain ⟨u, other, -⟩ := shows_iff.mp shown
      rw [parsed] at other
      cases other
  | some clen =>
      have shown := parseClen_eq_some.mp parsed
      have short := waits _ shown
      refine .inl ⟨clen.toNat, shown, ?_⟩
      dsimp only
      rw [if_pos (by omega), outcomeOf, if_neg (by omega)]

theorem Ends.unique {out other : Outcome} (ends : Ends r rest out) (again : Ends r rest other) :
    out = other := by
  rcases ends with ⟨v, shown, rfl⟩ | ⟨hidden, rfl⟩
  · rcases again with ⟨w, also, rfl⟩ | ⟨hidden, -⟩
    · rw [shown.unique also]
    · exact absurd shown (hidden v)
  · rcases again with ⟨w, shown, -⟩ | ⟨-, rfl⟩
    · exact absurd shown (hidden w)
    · rfl

/-- The most bytes that a fetch takes before the end fit in the accumulator. -/
def Response.Fits (r : Response) (rest : Bytes) : Prop :=
  (r.head ++ rest).length ≤ 2 ^ 31 ∨
    ∃ v, Shows r.head v ∧ r.head.length + v + recvMax ≤ 2 ^ 31 + 1

theorem Response.Fits.chunk (fits : r.Fits rest) {n size : Nat} (small : size ≤ recvMax)
    (inside : n + size ≤ (r.head ++ rest).length) (waits : r.Unfinished n) :
    n + size ≤ 2 ^ 31 := by
  rcases fits with fits | ⟨v, shown, fits⟩
  · exact inside.trans fits
  · have early := waits v shown
    omega

theorem receive_splits (granted : Grants mem) (fits : r.Fits rest) (splits : Splits todo recvs)
    (doubled : Doubled acc.cap) (whole : acc.bytes ++ todo = r.head ++ rest)
    (waits : r.Unfinished acc.bytes.length) :
    Ends r rest (receive mem acc (recvs ++ [Recv.closed])) := by
  induction splits generalizing acc with
  | nil =>
      rw [List.append_nil] at whole
      have room := fits.chunk (Nat.zero_le _) (Nat.le_of_eq (congrArg List.length whole)) waits
      exact receive_closed granted whole waits room
  | wait _ ih => exact ih doubled whole waits
  | @got todo recvs chunk some_ small _ ih =>
      rw [← List.append_assoc] at whole
      have room : acc.bytes.length + chunk.length ≤ 2 ^ 31 := by
        refine fits.chunk small ?_ waits
        rw [← whole, List.length_append, List.length_append]
        omega
      rw [List.cons_append]
      rcases receive_got granted doubled (recvs ++ [Recv.closed]) ⟨todo, whole⟩ room with
        ⟨v, shown, last, done⟩ | ⟨unfinished, cap, after, step⟩
      · have size := congrArg List.length whole
        rw [List.length_append, List.length_append, List.length_append] at size
        rw [done]
        exact .inl ⟨v, shown, (if_pos (by omega)).symm⟩
      · rw [step]
        refine ih after whole ?_
        rw [List.length_append]
        exact unfinished

theorem growCap_none {need k : Nat} (long : 2 ^ 31 < need) (small : k ≤ 31) :
    growCap need (2 ^ k) = none := by
  have most : 2 ^ k ≤ 2 ^ 31 := Nat.pow_le_pow_right (by decide) small
  rw [growCap, if_neg (by omega)]
  split
  · rfl
  · rename_i under
    have next : k < 31 := by
      rcases Nat.lt_or_ge k 31 with next | last
      · exact next
      · rw [Nat.le_antisymm small last] at under
        exact absurd (.inr (Nat.le_refl _)) under
    rw [← Nat.pow_succ]
    exact growCap_none long next
  termination_by 31 - k

theorem accPut_stuck (doubled : Doubled acc.cap) (some_ : bytes ≠ [])
    (long : 2 ^ 31 < acc.bytes.length + bytes.length) : accPut mem acc bytes = .stuck := by
  have most : acc.cap ≤ 2 ^ 31 := by
    rcases doubled with zero | ⟨k, small, power⟩
    · omega
    · rw [power]
      exact Nat.pow_le_pow_right (by decide) small
  obtain ⟨k, small, start⟩ := doubled.start
  rw [accPut, if_neg (by simpa using some_)]
  dsimp only
  rw [if_pos (by omega), start, growCap_none long small]

def bytewise (stream : Bytes) : List Recv := stream.map fun b => .got [b]

theorem Splits.bytewise_append {stream : Bytes} (bytes : Bytes) (splits : Splits stream recvs) :
    Splits (bytes ++ stream) (bytewise bytes ++ recvs) := by
  induction bytes with
  | nil => exact splits
  | cons b bytes ih => exact .got (List.cons_ne_nil b []) (Nat.le_add_left 1 4095) ih

theorem receive_bytewise (granted : Grants mem) (doubled : Doubled acc.cap) (more : List Recv)
    (whole : acc.bytes ++ bytes <+: r.head ++ rest)
    (fits : acc.bytes.length + bytes.length ≤ 2 ^ 31)
    (waits : r.Unfinished (acc.bytes.length + bytes.length)) :
    ∃ cap, Doubled cap ∧
      receive mem acc (bytewise bytes ++ more) = receive mem ⟨acc.bytes ++ bytes, cap⟩ more := by
  induction bytes generalizing acc with
  | nil => exact ⟨acc.cap, doubled, by rw [List.append_nil]; rfl⟩
  | cons b bytes ih =>
      rw [← List.singleton_append, ← List.append_assoc] at whole
      rw [List.length_cons] at fits waits
      rcases receive_got granted doubled (bytewise bytes ++ more)
        ((List.prefix_append _ bytes).trans whole) (by rw [List.length_singleton]; omega) with
        ⟨v, shown, last, -⟩ | ⟨-, cap, after, step⟩
      · have early := waits v shown
        rw [List.length_singleton] at last
        omega
      · have size : (acc.bytes ++ [b]).length + bytes.length =
            acc.bytes.length + (bytes.length + 1) := by
          rw [List.length_append, List.length_singleton]
          omega
        rw [← size] at fits waits
        obtain ⟨grown, doubled, run⟩ :=
          @ih ⟨acc.bytes ++ [b], cap⟩ after whole fits waits
        refine ⟨grown, doubled, ?_⟩
        change receive mem acc (.got [b] :: (bytewise bytes ++ more)) = _
        rw [step, run, List.append_assoc, List.singleton_append]

theorem fetch_bytewise (granted : Grants mem) (more : List Recv) (whole : bytes <+: r.head ++ rest)
    (fits : bytes.length ≤ 2 ^ 31) (waits : r.Unfinished bytes.length) :
    ∃ cap, Doubled cap ∧
      fetch mem (bytewise bytes ++ more) = receive mem ⟨bytes, cap⟩ more := by
  have size : ([] : Bytes).length + bytes.length = bytes.length := Nat.zero_add _
  rw [← size] at fits waits
  exact @receive_bytewise mem ⟨[], 0⟩ r rest bytes granted (.inl rfl) more whole fits waits

theorem Response.exists_unfinished (long : ¬ r.Fits rest) :
    ∃ n ≤ 2 ^ 31, 2 ^ 31 < n + recvMax ∧ r.Unfinished n := by
  rw [Fits, not_or] at long
  by_cases shown : ∃ v, Shows r.head v
  · obtain ⟨v, shown⟩ := shown
    have large : ¬ r.head.length + v + recvMax ≤ 2 ^ 31 + 1 :=
      fun fits => long.2 ⟨v, shown, fits⟩
    have header := (length_of_found (r.findHdrEnd_head [])).1
    refine ⟨min (2 ^ 31) (r.head.length + v - 1), Nat.min_le_left _ _, ?_, fun w other => ?_⟩
    · simp only [recvMax] at large ⊢
      omega
    · rw [shown.unique other]
      omega
  · exact ⟨2 ^ 31, Nat.le_refl _, by decide, fun v other => absurd ⟨v, other⟩ shown⟩

theorem fetch_stuck (granted : Grants mem) (long : ¬ r.Fits rest) :
    ∃ recvs, Splits (r.head ++ rest) recvs ∧ fetch mem (recvs ++ [Recv.closed]) = .stuck := by
  obtain ⟨n, small, large, waits⟩ := r.exists_unfinished long
  rw [Response.Fits, not_or, Nat.not_le] at long
  have before : ((r.head ++ rest).take n).length = n := by
    rw [List.length_take]
    omega
  have chunk : 2 ^ 31 < n + (((r.head ++ rest).drop n).take recvMax).length := by
    rw [List.length_take, List.length_drop]
    omega
  have some_ : ((r.head ++ rest).drop n).take recvMax ≠ [] := by
    rintro empty
    rw [empty, List.length_nil] at chunk
    omega
  refine ⟨bytewise ((r.head ++ rest).take n) ++ .got (((r.head ++ rest).drop n).take recvMax) ::
    bytewise (((r.head ++ rest).drop n).drop recvMax), ?_, ?_⟩
  · have last : Splits (((r.head ++ rest).drop n).drop recvMax)
        (bytewise (((r.head ++ rest).drop n).drop recvMax)) := by
      have splits := Splits.nil.bytewise_append (((r.head ++ rest).drop n).drop recvMax)
      rwa [List.append_nil, List.append_nil] at splits
    have splits := (Splits.got some_ (List.length_take_le _ _) last).bytewise_append
      ((r.head ++ rest).take n)
    rwa [List.take_append_drop, List.take_append_drop] at splits
  · rw [List.append_assoc]
    obtain ⟨cap, doubled, run⟩ := fetch_bytewise granted
      (.got (((r.head ++ rest).drop n).take recvMax) ::
        bytewise (((r.head ++ rest).drop n).drop recvMax) ++ [Recv.closed])
      (List.take_prefix n (r.head ++ rest)) (before.le.trans small) (before.symm ▸ waits)
    have stuck := @accPut_stuck mem ⟨(r.head ++ rest).take n, cap⟩
      (((r.head ++ rest).drop n).take recvMax) doubled some_ (by rwa [before])
    rw [run, List.cons_append, receive, stuck]

/-! ### Where the fetches of a response are sound -/

theorem fetch_ends (granted : Grants mem) (fits : r.Fits rest)
    (splits : Splits (r.head ++ rest) recvs) :
    Ends r rest (fetch mem (recvs ++ [Recv.closed])) := by
  refine receive_splits granted fits splits (.inl rfl) (List.nil_append _) fun v _ => ?_
  have header := (length_of_found (r.findHdrEnd_head [])).1
  change 0 < _
  omega

theorem fetch_all_iff (granted : Grants mem) {out : Outcome} (stuck : out ≠ .stuck) :
    (∀ recvs, Splits (r.head ++ rest) recvs → fetch mem (recvs ++ [Recv.closed]) = out) ↔
      r.Fits rest ∧ Ends r rest out := by
  constructor
  · intro sound
    have fits : r.Fits rest := by
      by_contra long
      obtain ⟨recvs, splits, bad⟩ := fetch_stuck granted long
      exact stuck ((sound recvs splits).symm.trans bad)
    have splits := Splits.nil.bytewise_append (r.head ++ rest)
    rw [List.append_nil] at splits
    rw [← sound _ splits]
    exact ⟨fits, fetch_ends granted fits splits⟩
  · rintro ⟨fits, ends⟩ recvs splits
    exact (fetch_ends granted fits splits).unique ends

end Loop

theorem outcomeOf_ne_stuck (n : Nat) (rest : Bytes) : outcomeOf n rest ≠ .stuck := by
  rw [outcomeOf]
  split <;> exact nofun

theorem outcomeOf_eq_done {n : Nat} {rest : Bytes} :
    outcomeOf n rest = .done rest ↔ rest.length = n := by
  rw [outcomeOf]
  split
  · rename_i inside
    rw [Outcome.done.injEq, List.take_eq_self_iff]
    omega
  · rename_i short
    refine ⟨fun bad => ?_, fun same => absurd (Nat.le_of_eq same.symm) short⟩
    cases bad

theorem outcomeOf_inj {n v : Nat} {rest : Bytes} :
    outcomeOf n rest = outcomeOf v rest ↔ v = n ∨ rest.length < n ∧ rest.length < v := by
  rcases Nat.lt_or_ge rest.length v with beyond | reached
  · have missed : outcomeOf v rest = .error := if_neg (Nat.not_le.mpr beyond)
    rw [missed, outcomeOf]
    split
    · rename_i inside
      simp only [reduceCtorEq, false_iff]
      omega
    · simp only [true_iff]
      omega
  · have found : outcomeOf v rest = .done (rest.take v) := if_pos reached
    rw [found, outcomeOf]
    split
    · rename_i inside
      rw [Outcome.done.injEq, List.take_eq_take_iff, Nat.min_eq_left inside,
        Nat.min_eq_left reached]
      omega
    · simp only [reduceCtorEq, false_iff]
      omega

/-- Where the code reads the length of the response, or one that the body does not reach
either, or reads none and the body ends with the stream. -/
theorem fetch_sound_iff {mem : Nat → Bool} (granted : Grants mem) (r : Response) (rest : Bytes) :
    (GetSound mem r rest ↔ r.Fits rest ∧
        ((∃ v, Shows r.head v ∧ (v = r.length ∨ rest.length < r.length ∧ rest.length < v)) ∨
          (∀ v, ¬ Shows r.head v) ∧ rest.length = r.length)) ∧
      (HeadSound mem r ↔ r.Fits [] ∧ ∀ v, Shows r.head v → v = 0) := by
  constructor
  · have sound : GetSound mem r rest ↔ r.Fits rest ∧ Ends r rest (outcomeOf r.length rest) :=
      fetch_all_iff granted (outcomeOf_ne_stuck r.length rest)
    rw [sound, Ends]
    refine and_congr_right fun _ => or_congr ?_ (and_congr_right fun _ => outcomeOf_eq_done)
    exact exists_congr fun v => and_congr_right fun _ => outcomeOf_inj
  · have sound := @fetch_all_iff mem r [] granted (.done []) nofun
    rw [List.append_nil, ← HeadSound] at sound
    rw [sound, Ends]
    refine and_congr_right fun _ => ?_
    constructor
    · rintro (⟨v, shown, done⟩ | ⟨hidden, -⟩) w also
      · rw [also.unique shown]
        rw [outcomeOf] at done
        split at done
        · rename_i none_
          exact Nat.le_zero.mp none_
        · cases done
      · exact absurd also (hidden w)
    · intro zero
      by_cases shown : ∃ v, Shows r.head v
      · obtain ⟨v, shown⟩ := shown
        refine .inl ⟨v, shown, ?_⟩
        rw [zero v shown]
        rfl
      · exact .inr ⟨fun v also => shown ⟨v, also⟩, rfl⟩

theorem granted_all : Grants fun _ => true := fun _ _ => rfl

def hello : Response where
  version := ascii "1.0"
  reason := ascii "00 OK"
  fields := [⟨ascii "Content-Length", ascii " 5", by decide, by decide⟩]
  length := 5
  versioned := by decide
  oneLine := by decide
  one := by decide

theorem hello_shows : Shows hello.head 5 := shows_iff.mpr ⟨5, by decide +kernel, rfl⟩

theorem hello_sound :
    GetSound (fun _ => true) hello (ascii "hello") ∧ ¬ HeadSound (fun _ => true) hello := by
  have sound := fetch_sound_iff granted_all hello (ascii "hello")
  constructor
  · exact sound.1.mpr ⟨.inl (by decide +kernel), .inl ⟨5, hello_shows, .inl rfl⟩⟩
  · intro heads
    exact absurd ((sound.2.mp heads).2 5 hello_shows) (by decide)

def cookies : Response where
  version := ascii "1.1"
  reason := ascii "00 OK"
  fields :=
    [⟨ascii "Set-Cookie", List.replicate 240 97, by decide +kernel, by decide +kernel⟩,
      ⟨ascii "Content-Length", ascii " 5", by decide, by decide⟩]
  length := 5
  versioned := by decide
  oneLine := by decide
  one := by decide +kernel

theorem cookies_hidden (v : Nat) : ¬ Shows cookies.head v := by
  intro shown
  obtain ⟨u, parsed, -⟩ := shows_iff.mp shown
  have none_ : parseClen cookies.head = none := by decide +kernel
  rw [none_] at parsed
  cases parsed

/-- The header alone ends in an error, and a short body is taken for the whole. -/
theorem head_and_short_unsound :
    (∃ recvs, Splits hello.head recvs ∧
        fetch (fun _ => true) (recvs ++ [Recv.closed]) = .error) ∧
      ∃ recvs, Splits (cookies.head ++ ascii "he") recvs ∧
        fetch (fun _ => true) (recvs ++ [Recv.closed]) = .done (ascii "he") := by
  constructor
  · have splits := Splits.nil.bytewise_append hello.head
    refine ⟨_, splits, ?_⟩
    have ends := @fetch_ends _ hello [] _ granted_all (.inl (by decide +kernel)) splits
    exact ends.unique (.inl ⟨5, hello_shows, rfl⟩)
  · have splits := Splits.nil.bytewise_append (cookies.head ++ ascii "he")
    rw [List.append_nil] at splits
    refine ⟨_, splits, ?_⟩
    have ends := fetch_ends granted_all (.inl (by decide +kernel)) splits
    exact ends.unique (.inr ⟨cookies_hidden, rfl⟩)

end Metal.Net.HttpClient
