import Metal.Net.Dns

namespace Metal.Net.Dns

open Metal.Lib

/-! Names as lists of labels: how they are spelled in a message, and that encoder,
decoder, server and client agree on them. -/

structure DomainName where
  labels : List Bytes
  sized : ∀ label ∈ labels, 0 < label.length ∧ label.length ≤ 63
  plain : ∀ label ∈ labels, dot ∉ label ∧ 0 ∉ label
  short : ([dot].intercalate labels).length < nameMax

def dotted (labels : List Bytes) : Bytes := labels.flatMap (dot :: ·)

def wire (labels : List Bytes) : Bytes :=
  labels.flatMap (fun label => UInt8.ofNat label.length :: label) ++ [0]

/-- The labels that a name at `o` spells, through how many pointers, and where its
first occurrence ends. -/
inductive Spelled (msg : Bytes) : (jumps o : Nat) → List Bytes → (end_ : Nat) → Prop
  | root {o} (here : msg[o]? = some 0) : Spelled msg 0 o [] (o + 1)
  | pointer {o jumps labels end_} {high low : UInt8} (here : msg[o]? = some high)
      (marked : high &&& 0xc0 = 0xc0) (next : msg[o + 1]? = some low)
      (target : Spelled msg jumps ((high &&& 0x3f).toNat <<< 8 ||| low.toNat) labels end_) :
      Spelled msg (jumps + 1) o labels (o + 2)
  | label {o jumps labels end_} (label rest : Bytes)
      (here : msg.drop o = UInt8.ofNat label.length :: label ++ rest)
      (target : Spelled msg jumps (o + 1 + label.length) labels end_) :
      Spelled msg jumps o (label :: labels) end_

theorem intercalate_dot (label : Bytes) (labels : List Bytes) :
    [dot].intercalate (label :: labels) = label ++ dotted labels := by
  induction labels generalizing label with
  | nil => simp [dotted]
  | cons next labels ih =>
      rw [List.intercalate_cons_cons, ih]
      simp [dotted]

theorem drop_dotted (labels : List Bytes) :
    (dotted labels).drop 1 = [dot].intercalate labels := by
  cases labels with
  | nil => rfl
  | cons label labels =>
      rw [intercalate_dot]
      rfl

variable {labels : List Bytes}

theorem mem_intercalate {byte : UInt8} (member : byte ∈ [dot].intercalate labels) :
    byte = dot ∨ ∃ label ∈ labels, byte ∈ label := by
  induction labels with
  | nil => cases member
  | cons label labels ih =>
      rw [intercalate_dot, List.mem_append, dotted, List.mem_flatMap] at member
      simp only [List.mem_cons] at member
      grind

namespace DomainName

def text (name : DomainName) : CString where
  bytes := [dot].intercalate name.labels
  nulFree := fun member => by
    rcases mem_intercalate member with nul | ⟨label, among, nul⟩
    · cases nul
    · exact (name.plain label among).2 nul

end DomainName

theorem takeWhile_label {label : Bytes} (plain : dot ∉ label) (labels : List Bytes) :
    (label ++ dotted labels).takeWhile (· ≠ dot) = label := by
  have inside : ∀ byte ∈ label, decide (byte ≠ dot) = true := by
    intro byte member
    rw [decide_eq_true_iff]
    rintro rfl
    exact plain member
  rw [List.takeWhile_append_of_pos inside]
  cases labels with
  | nil => simp [dotted]
  | cons next labels => simp [dotted]

theorem encFrom_intercalate {cap n : Nat}
    (sized : ∀ label ∈ labels, 0 < label.length ∧ label.length ≤ 63)
    (plain : ∀ label ∈ labels, dot ∉ label) (room : n + (wire labels).length ≤ cap) :
    encFrom cap n ([dot].intercalate labels) = some (wire labels) := by
  induction labels generalizing n with
  | nil =>
      rw [encFrom, dif_pos List.intercalate_nil, if_neg]
      · rfl
      · simpa [wire] using room
  | cons label labels ih =>
      have some_ := sized label List.mem_cons_self
      have behind : (wire (label :: labels)).length = 1 + label.length + (wire labels).length := by
        simp [wire]
        omega
      have last : 0 < (wire labels).length := by simp [wire]
      have nonempty : [dot].intercalate (label :: labels) ≠ [] := by
        rw [intercalate_dot]
        intro empty
        rw [(List.append_eq_nil_iff.mp empty).1] at some_
        exact absurd some_.1 (by decide)
      have rest := ih (fun next member => sized next (List.mem_cons_of_mem _ member))
        (fun next member => plain next (List.mem_cons_of_mem _ member))
        (n := n + 1 + label.length) (by omega)
      rw [encFrom, dif_neg nonempty]
      dsimp only
      rw [intercalate_dot, takeWhile_label (plain label List.mem_cons_self),
        if_neg (by omega), ← List.drop_drop, List.drop_left, drop_dotted, rest]
      simp [wire]

section Decoder

variable {msg out : Bytes} {ocap o jumps end_ : Nat} {sawPtr : Bool}

theorem decFrom_root (here : msg[o]? = some 0) :
    decFrom msg ocap o jumps out end_ sawPtr =
      .ok (some (out, if sawPtr then end_ else o + 1)) := by
  obtain ⟨inside, -⟩ := List.getElem?_eq_some_iff.mp here
  rw [decFrom, dif_pos inside, byteAt_of_getElem? here]
  rfl

theorem decFrom_pointer {high low : UInt8} (here : msg[o]? = some high)
    (marked : high &&& 0xc0 = 0xc0) (next : msg[o + 1]? = some low) (few : jumps ≤ 8) :
    decFrom msg ocap o jumps out end_ sawPtr =
      decFrom msg ocap ((high &&& 0x3f).toNat <<< 8 ||| low.toNat) (jumps + 1) out
        (if sawPtr then end_ else o + 2) true := by
  obtain ⟨inside, -⟩ := List.getElem?_eq_some_iff.mp here
  obtain ⟨after, -⟩ := List.getElem?_eq_some_iff.mp next
  rw [decFrom, dif_pos inside, byteAt_of_getElem? here]
  simp only [Except.bind]
  rw [if_pos marked, dif_neg (by omega), byteAt_of_getElem? next]

theorem decFrom_label {label rest : Bytes}
    (here : msg.drop o = UInt8.ofNat label.length :: label ++ rest)
    (sized : 0 < label.length ∧ label.length ≤ 63)
    (room : out.length + label.length + 1 < ocap) :
    decFrom msg ocap o jumps out end_ sawPtr =
      decFrom msg ocap (o + 1 + label.length) jumps
        ((if out ≠ [] then out ++ [dot] else out) ++ label) end_ sawPtr := by
  have first : msg[o]? = some (UInt8.ofNat label.length) := by
    rw [← List.head?_drop, here]
    rfl
  have size : (UInt8.ofNat label.length).toNat = label.length := by
    simp
    omega
  have long := congrArg List.length here
  simp only [List.length_drop, List.length_cons, List.length_append] at long
  have unmarked : UInt8.ofNat label.length &&& 0xc0 ≠ 0xc0 := by
    intro marked
    have small : (UInt8.ofNat label.length).toNat &&& 192 ≤ label.length :=
      Nat.and_le_left.trans_eq size
    rw [show (UInt8.ofNat label.length).toNat &&& 192 = 192 from
      congrArg UInt8.toNat marked] at small
    omega
  have nonzero : UInt8.ofNat label.length ≠ 0 := by
    intro zero
    rw [zero] at size
    simp at size
    omega
  have text : (msg.drop (o + 1)).take label.length = label := by
    rw [← List.drop_drop, here]
    simp
  obtain ⟨inside, -⟩ := List.getElem?_eq_some_iff.mp first
  rw [decFrom, dif_pos inside, byteAt_of_getElem? first]
  simp only [Except.bind]
  rw [if_neg unmarked, if_neg nonzero, size, if_neg (by omega), bytesAt_of_le (by omega), text]

def joined (out : Bytes) (labels : List Bytes) : Bytes :=
  if out = [] then [dot].intercalate labels else out ++ dotted labels

theorem joined_nil (out : Bytes) : joined out [] = out := by
  unfold joined
  split
  · rename_i empty
    rw [empty]
    rfl
  · exact List.append_nil out

theorem joined_cons {label : Bytes} (some_ : 0 < label.length) (labels : List Bytes) :
    joined ((if out ≠ [] then out ++ [dot] else out) ++ label) labels =
      joined out (label :: labels) := by
  have grown : (if out ≠ [] then out ++ [dot] else out) ++ label ≠ [] := by
    intro empty
    rw [(List.append_eq_nil_iff.mp empty).2] at some_
    exact absurd some_ (by decide)
  rw [joined, if_neg grown, joined, intercalate_dot]
  by_cases empty : out = []
  · simp [empty]
  · simp [empty, dotted]

theorem decFrom_spelled {j last : Nat} (spelled : Spelled msg j o labels last)
    (few : jumps + j ≤ 9) (sized : ∀ label ∈ labels, 0 < label.length ∧ label.length ≤ 63)
    (room : (joined out labels).length < nameMax) :
    decFrom msg nameMax o jumps out end_ sawPtr =
      .ok (some (joined out labels, if sawPtr then end_ else last)) := by
  induction spelled generalizing jumps out end_ sawPtr with
  | root here => rw [decFrom_root here, joined_nil]
  | pointer here marked next _ ih =>
      rw [decFrom_pointer here marked next (by omega), ih (by omega) sized room]
      simp
  | label label rest here _ ih =>
      have some_ := sized label List.mem_cons_self
      have fits : out.length + label.length + 1 < nameMax := by
        rw [joined, intercalate_dot] at room
        by_cases empty : out = []
        · rw [empty, nameMax, List.length_nil]
          omega
        · rw [if_neg empty] at room
          simp only [dotted, List.flatMap_cons, List.length_append, List.length_cons] at room
          omega
      rw [decFrom_label here some_ fits, ih few
        (fun next member => sized next (List.mem_cons_of_mem _ member)), joined_cons some_.1]
      rwa [joined_cons some_.1]

theorem decName_spelled (name : DomainName) {off j last : Nat}
    (spelled : Spelled msg j off name.labels last) (few : j ≤ 8) :
    decName msg nameMax off = .ok (some (name.text.bytes, last)) := by
  have room : (joined [] name.labels).length < nameMax := name.short
  rw [decName, decFrom_spelled spelled (by omega) name.sized room]
  rfl

end Decoder

theorem spelled_wire (labels : List Bytes) (front rest : Bytes) :
    Spelled (front ++ (wire labels ++ rest)) 0 front.length labels
      (front.length + (wire labels).length) := by
  induction labels generalizing front with
  | nil => exact .root (by simp [wire])
  | cons label labels ih =>
      have after := ih (front ++ UInt8.ofNat label.length :: label)
      simp only [wire, List.flatMap_cons, List.append_assoc, List.length_append,
        List.length_cons, List.cons_append] at after ⊢
      refine .label label (labels.flatMap
        (fun label => UInt8.ofNat label.length :: label) ++ ([0] ++ rest)) ?_ ?_
      · simp
      · convert after using 1 <;> omega

theorem length_wire (labels : List Bytes) :
    (wire labels).length = (dotted labels).length + 1 := by
  simp [wire, dotted]

theorem length_dotted_le (labels : List Bytes) :
    (dotted labels).length ≤ ([dot].intercalate labels).length + 1 := by
  rw [← drop_dotted, List.length_drop]
  omega

theorem length_wire_le (name : DomainName) : (wire name.labels).length ≤ nameMax + 1 := by
  have dots := length_dotted_le name.labels
  have short := name.short
  rw [length_wire]
  omega

theorem encName_text (name : DomainName) :
    encName (dnsMax - 16) name.text = some (wire name.labels) := by
  have behind := length_wire_le name
  rw [nameMax] at behind
  exact encFrom_intercalate name.sized (fun label member => (name.plain label member).1)
    (by rw [dnsMax]; omega)

def asked (xid : UInt16) (labels : List Bytes) : Bytes :=
  beBytes16 xid ++ [1, 0, 0, 1, 0, 0, 0, 0, 0, 0] ++ (wire labels ++ [0, 1, 0, 1])

def replied (xid : UInt16) (labels : List Bytes) (addrBe : UInt32) : Bytes :=
  beBytes16 xid ++ [0x81, 0, 0, 1, 0, 1, 0, 0, 0, 0] ++ (wire labels ++
    ([0, 1, 0, 1] ++ ([0xc0, 0x0c, 0, 1, 0, 1, 0, 0, 0, 8, 0, 4] ++ beBytes32 addrBe)))

theorem query_text (xid : UInt16) (name : DomainName) :
    query xid name.text = some (asked xid name.labels) := by
  rw [query, encName_text, Option.map_some, asked]
  simp

theorem dnsReply_asked (zone : List Zone) (xid : UInt16) (name : DomainName) :
    dnsReply zone (asked xid name.labels) =
      .ok ((zone[zoneFind zone name.text]?).map fun row =>
        replied xid name.labels row.addrBe) := by
  have spelled := spelled_wire name.labels
    (beBytes16 xid ++ [1, 0, 0, 1, 0, 0, 0, 0, 0, 0]) [0, 1, 0, 1]
  have short := length_wire_le name
  have size : (asked xid name.labels).length = 16 + (wire name.labels).length := by
    simp only [asked, List.length_append, length_beBytes16, List.length_cons, List.length_nil]
    omega
  have decoded : decName (asked xid name.labels) nameMax 12 = _ :=
    decName_spelled name spelled (by decide)
  rw [nameMax] at short
  rw [dnsReply, if_neg (by omega), decoded]
  simp only [Except.bind, CString.ofBytes_bytes]
  split
  · rename_i missing
    rw [missing]
    rfl
  · rename_i row found
    have flags : byteAt (asked xid name.labels) 2 = .ok 1 := byteAt_of_getElem? rfl
    rw [if_neg (by rw [dnsMax]; omega), flags, found]
    simp [asked, replied, beBytes16]
    decide

theorem answer_replied (xid : UInt16) (name : DomainName) (addrBe : UInt32) :
    answer xid (replied xid name.labels addrBe) = .ok (some addrBe) := by
  have spelled := spelled_wire name.labels
    (beBytes16 xid ++ [0x81, 0, 0, 1, 0, 1, 0, 0, 0, 0])
    ([0, 1, 0, 1] ++ ([0xc0, 0x0c, 0, 1, 0, 1, 0, 0, 0, 8, 0, 4] ++ beBytes32 addrBe))
  have decoded : decName (replied xid name.labels addrBe) nameMax 12 =
      .ok (some (name.text.bytes, 12 + (wire name.labels).length)) :=
    decName_spelled name spelled (by decide)
  have size : (replied xid name.labels addrBe).length = 32 + (wire name.labels).length := by
    simp only [replied, List.length_append, length_beBytes16, length_beBytes32,
      List.length_cons, List.length_nil]
    omega
  have tail : (replied xid name.labels addrBe).drop (16 + (wire name.labels).length) =
      [0xc0, 0x0c, 0, 1, 0, 1, 0, 0, 0, 8, 0, 4] ++ beBytes32 addrBe := by
    rw [replied, ← List.append_assoc (wire name.labels), ← List.append_assoc]
    refine List.drop_left' ?_
    simp only [List.length_append, length_beBytes16, List.length_cons, List.length_nil]
    omega
  have pointer : (replied xid name.labels addrBe)[16 + (wire name.labels).length]? =
      some 0xc0 := by
    rw [← List.head?_drop, tail]
    rfl
  have after : 12 + (wire name.labels).length + 4 = 16 + (wire name.labels).length := by omega
  have place : recordPlace (replied xid name.labels addrBe) =
      .ok (some (16 + (wire name.labels).length + 2)) := by
    rw [recordPlace, decoded]
    dsimp only [Except.bind]
    rw [after, if_pos (by omega), byteAt_of_getElem? pointer]
    rfl
  have id : bytesAt (replied xid name.labels addrBe) 0 2 = .ok (beBytes16 xid) :=
    bytesAt_of_le (by omega)
  have flags : byteAt (replied xid name.labels addrBe) 2 = .ok 0x81 := byteAt_of_getElem? rfl
  have count : byteAt (replied xid name.labels addrBe) 7 = .ok 1 := byteAt_of_getElem? rfl
  have same : beU16 (beBytes16 xid) = xid := by simpa using beU16_beBytes16 xid []
  rw [answer, if_neg (by omega), id]
  dsimp only [Except.bind]
  rw [if_neg (not_not_intro same), flags]
  dsimp only [Except.bind]
  rw [if_neg (by decide), count]
  dsimp only [Except.bind]
  rw [if_neg (by decide), place]
  dsimp only [Except.bind]
  rw [if_neg (by omega), bytesAt_of_le (by omega),
    show 16 + (wire name.labels).length + 2 + 10 = 16 + (wire name.labels).length + 12 by omega,
    ← List.drop_drop, tail]
  have value : beU32 (beBytes32 addrBe) = addrBe := by simpa using beU32_beBytes32 addrBe []
  change Except.ok (some (beU32 (beBytes32 addrBe))) = _
  rw [value]

/-- A lookup that the network serves: its query goes out, and what the server replies
arrives in time. -/
structure Served (env : Env) (zone : List Zone) (name : CString) : Prop where
  arena : env.arena = true
  opened : env.opened = true
  sent : env.sent = true
  reply : ∀ q r, query env.xid name = some q → dnsReply zone q = .ok (some r) →
    ∃ turn ≤ dnsSpins, env.recvfrom turn = some r ∧
      ∀ spin < turn, env.recvfrom spin = some [] ∧ env.late spin = false
  silence : ∀ q, query env.xid name = some q → dnsReply zone q = .ok none →
    ∀ spin, env.recvfrom spin = some []

theorem awaitFrom_silence {env : Env} (silence : ∀ spin, env.recvfrom spin = some [])
    (spin : Nat) : awaitFrom env spin = none := by
  fun_induction awaitFrom env spin with
  | case1 spin lost => rfl
  | case2 spin msg here some_ => 
      rw [silence] at here
      cases here
      exact absurd rfl some_
  | case3 spin msg here some_ late => rfl
  | case4 spin msg here some_ late ih => exact ih

theorem awaitFrom_turn {env : Env} {spin turn : Nat} {msg : Bytes} (some_ : msg ≠ [])
    (bound : turn ≤ dnsSpins) (order : spin ≤ turn) (here : env.recvfrom turn = some msg)
    (before : ∀ spin < turn, env.recvfrom spin = some [] ∧ env.late spin = false) :
    awaitFrom env spin = some (msg.take dnsMax) := by
  induction order using Nat.decreasingInduction with
  | self =>
      rw [awaitFrom, here]
      exact if_pos some_
  | of_succ spin order ih =>
      obtain ⟨nothing, early⟩ := before spin order
      rw [awaitFrom, nothing]
      dsimp only
      rw [if_neg (not_not_intro rfl), dif_neg, ih]
      rintro (late | past)
      · rw [early] at late
        cases late
      · omega

theorem lookup_served {env : Env} {zone : List Zone} (name : DomainName)
    (served : Served env zone name.text) :
    lookup env name.text = .ok ((zone[zoneFind zone name.text]?).map (·.addrBe)) := by
  have q := query_text env.xid name
  have reply := dnsReply_asked zone env.xid name
  have waits : received env name.text = awaitFrom env 0 := by
    rw [received, q]
    simp [served.arena, served.opened, served.sent]
  rw [lookup, waits]
  cases found : zone[zoneFind zone name.text]? with
  | none =>
      rw [found] at reply
      rw [awaitFrom_silence (served.silence _ q reply) 0]
      rfl
  | some row =>
      rw [found] at reply
      obtain ⟨turn, bound, here, before⟩ := served.reply _ _ q reply
      have short := length_wire_le name
      have size : (replied env.xid name.labels row.addrBe).length =
          32 + (wire name.labels).length := by
        simp only [replied, List.length_append, length_beBytes16, length_beBytes32,
          List.length_cons, List.length_nil]
        omega
      have some_ : replied env.xid name.labels row.addrBe ≠ [] := by
        intro empty
        rw [empty] at size
        simp at size
        omega
      rw [nameMax] at short
      rw [awaitFrom_turn some_ bound (Nat.zero_le turn) here before,
        List.take_of_length_le (by rw [dnsMax]; omega)]
      exact answer_replied env.xid name row.addrBe

theorem names_agree (name : DomainName) :
    (∃ enc, encName (dnsMax - 16) name.text = some enc ∧
      ∀ front rest, Spelled (front ++ (enc ++ rest)) 0 front.length name.labels
        (front.length + enc.length)) ∧
      (∀ msg jumps off last, jumps ≤ 8 → Spelled msg jumps off name.labels last →
        decName msg nameMax off = .ok (some (name.text.bytes, last))) ∧
      ∀ adds env, Served env (built adds) name.text →
        lookup env name.text =
          .ok (((built adds)[zoneFind (built adds) name.text]?).map (·.addrBe)) :=
  ⟨⟨wire name.labels, encName_text name, spelled_wire name.labels⟩,
    fun _ _ _ _ few spelled => decName_spelled name spelled few,
    fun _ _ served => lookup_served name served⟩

def loTest : DomainName where
  labels := [ascii "lo", ascii "test"]
  sized := by decide
  plain := by decide
  short := by decide

def loAdds : List Add := [⟨none, loTest.text, 0x7f000001⟩]

def loEnv : Env where
  arena := true
  opened := true
  xid := 1
  sent := true
  recvfrom := fun _ => some (replied 1 loTest.labels 0x7f000001)
  late := fun _ => false

theorem loTest_found :
    ((built loAdds)[zoneFind (built loAdds) loTest.text]?).map (·.addrBe) =
      some 0x7f000001 := by decide

theorem loEnv_served : Served loEnv (built loAdds) loTest.text := by
  have reply := dnsReply_asked (built loAdds) 1 loTest
  obtain ⟨row, found, addr⟩ := Option.map_eq_some_iff.mp loTest_found
  rw [found, Option.map_some, addr] at reply
  refine ⟨rfl, rfl, rfl, fun q r asked sent => ?_, fun q asked silent => ?_⟩
  · rw [show query loEnv.xid loTest.text = _ from query_text 1 loTest] at asked
    cases asked
    rw [reply] at sent
    cases sent
    exact ⟨0, by decide, rfl, fun spin early => absurd early (Nat.not_lt_zero spin)⟩
  · rw [show query loEnv.xid loTest.text = _ from query_text 1 loTest] at asked
    cases asked
    rw [reply] at silent
    cases silent

/-- `test`, and behind it `lo` with a pointer to the first. -/
def pointed : Bytes := [4, 116, 101, 115, 116, 0, 2, 108, 111, 0xc0, 0]

theorem pointed_spells : Spelled pointed 1 6 loTest.labels 11 :=
  .label (ascii "lo") [0xc0, 0] rfl (.pointer rfl rfl rfl
    (.label (ascii "test") [0, 2, 108, 111, 0xc0, 0] rfl (.root rfl)))

theorem names_agree_loTest :
    decName pointed nameMax 6 = .ok (some (ascii "lo.test", 11)) ∧
      lookup loEnv loTest.text = .ok (some 0x7f000001) := by
  refine ⟨(names_agree loTest).2.1 _ _ _ _ (by decide) pointed_spells, ?_⟩
  rw [(names_agree loTest).2.2 loAdds loEnv loEnv_served, loTest_found]

end Metal.Net.Dns
