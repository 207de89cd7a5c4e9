import Metal.Net.Dhcp

namespace Metal.Net.Dhcp

open Metal.Lib

/-! The options of a reply as pads, codes and data, and what the client makes of
them. -/

structure Opt where
  code : UInt8
  data : Bytes
  plain : code ≠ 0 ∧ code ≠ 255
  short : data.length < 256

inductive Item
  | pad
  | opt (o : Opt)

def Item.bytes : Item → Bytes
  | pad => [0]
  | opt o => o.code :: UInt8.ofNat o.data.length :: o.data

/-- The options of a packet: items, closed by the end mark or by its end. -/
def Field (p : Bytes) (items : List Item) : Prop :=
  ∃ rest, p.drop bootMin = items.flatMap Item.bytes ++ rest ∧
    (rest = [] ∨ rest.head? = some 255)

def firstOf (wanted : Opt → Bool) : List Item → Option Opt
  | [] => none
  | .pad :: items => firstOf wanted items
  | .opt o :: items => if wanted o then some o else firstOf wanted items

def messageType (items : List Item) : UInt8 :=
  match firstOf (fun o => o.code = 53 && o.data.length ≥ 1) items with
  | none => 0
  | some o => o.data.headD 0

def addresses (code : UInt8) (items : List Item) : Option Opt :=
  firstOf (fun o => o.code = code && o.data.length ≥ 4 && o.data.length % 4 = 0) items

def oneAddress (code : UInt8) (items : List Item) : Option Opt :=
  firstOf (fun o => o.code = code && o.data.length = 4) items

def addressOf : Option Opt → UInt32
  | none => 0
  | some o => beU32 o.data

section Scans

variable {p rest : Bytes} {i : Nat} {taken : UInt8 → UInt8 → Bool}

theorem length_of_drop {tail : Bytes} (here : p.drop i = tail) (some_ : tail ≠ []) :
    p.length = i + tail.length := by
  have long := congrArg List.length here
  rw [List.length_drop] at long
  have := List.length_pos_iff.mpr some_
  omega

theorem getElem?_of_drop {tail : Bytes} (here : p.drop i = tail) (j : Nat) :
    p[i + j]? = tail[j]? := by
  rw [← here, List.getElem?_drop]

theorem optScan_end (here : p.drop i = rest) (closed : rest = [] ∨ rest.head? = some 255) :
    optScan p taken i = .ok none := by
  rw [optScan]
  split
  · rename_i room
    rcases closed with rfl | mark
    · have past := List.drop_eq_nil_iff.mp here
      omega
    · have first : p[i]? = some 255 := by rw [← mark, ← here, List.head?_drop]
      rw [byteAt_of_getElem? first]
      rfl
  · rfl

theorem optScan_pad (here : p.drop i = 0 :: rest) :
    optScan p taken i = optScan p taken (i + 1) := by
  have long := length_of_drop here (List.cons_ne_nil _ _)
  rw [optScan]
  split
  · have first : p[i]? = some 0 := getElem?_of_drop here 0
    rw [byteAt_of_getElem? first]
    rfl
  · rw [optScan, dif_neg (by omega)]

theorem optScan_opt (o : Opt)
    (here : p.drop i = o.code :: UInt8.ofNat o.data.length :: o.data ++ rest) :
    optScan p taken i =
      if taken o.code (UInt8.ofNat o.data.length) then .ok (some (i + 2))
      else optScan p taken (i + 2 + o.data.length) := by
  have long := length_of_drop here (List.cons_ne_nil _ _)
  simp only [List.length_cons, List.length_append] at long
  have size : (UInt8.ofNat o.data.length).toNat = o.data.length := by
    have short := o.short
    simp
    omega
  have code : p[i]? = some o.code := getElem?_of_drop here 0
  have next : p[i + 1]? = some (UInt8.ofNat o.data.length) := getElem?_of_drop here 1
  rw [optScan, dif_pos (by omega), byteAt_of_getElem? code]
  dsimp only [Except.bind]
  rw [if_neg o.plain.2, if_neg o.plain.1, byteAt_of_getElem? next]
  dsimp only
  rw [size, if_neg (by omega)]

theorem optScan_inside (p : Bytes) (taken : UInt8 → UInt8 → Bool) (i : Nat) :
    ∃ found, optScan p taken i = .ok found ∧ ∀ place, found = some place →
      ∃ t l, taken t l = true ∧ place + l.toNat ≤ p.length := by
  fun_induction optScan p taken i with
  | case1 i room skip next =>
      rw [byteAt_of_lt (by omega)]
      dsimp only [Except.bind]
      split
      · exact ⟨none, rfl, fun _ none => by cases none⟩
      split
      · exact skip
      rw [byteAt_of_lt (by omega)]
      dsimp only
      split
      · exact ⟨none, rfl, fun _ none => by cases none⟩
      split
      · rename_i fits here
        refine ⟨_, rfl, fun place same => ?_⟩
        cases same
        exact ⟨_, _, here, by omega⟩
      · rename_i fits _
        exact next _ fits
  | case2 => exact ⟨none, rfl, fun _ none => by cases none⟩

def Finds (p : Bytes) (scanned : Except Outside (Option Nat)) : Option Opt → Prop
  | none => scanned = .ok none
  | some o => ∃ place behind, scanned = .ok (some place) ∧ p.drop place = o.data ++ behind

theorem optScan_items (taken : UInt8 → UInt8 → Bool) {items : List Item} {wanted : Opt → Bool}
    (agree : ∀ o : Opt, taken o.code (UInt8.ofNat o.data.length) = wanted o)
    (here : p.drop i = items.flatMap Item.bytes ++ rest)
    (closed : rest = [] ∨ rest.head? = some 255) :
    Finds p (optScan p taken i) (firstOf wanted items) := by
  induction items generalizing i with
  | nil => exact optScan_end here closed
  | cons item items ih =>
      rw [List.flatMap_cons, List.append_assoc] at here
      cases item with
      | pad =>
          have after : p.drop (i + 1) = items.flatMap Item.bytes ++ rest := by
            rw [← List.drop_drop, here]
            rfl
          rw [optScan_pad here]
          exact ih after
      | opt o =>
          have after : p.drop (i + 2) = o.data ++ (items.flatMap Item.bytes ++ rest) := by
            rw [← List.drop_drop, here]
            rfl
          have behind : p.drop (i + 2 + o.data.length) = items.flatMap Item.bytes ++ rest := by
            rw [← List.drop_drop, after, List.drop_left]
          rw [optScan_opt o here, agree, firstOf]
          cases wanted o with
          | true => exact ⟨i + 2, _, rfl, after⟩
          | false => exact ih behind

end Scans

section Options

variable {p : Bytes} {items : List Item} {code : UInt8} {wanted : Opt → Bool} {o : Opt}

theorem firstOf_wanted (found : firstOf wanted items = some o) : wanted o = true := by
  induction items with
  | nil => cases found
  | cons item items ih =>
      cases item with
      | pad => exact ih found
      | opt other =>
          rw [firstOf] at found
          split at found
          · cases found
            assumption
          · exact ih found

theorem bytesAt_of_drop {place : Nat} {data behind : Bytes} (here : p.drop place = data ++ behind)
    (some_ : data ≠ []) : bytesAt p place data.length = .ok data := by
  have long := length_of_drop here (by simp [some_])
  rw [List.length_append] at long
  rw [bytesAt_of_le (by omega), here, List.take_left]

theorem optType_field (field : Field p items) : optType p = .ok (messageType items) := by
  obtain ⟨rest, here, closed⟩ := field
  have agree (o : Opt) : (decide (o.code = 53) && decide (UInt8.ofNat o.data.length ≥ 1)) =
      (decide (o.code = 53) && decide (o.data.length ≥ 1)) := by
    have size : UInt8.ofNat o.data.length ≥ 1 ↔ o.data.length ≥ 1 := by
      rw [ge_iff_le, UInt8.le_iff_toNat_le]
      simp [Nat.mod_eq_of_lt o.short]
    simp [size]
  have scanned := optScan_items (fun t l => t = 53 && l ≥ 1) agree here closed
  rw [optType, messageType]
  cases found : firstOf (fun o => decide (o.code = 53) && decide (o.data.length ≥ 1)) items with
  | none =>
      rw [found] at scanned
      rw [show optScan p _ bootMin = _ from scanned]
      rfl
  | some o =>
      rw [found] at scanned
      obtain ⟨place, behind, scanned, data⟩ := scanned
      have some_ := firstOf_wanted found
      simp only [ge_iff_le, Bool.and_eq_true, decide_eq_true_eq] at some_
      have first : p[place]? = some (o.data.headD 0) := by
        rw [← List.head?_drop, data]
        cases whole : o.data with
        | nil => simp [whole] at some_
        | cons byte data => rfl
      rw [scanned]
      exact byteAt_of_getElem? first

theorem optU32_field (field : Field p items) :
    optU32 p code = .ok (addressOf (oneAddress code items)) := by
  obtain ⟨rest, here, closed⟩ := field
  have agree (o : Opt) : (decide (o.code = code) && decide (UInt8.ofNat o.data.length = 4)) =
      (decide (o.code = code) && decide (o.data.length = 4)) := by
    have size : UInt8.ofNat o.data.length = 4 ↔ o.data.length = 4 := by
      rw [← UInt8.toNat_inj]
      simp [Nat.mod_eq_of_lt o.short]
    simp [size]
  have scanned := optScan_items (fun t l => t = code && l = 4) agree here closed
  rw [optU32, oneAddress]
  cases found : firstOf (fun o => decide (o.code = code) && decide (o.data.length = 4)) items with
  | none =>
      rw [found] at scanned
      rw [show optScan p _ bootMin = _ from scanned]
      rfl
  | some o =>
      rw [found] at scanned
      obtain ⟨place, behind, scanned, data⟩ := scanned
      have four := firstOf_wanted found
      simp only [Bool.and_eq_true, decide_eq_true_eq] at four
      have read := bytesAt_of_drop data (fun empty => by simp [empty] at four)
      rw [four.2] at read
      rw [scanned]
      dsimp only [Except.bind]
      rw [read]
      rfl

theorem optType_inside (p : Bytes) : ∃ v, optType p = .ok v := by
  obtain ⟨found, scanned, inside⟩ := optScan_inside p (fun t l => t = 53 && l ≥ 1) bootMin
  rw [optType, scanned]
  cases found with
  | none => exact ⟨0, rfl⟩
  | some place =>
      obtain ⟨t, l, taken, room⟩ := inside place rfl
      have some_ : 1 ≤ l.toNat := by
        simp only [ge_iff_le, Bool.and_eq_true, decide_eq_true_eq] at taken
        simpa [UInt8.le_iff_toNat_le] using taken.2
      exact ⟨_, byteAt_of_lt (by omega)⟩

theorem optU32_inside (p : Bytes) (want : UInt8) : ∃ v, optU32 p want = .ok v := by
  obtain ⟨found, scanned, inside⟩ := optScan_inside p (fun t l => t = want && l = 4) bootMin
  rw [optU32, scanned]
  cases found with
  | none => exact ⟨0, rfl⟩
  | some place =>
      obtain ⟨t, l, taken, room⟩ := inside place rfl
      simp only [Bool.and_eq_true, decide_eq_true_eq] at taken
      rw [taken.2] at room
      have four : place + 4 ≤ p.length := room
      dsimp only [Except.bind]
      rw [bytesAt_of_le four]
      exact ⟨_, rfl⟩

end Options

structure Granted (exchange : Exchange) (buf : Bytes) : Prop where
  known : exchange.known = true
  attached : exchange.attached = true
  opened : exchange.opened = true
  sentDiscover : exchange.sentDiscover = true
  offered : ∃ offer, awaitReply exchange.offer exchange.xid dhcpOffer = .ok (some offer) ∧
    beU32 (offer.drop 16) ≠ 0
  sentRequest : exchange.sentRequest = true
  acked : awaitReply exchange.ack exchange.xid dhcpAck = .ok (some buf)
  addressed : beU32 (buf.drop 16) ≠ 0

/-- No scan of the exchange reads outside, and a lease has the first router and the
first name server of its ACK. -/
def LeaseSound (exchange : Exchange) : Prop :=
  ∃ outcome, dhcpLease exchange = .ok outcome ∧ ∀ lease, outcome.lease = some lease →
    ∃ buf, Granted exchange buf ∧ ∀ items, Field buf items →
      lease.gwBe = addressOf (addresses 3 items) ∧ lease.dnsBe = addressOf (addresses 6 items)

/-- The first option that lists addresses lists one, or the first that lists one has
the same address. -/
def OneFirst (code : UInt8) (items : List Item) : Prop :=
  addresses code items = none ∨ (∃ o, addresses code items = some o ∧ o.data.length = 4) ∨
    addressOf (addresses code items) = addressOf (oneAddress code items)

section Leases

variable {items : List Item} {exchange : Exchange} {buf : Bytes}

theorem firstOf_none {wanted narrower : Opt → Bool}
    (narrow : ∀ o, narrower o = true → wanted o = true) (absent : firstOf wanted items = none) :
    firstOf narrower items = none := by
  induction items with
  | nil => rfl
  | cons item items ih =>
      cases item with
      | pad => exact ih absent
      | opt o =>
          rw [firstOf] at absent ⊢
          split at absent
          · cases absent
          · rename_i other
            rw [if_neg fun here => other (narrow o here)]
            exact ih absent

theorem firstOf_some {wanted narrower : Opt → Bool} {o : Opt}
    (narrow : ∀ o, narrower o = true → wanted o = true) (found : firstOf wanted items = some o)
    (here : narrower o = true) : firstOf narrower items = some o := by
  induction items with
  | nil => cases found
  | cons item items ih =>
      cases item with
      | pad => exact ih found
      | opt first =>
          rw [firstOf] at found ⊢
          split at found
          · cases found
            rw [if_pos here]
          · rename_i other
            rw [if_neg fun same => other (narrow first same)]
            exact ih found

theorem oneFirst_iff (code : UInt8) (items : List Item) :
    OneFirst code items ↔
      addressOf (oneAddress code items) = addressOf (addresses code items) := by
  have narrow (o : Opt) (one : (o.code = code && o.data.length = 4) = true) :
      (o.code = code && o.data.length ≥ 4 && o.data.length % 4 = 0) = true := by
    simp only [Bool.and_eq_true, decide_eq_true_eq] at one
    simp [one]
  constructor
  · rintro (absent | ⟨o, found, four⟩ | same)
    · rw [absent, oneAddress, firstOf_none narrow absent]
    · have code := firstOf_wanted found
      simp only [Bool.and_eq_true, decide_eq_true_eq] at code
      rw [found, oneAddress, firstOf_some narrow found (by simp [code.1.1, four])]
    · exact same.symm
  · exact fun same => .inr (.inr same.symm)

theorem awaitFrom_inside (replies : Replies) (xid : UInt32) (want : UInt8) (spins : Nat) :
    ∃ reply, awaitFrom replies xid want spins = .ok reply := by
  have turns (replies : Replies) (xid : UInt32) (want : UInt8) (spins : Nat)
      (after : ∃ reply, awaitFrom replies xid want (spins + 1) = .ok reply) :
      ∃ reply, (if replies.late spins then .ok none
        else awaitFrom replies xid want (spins + 1)) = (.ok reply : Except Outside (Option Bytes)) := by
    split
    · exact ⟨none, rfl⟩
    · exact after
  fun_induction awaitFrom replies xid want spins with
  | case1 spins room buf next reply ih =>
      obtain ⟨t, kind⟩ := optType_inside buf
      rw [kind]
      dsimp only [Except.bind]
      split
      · exact ⟨_, rfl⟩
      split
      · exact ⟨_, rfl⟩
      · exact turns replies xid want spins ih
  | case2 spins room buf next other ih => exact turns replies xid want spins ih
  | case3 => exact ⟨none, rfl⟩

theorem ackLease_inside (buf : Bytes) (server : UInt32) :
    ∃ lease, ackLease buf server = .ok lease ∧
      (lease.isSome ↔ beU32 (buf.drop 16) ≠ 0) ∧
      ∀ found, lease = some found → found.addrBe = beU32 (buf.drop 16) ∧
        optU32 buf 3 = .ok found.gwBe ∧ optU32 buf 6 = .ok found.dnsBe := by
  rw [ackLease]
  obtain ⟨mask, maskRead⟩ := optU32_inside buf 1
  obtain ⟨gw, gwRead⟩ := optU32_inside buf 3
  obtain ⟨dns, dnsRead⟩ := optU32_inside buf 6
  obtain ⟨by_, serverRead⟩ := optU32_inside buf 54
  obtain ⟨sec, secRead⟩ := optU32_inside buf 51
  rw [maskRead, gwRead, dnsRead, serverRead, secRead]
  refine ⟨_, rfl, ?_, ?_⟩
  · split
    · simp_all
    · simp_all
  · intro found same
    split at same
    · cases same
      exact ⟨rfl, rfl, rfl⟩
    · cases same

theorem dhcpLease_inside (exchange : Exchange) :
    ∃ outcome, dhcpLease exchange = .ok outcome ∧
      (∀ lease, outcome.lease = some lease → ∃ buf, Granted exchange buf ∧
        lease.addrBe = beU32 (buf.drop 16) ∧ optU32 buf 3 = .ok lease.gwBe ∧
        optU32 buf 6 = .ok lease.dnsBe) ∧
      ∀ buf, Granted exchange buf → outcome.lease ≠ none := by
  have refused (sent : List Bytes) (reason : ∀ buf, ¬ Granted exchange buf) :
      ∃ outcome, (.ok ⟨sent, none⟩ : Except Outside Outcome) = .ok outcome ∧
        (∀ lease, outcome.lease = some lease → ∃ buf, Granted exchange buf ∧
          lease.addrBe = beU32 (buf.drop 16) ∧ optU32 buf 3 = .ok lease.gwBe ∧
          optU32 buf 6 = .ok lease.dnsBe) ∧
        ∀ buf, Granted exchange buf → outcome.lease ≠ none :=
    ⟨_, rfl, fun _ none_ => (nomatch none_), fun buf granted => absurd granted (reason buf)⟩
  rw [dhcpLease]
  dsimp only
  split
  · rename_i off
    refine refused _ fun buf granted => ?_
    rcases off with off | off | off
    · simp [granted.known] at off
    · simp [granted.attached] at off
    · simp [granted.opened] at off
  rename_i on
  split
  · rename_i lost
    exact refused _ fun buf granted => by simp [granted.sentDiscover] at lost
  rename_i sentDiscover
  obtain ⟨reply, offered⟩ := awaitFrom_inside exchange.offer exchange.xid dhcpOffer 0
  rw [awaitReply, offered]
  dsimp only [Except.bind]
  cases reply with
  | none =>
      refine refused _ fun buf granted => ?_
      obtain ⟨offer, came, -⟩ := granted.offered
      cases offered.symm.trans came
  | some offer =>
      obtain ⟨server, read⟩ := optU32_inside offer 54
      dsimp only
      rw [read]
      dsimp only
      split
      · rename_i empty
        refine refused _ fun buf granted => ?_
        obtain ⟨_, came, some_⟩ := granted.offered
        cases offered.symm.trans came
        exact some_ empty
      rename_i some_
      split
      · rename_i lost
        exact refused _ fun buf granted => by simp [granted.sentRequest] at lost
      rename_i sentRequest
      obtain ⟨reply, acked⟩ := awaitFrom_inside exchange.ack exchange.xid dhcpAck 0
      rw [awaitReply, acked]
      dsimp only
      cases reply with
      | none =>
          refine refused _ fun buf granted => ?_
          cases acked.symm.trans granted.acked
      | some buf =>
          obtain ⟨lease, given, leased, reads⟩ := ackLease_inside buf server
          dsimp only
          rw [given]
          simp only [Bool.not_eq_true', not_or, Bool.not_eq_false] at on sentDiscover sentRequest
          refine ⟨_, rfl, fun found same => ?_, fun buf' granted none_ => ?_⟩
          · have some' : lease = some found := same
            have addressed := leased.mp (by rw [some']; rfl)
            exact ⟨buf, ⟨on.1, on.2.1, on.2.2, sentDiscover, ⟨offer, offered, some_⟩,
              sentRequest, acked, addressed⟩, reads found some'⟩
          · cases acked.symm.trans granted.acked
            have here := leased.mpr granted.addressed
            rw [show lease = none from none_] at here
            cases here

end Leases

theorem options_iff (exchange : Exchange) :
    (∀ p items, Field p items → optType p = .ok (messageType items)) ∧
      (∀ p, (∃ v, optType p = .ok v) ∧ ∀ want, ∃ v, optU32 p want = .ok v) ∧
      (LeaseSound exchange ↔ ∀ buf items, Granted exchange buf → Field buf items →
        OneFirst 3 items ∧ OneFirst 6 items) := by
  refine ⟨fun p items field => optType_field field,
    fun p => ⟨optType_inside p, optU32_inside p⟩, ?_⟩
  obtain ⟨outcome, taken, leased, granted⟩ := dhcpLease_inside exchange
  constructor
  · rintro ⟨_, same, sound⟩ buf items here field
    cases taken.symm.trans same
    obtain ⟨lease, some_⟩ := Option.ne_none_iff_exists'.mp (granted buf here)
    obtain ⟨buf', here', right⟩ := sound lease some_
    cases here.acked.symm.trans here'.acked
    obtain ⟨_, here'', -, gw, dns⟩ := leased lease some_
    cases here.acked.symm.trans here''.acked
    obtain ⟨router, server⟩ := right items field
    rw [optU32_field field] at gw dns
    rw [oneFirst_iff, oneFirst_iff, ← router, ← server]
    exact ⟨Except.ok.inj gw, Except.ok.inj dns⟩
  · intro first
    refine ⟨outcome, taken, fun lease some_ => ?_⟩
    obtain ⟨buf, here, -, gw, dns⟩ := leased lease some_
    refine ⟨buf, here, fun items field => ?_⟩
    obtain ⟨router, server⟩ := first buf items here field
    rw [optU32_field field] at gw dns
    rw [← (oneFirst_iff 3 items).mp router, ← (oneFirst_iff 6 items).mp server]
    exact ⟨(Except.ok.inj gw).symm, (Except.ok.inj dns).symm⟩

def reply (kind : UInt8) (items : Bytes) : Bytes :=
  [2, 1, 6, 0] ++ beBytes32 1 ++ [0, 0, 0x80, 0] ++ beBytes32 0 ++ beBytes32 0x0a000005 ++
    List.replicate 216 0 ++ beBytes32 cookie ++ ([53, 1, kind] ++ items ++ [255])

def kindOpt (kind : UInt8) : Opt := ⟨53, [kind], by decide, by simp⟩

def serversOpt : Opt := ⟨6, [10, 0, 0, 2, 10, 0, 0, 3], by decide, by decide⟩

def home : Exchange where
  known := true
  attached := true
  opened := true
  mac := [2, 0, 0, 0, 0, 1]
  xid := 1
  sentDiscover := true
  offer := ⟨fun _ => reply dhcpOffer [], fun _ => false⟩
  sentRequest := true
  ack := ⟨fun _ => reply dhcpAck (Item.opt serversOpt).bytes, fun _ => false⟩

theorem home_offer : Field (reply dhcpOffer []) [.opt (kindOpt dhcpOffer)] :=
  ⟨[255], rfl, .inr rfl⟩

theorem home_ack : Field (reply dhcpAck (Item.opt serversOpt).bytes)
    [.opt (kindOpt dhcpAck), .opt serversOpt] :=
  ⟨[255], rfl, .inr rfl⟩

theorem awaitReply_first {replies : Replies} {buf : Bytes} {xid : UInt32} {want : UInt8}
    {items : List Item} (arrived : (replies.recvfrom 0).take bootMax = buf)
    (reply : isReply xid buf = true) (field : Field buf items)
    (kind : messageType items = want) : awaitReply replies xid want = .ok (some buf) := by
  rw [awaitReply, awaitFrom, dif_pos (by decide)]
  dsimp only
  rw [arrived, if_pos reply, optType_field field, kind]
  exact if_pos rfl

theorem home_granted :
    Granted home (reply dhcpAck (Item.opt serversOpt).bytes) where
  known := rfl
  attached := rfl
  opened := rfl
  sentDiscover := rfl
  offered := ⟨_, awaitReply_first (List.take_of_length_le (by decide +kernel))
    (by decide +kernel) home_offer rfl, by decide +kernel⟩
  sentRequest := rfl
  acked := awaitReply_first (List.take_of_length_le (by decide +kernel))
    (by decide +kernel) home_ack rfl
  addressed := by decide +kernel

theorem home_fails :
    (∃ outcome lease, dhcpLease home = .ok outcome ∧ outcome.lease = some lease ∧
      lease.dnsBe = 0) ∧ ¬ LeaseSound home := by
  obtain ⟨outcome, taken, leased, granted⟩ := dhcpLease_inside home
  obtain ⟨lease, some_⟩ := Option.ne_none_iff_exists'.mp (granted _ home_granted)
  obtain ⟨buf, here, -, -, dns⟩ := leased lease some_
  cases home_granted.acked.symm.trans here.acked
  rw [optU32_field home_ack] at dns
  have none_ : lease.dnsBe = 0 := (Except.ok.inj dns).symm
  refine ⟨⟨outcome, lease, taken, some_, none_⟩, ?_⟩
  rintro ⟨_, same, sound⟩
  cases taken.symm.trans same
  obtain ⟨_, here', right⟩ := sound lease some_
  cases home_granted.acked.symm.trans here'.acked
  have first := (right _ home_ack).2
  rw [none_] at first
  exact absurd first (by decide)

end Metal.Net.Dhcp
