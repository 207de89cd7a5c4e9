import Metal.Lib.Memory
import Metal.Lib.Rows
import Metal.Lib.Words

namespace Metal.Net.Dhcp

open Metal.Lib

/-! The client of `net/dhcp`: the two scanners of its options, the exchange that gets
a lease, and the tables of what each interface holds and asked. -/

def bootMin : Nat := 240

def bootMax : Nat := 548

def cookie : UInt32 := 0x63825363

def dhcpDiscover : UInt8 := 1
def dhcpOffer : UInt8 := 2
def dhcpRequest : UInt8 := 3
def dhcpAck : UInt8 := 5
def dhcpNak : UInt8 := 6

def dhcpSpins : Nat := 200000

/-- The loop of both scanners at `i`: where the data of the first option stands
whose code and length are taken. -/
def optScan (p : Bytes) (taken : UInt8 → UInt8 → Bool) (i : Nat) : Except Outside (Option Nat) :=
  if _room : i + 2 ≤ p.length then
    (byteAt p i).bind fun t =>
      if t = 255 then .ok none
      else if t = 0 then optScan p taken (i + 1)
      else
        (byteAt p (i + 1)).bind fun l =>
          if i + 2 + l.toNat > p.length then .ok none
          else if taken t l then .ok (some (i + 2))
          else optScan p taken (i + 2 + l.toNat)
  else .ok none
  termination_by p.length - i

def optType (p : Bytes) : Except Outside UInt8 :=
  (optScan p (fun t l => t = 53 && l ≥ 1) bootMin).bind fun
    | none => .ok 0
    | some i => byteAt p i

def optU32 (p : Bytes) (want : UInt8) : Except Outside UInt32 :=
  (optScan p (fun t l => t = want && l = 4) bootMin).bind fun
    | none => .ok 0
    | some i => (bytesAt p i 4).bind fun addr => .ok (beU32 addr)

def bootHead (xid : UInt32) (mac : Bytes) (ciaddrBe : UInt32) : Bytes :=
  [1, 1, 6, 0] ++ beBytes32 xid ++ [0, 0, 0x80, 0] ++ beBytes32 ciaddrBe ++
    List.replicate 12 0 ++ mac ++ List.replicate 202 0 ++ beBytes32 cookie

def optMsg (kind : UInt8) : Bytes := [53, 1, kind]

def optAddr (code : UInt8) (addrBe : UInt32) : Bytes := [code, 4] ++ beBytes32 addrBe

def optParams : Bytes := [55, 4, 1, 3, 6, 51]

structure Lease where
  addrBe : UInt32
  maskBe : UInt32
  gwBe : UInt32
  dnsBe : UInt32
  serverBe : UInt32
  leaseSec : UInt32

/-- What one `await_reply` gets: a datagram or nothing each turn, and when the time
is over. -/
structure Replies where
  recvfrom : Nat → Bytes
  late : Nat → Bool

/-- What the other modules answer to `dhcp_lease`: whether the interface is there and
takes part in the stack, whether the socket is opened, bound and pinned, and the two
legs. -/
structure Exchange where
  known : Bool
  attached : Bool
  opened : Bool
  mac : Bytes
  xid : UInt32
  sentDiscover : Bool
  offer : Replies
  sentRequest : Bool
  ack : Replies

def isReply (xid : UInt32) (buf : Bytes) : Bool :=
  buf.length ≥ bootMin && buf.getD 0 0 = 2 && beU32 (buf.drop 4) = xid &&
    beU32 (buf.drop 236) = cookie

/-- The turns of `await_reply` from `spins` on. -/
def awaitFrom (replies : Replies) (xid : UInt32) (want : UInt8) (spins : Nat) :
    Except Outside (Option Bytes) :=
  if _room : spins < dhcpSpins then
    let buf := (replies.recvfrom spins).take bootMax
    let next := if replies.late spins then .ok none else awaitFrom replies xid want (spins + 1)
    if isReply xid buf then
      (optType buf).bind fun t =>
        if t = want then .ok (some buf) else if t = dhcpNak then .ok none else next
    else next
  else .ok none
  termination_by dhcpSpins - spins

def awaitReply (replies : Replies) (xid : UInt32) (want : UInt8) : Except Outside (Option Bytes) :=
  awaitFrom replies xid want 0

structure Outcome where
  sent : List Bytes
  lease : Option Lease

def discover (exchange : Exchange) : Bytes :=
  bootHead exchange.xid exchange.mac 0 ++ optMsg dhcpDiscover ++ optParams ++ [255]

def request (exchange : Exchange) (offer server : UInt32) : Bytes :=
  bootHead exchange.xid exchange.mac 0 ++ optMsg dhcpRequest ++ optAddr 50 offer ++
    (if server ≠ 0 then optAddr 54 server else []) ++ optParams ++ [255]

/-- The lease of an ACK; `server` is who made the offer. -/
def ackLease (buf : Bytes) (server : UInt32) : Except Outside (Option Lease) := do
  let addrBe := beU32 (buf.drop 16)
  let maskBe ← optU32 buf 1
  let gwBe ← optU32 buf 3
  let dnsBe ← optU32 buf 6
  let serverBe ← optU32 buf 54
  let leaseSec ← optU32 buf 51
  let serverBe := if serverBe = 0 then server else serverBe
  return if addrBe ≠ 0 then some ⟨addrBe, maskBe, gwBe, dnsBe, serverBe, leaseSec⟩ else none

def dhcpLease (exchange : Exchange) : Except Outside Outcome :=
  let failed (sent : List Bytes) : Except Outside Outcome := .ok ⟨sent, none⟩
  if !exchange.known ∨ !exchange.attached ∨ !exchange.opened then failed []
  else if !exchange.sentDiscover then failed [discover exchange]
  else
    (awaitReply exchange.offer exchange.xid dhcpOffer).bind fun
      | none => failed [discover exchange]
      | some buf =>
          let offer := beU32 (buf.drop 16)
          (optU32 buf 54).bind fun server =>
            let sent := [discover exchange, request exchange offer server]
            if offer = 0 then failed [discover exchange]
            else if !exchange.sentRequest then failed sent
            else
              (awaitReply exchange.ack exchange.xid dhcpAck).bind fun
                | none => failed sent
                | some buf => (ackLease buf server).bind fun lease => .ok ⟨sent, lease⟩

structure Held where
  h : Int
  lease : Lease

inductive How
  | none
  | silent
  | leased
  deriving DecidableEq

structure Ask where
  h : Int
  how : How

def Held.live (row : Held) : Bool := row.lease.addrBe ≠ 0

def Ask.live (row : Ask) : Bool := row.how ≠ .none

def Held.zero : Held := ⟨0, ⟨0, 0, 0, 0, 0, 0⟩⟩

def Ask.zero : Ask := ⟨0, .none⟩

/-- `s_held` with its counter, and `s_ask`. -/
structure Table where
  held : List Held
  heldUsed : Nat
  ask : List Ask

def Table.boot : Table := ⟨List.replicate 8 .zero, 0, List.replicate 8 .zero⟩

/-- A full table grows by `more` zeroed rows and the one that is written, or not at
all. -/
def askNote (grow : Option Nat) (h : Int) (how : How) (t : Table) : Table :=
  { t with
    ask := Rows.put Ask.live Ask.h (grow.map (List.replicate · .zero)) ⟨h, how⟩ t.ask }

def hold (grow : Option Nat) (h : Int) (lease : Lease) (t : Table) : Table :=
  let placed := t.held.any fun row => !row.live || row.h = h
  { t with
    held := Rows.put Held.live Held.h (grow.map (List.replicate · .zero)) ⟨h, lease⟩ t.held
    heldUsed :=
      if placed then if lease.addrBe ≠ 0 then t.heldUsed + 1 else t.heldUsed
      else if grow = none then t.heldUsed
      else t.heldUsed + 1 }

def held (t : Table) (h : Int) : Option Lease :=
  (Rows.find Held.live Held.h h t.held).map (·.lease)

def asked (t : Table) (h : Int) : How :=
  match Rows.find Ask.live Ask.h h t.ask with
  | none => .none
  | some row => row.how

def maskOf (lease : Lease) : UInt32 :=
  if lease.maskBe ≠ 0 then lease.maskBe
  else
    let classByte := lease.addrBe >>> 24
    if 1 ≤ classByte ∧ classByte ≤ 127 then 0xff000000
    else if 128 ≤ classByte ∧ classByte ≤ 191 then 0xffff0000
    else 0xffffff00

/-- A `dhcp_up`, and what the other modules answer to it: whether the stack takes the
address and the router, and whether the tables may grow. -/
structure Up where
  h : Int
  exchange : Exchange
  ifUpMask : UInt32 → UInt32 → Bool
  gwSet : UInt32 → Bool
  growHeld : Option Nat
  growAsk : Option Nat

def dhcpUp (up : Up) (t : Table) : Except Outside (Table × Option Lease) :=
  (dhcpLease up.exchange).bind fun outcome =>
    match outcome.lease with
    | none => .ok (askNote up.growAsk up.h .silent t, none)
    | some lease =>
        if !up.ifUpMask lease.addrBe (maskOf lease) then .ok (t, none)
        else if lease.gwBe ≠ 0 ∧ !up.gwSet lease.gwBe then .ok (t, none)
        else
          .ok (askNote up.growAsk up.h .leased (hold up.growHeld up.h lease t), some lease)

end Metal.Net.Dhcp
