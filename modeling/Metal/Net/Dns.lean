import Metal.Lib.Memory
import Metal.Lib.Words

namespace Metal.Net.Dns

open Metal.Lib

/-! `net/dns`: names on the wire, the zone of this box, its replies, and the
lookup that asks a server. Reads of a message are explicit. -/

def nameMax : Nat := 80

def dnsMax : Nat := 512

def dnsSpins : Nat := 200000

/-- The loop of `name_eq`; it looks at `room` characters at most. -/
def nameEqFrom : (room : Nat) → Bytes → Bytes → Bool
  | room + 1, c :: a, d :: b => if lower c ≠ lower d then false else nameEqFrom room a b
  | _, a, b => a = [] ∧ b = []

def nameEq (a b : CString) : Bool := nameEqFrom nameMax a.bytes b.bytes

/-- `enc_name` behind the first `n` bytes of the output. -/
def encFrom (cap n : Nat) (name : Bytes) : Option Bytes :=
  if _empty : name = [] then if n + 1 > cap then none else some [0]
  else
    let label := name.takeWhile (· ≠ dot)
    if label.length = 0 ∨ label.length > 63 ∨ n + 1 + label.length + 1 > cap then none
    else
      match encFrom cap (n + 1 + label.length) (name.drop (label.length + 1)) with
      | none => none
      | some rest => some (UInt8.ofNat label.length :: label ++ rest)
  termination_by name.length
  decreasing_by
    have some_ := List.length_pos_iff.mpr ‹_›
    rw [List.length_drop]
    omega

def encName (cap : Nat) (name : CString) : Option Bytes := encFrom cap 0 name.bytes

/-- The loop of `dec_name` at `o`, with the name so far: the name, and the
offset behind its first occurrence. -/
def decFrom (msg : Bytes) (ocap : Nat) (o jumps : Nat) (out : Bytes) (end_ : Nat) (sawPtr : Bool) :
    Except Outside (Option (Bytes × Nat)) :=
  if _inside : o < msg.length then
    (byteAt msg o).bind fun lab =>
      if lab &&& 0xc0 = 0xc0 then
        if _last : o + 1 ≥ msg.length ∨ jumps > 8 then .ok none
        else
          (byteAt msg (o + 1)).bind fun low =>
            decFrom msg ocap ((lab &&& 0x3f).toNat <<< 8 ||| low.toNat) (jumps + 1) out
              (if sawPtr then end_ else o + 2) true
      else if lab = 0 then .ok (some (out, if sawPtr then end_ else o + 1))
      else if o + 1 + lab.toNat > msg.length ∨ out.length + lab.toNat + 1 ≥ ocap then .ok none
      else
        (bytesAt msg (o + 1) lab.toNat).bind fun label =>
          decFrom msg ocap (o + 1 + lab.toNat) jumps
            ((if out ≠ [] then out ++ [dot] else out) ++ label) end_ sawPtr
  else .ok none
  termination_by (10 - jumps, msg.length - o)

def decName (msg : Bytes) (ocap off : Nat) : Except Outside (Option (Bytes × Nat)) :=
  decFrom msg ocap off 0 [] off false

structure Zone where
  used : Bool
  name : CString
  addrBe : UInt32

def Zone.empty : Zone := ⟨false, .empty, 0⟩

def zoneFind (zone : List Zone) (name : CString) : Nat :=
  zone.findIdx fun row => row.used && nameEq row.name name

/-- The table after a `dns_add`, and whether that was 0; the table can grow by
`more + 1` zeroed rows, or not at all. -/
def dnsAdd (grow : Option Nat) (name : CString) (addrBe : UInt32) (zone : List Zone) :
    List Zone × Bool :=
  if name.bytes = [] then (zone, false)
  else
    let row : Zone := ⟨true, name.strncpy (nameMax - 1), addrBe⟩
    let free := zone.findIdx fun row => !row.used
    if free < zone.length then (zone.set free row, true)
    else
      match grow with
      | none => (zone, false)
      | some more => (zone ++ List.replicate more .empty ++ [row], true)

structure Add where
  grow : Option Nat
  name : CString
  addrBe : UInt32

/-- The table after `dns_init` and some calls of `dns_add`. -/
def built (adds : List Add) : List Zone :=
  adds.foldl (fun zone add => (dnsAdd add.grow add.name add.addrBe zone).1)
    (List.replicate 8 .empty)

def dnsReply (zone : List Zone) (q : Bytes) : Except Outside (Option Bytes) :=
  if q.length < 12 then .ok none
  else
    (decName q nameMax 12).bind fun
      | none => .ok none
      | some (name, _) =>
          match zone[zoneFind zone (.ofBytes name)]? with
          | none => .ok none
          | some row =>
              if q.length > dnsMax - 16 then .ok none
              else
                (byteAt q 2).bind fun flags =>
                  .ok (some (q.take 2 ++ [flags ||| 0x80, 0] ++ (q.drop 4).take 2 ++ [0, 1] ++
                    q.drop 8 ++ [0xc0, 0x0c, 0, 1, 0, 1, 0, 0, 0, 8, 0, 4] ++
                    beBytes32 row.addrBe))

def query (xid : UInt16) (name : CString) : Option Bytes :=
  (encName (dnsMax - 16) name).map fun enc =>
    beBytes16 xid ++ [1, 0, 0, 1, 0, 0, 0, 0, 0, 0] ++ enc ++ [0, 1, 0, 1]

def recordPlace (msg : Bytes) : Except Outside (Option Nat) :=
  (decName msg nameMax 12).bind fun
    | none => .ok none
    | some (_, off) =>
        let off := off + 4
        let decoded := (decName msg nameMax off).bind fun name => .ok (name.map (·.2))
        if off + 2 < msg.length then
          (byteAt msg off).bind fun lab => if lab = 0xc0 then .ok (some (off + 2)) else decoded
        else decoded

def answer (xid : UInt16) (msg : Bytes) : Except Outside (Option UInt32) :=
  if msg.length < 12 then .ok none
  else
    (bytesAt msg 0 2).bind fun id =>
      if beU16 id ≠ xid then .ok none
      else
        (byteAt msg 2).bind fun flags =>
          if flags &&& 0x80 = 0 then .ok none
          else
            (byteAt msg 7).bind fun count =>
              if count = 0 then .ok none
              else
                (recordPlace msg).bind fun
                  | none => .ok none
                  | some off =>
                      if off + 14 > msg.length then .ok none
                      else (bytesAt msg (off + 10) 4).bind fun addr => .ok (some (beU32 addr))

/-- What the other modules answer to a lookup. Each turn of `await_answer` gets an
error, or a datagram, of which nothing is there when it is empty. -/
structure Env where
  arena : Bool
  opened : Bool
  xid : UInt16
  sent : Bool
  recvfrom : Nat → Option Bytes
  late : Nat → Bool

/-- The turns of `await_answer` from `spin` on. -/
def awaitFrom (env : Env) (spin : Nat) : Option Bytes :=
  match env.recvfrom spin with
  | none => none
  | some msg =>
      if msg ≠ [] then some (msg.take dnsMax)
      else if _late : env.late spin ∨ spin + 1 > dnsSpins then none
      else awaitFrom env (spin + 1)
  termination_by dnsSpins - spin

def received (env : Env) (name : CString) : Option Bytes :=
  if !env.arena ∨ !env.opened then none
  else
    match query env.xid name with
    | none => none
    | some _ => if !env.sent then none else awaitFrom env 0

def lookup (env : Env) (name : CString) : Except Outside (Option UInt32) :=
  match received env name with
  | none => .ok none
  | some msg => answer env.xid msg

end Metal.Net.Dns
