import Mathlib.Data.Option.Basic
import Metal.Lib.CString

namespace Metal.Net.Wg

open Metal.Lib

/-! The tunnel of `net/wg`: the handshake of its two peers, and the link that
encrypts under the session key. The primitives of `__crypto__` are parameters. -/

abbrev Key := Vector UInt8 32

abbrev Tag := Vector UInt8 16

def zeroKey : Key := Vector.replicate 32 0

/-- `aeadEncrypt` fails only on a missing text, which no caller here passes. -/
structure Crypto where
  blake2s : Bytes → Key
  hkdf2 : Key → Bytes → Key × Key
  x25519 : Key → Key → Option Key
  x25519Base : Key → Key
  aeadEncrypt : Key → UInt64 → Bytes → Bytes → Bytes × Tag
  aeadDecrypt : Key → UInt64 → Bytes → Bytes → Tag → Option Bytes

structure NoiseSt where
  ck : Key
  h : Key
  k : Key
  n : UInt64

variable (crypto : Crypto)

def noiseMixhash (data : Bytes) (s : NoiseSt) : NoiseSt :=
  { s with h := crypto.blake2s (s.h.toList ++ data.take 64) }

def noiseMixkey (ikm : Key) (s : NoiseSt) : NoiseSt :=
  let (ck, k) := crypto.hkdf2 s.ck ikm.toList
  { s with ck, k, n := 0 }

def noiseEncryptHash (pt : Bytes) (s : NoiseSt) : (Bytes × Tag) × NoiseSt :=
  let (ct, tag) := crypto.aeadEncrypt s.k s.n s.h.toList pt
  ((ct, tag), noiseMixhash crypto (ct ++ tag.toList) { s with n := s.n + 1 })

def noiseDecryptHash (sealed : Bytes × Tag) (s : NoiseSt) :
    Option (Bytes × NoiseSt) := do
  let pt ← crypto.aeadDecrypt s.k s.n s.h.toList sealed.1 sealed.2
  return (pt, noiseMixhash crypto (sealed.1 ++ sealed.2.toList)
    { s with n := s.n + 1 })

def noiseInit : NoiseSt :=
  let h := crypto.blake2s (ascii "Noise_IK_25519_ChaChaPoly_BLAKE2s")
  { ck := h, h, k := zeroKey, n := 0 }

def ephFrom (priv : Key) (tag : String) : Key :=
  crypto.blake2s (priv.toList ++ (ascii tag).take 8)

structure Peer where
  used : Bool
  localKey : Key
  remoteKey : Key

def Peer.unused : Peer := ⟨false, zeroKey, zeroKey⟩

/-- Both ends of the handshake, run one against the other: initiator and
responder when every check passes. -/
def noisePair (peer0 peer1 : Peer) : Option (NoiseSt × NoiseSt) := do
  guard (peer0.used ∧ peer1.used)
  let pub0 := crypto.x25519Base peer0.localKey
  let pub1 := crypto.x25519Base peer1.localKey
  let want1 := crypto.x25519Base peer0.remoteKey
  let want0 := crypto.x25519Base peer1.remoteKey
  guard (want1 = pub1 ∧ want0 = pub0)
  let e0 := ephFrom crypto peer0.localKey "eph0"
  let e1 := ephFrom crypto peer1.localKey "eph1"
  let e0pub := crypto.x25519Base e0
  let e1pub := crypto.x25519Base e1
  -- initiator: -> e, es, s, ss
  let ini := noiseInit crypto
  let ini := noiseMixhash crypto pub1.toList ini
  let ini := noiseMixhash crypto e0pub.toList ini
  let dh ← crypto.x25519 e0 pub1
  let ini := noiseMixkey crypto dh ini
  let (msgS, ini) := noiseEncryptHash crypto pub0.toList ini
  let dh ← crypto.x25519 peer0.localKey pub1
  let ini := noiseMixkey crypto dh ini
  let (msgP, ini) := noiseEncryptHash crypto [] ini
  -- responder: decrypt s, ss, then <- e, ee, se
  let rsp := noiseInit crypto
  let rsp := noiseMixhash crypto pub1.toList rsp
  let rsp := noiseMixhash crypto e0pub.toList rsp
  let dh ← crypto.x25519 peer1.localKey e0pub
  let rsp := noiseMixkey crypto dh rsp
  let (got, rsp) ← noiseDecryptHash crypto msgS rsp
  guard (got = pub0.toList)
  let dh ← crypto.x25519 peer1.localKey pub0
  let rsp := noiseMixkey crypto dh rsp
  let (_, rsp) ← noiseDecryptHash crypto msgP rsp
  let rsp := noiseMixhash crypto e1pub.toList rsp
  let dh ← crypto.x25519 e1 e0pub
  let rsp := noiseMixkey crypto dh rsp
  let dh ← crypto.x25519 e1 pub0
  let rsp := noiseMixkey crypto dh rsp
  let (msgR, rsp) := noiseEncryptHash crypto [] rsp
  -- initiator: the answer
  let ini := noiseMixhash crypto e1pub.toList ini
  let dh ← crypto.x25519 e0 e1pub
  let ini := noiseMixkey crypto dh ini
  let dh ← crypto.x25519 peer0.localKey e1pub
  let ini := noiseMixkey crypto dh ini
  let (_, ini) ← noiseDecryptHash crypto msgR ini
  guard (ini.ck = rsp.ck)
  return (ini, rsp)

/-- The session key that a handshake of these peers derives, if it succeeds. -/
def sessionKey (peer0 peer1 : Peer) : Option Key :=
  (noisePair crypto peer0 peer1).map fun pair =>
    (crypto.hkdf2 pair.1.ck []).1

/-- The module's variables, and whether the link is bound as a device. The last
two fields are for the record only: the pair of every encryption made by the
link, newest first, and the keys that had been used when the counter was last
set to zero. -/
structure State where
  arena : Bool
  peer0 : Peer
  peer1 : Peer
  sess : Key
  ready : Bool
  nonce : UInt64
  q : Bytes
  bound : Bool
  log : List (Key × UInt64)
  stale : List Key

def boot : State where
  arena := false
  peer0 := .unused
  peer1 := .unused
  sess := zeroKey
  ready := false
  nonce := 0
  q := []
  bound := false
  log := []
  stale := []

def State.usedKeys (s : State) : List Key := s.log.map Prod.fst

def putBe64 (v : UInt64) : Bytes :=
  (List.range 8).map fun i => (v >>> UInt64.ofNat (56 - 8 * i)).toUInt8

def getBe64 (bytes : Bytes) : UInt64 :=
  (bytes.take 8).foldl (fun nonce byte => (nonce <<< 8) ||| byte.toUInt64) 0

def wgNonce : Nat := 8

def wgTag : Nat := 16

def wgQmax : Nat := 4096

def wgOpen (s : State) : Int × State :=
  if ¬ s.ready then (-1, s)
  else (0, { s with q := [], nonce := 0, stale := s.usedKeys })

def wgTx (frame : Option Bytes) (s : State) : Int × State :=
  match frame with
  | none => (-1, s)
  | some frame =>
      if ¬ s.ready ∨ frame.length = 0 then (-1, s)
      else if frame.length + wgNonce + wgTag > wgQmax then (-1, s)
      else
        let (ct, tag) := crypto.aeadEncrypt s.sess s.nonce [] frame
        (0, { s with
          q := putBe64 s.nonce ++ ct ++ tag.toList
          nonce := s.nonce + 1
          log := (s.sess, s.nonce) :: s.log })

def wgPoll (s : State) : Option Bytes × State :=
  if s.q.length ≤ wgNonce + wgTag then (none, s)
  else
    let n := s.q.length - wgNonce - wgTag
    let body := (s.q.drop wgNonce).take n
    let tag : Tag := Vector.ofFn fun i => (s.q.drop (wgNonce + n)).getD i 0
    (crypto.aeadDecrypt s.sess (getBe64 s.q) [] body tag, { s with q := [] })

def init (arena : Bool) (s : State) : Int × State :=
  if ¬ arena then (-1, s)
  else
    (0, { s with
      arena := true
      peer0 := .unused
      peer1 := .unused
      sess := zeroKey
      ready := false
      q := []
      nonce := 0
      stale := s.usedKeys })

def deinit (s : State) : State :=
  { s with
    arena := false
    peer0 := .unused
    peer1 := .unused
    ready := false
    q := [] }

def peer (id : Int) (localKey remoteKey : Option Key) (s : State) :
    Int × State :=
  match localKey, remoteKey with
  | some localKey, some remoteKey =>
      if ¬ s.arena ∨ id < 0 ∨ id > 1 then (-1, s)
      else if id = 0 then
        (0, { s with peer0 := ⟨true, localKey, remoteKey⟩, ready := false })
      else (0, { s with peer1 := ⟨true, localKey, remoteKey⟩, ready := false })
  | _, _ => (-1, s)

def handshake (s : State) : Int × State :=
  match sessionKey crypto s.peer0 s.peer1 with
  | none => (-1, s)
  | some sess => (0, { s with sess, ready := true })

/-- `pm_metal_net_l2_attach`: a device node, a device bound to it, which opens
the link unless it is bound already, and an entry of the interface table.
`node`, `slot` and `entry` tell whether there is room for each. -/
def l2Attach (node slot entry : Bool) (s : State) : Int × State :=
  if ¬ node then (-1, s)
  else
    let (st, s) :=
      if s.bound then (0, s)
      else if ¬ slot then (-1, s)
      else
        let (st, s) := wgOpen s
        if st ≠ 0 then (st, s) else (0, { s with bound := true })
    if st ≠ 0 then (st, s) else (if entry then 0 else -1, s)

def up (node slot entry : Bool) (s : State) : Int × State :=
  if ¬ s.arena ∨ ¬ s.ready then (-1, s) else l2Attach node slot entry s

def unbind (s : State) : State := { s with bound := false }

/-! Primitives that fit together: both ends of an exchange get one secret, and
what was sealed opens again. -/

structure Crypto.Lawful : Prop where
  agree : ∀ a b, ∃ dh, crypto.x25519 a (crypto.x25519Base b) = some dh ∧
    crypto.x25519 b (crypto.x25519Base a) = some dh
  opens : ∀ key nonce ad pt,
    crypto.aeadDecrypt key nonce ad (crypto.aeadEncrypt key nonce ad pt).1
      (crypto.aeadEncrypt key nonce ad pt).2 = some pt

variable {crypto}

theorem Crypto.Lawful.decryptHash (lawful : crypto.Lawful) (pt : Bytes)
    (s : NoiseSt) :
    noiseDecryptHash crypto (noiseEncryptHash crypto pt s).1 s =
      some (pt, (noiseEncryptHash crypto pt s).2) := by
  simp [noiseDecryptHash, noiseEncryptHash, lawful.opens]

theorem Crypto.Lawful.sessionKey_isSome (lawful : crypto.Lawful)
    {peer0 peer1 : Peer} (used0 : peer0.used = true) (used1 : peer1.used = true)
    (known1 : crypto.x25519Base peer0.remoteKey =
      crypto.x25519Base peer1.localKey)
    (known0 : crypto.x25519Base peer1.remoteKey =
      crypto.x25519Base peer0.localKey) :
    ∃ key, sessionKey crypto peer0 peer1 = some key := by
  obtain ⟨es, es0, es1⟩ :=
    lawful.agree (ephFrom crypto peer0.localKey "eph0") peer1.localKey
  obtain ⟨ss, ss0, ss1⟩ := lawful.agree peer0.localKey peer1.localKey
  obtain ⟨ee, ee0, ee1⟩ :=
    lawful.agree (ephFrom crypto peer0.localKey "eph0")
      (ephFrom crypto peer1.localKey "eph1")
  obtain ⟨se, se0, se1⟩ :=
    lawful.agree peer0.localKey (ephFrom crypto peer1.localKey "eph1")
  simp only [sessionKey, noisePair, used0, used1, known0, known1, es0, es1, ss0,
    ss1, ee0, ee1, se0, se1, lawful.decryptHash, and_self, guard_true,
    Option.pure_def, Option.bind_eq_bind, Option.bind_some, Option.map_some]
  exact ⟨_, rfl⟩

end Metal.Net.Wg
