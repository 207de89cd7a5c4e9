import Metal.Lib.Words
import Metal.Lib.Run

namespace Metal.Net.Ssh

open Metal.Lib

/-! The server of `net/ssh`: an instance has a listener and the one peer that it
drives to a session.  What it calls of mbedtls, and the X25519 of `net/wg`, are
parameters, as are the answers of the network. -/

def sshDisconnect : UInt8 := 1
def sshIgnore : UInt8 := 2
def sshServiceRequest : UInt8 := 5
def sshServiceAccept : UInt8 := 6
def sshKexinit : UInt8 := 20
def sshNewkeys : UInt8 := 21
def sshEcdhInit : UInt8 := 30
def sshEcdhReply : UInt8 := 31
def sshUserauthRequest : UInt8 := 50
def sshUserauthFailure : UInt8 := 51
def sshUserauthSuccess : UInt8 := 52
def sshChannelOpen : UInt8 := 90
def sshChannelOpenConf : UInt8 := 91
def sshChannelData : UInt8 := 94
def sshChannelRequest : UInt8 := 98
def sshChannelSuccess : UInt8 := 99

def rxMax : Nat := 2048

def payMax : UInt32 := 1024

def sshBlock : Nat := 16

def sshMac : Nat := 32

def sshConsoleN : Int := 6

/-- `nonce_counter`, `stream_block` and `nc_off` of a cipher stream. -/
structure Ctr where
  counter : Bytes
  block : Bytes
  off : Nat

/-- `ctr key state input` is what `mbedtls_aes_crypt_ctr` puts out and the state
it leaves; `hmac key data` and `sha256 data` take all that was fed to them. -/
structure Crypto where
  setkey : Bytes → Bool
  ctr : Bytes → Ctr → Bytes → Option (Bytes × Ctr)
  hmac : Bytes → Bytes → Option Bytes
  sha256 : Bytes → Option Bytes
  x25519 : Bytes → Bytes → Option Bytes
  x25519Base : Bytes → Bytes

structure Channel where
  enc : Bool
  seq : UInt32
  aes : Bytes
  ctr : Ctr
  macKey : Bytes

structure Outbound extends Channel where
  sent : List Bytes

/-- One call of `on_payload` and the gates when it was made; `verified` packets
arrived encrypted, with the right MAC. -/
structure Call where
  verified : Bool
  kexOk : Bool
  authOk : Bool
  attached : Bool
  seq : UInt32
  payload : Bytes

/-- Console input from the peer (`write`) or console output to it, and the
connection at that time. -/
structure Output where
  write : Bool
  enc : Bool
  kexOk : Bool
  authOk : Bool
  calls : List Call

/-- The last five fields are a record of what happened: the number of the
connection, what it received, the payloads it handled, those of the connections
before it, and all console traffic. -/
structure Inst where
  ls : Int
  peer : Int
  laddr : UInt32
  lport : UInt16
  kexOk : Bool
  is : Bytes
  ic : Bytes
  vc : Bytes
  rx : Bytes
  gotIdent : Bool
  sentKex : Bool
  gotIc : Bool
  authOk : Bool
  chanOk : Bool
  remoteChan : UInt32
  cons : Int
  keysOk : Bool
  kMp : Bytes
  sid : Bytes
  inp : Channel
  out : Outbound
  conn : Nat
  received : Bytes
  calls : List Call
  past : List Call
  outputs : List Output

/-- What the environment answers while a payload is handled: whether the socket
takes the sends whole, the random bytes, the signature, and what the console
prints to its viewports while it is written to. -/
structure Answers where
  takes : Nat → Bool
  random : Option Bytes
  signature : Option (Bytes × Bytes)
  echo : List (Bytes × (Nat → Bool))

/-- The host key, and the environment of each connection: the cookie of its
KEXINIT, whether that is sent, and the answers for each payload. -/
structure Env where
  crypto : Crypto
  haveKey : Bool
  ks : Bytes
  cookie : Nat → Option Bytes
  kexTaken : Nat → Bool
  answers : Nat → Nat → Answers

/-! ### Strings and numbers of the protocol -/

def putBytes (s : Bytes) : Bytes := beBytes32 (UInt32.ofNat s.length) ++ s

def putStr (s : String) : Bytes := putBytes (ascii s)

def mpintBody : Bytes → Bytes
  | [] => []
  | [b] => [b]
  | b :: rest => if b = 0 then mpintBody rest else b :: rest

def putMpint (be : Bytes) : Bytes :=
  let body := mpintBody be
  if body.headD 0 &&& 0x80 ≠ 0 then putBytes (0 :: body) else putBytes body

/-- A field of a payload, as the pointer and the length that are given out. -/
structure Field where
  start : UInt32
  len : UInt32
  deriving DecidableEq

def takeStr (p : Bytes) (off : UInt32) : Option (Field × UInt32) :=
  let n := UInt32.ofNat p.length
  if off + 4 > n then none
  else
    let ln := beU32 (p.drop off.toNat)
    let off := off + 4
    if off + ln > n then none else some (⟨off, ln⟩, off + ln)

def strMatch (p : Bytes) (field : Field) (s : String) : Bool :=
  field.len.toNat = (ascii s).length &&
    (p.drop field.start.toNat).take (ascii s).length = ascii s

def padLength (block n : Nat) : Nat :=
  let pad := block - (1 + n) % block
  if pad < 4 then pad + block else pad

/-- `taken` tells whether the socket takes the whole packet. -/
def sendPkt (c : Crypto) (payload : Bytes) (taken : Bool) (o : Outbound) : Outbound × Bool :=
  let n := payload.length
  let pad := padLength (if o.enc then sshBlock else 8) n
  let plen := 1 + n + pad
  let ipSend (wire : Bytes) (o : Outbound) : Outbound × Bool :=
    if taken then ({ o with sent := o.sent ++ [wire], seq := o.seq + 1 }, true)
    else ({ o with sent := o.sent ++ [wire] }, false)
  if 4 + plen + (if o.enc then sshMac else 0) > 1200 then (o, false)
  else
    let pkt := beBytes32 (UInt32.ofNat plen) ++ UInt8.ofNat pad :: payload ++
      List.replicate pad 0
    if o.enc then
      match c.hmac o.macKey (beBytes32 o.seq ++ pkt) with
      | none => (o, false)
      | some mac =>
          match c.ctr o.aes o.ctr pkt with
          | none => (o, false)
          | some (cipher, ctr) => ipSend (cipher ++ mac) { o with ctr }
    else ipSend pkt o

def Inst.send (c : Crypto) (payload : Bytes) (taken : Bool) (s : Inst) : Inst × Bool :=
  let (out, ok) := sendPkt c payload taken s.out
  ({ s with out }, ok)

def kexinitPayload (haveKey : Bool) (cookie : Bytes) : Bytes :=
  sshKexinit :: cookie ++
    putStr (if haveKey then "curve25519-sha256" else "none") ++
    putStr (if haveKey then "ecdsa-sha2-nistp256" else "none") ++
    putStr "aes128-ctr" ++ putStr "aes128-ctr" ++
    putStr "hmac-sha2-256" ++ putStr "hmac-sha2-256" ++
    putStr "none" ++ putStr "none" ++ putStr "" ++ putStr "" ++ [0] ++ beBytes32 0

def sendKexinit (env : Env) (s : Inst) : Inst × Bool :=
  match env.cookie s.conn with
  | none => (s, false)
  | some cookie =>
      let payload := kexinitPayload env.haveKey cookie
      if payload.length > 256 then (s, false)
      else
        let (s, ok) := { s with is := payload }.send env.crypto payload (env.kexTaken s.conn)
        if ok then ({ s with sentKex := true }, true) else (s, false)

def kdfOne (c : Crypto) (kMp sid : Bytes) (n : Nat) (letter : UInt8) : Option Bytes :=
  (c.sha256 (kMp ++ sid ++ [letter] ++ sid)).map (·.take n)

def deriveKeys (c : Crypto) (s : Inst) : Inst × Bool :=
  let kdf := kdfOne c s.kMp s.sid
  match kdf sshBlock 65, kdf sshBlock 66, kdf 16 67, kdf 16 68 with
  | some ivIn, some ivOut, some ekIn, some ekOut =>
      match kdf sshMac 69 with
      | none => (s, false)
      | some mkIn =>
          let s := { s with inp := { s.inp with macKey := mkIn } }
          match kdf sshMac 70 with
          | none => (s, false)
          | some mkOut =>
              let s := { s with
                inp := { s.inp with aes := [] }
                out := { s.out with macKey := mkOut, aes := [] } }
              if !c.setkey ekIn then (s, false)
              else if !c.setkey ekOut then
                ({ s with inp := { s.inp with aes := ekIn } }, false)
              else
                let zero := List.replicate sshBlock 0
                ({ s with
                  inp := { s.inp with aes := ekIn, ctr := ⟨ivIn, zero, 0⟩ }
                  out := { s.out with aes := ekOut, ctr := ⟨ivOut, zero, 0⟩ }
                  keysOk := true }, true)
  | _, _, _, _ => (s, false)

/-- The two numbers of a signature, unless they do not fit their buffers. -/
def signH (signature : Option (Bytes × Bytes)) : Option Bytes :=
  match signature with
  | none => none
  | some (r, t) =>
      if r.length = 0 ∨ t.length = 0 ∨ r.length > 48 ∨ t.length > 48 then none
      else some (putStr "ecdsa-sha2-nistp256" ++ putBytes (putMpint r ++ putMpint t))

def exchangeHash (env : Env) (vc ic is qc qs kMp : Bytes) : Option Bytes :=
  env.crypto.sha256 (putBytes vc ++ putStr "SSH-2.0-metal" ++ putBytes ic ++
    putBytes is ++ putBytes env.ks ++ putBytes qc ++ putBytes qs ++ kMp)

/-- ECDH_REPLY and NEWKEYS, after which packets to the peer are encrypted. -/
def ecdhReply (env : Env) (a : Answers) (qs sig : Bytes) (s : Inst) : Inst × Bool :=
  let (s, ok) := s.send env.crypto
    (sshEcdhReply :: putBytes env.ks ++ putBytes qs ++ putBytes sig) (a.takes 0)
  if !ok then (s, false)
  else
    let (s, ok) := s.send env.crypto [sshNewkeys] (a.takes 1)
    if !ok ∨ !s.keysOk then (s, false)
    else ({ s with out := { s.out with enc := true }, kexOk := true }, true)

def doEcdh (env : Env) (a : Answers) (qc : Bytes) (s : Inst) : Inst × Bool :=
  if !env.haveKey ∨ s.is.length = 0 ∨ s.ic.length = 0 then (s, false)
  else
    match a.random with
    | none => (s, false)
    | some eph =>
        let qs := env.crypto.x25519Base eph
        match env.crypto.x25519 eph qc with
        | none => (s, false)
        | some kLe =>
            let kMp := putMpint kLe.reverse
            match exchangeHash env s.vc s.ic s.is qc qs kMp with
            | none => ({ s with kMp }, false)
            | some hash =>
                let s := { s with kMp, sid := hash }
                match signH a.signature with
                | none => (s, false)
                | some sig =>
                    let (s, ok) := deriveKeys env.crypto s
                    if !ok then (s, false) else ecdhReply env a qs sig s

def Inst.note (write : Bool) (s : Inst) : Inst :=
  { s with outputs :=
      s.outputs ++ [⟨write, s.inp.enc, s.kexOk, s.authOk, s.calls⟩] }

def sinkLoop (c : Crypto) (takes : Nat → Bool) :
    (fuel : Nat) → (k : Nat) → Bytes → Inst → Inst
  | 0, _, _, s => s
  | fuel + 1, k, text, s =>
      if text.length = 0 then s
      else
        let chunk := text.take 400
        let pay := sshChannelData :: beBytes32 s.remoteChan ++ putBytes chunk
        let (s, ok) := (s.note false).send c pay (takes k)
        if ok then sinkLoop c takes fuel (k + 1) (text.drop 400) s else s

def sshSink (c : Crypto) (text : Bytes) (takes : Nat → Bool) (s : Inst) : Inst :=
  if !s.chanOk ∨ s.peer < 0 ∨ text.length = 0 then s
  else sinkLoop c takes text.length 0 text s

def sendAuthFail (c : Crypto) (taken : Bool) (s : Inst) : Inst × Bool :=
  s.send c (sshUserauthFailure :: putStr "password" ++ [0]) taken

def userauthOk (p : Bytes) : Bool :=
  match takeStr p 1 with
  | none => false
  | some (user, off) =>
      match takeStr p off with
      | none => false
      | some (_, off) =>
          match takeStr p off with
          | none => false
          | some (meth, off) =>
              if !strMatch p meth "password" ∨ off ≥ UInt32.ofNat p.length then false
              else
                match takeStr p (off + 1) with
                | none => false
                | some (pw, _) => strMatch p user "metal" && strMatch p pw "metal"

def openField (p : Bytes) : Option UInt32 :=
  match takeStr p 1 with
  | none => none
  | some (_, off) => if off + 12 > UInt32.ofNat p.length then none else some off

def dataField (p : Bytes) : Option Field :=
  if p.length < 9 then none
  else
    match takeStr p 5 with
    | none => none
    | some (data, _) => if data.len = 0 then none else some data

def consoleWrite (c : Crypto) (echo : List (Bytes × (Nat → Bool))) (s : Inst) : Inst :=
  echo.foldl (fun s (text, takes) => sshSink c text takes s) (s.note true)

def onSession (c : Crypto) (a : Answers) (p : Bytes) (s : Inst) : Inst × Bool :=
  let kind := p.headD 0
  if kind = sshNewkeys then ({ s with inp := { s.inp with enc := true } }, true)
  else if kind = sshIgnore ∨ kind = sshDisconnect then (s, true)
  else if kind = sshServiceRequest then
    match takeStr p 1 with
    | none => (s, true)
    | some (sv, _) =>
        if sv.len = 0 ∨ sv.len > 32 then (s, true)
        else
          s.send c (sshServiceAccept ::
            putBytes ((p.drop sv.start.toNat).take sv.len.toNat)) (a.takes 0)
  else if kind = sshUserauthRequest then
    if userauthOk p then
      { s with authOk := true }.send c [sshUserauthSuccess] (a.takes 0)
    else sendAuthFail c (a.takes 0) s
  else if kind = sshChannelOpen then
    match openField p with
    | none => (s, true)
    | some off =>
        let sender := beU32 (p.drop off.toNat)
        let win := beU32 (p.drop (off + 4).toNat)
        let maxp := beU32 (p.drop (off + 8).toNat)
        { s with remoteChan := sender, chanOk := true }.send c
          (sshChannelOpenConf :: beBytes32 sender ++ beBytes32 0 ++ beBytes32 win ++
            beBytes32 maxp) (a.takes 0)
  else if kind = sshChannelRequest then
    if p.length < 10 then (s, true)
    else
      match takeStr p 5 with
      | none => (s, true)
      | some (_, off) =>
          if off ≥ UInt32.ofNat p.length then (s, true)
          else if p.getD off.toNat 0 ≠ 0 then
            s.send c (sshChannelSuccess :: beBytes32 s.remoteChan) (a.takes 0)
          else (s, true)
  else if kind = sshChannelData then
    match dataField p with
    | none => (s, true)
    | some _ =>
        if s.cons ≥ 1 then (consoleWrite c a.echo s, true) else (s, true)
  else (s, true)

/-- The call of `on_payload` is recorded, with the gates as they are. -/
def Inst.call (verified : Bool) (p : Bytes) (s : Inst) : Call :=
  ⟨verified, s.kexOk, s.authOk, s.cons ≥ 1, s.inp.seq, p⟩

def Inst.called (verified : Bool) (p : Bytes) (s : Inst) : Inst :=
  { s with calls := s.calls ++ [s.call verified p] }

def onPayload (env : Env) (verified : Bool) (p : Bytes) (s : Inst) : Inst × Bool :=
  let a := env.answers s.conn s.calls.length
  let s := s.called verified p
  if p.length = 0 then (s, true)
  else if p.headD 0 = sshKexinit ∧ !s.gotIc then
    if p.length > 256 then (s, false) else ({ s with ic := p, gotIc := true }, true)
  else if p.headD 0 = sshEcdhInit ∧ s.gotIc ∧ !s.kexOk then
    match takeStr p 1 with
    | none => (s, false)
    | some (qc, _) =>
        if qc.len ≠ 32 then (s, false)
        else doEcdh env a ((p.drop qc.start.toNat).take 32) s
  else if s.kexOk then onSession env.crypto a p s
  else (s, true)

inductive Taken
  | more | taken | refused

def Inst.consume (wire : Nat) (s : Inst) : Inst :=
  { s with rx := s.rx.drop wire, inp := { s.inp with seq := s.inp.seq + 1 } }

def takeClear (env : Env) (s : Inst) : Inst × Taken :=
  if s.rx.length < 4 then (s, .more)
  else
    let plen := beU32 s.rx
    if plen < 5 ∨ plen > payMax then (s, .refused)
    else if s.rx.length < 4 + plen.toNat then (s, .more)
    else
      let pad := (s.rx.getD 4 0).toNat
      if pad < 4 ∨ 1 + pad ≥ plen.toNat then (s, .refused)
      else
        let pay := plen.toNat - 1 - pad
        let (s, ok) := onPayload env false ((s.rx.drop 5).take pay) s
        if !ok then (s, .refused) else (s.consume (4 + plen.toNat), .taken)

def takeEnc (env : Env) (s : Inst) : Inst × Taken :=
  if s.rx.length < sshBlock + sshMac then (s, .more)
  else
    match env.crypto.ctr s.inp.aes s.inp.ctr (s.rx.take sshBlock) with
    | none => (s, .refused)
    | some (peek, _) =>
        let plen := beU32 peek
        if plen < 16 ∨ plen > payMax then (s, .refused)
        else
          let wire := 4 + plen.toNat
          if s.rx.length < wire + sshMac then (s, .more)
          else
            match env.crypto.ctr s.inp.aes s.inp.ctr (s.rx.take wire) with
            | none => (s, .refused)
            | some (plain, ctr) =>
                -- the packet is decrypted in place
                let s := { s with
                  rx := plain ++ s.rx.drop wire
                  inp := { s.inp with ctr } }
                let pad := (s.rx.getD 4 0).toNat
                if pad < 4 ∨ 1 + pad ≥ plen.toNat then (s, .refused)
                else
                  match env.crypto.hmac s.inp.macKey
                      (beBytes32 s.inp.seq ++ s.rx.take wire) with
                  | none => (s, .refused)
                  | some mac =>
                      if mac ≠ (s.rx.drop wire).take sshMac then (s, .refused)
                      else
                        let pay := plen.toNat - 1 - pad
                        let (s, ok) := onPayload env true ((s.rx.drop 5).take pay) s
                        if !ok then (s, .refused)
                        else (s.consume (wire + sshMac), .taken)

def pumpRx (env : Env) : (fuel : Nat) → Inst → Inst
  | 0, s => s
  | fuel + 1, s =>
      match if s.inp.enc then takeEnc env s else takeClear env s with
      | (s, .taken) => pumpRx env fuel s
      | (s, _) => s

def crlf : Bytes → Option Nat
  | 13 :: 10 :: _ => some 0
  | _ :: rest => (crlf rest).map (· + 1)
  | [] => none

def eatIdent (s : Inst) : Inst :=
  match crlf s.rx with
  | none => s
  | some i =>
      { s with
        vc := s.rx.take (min i 63)
        rx := s.rx.drop (i + 2)
        gotIdent := true }

structure Packet where
  payload : Bytes
  padding : Bytes

def Packet.frame (packet : Packet) : Bytes :=
  beBytes32 (UInt32.ofNat (1 + packet.payload.length + packet.padding.length)) ++
    UInt8.ofNat packet.padding.length :: packet.payload ++ packet.padding

/-- The flags and counters of a new connection, which begins its record. -/
def resetPeer (conn : Nat) (s : Inst) : Inst :=
  { s with
    kexOk := false
    authOk := false
    chanOk := false
    remoteChan := 0
    gotIdent := false
    sentKex := false
    gotIc := false
    rx := []
    ic := []
    inp := { s.inp with seq := 0, enc := false }
    out := { s.out with seq := 0, enc := false }
    keysOk := false
    kMp := []
    conn
    received := []
    past := s.past ++ s.calls
    calls := [] }

/-- What `accept` and `recv` answer in a poll. -/
structure Input where
  accept : Int
  recv : Option Bytes

def receive (input : Input) (s : Inst) : Inst :=
  if s.rx.length < rxMax then
    match input.recv with
    | none => s
    | some bytes =>
        let bytes := bytes.take (rxMax - s.rx.length)
        { s with rx := s.rx ++ bytes, received := s.received ++ bytes }
  else s

def ident (env : Env) (s : Inst) : Inst :=
  if s.gotIdent then s
  else
    let s := eatIdent s
    if s.gotIdent ∧ !s.sentKex then (sendKexinit env s).1 else s

def acceptPeer (input : Input) (conn : Nat) (s : Inst) : Inst :=
  if input.accept ≥ 0 then resetPeer conn { s with peer := input.accept } else s

/-- A poll of the peer; `conn` numbers the connection, if one is accepted. -/
def pollInst (env : Env) (input : Input) (conn : Nat) (s : Inst) : Inst :=
  if s.ls < 0 then s
  else
    let s := acceptPeer input conn s
    if s.peer < 0 then s
    else
      let s := ident env (receive input s)
      if s.gotIdent then pumpRx env (s.rx.length + 1) s else s

structure State where
  insts : Fin 4 → Inst
  cur : Fin 4
  accepts : Nat

def Inst.boot : Inst where
  ls := -1
  peer := -1
  laddr := 0
  lport := 0
  kexOk := false
  is := []
  ic := []
  vc := ascii "SSH-2.0-test"
  rx := []
  gotIdent := false
  sentKex := false
  gotIc := false
  authOk := false
  chanOk := false
  remoteChan := 0
  cons := -1
  keysOk := false
  kMp := []
  sid := []
  inp := ⟨false, 0, [], ⟨[], [], 0⟩, []⟩
  out := ⟨⟨false, 0, [], ⟨[], [], 0⟩, []⟩, []⟩
  conn := 0
  received := []
  calls := []
  past := []
  outputs := []

def State.boot : State := ⟨fun _ => Inst.boot, 0, 0⟩

def State.set (state : State) (i : Fin 4) (s : Inst) : State :=
  { state with insts := Function.update state.insts i s, cur := i }

/-- `fd` is what socket, bind and listen give. -/
def listenFrom (addr : UInt32) (port : UInt16) (fd : Int) :
    List (Fin 4) → State → State × Int
  | [], state => ({ state with cur := 0 }, -1)
  | i :: rest, state =>
      let s := state.insts i
      if s.ls ≥ 0 ∧ s.laddr = addr ∧ s.lport = port then ({ state with cur := 0 }, i)
      else if s.ls ≥ 0 then listenFrom addr port fd rest { state with cur := i }
      else if fd < 0 then ({ state with cur := 0 }, -1)
      else (state.set i { s with ls := fd, laddr := addr, lport := port, is := [] }, i)

def pollOne (env : Env) (input : Fin 4 → Input) (state : State) (i : Fin 4) : State :=
  let s := pollInst env (input i) (state.accepts + 1) (state.insts i)
  { state.set i s with accepts := state.accepts + 1 }

def poll (env : Env) (input : Fin 4 → Input) (state : State) : State :=
  { (List.finRange 4).foldl (pollOne env input) state with cur := 0 }

def State.sink (c : Crypto) (state : State) (print : Bytes × (Nat → Bool)) : State :=
  state.set state.cur (sshSink c print.1 print.2 (state.insts state.cur))

def viewportAttach (c : Crypto) (id console : Int) (replay : List (Bytes × (Nat → Bool)))
    (state : State) : State × Int :=
  let state := { state with cur := 0 }
  if id < 1 ∨ id ≥ sshConsoleN then (state, -1)
  else
    let s := state.insts 0
    if s.cons = id then (state, 0)
    else (replay.foldl (State.sink c) (state.set 0 { s with cons := id }), console)

/-- `query` is any of the calls that tell a flag of the first instance. -/
inductive Op
  | listen (addr : UInt32) (port : UInt16) (fd : Int)
  | poll (input : Fin 4 → Input)
  | attach (id console : Int) (replay : List (Bytes × (Nat → Bool)))
  | sink (text : Bytes) (takes : Nat → Bool)
  | query

def step (env : Env) (state : State) : Op → State
  | .listen addr port fd => (listenFrom addr port fd (List.finRange 4) state).1
  | .poll input => poll env input state
  | .attach id console replay => (viewportAttach env.crypto id console replay state).1
  | .sink text takes => state.sink env.crypto (text, takes)
  | .query => { state with cur := 0 }

structure Closed (env : Env) (inv : Inst → Prop) : Prop where
  boot : inv Inst.boot
  listen : ∀ s fd laddr lport, s.ls < 0 → inv s →
    inv { s with ls := fd, laddr, lport, is := [] }
  poll : ∀ s input conn, inv s → inv (pollInst env input conn s)
  attach : ∀ s id, inv s → inv { s with cons := id }
  sink : ∀ s text takes, inv s → inv (sshSink env.crypto text takes s)

def State.All (inv : Inst → Prop) (state : State) : Prop := ∀ i, inv (state.insts i)

section Runs

variable {inv : Inst → Prop} {state : State}

theorem State.All.set (all : state.All inv) (i : Fin 4) {s : Inst} (holds : inv s) :
    (state.set i s).All inv := by
  intro j
  by_cases same : j = i
  · subst same
    simpa [State.set] using holds
  · simpa [State.set, Function.update_of_ne same] using all j

variable {env : Env} (closed : Closed env inv)

include closed

section All

variable (all : state.All inv)
include all

theorem Closed.listenFrom (addr : UInt32) (port : UInt16) (fd : Int)
    (order : List (Fin 4)) : (listenFrom addr port fd order state).1.All inv := by
  induction order generalizing state with
  | nil => exact all
  | cons i rest ih =>
      rw [Ssh.listenFrom]
      split
      · exact all
      split
      · exact ih all
      split
      · exact all
      · rename_i off _
        exact all.set i (closed.listen _ fd addr port (Int.not_le.mp off) (all i))

theorem Closed.pollOne (input : Fin 4 → Input) (i : Fin 4) :
    (pollOne env input state i).All inv :=
  all.set i (closed.poll _ (input i) (state.accepts + 1) (all i))

theorem Closed.print (print : Bytes × (Nat → Bool)) :
    (state.sink env.crypto print).All inv :=
  all.set _ (closed.sink _ print.1 print.2 (all _))

theorem Closed.viewportAttach (id console : Int) (replay : List (Bytes × (Nat → Bool))) :
    (viewportAttach env.crypto id console replay state).1.All inv := by
  unfold Ssh.viewportAttach
  dsimp only
  split
  · exact all
  split
  · exact all
  · have attached : State.All inv (state.set 0 { state.insts 0 with cons := id }) :=
      all.set 0 (closed.attach _ id (all 0))
    exact foldl_invariant (fun state print (all : State.All inv state) =>
      closed.print all print) attached replay

theorem Closed.step (op : Op) : (step env state op).All inv := by
  cases op with
  | listen addr port fd => exact closed.listenFrom all addr port fd _
  | poll input =>
      have polled := foldl_invariant (fun state i (all : State.All inv state) =>
        closed.pollOne all input i) all (List.finRange 4)
      exact polled
  | attach id console replay => exact closed.viewportAttach all id console replay
  | sink text takes => exact closed.print all (text, takes)
  | query => exact all

end All

theorem Closed.run (ops : List Op) (i : Fin 4) :
    inv ((ops.foldl (Ssh.step env) State.boot).insts i) := by
  have boot : State.boot.All inv := fun _ => closed.boot
  have ran : State.All inv (ops.foldl (Ssh.step env) State.boot) :=
    foldl_invariant (fun state op (all : State.All inv state) => closed.step all op) boot ops
  exact ran i

end Runs

/-- Each byte is enciphered on its own, and the digest is of the length only; the
console prints what comes in. -/
def plainEnv : Env where
  crypto :=
    { setkey := fun _ => true
      ctr := fun _ ctr input => some (input.map (· ^^^ 165), ctr)
      hmac := fun _ data => some (List.replicate 32 (UInt8.ofNat data.length))
      sha256 := fun _ => some (List.replicate 32 0)
      x25519 := fun _ _ => some (List.replicate 32 1)
      x25519Base := fun _ => List.replicate 32 9 }
  haveKey := true
  ks := [0]
  cookie := fun _ => some (List.replicate 16 0)
  kexTaken := fun _ => true
  answers := fun _ _ =>
    ⟨fun _ => true, some (List.replicate 32 5), some ([1], [1]), [([120], fun _ => true)]⟩

/-- With the padding that fills up the last block. -/
def plainPacket (payload : Bytes) : Packet :=
  ⟨payload, List.replicate (19 - (payload.length + 8) % 16) 0⟩

/-- Port 22 is listened on with console 1 attached, and a client sends packets. -/
def clientSends (packets : List Bytes) : List Op :=
  [.listen 0 22 3, .attach 1 0 [], .poll fun _ =>
    { accept := 4
      recv := some (ascii "SSH-2.0-x" ++ [13, 10] ++
        packets.flatMap fun payload => (plainPacket payload).frame) }]

def keyExchange : List Bytes :=
  [[sshKexinit], sshEcdhInit :: putBytes (List.replicate 32 7)]

def consoleInput : Bytes := sshChannelData :: beBytes32 0 ++ putBytes [120]

/-- A client that exchanges keys, gives its password, opens a channel and types. -/
def visit : List Bytes :=
  keyExchange ++
    [[sshNewkeys],
      sshUserauthRequest :: putStr "metal" ++ putStr "ssh-connection" ++
        putStr "password" ++ 0 :: putStr "metal",
      sshChannelOpen :: putStr "session" ++ beBytes32 0 ++ beBytes32 1024 ++ beBytes32 1024,
      consoleInput]

end Metal.Net.Ssh
