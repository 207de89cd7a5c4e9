import Metal.Net.Ssh

namespace Metal.Net.Ssh

open Metal.Lib

/-! What a peer sends on a connection: packets in the clear up to NEWKEYS, and then
under the keys of the exchange. -/

/-- The buffers that the server's numbers fit in, and what is relied on of the
primitives: the cipher stream xors, byte after byte. -/
structure Env.Lawful (env : Env) : Prop where
  ks : env.ks.length ≤ 160
  base : ∀ secret, (env.crypto.x25519Base secret).length = 32
  hmac : ∀ key data, ∃ mac, env.crypto.hmac key data = some mac ∧ mac.length = sshMac
  ctr : ∀ key state input, state.off < sshBlock →
    ∃ output state', env.crypto.ctr key state input = some (output, state') ∧
      output.length = input.length ∧ state'.off < sshBlock
  inverse : ∀ key state input output state',
    env.crypto.ctr key state input = some (output, state') →
      env.crypto.ctr key state output = some (input, state')
  part : ∀ key state input output state' n,
    env.crypto.ctr key state input = some (output, state') →
      ∃ state'', env.crypto.ctr key state (input.take n) = some (output.take n, state'')

structure Keys where
  aes : Bytes
  ctr : Ctr
  macKey : Bytes

/-- The KEXINIT of the peer and the keys, once they are there, and whether NEWKEYS
was received. -/
structure Inbound where
  ic : Option Bytes
  keys : Option Keys
  enc : Bool

def Inbound.start : Inbound := ⟨none, none, false⟩

/-- A connection, with the identification of the peer and the server's KEXINIT. -/
structure Session where
  env : Env
  conn : Nat
  vc : Bytes
  is : Bytes

def sessionKeys (c : Crypto) (kMp sid : Bytes) : Option Keys :=
  let kdf := kdfOne c kMp sid
  match kdf sshBlock 65, kdf sshBlock 66, kdf 16 67, kdf 16 68, kdf sshMac 69, kdf sshMac 70 with
  | some ivIn, some _, some ekIn, some ekOut, some mkIn, some _ =>
      if c.setkey ekIn && c.setkey ekOut then
        some ⟨ekIn, ⟨ivIn, List.replicate sshBlock 0, 0⟩, mkIn⟩
      else none
  | _, _, _, _, _, _ => none

/-- The keys from the peer's public number, if ECDH_REPLY and NEWKEYS are sent. -/
def Session.agree (session : Session) (a : Answers) (ic qc : Bytes) : Option Keys := do
  let eph ← a.random
  let kLe ← session.env.crypto.x25519 eph qc
  let qs := session.env.crypto.x25519Base eph
  let kMp := putMpint kLe.reverse
  let hash ← exchangeHash session.env session.vc ic session.is qc qs kMp
  let _ ← signH a.signature
  let keys ← sessionKeys session.env.crypto kMp hash
  if a.takes 0 && a.takes 1 then some keys else none

def Session.exchange (session : Session) (a : Answers) (ic p : Bytes) : Option Keys := do
  let (qc, _) ← takeStr p 1
  if qc.len ≠ 32 ∨ !session.env.haveKey ∨ session.is.length = 0 ∨ ic.length = 0 then none
  else session.agree a ic ((p.drop qc.start.toNat).take 32)

def replies (p : Bytes) : Bool :=
  let kind := p.headD 0
  if kind = sshServiceRequest then
    match takeStr p 1 with
    | none => false
    | some (sv, _) => !(sv.len = 0 ∨ sv.len > 32)
  else if kind = sshUserauthRequest then true
  else if kind = sshChannelOpen then (openField p).isSome
  else if kind = sshChannelRequest then
    !(p.length < 10) &&
      match takeStr p 5 with
      | none => false
      | some (_, off) => !(off ≥ UInt32.ofNat p.length) && p.getD off.toNat 0 ≠ 0
  else false

/-- What the payload of a packet is to the receiving side, and whether it is
answered: a KEXINIT has to fit, a key exchange to succeed, a reply to be sent. -/
def Session.handle (session : Session) (index : Nat) (p : Bytes) (t : Inbound) :
    Inbound × Bool :=
  let a := session.env.answers session.conn index
  match t.ic, t.keys with
  | none, none =>
      if p.headD 0 = sshKexinit then
        if p.length > 256 then (t, false) else ({ t with ic := some p }, true)
      else (t, true)
  | some ic, none =>
      if p.headD 0 = sshEcdhInit then
        match session.exchange a ic p with
        | none => (t, false)
        | some keys => ({ t with keys := some keys }, true)
      else (t, true)
  | _, some _ =>
      if p.headD 0 = sshNewkeys then ({ t with enc := true }, true)
      else (t, !replies p || a.takes 0)

structure Packet.WellFormed (packet : Packet) : Prop where
  payload : packet.payload ≠ []
  padding : 4 ≤ packet.padding.length
  short : packet.padding.length < 256

def Packet.length (packet : Packet) : Nat :=
  1 + packet.payload.length + packet.padding.length

def protect (c : Crypto) (index : Nat) (packet : Packet) (t : Inbound) : Bytes × Inbound :=
  match t.enc, t.keys with
  | true, some keys =>
      match c.hmac keys.macKey (beBytes32 (UInt32.ofNat index) ++ packet.frame),
          c.ctr keys.aes keys.ctr packet.frame with
      | some mac, some (cipher, ctr) =>
          (cipher ++ mac, { t with keys := some { keys with ctr } })
      | _, _ => (packet.frame, t)
  | _, _ => (packet.frame, t)

def Session.stream (session : Session) : (index : Nat) → Inbound → List Packet → Bytes
  | _, _, [] => []
  | index, t, packet :: packets =>
      let shielded := protect session.env.crypto index packet t
      shielded.1 ++
        session.stream (index + 1) (session.handle index packet.payload shielded.2).1 packets

/-- The sizes that are accepted: at most 1024, and at least 16 when encrypted. -/
def Packet.Fits (packet : Packet) (enc : Bool) : Prop :=
  packet.length ≤ payMax.toNat ∧ (enc = true → 16 ≤ packet.length)

def Session.Answered (session : Session) : (index : Nat) → Inbound → List Packet → Prop
  | _, _, [] => True
  | index, t, packet :: packets =>
      let shielded := (protect session.env.crypto index packet t).2
      let handled := session.handle index packet.payload shielded
      packet.Fits t.enc ∧ handled.2 = true ∧ session.Answered (index + 1) handled.1 packets

instance (packet : Packet) (enc : Bool) : Decidable (packet.Fits enc) :=
  inferInstanceAs (Decidable (_ ∧ (_ → _)))

def Session.decideAnswered (session : Session) :
    (index : Nat) → (t : Inbound) → (packets : List Packet) →
      Decidable (session.Answered index t packets)
  | _, _, [] => isTrue trivial
  | index, t, packet :: packets =>
      have := session.decideAnswered (index + 1) (session.handle index packet.payload
        (protect session.env.crypto index packet t).2).1 packets
      inferInstanceAs (Decidable (_ ∧ _ ∧ _))

instance (session : Session) (index : Nat) (t : Inbound) (packets : List Packet) :
    Decidable (session.Answered index t packets) := session.decideAnswered index t packets

/-- The first connection, to a server of `plainEnv`. -/
def visitor : Session :=
  ⟨plainEnv, 1, ascii "SSH-2.0-x", kexinitPayload true (List.replicate 16 0)⟩

/-- The client sends its visit, which two polls receive. -/
def visits (cut : Nat) : List Op :=
  let bytes := visitor.vc ++ [13, 10] ++ visitor.stream 0 .start (visit.map plainPacket)
  [.listen 0 22 3, .attach 1 0 [], .poll fun _ => ⟨4, some (bytes.take cut)⟩,
    .poll fun _ => ⟨-1, some (bytes.drop cut)⟩]

def Inst.inbound (s : Inst) : Inbound where
  ic := if s.gotIc then some s.ic else none
  keys := if s.kexOk then some ⟨s.inp.aes, s.inp.ctr, s.inp.macKey⟩ else none
  enc := s.inp.enc

structure Reception where
  ls : Int
  conn : Nat
  vc : Bytes
  is : Bytes
  gotIdent : Bool
  rx : Bytes
  received : Bytes
  calls : List Call
  seq : UInt32
  inbound : Inbound

def Inst.reception (s : Inst) : Reception :=
  ⟨s.ls, s.conn, s.vc, s.is, s.gotIdent, s.rx, s.received, s.calls, s.inp.seq, s.inbound⟩

/-- A cipher stream that is used is at some byte of its block, and the flags
follow each other. -/
structure Sound (s : Inst) : Prop where
  outCtr : s.out.enc = true → s.out.ctr.off < sshBlock
  inpCtr : s.kexOk = true → s.inp.ctr.off < sshBlock
  out : s.out.enc = s.kexOk
  kexOk : s.kexOk = true → s.gotIc = true
  enc : s.inp.enc = true → s.kexOk = true

structure Quiet (s s' : Inst) : Prop where
  reception : s'.reception = s.reception
  sound : Sound s → Sound s'

section Handling

variable {env : Env} {s s' s'' : Inst}

theorem Quiet.refl (s : Inst) : Quiet s s := ⟨rfl, id⟩

theorem Quiet.trans (first : Quiet s s') (second : Quiet s' s'') : Quiet s s'' :=
  ⟨second.reception.trans first.reception, second.sound ∘ first.sound⟩

theorem padLength_le (block n : Nat) : padLength block n ≤ block + block := by
  unfold padLength
  dsimp only
  split <;> omega

theorem Env.Lawful.hmac_some (lawful : env.Lawful) {key data : Bytes} :
    env.crypto.hmac key data ≠ none := by
  obtain ⟨mac, digest, _⟩ := lawful.hmac key data
  simp [digest]

theorem Env.Lawful.ctr_some (lawful : env.Lawful) {key input : Bytes} {state : Ctr}
    (within : state.off < sshBlock) : env.crypto.ctr key state input ≠ none := by
  obtain ⟨output, state', stream, _⟩ := lawful.ctr key state input within
  simp [stream]

theorem Env.Lawful.ctr_after (lawful : env.Lawful) {key input output : Bytes}
    {state state' : Ctr} (within : state.off < sshBlock)
    (stream : env.crypto.ctr key state input = some (output, state')) :
    output.length = input.length ∧ state'.off < sshBlock := by
  obtain ⟨_, _, same, after⟩ := lawful.ctr key state input within
  rw [stream] at same
  cases same
  exact after

variable {payload : Bytes}

theorem sendPkt_eq (lawful : env.Lawful) (o : Outbound)
    (within : o.enc = true → o.ctr.off < sshBlock) (small : payload.length ≤ 1100) (taken : Bool) :
    ∃ o', sendPkt env.crypto payload taken o = (o', taken) ∧ o'.enc = o.enc ∧
      (o.ctr.off < sshBlock → o'.ctr.off < sshBlock) := by
  have encrypted := padLength_le sshBlock payload.length
  have clear := padLength_le 8 payload.length
  unfold sendPkt
  dsimp only
  split
  · rename_i enc
    rw [if_neg (by simp only [sshBlock, sshMac] at *; omega)]
    split
    · exact absurd ‹_› lawful.hmac_some
    · split
      · exact absurd ‹_› (lawful.ctr_some (within enc))
      · rename_i stream
        have after := (lawful.ctr_after (within enc) stream).2
        cases taken <;> exact ⟨_, rfl, rfl, fun _ => after⟩
  · rw [if_neg (by omega)]
    cases taken <;> exact ⟨_, rfl, rfl, id⟩

theorem send_eq (lawful : env.Lawful) (sound : Sound s) (small : payload.length ≤ 1100)
    (taken : Bool) : ∃ s', s.send env.crypto payload taken = (s', taken) ∧ Quiet s s' := by
  obtain ⟨out, sent, enc, within⟩ := sendPkt_eq lawful s.out sound.outCtr small taken
  refine ⟨{ s with out }, ?_, rfl, fun sound => ?_⟩
  · rw [Inst.send, sent]
  · exact { sound with
      outCtr := fun used => within (sound.outCtr (enc ▸ used))
      out := enc.trans sound.out }

theorem send_quiet (lawful : env.Lawful) (s : Inst) (small : payload.length ≤ 1100) (taken : Bool) :
    Quiet s (s.send env.crypto payload taken).1 := by
  refine ⟨rfl, fun sound => ?_⟩
  obtain ⟨s', sent, quiet⟩ := send_eq lawful sound small taken
  rw [sent]
  exact quiet.sound sound

theorem note_quiet (write : Bool) (s : Inst) : Quiet s (s.note write) :=
  ⟨rfl, fun sound => { sound with }⟩

theorem sinkLoop_quiet (lawful : env.Lawful) (takes : Nat → Bool) (fuel k : Nat)
    (text : Bytes) (s : Inst) : Quiet s (sinkLoop env.crypto takes fuel k text s) := by
  induction fuel generalizing s k text with
  | zero => exact .refl s
  | succ fuel ih =>
      rw [sinkLoop]
      split
      · exact .refl s
      · have small : (sshChannelData :: beBytes32 s.remoteChan ++
            putBytes (text.take 400)).length ≤ 1100 := by
          simp [putBytes]
          omega
        have sent := (note_quiet false s).trans (send_quiet lawful _ small (takes k))
        dsimp only
        split
        · exact sent.trans (ih _ _ _)
        · exact sent

theorem sshSink_quiet (lawful : env.Lawful) (text : Bytes) (takes : Nat → Bool) (s : Inst) :
    Quiet s (sshSink env.crypto text takes s) := by
  unfold sshSink
  split
  · exact .refl s
  · exact sinkLoop_quiet lawful takes _ 0 text s

theorem consoleWrite_quiet (lawful : env.Lawful) (echo : List (Bytes × (Nat → Bool)))
    (s : Inst) : Quiet s (consoleWrite env.crypto echo s) :=
  foldl_invariant (fun s' print (quiet : Quiet s s') =>
    quiet.trans (sshSink_quiet lawful print.1 print.2 s')) (note_quiet true s) echo

theorem onSession_eq (lawful : env.Lawful) (a : Answers) {p : Bytes}
    (other : p.headD 0 ≠ sshNewkeys) (replied : replies p = true → a.takes 0 = true)
    (sound : Sound s) :
    ∃ s', onSession env.crypto a p s = (s', true) ∧ Quiet s s' := by
  have stays : ∃ s', (s, true) = (s', true) ∧ Quiet s s' := ⟨s, rfl, .refl s⟩
  have sends {s₁ : Inst} (quiet : Quiet s s₁) {payload : Bytes}
      (small : payload.length ≤ 1100) (replies : replies p = true) :
      ∃ s', s₁.send env.crypto payload (a.takes 0) = (s', true) ∧ Quiet s s' := by
    obtain ⟨s', sent, after⟩ := send_eq lawful (quiet.sound sound) small (a.takes 0)
    rw [replied replies] at sent ⊢
    exact ⟨s', sent, quiet.trans after⟩
  unfold onSession
  unfold replies at sends
  dsimp only at sends ⊢
  rw [if_neg other]
  split
  · exact stays
  split
  · rename_i kind
    rw [if_pos kind] at sends
    split
    · exact stays
    · rename_i sv _ field
      split
      · exact stays
      · rename_i named
        refine sends (.refl s) ?_ (by rw [field]; simpa using named)
        have : sv.len.toNat ≤ 32 := by
          simpa [UInt32.not_lt, UInt32.le_iff_toNat_le] using (not_or.mp named).2
        simp [putBytes]
        omega
  rename_i kind
  rw [if_neg kind] at sends
  split
  · rename_i kind
    rw [if_pos kind] at sends
    split
    · have granted : Quiet s { s with authOk := true } :=
        ⟨rfl, fun sound => { sound with }⟩
      refine sends granted ?_ rfl
      decide
    · refine sends (.refl s) ?_ rfl
      decide
  rename_i kind
  rw [if_neg kind] at sends
  split
  · rename_i kind
    rw [if_pos kind] at sends
    split
    · exact stays
    · rename_i off opened
      have opens : Quiet s
          { s with remoteChan := beU32 (p.drop off.toNat), chanOk := true } :=
        ⟨rfl, fun sound => { sound with }⟩
      refine sends opens ?_ (by rw [opened]; rfl)
      simp
  rename_i kind
  rw [if_neg kind] at sends
  split
  · rename_i kind
    rw [if_pos kind] at sends
    split
    · exact stays
    · rename_i long
      split
      · exact stays
      · rename_i field
        split
        · exact stays
        · rename_i inside
          split
          · rename_i want
            refine sends (.refl s) ?_ (by rw [field]; simp_all)
            simp
          · exact stays
  split
  · split
    · exact stays
    · split
      · exact ⟨_, rfl, consoleWrite_quiet lawful _ s⟩
      · exact stays
  · exact stays

theorem mpintBody_length_le (be : Bytes) : (mpintBody be).length ≤ be.length := by
  induction be using mpintBody.induct with
  | case1 => rfl
  | case2 b => exact Nat.le_refl _
  | case3 rest nonempty ih =>
      rw [mpintBody, if_pos rfl]
      · exact Nat.le_succ_of_le ih
      · exact nonempty
  | case4 b rest nonempty nonzero =>
      rw [mpintBody, if_neg nonzero]
      exact nonempty

theorem putMpint_length_le (be : Bytes) : (putMpint be).length ≤ be.length + 5 := by
  have := mpintBody_length_le be
  unfold putMpint
  dsimp only
  split <;> simp [putBytes] <;> omega

theorem signH_length_le {signature : Option (Bytes × Bytes)} {sig : Bytes}
    (signed : signH signature = some sig) : sig.length ≤ 133 := by
  unfold signH at signed
  split at signed
  · cases signed
  · rename_i r t
    split at signed
    · cases signed
    · rename_i fit
      cases signed
      have first := putMpint_length_le r
      have second := putMpint_length_le t
      have name : (putStr "ecdsa-sha2-nistp256").length = 23 := by decide
      simp only [putBytes, List.length_append, length_beBytes32, name]
      omega

theorem deriveKeys_eq {c : Crypto} {keys : Keys}
    (derived : sessionKeys c s.kMp s.sid = some keys) :
    keys.ctr.off = 0 ∧ ∃ aes iv macKey, deriveKeys c s = ({ s with
      inp := { s.inp with aes := keys.aes, ctr := keys.ctr, macKey := keys.macKey }
      out := { s.out with aes, ctr := ⟨iv, List.replicate sshBlock 0, 0⟩, macKey }
      keysOk := true }, true) := by
  unfold sessionKeys at derived
  dsimp only at derived
  split at derived
  · rename_i ivIn ivOut ekIn ekOut mkIn mkOut first second third fourth fifth sixth
    split at derived
    · rename_i set
      obtain ⟨setIn, setOut⟩ := Bool.and_eq_true_iff.mp set
      cases derived
      refine ⟨rfl, ekOut, ivOut, mkOut, ?_⟩
      unfold deriveKeys
      dsimp only
      rw [first, second, third, fourth, fifth, sixth]
      simp [setIn, setOut]
    · cases derived
  · cases derived

theorem ecdhReply_eq (lawful : env.Lawful) {a : Answers} (first : a.takes 0 = true)
    (second : a.takes 1 = true) {qs sig : Bytes} (number : qs.length = 32)
    (signed : sig.length ≤ 133) (keysOk : s.keysOk = true)
    (within : s.out.ctr.off < sshBlock) :
    ∃ out, ecdhReply env a qs sig s = ({ s with out, kexOk := true }, true) ∧
      out.enc = true ∧ out.ctr.off < sshBlock := by
  have small : (sshEcdhReply :: putBytes env.ks ++ putBytes qs ++ putBytes sig).length ≤
      1100 := by
    have := lawful.ks
    simp only [putBytes, List.length_append, List.length_cons, length_beBytes32]
    omega
  obtain ⟨out, replied, _, between⟩ :=
    sendPkt_eq lawful s.out (fun _ => within) small (a.takes 0)
  have short : [sshNewkeys].length ≤ 1100 := by decide
  obtain ⟨out', sent, _, after⟩ :=
    sendPkt_eq lawful out (fun _ => between within) short (a.takes 1)
  refine ⟨{ out' with enc := true }, ?_, rfl, after (between within)⟩
  unfold ecdhReply Inst.send
  rw [replied, first]
  dsimp only
  rw [sent, second]
  simp [keysOk]

def Inst.session (env : Env) (s : Inst) : Session := ⟨env, s.conn, s.vc, s.is⟩

theorem doEcdh_eq (lawful : env.Lawful) (a : Answers) {qc : Bytes} {keys : Keys}
    (ready : ¬(!env.haveKey ∨ s.is.length = 0 ∨ s.ic.length = 0))
    (agreed : (s.session env).agree a s.ic qc = some keys) (gotIc : s.gotIc = true) :
    ∃ s', doEcdh env a qc s = (s', true) ∧ Sound s' ∧
      s'.reception = { s.reception with inbound := { s.inbound with keys := some keys } } := by
  unfold Session.agree at agreed
  simp only [Option.bind_eq_bind, Option.bind_eq_some_iff, Inst.session] at agreed
  obtain ⟨eph, random, kLe, shared, hash, hashed, sig, signed, keys', derived, taken⟩ := agreed
  split at taken
  · rename_i takes
    obtain ⟨first, second⟩ := Bool.and_eq_true_iff.mp takes
    cases taken
    let s₁ := { s with kMp := putMpint kLe.reverse, sid := hash }
    obtain ⟨start, aes, iv, macKey, derives⟩ := deriveKeys_eq (s := s₁) derived
    obtain ⟨out, replied, enc, within⟩ := ecdhReply_eq lawful first second
      (s := (deriveKeys env.crypto s₁).1) (lawful.base eph) (signH_length_le signed)
      (by rw [derives]) (by rw [derives]; exact (by decide : 0 < sshBlock))
    have exchanged : doEcdh env a qc s =
        ({ (deriveKeys env.crypto s₁).1 with out, kexOk := true }, true) := by
      unfold doEcdh
      rw [if_neg ready, random]
      dsimp only
      rw [shared]
      dsimp only
      rw [hashed]
      dsimp only
      rw [signed]
      dsimp only
      rw [derives] at replied ⊢
      exact replied
    rw [derives] at exchanged
    refine ⟨_, exchanged, ?_, rfl⟩
    refine ⟨fun _ => within, fun _ => ?_, enc, fun _ => gotIc, fun _ => rfl⟩
    rw [start]
    decide
  · cases taken


theorem ecdhInit_eq (lawful : env.Lawful) (a : Answers) {p : Bytes} {keys : Keys}
    (exchanged : (s.session env).exchange a s.ic p = some keys) (gotIc : s.gotIc = true) :
    ∃ s', (match takeStr p 1 with
      | none => (s, false)
      | some (qc, _) =>
          if qc.len ≠ 32 then (s, false)
          else doEcdh env a ((p.drop qc.start.toNat).take 32) s) = (s', true) ∧ Sound s' ∧
      s'.reception = { s.reception with inbound := { s.inbound with keys := some keys } } := by
  unfold Session.exchange at exchanged
  simp only [Option.bind_eq_bind, Option.bind_eq_some_iff] at exchanged
  obtain ⟨⟨qc, off⟩, field, exchanged⟩ := exchanged
  rw [field]
  dsimp only at exchanged ⊢
  split at exchanged
  · cases exchanged
  · rename_i ready
    obtain ⟨len, ready⟩ := not_or.mp ready
    rw [if_neg len]
    exact doEcdh_eq lawful a ready exchanged gotIc

theorem onPayload_eq (lawful : env.Lawful) (sound : Sound s) (verified : Bool) {p : Bytes}
    (carries : p ≠ []) {t : Inbound}
    (handled : (s.session env).handle s.calls.length p s.inbound = (t, true)) :
    ∃ s', onPayload env verified p s = (s', true) ∧ Sound s' ∧
      s'.reception =
        { s.reception with calls := s.calls ++ [s.call verified p], inbound := t } := by
  have called : Sound (s.called verified p) := { sound with }
  have nonempty : ¬p.length = 0 := by simpa using carries
  have ends (inbound : s.inbound = t) :
      (s.called verified p).reception =
        { s.reception with calls := s.calls ++ [s.call verified p], inbound := t } := by
    subst inbound
    rfl
  unfold Session.handle at handled
  unfold onPayload
  dsimp only at handled ⊢
  rw [if_neg nonempty]
  split at handled
  · rename_i ic keys
    obtain ⟨gotIc, kexOk⟩ : s.gotIc = false ∧ s.kexOk = false := by
      simpa [Inst.inbound] using And.intro ic keys
    have early : ¬(s.called verified p).gotIc = true := by simp [Inst.called, gotIc]
    have later : ¬(s.called verified p).kexOk = true := by simp [Inst.called, kexOk]
    split at handled
    · rename_i kind
      rw [if_pos ⟨kind, by simpa using early⟩]
      split at handled
      · cases handled
      · rename_i short
        rw [if_neg short]
        cases handled
        exact ⟨_, rfl, { called with kexOk := fun _ => rfl }, rfl⟩
    · rename_i kind
      rw [if_neg fun both => kind both.1, if_neg fun both => early both.2.1, if_neg later]
      cases handled
      exact ⟨_, rfl, called, ends rfl⟩
  · rename_i ic ic' keys
    obtain ⟨⟨gotIc, rfl⟩, kexOk⟩ : (s.gotIc = true ∧ s.ic = ic) ∧ s.kexOk = false := by
      simpa [Inst.inbound] using And.intro ic' keys
    have late : ¬(!(s.called verified p).gotIc) = true := by simp [Inst.called, gotIc]
    have open_ : (!(s.called verified p).kexOk) = true := by simp [Inst.called, kexOk]
    rw [if_neg fun both => late both.2]
    split at handled
    · rename_i kind
      rw [if_pos ⟨kind, gotIc, open_⟩]
      split at handled
      · cases handled
      · rename_i keys exchanged
        cases handled
        exact ecdhInit_eq (s := s.called verified p) lawful _ exchanged gotIc
    · rename_i kind
      rw [if_neg fun both => kind both.1, if_neg fun opened => by simp [opened] at open_]
      cases handled
      exact ⟨_, rfl, called, ends rfl⟩
  · rename_i keys
    have kexOk : s.kexOk = true := by
      cases kexOk : s.kexOk with
      | true => rfl
      | false => simp [Inst.inbound, kexOk] at keys
    have late : ¬(!(s.called verified p).gotIc) = true := by
      simp [Inst.called, sound.kexOk kexOk]
    have opened : (s.called verified p).kexOk = true := kexOk
    rw [if_neg fun both => late both.2, if_neg fun both => by simp [opened] at both,
      if_pos opened]
    split at handled
    · rename_i kind
      cases handled
      unfold onSession
      dsimp only
      rw [if_pos kind]
      exact ⟨_, rfl, { called with enc := fun _ => kexOk }, rfl⟩
    · rename_i kind
      obtain ⟨rfl, replied⟩ := Prod.mk.inj handled
      obtain ⟨s', handles, quiet⟩ := onSession_eq lawful
        (env.answers s.conn s.calls.length) kind
        (fun replies => by simpa [replies, Inst.session] using replied) called
      exact ⟨s', handles, quiet.sound called, quiet.reception.trans (ends rfl)⟩

end Handling

end Metal.Net.Ssh
