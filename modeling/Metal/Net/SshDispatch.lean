import Metal.Net.SshPeer

namespace Metal.Net.Ssh

open Metal.Lib

/-! The payloads that are handled, against the packets that were sent, however the
stream is cut. -/

section Loop

variable {env : Env} {s s' : Inst}

@[simp] theorem Packet.length_frame (packet : Packet) :
    packet.frame.length = 4 + packet.length := by
  simp [Packet.frame, Packet.length]
  omega

variable {packet : Packet}

theorem Packet.beU32_frame (fits : packet.length ≤ payMax.toNat) (rest : Bytes) :
    (beU32 (packet.frame ++ rest)).toNat = packet.length := by
  rw [Packet.frame, List.append_assoc, List.append_assoc, beU32_beBytes32,
    ← Packet.length, UInt32.toNat_ofNat_of_lt']
  exact Nat.lt_of_le_of_lt fits (by decide)

theorem Packet.pad_frame (wellFormed : packet.WellFormed) (rest : Bytes) :
    ((packet.frame ++ rest).getD 4 0).toNat = packet.padding.length := by
  have pad : (packet.frame ++ rest).getD 4 0 = UInt8.ofNat packet.padding.length := rfl
  rw [pad, UInt8.toNat_ofNat_of_lt' wellFormed.short]

theorem Packet.payload_frame (rest : Bytes) :
    ((packet.frame ++ rest).drop 5).take (packet.length - 1 - packet.padding.length) =
      packet.payload := by
  have dropped : (packet.frame ++ rest).drop 5 =
      packet.payload ++ (packet.padding ++ rest) := by
    simp [Packet.frame, beBytes32]
  have size : packet.length - 1 - packet.padding.length = packet.payload.length := by
    unfold Packet.length
    omega
  rw [dropped, size, List.take_left]

theorem Packet.checks (wellFormed : packet.WellFormed) :
    5 < packet.length ∧ 4 ≤ packet.padding.length ∧
      1 + packet.padding.length < packet.length := by
  have carries := List.length_pos_iff.mpr wellFormed.payload
  have padding := wellFormed.padding
  unfold Packet.length
  omega

variable {tail : Bytes}

theorem takeClear_whole (wellFormed : packet.WellFormed) (fits : packet.length ≤ payMax.toNat)
    (rx : s.rx = packet.frame ++ tail)
    (handled : onPayload env false packet.payload s = (s', true)) :
    takeClear env s = (s'.consume (4 + packet.length), .taken) := by
  have plen := packet.beU32_frame fits tail
  have pad := packet.pad_frame wellFormed tail
  obtain ⟨long, padded, carries⟩ := packet.checks wellFormed
  unfold takeClear
  dsimp only
  rw [rx, if_neg (by simp; omega), if_neg, if_neg (by rw [plen]; simp), if_neg (by omega), pad, plen,
    packet.payload_frame, handled]
  · rfl
  · rw [UInt32.lt_iff_toNat_lt, gt_iff_lt, UInt32.lt_iff_toNat_lt, plen]
    simp
    omega

theorem takeClear_part (wellFormed : packet.WellFormed) (fits : packet.length ≤ payMax.toNat)
    (rx : s.rx <+: packet.frame ++ tail) (short : s.rx.length < packet.frame.length) :
    takeClear env s = (s, .more) := by
  obtain ⟨long, _⟩ := packet.checks wellFormed
  obtain ⟨missing, whole⟩ := rx
  unfold takeClear
  dsimp only
  split
  · rfl
  · rename_i word
    have plen : (beU32 s.rx).toNat = packet.length := by
      rw [← beU32_append (Nat.le_of_not_lt word) missing, whole, packet.beU32_frame fits]
    rw [if_neg, if_pos]
    · simpa [plen] using short
    · rw [UInt32.lt_iff_toNat_lt, gt_iff_lt, UInt32.lt_iff_toNat_lt, plen]
      simp
      omega

structure Enciphered (env : Env) (channel : Channel) (packet : Packet)
    (cipher mac : Bytes) (ctr : Ctr) : Prop where
  stream : env.crypto.ctr channel.aes channel.ctr packet.frame = some (cipher, ctr)
  digest : env.crypto.hmac channel.macKey (beBytes32 channel.seq ++ packet.frame) = some mac
  cipherLength : cipher.length = 4 + packet.length
  macLength : mac.length = sshMac

section Encrypted

variable {cipher mac : Bytes} {ctr : Ctr}
  (lawful : env.Lawful) (enciphered : Enciphered env s.inp packet cipher mac ctr)
  (fits : packet.length ≤ payMax.toNat) (full : 16 ≤ packet.length)

include lawful enciphered

theorem Enciphered.deciphered :
    env.crypto.ctr s.inp.aes s.inp.ctr cipher = some (packet.frame, ctr) :=
  lawful.inverse _ _ _ _ _ enciphered.stream

include fits full

theorem Enciphered.peek {rx : Bytes} (block : rx.take sshBlock = cipher.take sshBlock) :
    ∃ peek ctr', env.crypto.ctr s.inp.aes s.inp.ctr (rx.take sshBlock) = some (peek, ctr') ∧
      (beU32 peek).toNat = packet.length := by
  obtain ⟨ctr', peeked⟩ :=
    lawful.part _ _ _ _ _ sshBlock (enciphered.deciphered lawful)
  refine ⟨packet.frame.take sshBlock, ctr', block ▸ peeked, ?_⟩
  rw [← packet.beU32_frame fits [], List.append_nil]
  conv_rhs => rw [← List.take_append_drop sshBlock packet.frame]
  rw [beU32_append]
  rw [List.length_take, packet.length_frame, sshBlock]
  omega

theorem takeEnc_whole (wellFormed : packet.WellFormed) (rx : s.rx = cipher ++ mac ++ tail)
    (handled : onPayload env true packet.payload
      { s with rx := packet.frame ++ (mac ++ tail), inp := { s.inp with ctr } } = (s', true)) :
    takeEnc env s = (s'.consume (4 + packet.length + sshMac), .taken) := by
  have block : s.rx.take sshBlock = cipher.take sshBlock := by
    rw [rx, List.append_assoc, List.take_append_of_le_length]
    rw [enciphered.cipherLength, sshBlock]
    omega
  obtain ⟨peek, ctr', peeked, plen⟩ := enciphered.peek lawful fits full block
  have pad := packet.pad_frame wellFormed (mac ++ tail)
  obtain ⟨long, padded, carries⟩ := packet.checks wellFormed
  have size : s.rx.length = 4 + packet.length + sshMac + tail.length := by
    rw [rx, List.length_append, List.length_append, enciphered.cipherLength,
      enciphered.macLength]
  have wire : s.rx.take (4 + packet.length) = cipher := by
    rw [rx, List.append_assoc, ← enciphered.cipherLength, List.take_left]
  have rest : s.rx.drop (4 + packet.length) = mac ++ tail := by
    rw [rx, List.append_assoc, ← enciphered.cipherLength, List.drop_left]
  unfold takeEnc
  rw [if_neg (by rw [size, sshBlock]; omega), peeked]
  dsimp only
  rw [if_neg, plen, if_neg (by rw [size]; omega), wire, enciphered.deciphered lawful]
  dsimp only
  rw [rest, pad, if_neg (by omega), ← packet.length_frame, List.take_left, enciphered.digest]
  dsimp only
  rw [List.drop_left, ← enciphered.macLength, List.take_left, if_neg (not_not.mpr rfl),
    packet.payload_frame, handled]
  · rfl
  · rw [UInt32.lt_iff_toNat_lt, gt_iff_lt, UInt32.lt_iff_toNat_lt, plen]
    simp
    omega

theorem takeEnc_part (rx : s.rx <+: cipher ++ mac ++ tail)
    (short : s.rx.length < (cipher ++ mac).length) : takeEnc env s = (s, .more) := by
  unfold takeEnc
  split
  · rfl
  · rename_i word
    have block : s.rx.take sshBlock = cipher.take sshBlock := by
      obtain ⟨missing, whole⟩ := rx
      have first : s.rx.take sshBlock = (s.rx ++ missing).take sshBlock := by
        rw [List.take_append_of_le_length (by omega)]
      rw [first, whole, List.append_assoc, List.take_append_of_le_length]
      rw [enciphered.cipherLength, sshBlock]
      omega
    obtain ⟨peek, ctr', peeked, plen⟩ := enciphered.peek lawful fits full block
    rw [peeked]
    dsimp only
    rw [if_neg, if_pos]
    · simpa [plen, enciphered.cipherLength, enciphered.macLength] using short
    · rw [UInt32.lt_iff_toNat_lt, gt_iff_lt, UInt32.lt_iff_toNat_lt, plen]
      simp
      omega

end Encrypted

def turn (env : Env) (s : Inst) : Inst × Taken :=
  if s.inp.enc then takeEnc env s else takeClear env s

def Call.seen (call : Call) : UInt32 × Bytes := (call.seq, call.payload)

structure Took (s : Inst) (packet : Packet) (tail : Bytes) (t : Inbound) (s' : Inst) :
    Prop where
  sound : Sound s'
  reception : ∃ call : Call, call.seen = (s.inp.seq, packet.payload) ∧
    s'.reception =
      { s.reception with rx := tail, calls := s.calls ++ [call], seq := s.inp.seq + 1, inbound := t }

variable {t : Inbound}

theorem consume_took (s₁ : Inst) {s₂ : Inst} {wire : Nat} {call : Call}
    (seen : call.seen = (s.inp.seq, packet.payload)) (sound : Sound s₂)
    (before : s₁.reception = { s.reception with rx := s₁.rx, inbound := s₁.inbound })
    (reception : s₂.reception = { s₁.reception with calls := s₁.calls ++ [call], inbound := t })
    (rx : s₁.rx.drop wire = tail) : Took s packet tail t (s₂.consume wire) := by
  refine ⟨{ sound with }, call, seen, ?_⟩
  have consumed : (s₂.consume wire).reception =
      { s₂.reception with rx := s₂.reception.rx.drop wire, seq := s₂.reception.seq + 1 } := rfl
  have calls : s₁.calls = s.calls := congrArg Reception.calls before
  rw [consumed, reception, before, calls, ← rx]
  rfl

theorem protect_clear (c : Crypto) (index : Nat) (clear : t.enc = false) :
    protect c index packet t = (packet.frame, t) := by
  unfold protect
  rw [clear]

variable {index : Nat}

section Lawful

variable (lawful : env.Lawful) (sound : Sound s)
include lawful sound

theorem protect_enc (packet : Packet)
    (enc : s.inp.enc = true) (seq : s.inp.seq = UInt32.ofNat index) :
    ∃ cipher mac ctr, Enciphered env s.inp packet cipher mac ctr ∧ ctr.off < sshBlock ∧
      ∀ rx, protect env.crypto index packet s.inbound =
        (cipher ++ mac, { s with rx, inp := { s.inp with ctr } : Inst }.inbound) := by
  obtain ⟨mac, digest, macLength⟩ :=
    lawful.hmac s.inp.macKey (beBytes32 s.inp.seq ++ packet.frame)
  obtain ⟨cipher, ctr, stream, cipherLength, after⟩ :=
    lawful.ctr s.inp.aes s.inp.ctr packet.frame (sound.inpCtr (sound.enc enc))
  refine ⟨cipher, mac, ctr, ⟨stream, digest, ?_, macLength⟩, after, fun rx => ?_⟩
  · rw [cipherLength, packet.length_frame]
  · have keys : s.inbound.keys = some ⟨s.inp.aes, s.inp.ctr, s.inp.macKey⟩ :=
      if_pos (sound.enc enc)
    have flag : s.inbound.enc = true := enc
    unfold protect
    rw [flag, keys, ← seq]
    dsimp only
    rw [digest, stream]
    simp [Inst.inbound, sound.enc enc, enc]

theorem protect_pos (packet : Packet) (seq : s.inp.seq = UInt32.ofNat index) :
    0 < (protect env.crypto index packet s.inbound).1.length := by
  cases enc : s.inp.enc with
  | false =>
      rw [protect_clear env.crypto index enc, packet.length_frame]
      omega
  | true =>
      obtain ⟨cipher, mac, ctr, enciphered, _, protects⟩ :=
        protect_enc lawful sound packet enc seq
      rw [protects [], List.length_append, enciphered.cipherLength]
      omega

theorem turn_whole (wellFormed : packet.WellFormed)
    (fits : packet.Fits s.inbound.enc) (count : s.calls.length = index)
    (seq : s.inp.seq = UInt32.ofNat index) (handled : (s.session env).handle index packet.payload
      (protect env.crypto index packet s.inbound).2 = (t, true))
    (rx : (protect env.crypto index packet s.inbound).1 ++ tail = s.rx) :
    ∃ s', turn env s = (s', .taken) ∧ Took s packet tail t s' := by
  subst count
  unfold turn
  split
  · rename_i enc
    obtain ⟨cipher, mac, ctr, enciphered, after, protects⟩ :=
      protect_enc lawful sound packet enc seq
    let s₁ : Inst := { s with rx := packet.frame ++ (mac ++ tail), inp := { s.inp with ctr } }
    have deciphered : Sound s₁ := { sound with inpCtr := fun _ => after }
    rw [protects s₁.rx] at handled rx
    obtain ⟨s₂, handles, sound₂, reception⟩ :=
      onPayload_eq (s := s₁) lawful deciphered true wellFormed.payload handled
    refine ⟨_, takeEnc_whole lawful enciphered fits.1 (fits.2 enc) wellFormed rx.symm handles, ?_⟩
    refine consume_took s₁ rfl sound₂ rfl reception ?_
    show (packet.frame ++ (mac ++ tail)).drop _ = tail
    rw [← packet.length_frame, ← List.append_assoc, ← enciphered.macLength,
      ← List.length_append, List.drop_left]
  · rename_i enc
    have clear : s.inbound.enc = false := Bool.eq_false_iff.mpr enc
    rw [protect_clear _ _ clear] at handled rx
    obtain ⟨s₂, handles, sound₂, reception⟩ :=
      onPayload_eq (s := s) lawful sound false wellFormed.payload handled
    refine ⟨_, takeClear_whole wellFormed fits.1 rx.symm handles, ?_⟩
    refine consume_took s rfl sound₂ rfl reception ?_
    rw [← rx, ← packet.length_frame, List.drop_left]

theorem turn_part (wellFormed : packet.WellFormed)
    (fits : packet.Fits s.inbound.enc) (seq : s.inp.seq = UInt32.ofNat index)
    (rx : s.rx <+: (protect env.crypto index packet s.inbound).1 ++ tail)
    (short : s.rx.length < (protect env.crypto index packet s.inbound).1.length) :
    turn env s = (s, .more) := by
  unfold turn
  split
  · rename_i enc
    obtain ⟨cipher, mac, ctr, enciphered, after, protects⟩ :=
      protect_enc lawful sound packet enc seq
    rw [protects []] at rx short
    exact takeEnc_part lawful enciphered fits.1 (fits.2 enc) rx short
  · rename_i enc
    have clear : s.inbound.enc = false := Bool.eq_false_iff.mpr enc
    rw [protect_clear _ _ clear] at rx short
    exact takeClear_part wellFormed fits.1 rx short

end Lawful

theorem turn_empty (env : Env) (rx : s.rx = []) : turn env s = (s, .more) := by
  unfold turn takeEnc takeClear
  rw [rx]
  split <;> rfl

/-- What `on_payload` has to be called with. -/
def dispatch (packets : List Packet) : List (UInt32 × Bytes) :=
  packets.mapIdx fun index packet => (UInt32.ofNat index, packet.payload)

def Session.after (session : Session) : (index : Nat) → Inbound → List Packet → Inbound
  | _, t, [] => t
  | index, t, packet :: packets =>
      let shielded := (protect session.env.crypto index packet t).2
      session.after (index + 1) (session.handle index packet.payload shielded).1 packets

variable {session : Session} {head : Bytes} {packets done rest : List Packet}

theorem dispatch_append (done rest : List Packet) :
    dispatch done <+: dispatch (done ++ rest) := by
  rw [dispatch, dispatch, List.mapIdx_append]
  exact List.prefix_append ..

theorem dispatch_concat (done : List Packet) (packet : Packet) :
    dispatch (done ++ [packet]) =
      dispatch done ++ [(UInt32.ofNat done.length, packet.payload)] := by
  simp [dispatch, List.mapIdx_append]

theorem Session.stream_append (session : Session) (index : Nat) (t : Inbound)
    (done rest : List Packet) : session.stream index t (done ++ rest) =
      session.stream index t done ++
        session.stream (index + done.length) (session.after index t done) rest := by
  induction done generalizing index t with
  | nil => rfl
  | cons packet done ih =>
      rw [List.cons_append, Session.stream, Session.stream, Session.after, ih,
        List.length_cons, Nat.add_right_comm, Nat.add_assoc, List.append_assoc]

theorem Session.after_append (session : Session) (index : Nat) (t : Inbound)
    (done rest : List Packet) : session.after index t (done ++ rest) =
      session.after (index + done.length) (session.after index t done) rest := by
  induction done generalizing index t with
  | nil => rfl
  | cons packet done ih =>
      rw [List.cons_append, Session.after, Session.after, ih, List.length_cons,
        Nat.add_right_comm, Nat.add_assoc]

theorem Session.Answered.drop (answered : session.Answered index t (done ++ rest)) :
    session.Answered (index + done.length) (session.after index t done) rest := by
  induction done generalizing index t with
  | nil => exact answered
  | cons packet done ih =>
      have dropped := ih answered.2.2
      rwa [Nat.add_right_comm, Nat.add_assoc] at dropped

structure Aligned (session : Session) (head : Bytes) (s : Inst) (done : List Packet) :
    Prop where
  sound : Sound s
  ident : s.gotIdent = true
  belongs : s.session session.env = session
  calls : s.calls.map Call.seen = dispatch done
  seq : s.inp.seq = UInt32.ofNat done.length
  inbound : s.inbound = session.after 0 .start done
  received : s.received = head ++ session.stream 0 .start done ++ s.rx

theorem Aligned.count (aligned : Aligned session head s done) :
    s.calls.length = done.length := by
  have := congrArg List.length aligned.calls
  simpa [dispatch] using this

theorem Aligned.took (aligned : Aligned session head s done)
    (handled : session.handle done.length packet.payload
      (protect session.env.crypto done.length packet s.inbound).2 = (t, true))
    (rx : (protect session.env.crypto done.length packet s.inbound).1 ++ tail = s.rx)
    (took : Took s packet tail t s') : Aligned session head s' (done ++ [packet]) := by
  obtain ⟨call, seen, reception⟩ := took.reception
  refine
    { sound := took.sound
      ident := (congrArg Reception.gotIdent reception).trans aligned.ident
      belongs := ?_
      calls := ?_
      seq := ?_
      inbound := ?_
      received := ?_ }
  · have same : s'.session session.env = s.session session.env := by
      simpa [Inst.session] using ⟨congrArg Reception.conn reception,
        congrArg Reception.vc reception, congrArg Reception.is reception⟩
    rw [same, aligned.belongs]
  · have calls : s'.calls = s.calls ++ [call] := congrArg Reception.calls reception
    rw [calls, List.map_append, aligned.calls, dispatch_concat, ← aligned.seq, ← seen]
    rfl
  · have seq : s'.inp.seq = s.inp.seq + 1 := congrArg Reception.seq reception
    rw [seq, aligned.seq, List.length_append, UInt32.ofNat_add]
    rfl
  · have inbound : s'.inbound = t := congrArg Reception.inbound reception
    rw [inbound, session.after_append, ← aligned.inbound, Nat.zero_add, Session.after, handled]
    rfl
  · have received : s'.received = s.received := congrArg Reception.received reception
    have rx' : s'.rx = tail := congrArg Reception.rx reception
    rw [received, rx', aligned.received, ← rx, session.stream_append, ← aligned.inbound,
      Nat.zero_add]
    simp [Session.stream]

/-- The packets up to some point are handled, and the next one is not all there. -/
structure Settled (session : Session) (head : Bytes) (s : Inst) (done rest : List Packet) :
    Prop where
  aligned : Aligned session head s done
  short : ∀ packet ∈ rest.head?,
    s.rx.length < (protect session.env.crypto done.length packet s.inbound).1.length

structure Session.Follows (session : Session) (packets : List Packet) : Prop where
  wellFormed : ∀ packet ∈ packets, packet.WellFormed
  answered : session.Answered 0 .start packets

theorem Aligned.begins (aligned : Aligned session head s done)
    (arrived : s.received <+: head ++ session.stream 0 .start (done ++ rest)) :
    s.rx <+: session.stream done.length s.inbound rest := by
  rw [aligned.received, session.stream_append, ← aligned.inbound, Nat.zero_add,
    ← List.append_assoc] at arrived
  exact (List.prefix_append_right_inj _).mp arrived

theorem pumpRx_settled (lawful : session.env.Lawful) {fuel : Nat}
    (enough : s.rx.length < fuel) (follows : session.Follows (done ++ rest))
    (arrived : s.received <+: head ++ session.stream 0 .start (done ++ rest))
    (aligned : Aligned session head s done) :
    ∃ done' rest', done' ++ rest' = done ++ rest ∧
      Settled session head (pumpRx session.env fuel s) done' rest' := by
  induction fuel generalizing s done rest with
  | zero => cases enough
  | succ fuel ih =>
      have begins := aligned.begins arrived
      have answered := follows.answered.drop
      rw [Nat.zero_add, ← aligned.inbound] at answered
      have stops (more : turn session.env s = (s, .more)) :
          pumpRx session.env (fuel + 1) s = s := by
        unfold turn at more
        rw [pumpRx, more]
      cases rest with
      | nil =>
          rw [stops (turn_empty _ (List.prefix_nil.mp begins))]
          exact ⟨done, [], rfl, aligned, nofun⟩
      | cons packet rest =>
          have wellFormed := follows.wellFormed packet (by simp)
          obtain ⟨fits, handled, _⟩ := answered
          by_cases short : s.rx.length <
              (protect session.env.crypto done.length packet s.inbound).1.length
          · rw [stops (turn_part lawful aligned.sound wellFormed fits aligned.seq begins short)]
            exact ⟨done, packet :: rest, rfl, aligned, by simpa using short⟩
          · obtain ⟨tail, rx⟩ :
                (protect session.env.crypto done.length packet s.inbound).1 <+: s.rx :=
              List.prefix_of_prefix_length_le (List.prefix_append _ _) begins
                (Nat.le_of_not_lt short)
            obtain ⟨t, handled⟩ : ∃ t, session.handle done.length packet.payload
                (protect session.env.crypto done.length packet s.inbound).2 = (t, true) :=
              ⟨_, Prod.ext rfl handled⟩
            obtain ⟨s', turned, took⟩ := turn_whole lawful aligned.sound wellFormed fits
              aligned.count aligned.seq (aligned.belongs ▸ handled) rx
            obtain ⟨_, _, reception⟩ := took.reception
            have received : s'.received = s.received := congrArg Reception.received reception
            have fewer : s'.rx.length < fuel := by
              have nonempty := protect_pos lawful aligned.sound packet aligned.seq
              have rx' : s'.rx = tail := congrArg Reception.rx reception
              rw [← rx, List.length_append] at enough
              rw [rx']
              omega
            unfold turn at turned
            rw [pumpRx, turned, ← List.singleton_append, ← List.append_assoc]
            rw [← List.singleton_append, ← List.append_assoc] at follows arrived
            exact ih fewer follows (received ▸ arrived) (aligned.took handled rx took)

/-! ### What handling packets leaves alone -/

def Inst.still (s : Inst) : Int × Nat × Bytes × Bool × Bytes :=
  (s.ls, s.conn, s.is, s.gotIdent, s.received)

theorem sinkLoop_still (c : Crypto) (takes : Nat → Bool) (fuel k : Nat) (text : Bytes)
    (s : Inst) : (sinkLoop c takes fuel k text s).still = s.still := by
  induction fuel generalizing s k text with
  | zero => rfl
  | succ fuel ih =>
      rw [sinkLoop]
      dsimp only
      split
      · rfl
      · split
        · exact ih _ _ _
        · rfl

theorem sshSink_still (c : Crypto) (text : Bytes) (takes : Nat → Bool) (s : Inst) :
    (sshSink c text takes s).still = s.still := by
  unfold sshSink
  split
  · rfl
  · exact sinkLoop_still ..

theorem consoleWrite_still (c : Crypto) (echo : List (Bytes × (Nat → Bool))) (s : Inst) :
    (consoleWrite c echo s).still = s.still := by
  have noted : (s.note true).still = s.still := rfl
  exact foldl_invariant (fun s' print (same : Inst.still s' = s.still) =>
    (sshSink_still c print.1 print.2 s').trans same) noted echo

theorem onSession_still (c : Crypto) (a : Answers) (p : Bytes) (s : Inst) :
    (onSession c a p s).1.still = s.still := by
  unfold onSession
  dsimp only
  repeat' split
  all_goals first
    | rfl
    | exact consoleWrite_still ..

theorem deriveKeys_still (c : Crypto) (s : Inst) : (deriveKeys c s).1.still = s.still := by
  unfold deriveKeys
  dsimp only
  repeat' split
  all_goals rfl

theorem ecdhReply_still (env : Env) (a : Answers) (qs sig : Bytes) (s : Inst) :
    (ecdhReply env a qs sig s).1.still = s.still := by
  unfold ecdhReply
  dsimp only
  repeat' split
  all_goals rfl

theorem doEcdh_still (env : Env) (a : Answers) (qc : Bytes) (s : Inst) :
    (doEcdh env a qc s).1.still = s.still := by
  unfold doEcdh
  dsimp only
  repeat' split
  all_goals first
    | rfl
    | exact deriveKeys_still ..
    | exact (ecdhReply_still ..).trans (deriveKeys_still ..)

theorem onPayload_still (env : Env) (verified : Bool) (p : Bytes) (s : Inst) :
    (onPayload env verified p s).1.still = s.still := by
  unfold onPayload
  dsimp only
  repeat' split
  all_goals first
    | rfl
    | exact doEcdh_still ..
    | exact onSession_still ..

theorem turn_still (env : Env) (s : Inst) : (turn env s).1.still = s.still := by
  unfold turn takeEnc takeClear
  dsimp only
  repeat' split
  all_goals first
    | rfl
    | exact onPayload_still ..

theorem pumpRx_still (env : Env) (fuel : Nat) (s : Inst) :
    (pumpRx env fuel s).still = s.still := by
  induction fuel generalizing s with
  | zero => rfl
  | succ fuel ih =>
      have turned := turn_still env s
      unfold turn at turned
      rw [pumpRx]
      split
      · rename_i taken
        rw [taken] at turned
        exact (ih _).trans turned
      · rename_i stopped
        rw [stopped] at turned
        exact turned

/-- The line with which a peer begins ends at its first CR LF, and fits the buffer. -/
structure Identifies (line : Bytes) : Prop where
  ends : crlf (line ++ [13, 10]) = some line.length
  fits : line.length + 2 ≤ rxMax

variable {i : Nat}

theorem crlf_append {head : Bytes} (found : crlf head = some i) (rest : Bytes) :
    crlf (head ++ rest) = some i := by
  induction head using crlf.induct generalizing i with
  | case1 tail => exact found
  | case2 byte tail other ih =>
      rw [crlf] at found
      · obtain ⟨j, inner, rfl⟩ := Option.map_eq_some_iff.mp found
        cases tail with
        | nil => cases found
        | cons next tail =>
            rw [List.cons_append, crlf, ih inner]
            · rfl
            · intro tail' first same
              obtain ⟨rfl, _⟩ := List.cons.inj same
              exact other tail first rfl
      · exact other
  | case3 => cases found

theorem crlf_length {line : Bytes} (found : crlf line = some i) : i + 2 ≤ line.length := by
  induction line using crlf.induct generalizing i with
  | case1 tail =>
      cases found
      simp
  | case2 byte tail other ih =>
      rw [crlf] at found
      · obtain ⟨j, inner, rfl⟩ := Option.map_eq_some_iff.mp found
        have := ih inner
        simp only [List.length_cons]
        omega
      · exact other
  | case3 => cases found

def Inst.connection (env : Env) (line : Bytes) (s : Inst) : Session :=
  ⟨env, s.conn, line.take 63, s.is⟩

structure Waiting (s : Inst) : Prop where
  sound : Sound s
  calls : s.calls = []
  seq : s.inp.seq = 0
  inbound : s.inbound = .start
  received : s.received = s.rx
  line : crlf s.rx = none

structure Arrived (session : Session) (line : Bytes) (packets : List Packet) (s : Inst) :
    Prop where
  identifies : Identifies line
  follows : session.Follows packets
  received : s.received <+: line ++ [13, 10] ++ session.stream 0 .start packets

def Ready (env : Env) (s : Inst) : Prop :=
  ∀ line packets, Arrived (s.connection env line) line packets s →
    ∃ done rest, done ++ rest = packets ∧
      Aligned (s.connection env line) (line ++ [13, 10]) s done

structure Kept (env : Env) (s : Inst) : Prop where
  idle : s.ls < 0 → s.gotIdent = false
  waiting : s.gotIdent = false → Waiting s
  settled : s.gotIdent = true → ∀ line packets,
    Arrived (s.connection env line) line packets s →
      ∃ done rest, done ++ rest = packets ∧
        Settled (s.connection env line) (line ++ [13, 10]) s done rest

theorem Waiting.quiet (waiting : Waiting s) (quiet : Quiet s s') : Waiting s' where
  sound := quiet.sound waiting.sound
  calls := (congrArg Reception.calls quiet.reception).trans waiting.calls
  seq := (congrArg Reception.seq quiet.reception).trans waiting.seq
  inbound := (congrArg Reception.inbound quiet.reception).trans waiting.inbound
  received := by
    have received : s'.received = s.received := congrArg Reception.received quiet.reception
    have rx : s'.rx = s.rx := congrArg Reception.rx quiet.reception
    rw [received, rx, waiting.received]
  line := by
    have rx : s'.rx = s.rx := congrArg Reception.rx quiet.reception
    rw [rx, waiting.line]

theorem Aligned.quiet (aligned : Aligned session head s done) (quiet : Quiet s s') :
    Aligned session head s' done where
  sound := quiet.sound aligned.sound
  ident := (congrArg Reception.gotIdent quiet.reception).trans aligned.ident
  belongs := by
    have same : s'.session session.env = s.session session.env := by
      simpa [Inst.session] using ⟨congrArg Reception.conn quiet.reception,
        congrArg Reception.vc quiet.reception, congrArg Reception.is quiet.reception⟩
    rw [same, aligned.belongs]
  calls := (congrArg (List.map Call.seen ∘ Reception.calls) quiet.reception).trans aligned.calls
  seq := (congrArg Reception.seq quiet.reception).trans aligned.seq
  inbound := (congrArg Reception.inbound quiet.reception).trans aligned.inbound
  received := by
    have received : s'.received = s.received := congrArg Reception.received quiet.reception
    have rx : s'.rx = s.rx := congrArg Reception.rx quiet.reception
    rw [received, rx, aligned.received]

theorem Settled.quiet (settled : Settled session head s done rest) (quiet : Quiet s s') :
    Settled session head s' done rest := by
  have rx : s'.rx = s.rx := congrArg Reception.rx quiet.reception
  have inbound : s'.inbound = s.inbound := congrArg Reception.inbound quiet.reception
  refine ⟨settled.aligned.quiet quiet, fun packet next => ?_⟩
  rw [rx, inbound]
  exact settled.short packet next

theorem Kept.quiet (kept : Kept env s) (quiet : Quiet s s') : Kept env s' := by
  have ident : s'.gotIdent = s.gotIdent := congrArg Reception.gotIdent quiet.reception
  have ls : s'.ls = s.ls := congrArg Reception.ls quiet.reception
  have received : s'.received = s.received := congrArg Reception.received quiet.reception
  have connection (line : Bytes) : s'.connection env line = s.connection env line := by
    simpa [Inst.connection] using ⟨congrArg Reception.conn quiet.reception,
      congrArg Reception.is quiet.reception⟩
  refine ⟨fun off => ident.trans (kept.idle (ls ▸ off)),
    fun early => (kept.waiting (ident ▸ early)).quiet quiet, fun late line packets arrived => ?_⟩
  rw [connection] at arrived ⊢
  obtain ⟨done, rest, split, settled⟩ := kept.settled (ident ▸ late) line packets
    ⟨arrived.identifies, arrived.follows, received ▸ arrived.received⟩
  exact ⟨done, rest, split, settled.quiet quiet⟩

theorem Ready.pumped (ready : Ready env s) (lawful : env.Lawful) (ls : 0 ≤ s.ls)
    (ident : s.gotIdent = true) : Kept env (pumpRx env (s.rx.length + 1) s) := by
  have still := pumpRx_still env (s.rx.length + 1) s
  simp only [Inst.still, Prod.mk.injEq] at still
  obtain ⟨sameLs, conn, is, sameIdent, received⟩ := still
  have connection (line : Bytes) :
      (pumpRx env (s.rx.length + 1) s).connection env line = s.connection env line := by
    rw [Inst.connection, conn, is, Inst.connection]
  refine ⟨fun off => ?_, fun early => ?_, fun _ line packets arrived => ?_⟩
  · omega
  · rw [sameIdent, ident] at early
    cases early
  · rw [connection] at arrived ⊢
    have arrived : Arrived (s.connection env line) line packets s :=
      ⟨arrived.identifies, arrived.follows, received ▸ arrived.received⟩
    obtain ⟨done, rest, rfl, aligned⟩ := ready line packets arrived
    have lawful : (s.connection env line).env.Lawful := lawful
    exact pumpRx_settled lawful (Nat.lt_succ_self _) arrived.follows arrived.received aligned

theorem receive_eq (input : Input) (s : Inst) : ∃ bytes, receive input s =
    { s with rx := s.rx ++ bytes, received := s.received ++ bytes } := by
  have same : s = { s with rx := s.rx ++ [], received := s.received ++ [] } := by simp
  unfold receive
  split
  · split
    · exact ⟨[], same⟩
    · exact ⟨_, rfl⟩
  · exact ⟨[], same⟩

theorem Settled.receives (settled : Settled session head s done rest) (bytes : Bytes) :
    Aligned session head
      { s with rx := s.rx ++ bytes, received := s.received ++ bytes } done :=
  { settled.aligned with
    sound := { settled.aligned.sound with }
    received := by
      rw [settled.aligned.received]
      exact List.append_assoc .. }

theorem Kept.receives (kept : Kept env s) (ident : s.gotIdent = true) (bytes : Bytes) :
    Ready env { s with rx := s.rx ++ bytes, received := s.received ++ bytes } := by
  intro line packets arrived
  obtain ⟨done, rest, split, settled⟩ := kept.settled ident line packets
    ⟨arrived.identifies, arrived.follows, (List.prefix_append _ _).trans arrived.received⟩
  exact ⟨done, rest, split, settled.receives bytes⟩

theorem sendKexinit_eq (lawful : env.Lawful) (s : Inst) :
    ∃ is, (sendKexinit env s).1.reception = { s.reception with is } ∧
      (Sound s → Sound (sendKexinit env s).1) := by
  unfold sendKexinit
  split
  · exact ⟨s.is, rfl, id⟩
  · rename_i cookie _
    dsimp only
    split
    · exact ⟨s.is, rfl, id⟩
    · rename_i short
      have quiet := send_quiet lawful { s with is := kexinitPayload env.haveKey cookie }
        (Nat.le_trans (Nat.le_of_not_lt short) (by decide)) (env.kexTaken s.conn)
      split
      · exact ⟨_, rfl, fun sound => { quiet.sound { sound with } with }⟩
      · exact ⟨_, rfl, fun sound => quiet.sound { sound with }⟩

theorem Arrived.line {line : Bytes} (arrived : Arrived session line packets s)
    (found : crlf s.received = some i) :
    i = line.length ∧ s.received = line ++ [13, 10] ++ s.received.drop (i + 2) := by
  obtain ⟨missing, whole⟩ := arrived.received
  have first := crlf_append found missing
  rw [whole, crlf_append arrived.identifies.ends] at first
  obtain rfl := Option.some.inj first
  refine ⟨rfl, ?_⟩
  have taken : s.received.take (line.length + 2) = line ++ [13, 10] := by
    have := congrArg (List.take (line.length + 2)) whole
    rw [List.take_append_of_le_length (crlf_length found),
      List.take_append_of_le_length (by simp),
      List.take_of_length_le (l := line ++ [13, 10]) (by simp)] at this
    exact this
  rw [← taken, List.take_append_drop]

structure Greeted (i : Nat) (s : Inst) : Prop where
  sound : Sound s
  ls : 0 ≤ s.ls
  ident : s.gotIdent = true
  vc : s.vc = s.received.take (min i 63)
  rx : s.rx = s.received.drop (i + 2)
  calls : s.calls = []
  seq : s.inp.seq = 0
  inbound : s.inbound = .start
  found : crlf s.received = some i

theorem Greeted.ready (greeted : Greeted i s) : Ready env s := by
  intro line packets arrived
  obtain ⟨rfl, received⟩ := arrived.line greeted.found
  refine ⟨[], packets, rfl, ?_⟩
  refine
    { sound := greeted.sound
      ident := greeted.ident
      belongs := ?_
      calls := by rw [greeted.calls]; rfl
      seq := greeted.seq
      inbound := greeted.inbound
      received := ?_ }
  · have vc : s.vc = line.take 63 := by
      rw [greeted.vc, received, List.append_assoc, List.take_append_of_le_length
        (Nat.min_le_left _ _), Nat.min_comm, ← List.take_take, List.take_length]
    rw [Inst.session, vc]
    rfl
  · rw [greeted.rx, Session.stream, List.append_nil]
    exact received

theorem Waiting.eatIdent (waiting : Waiting s) (ls : 0 ≤ s.ls)
    (ident : s.gotIdent = false) (bytes : Bytes) :
    let s' := Ssh.eatIdent { s with rx := s.rx ++ bytes, received := s.received ++ bytes }
    Waiting s' ∧ s'.gotIdent = false ∨ ∃ i, Greeted i s' := by
  unfold Ssh.eatIdent
  dsimp only
  split
  · rename_i line
    refine .inl ⟨⟨{ waiting.sound with }, waiting.calls, waiting.seq, waiting.inbound, ?_,
      line⟩, ident⟩
    rw [waiting.received]
  · rename_i i found
    refine .inr ⟨i, { waiting.sound with }, ls, rfl, ?_, ?_, waiting.calls, waiting.seq,
      waiting.inbound, ?_⟩
    all_goals rw [waiting.received]
    exact found

theorem Greeted.kexinit (greeted : Greeted i s) (lawful : env.Lawful) :
    Greeted i (sendKexinit env s).1 := by
  obtain ⟨is, reception, sound⟩ := sendKexinit_eq lawful s
  have received := congrArg Reception.received reception
  have rx := congrArg Reception.rx reception
  have vc := congrArg Reception.vc reception
  have ls := congrArg Reception.ls reception
  simp only [Inst.reception] at received rx vc ls
  refine
    { sound := sound greeted.sound
      ls := by rw [ls]; exact greeted.ls
      ident := (congrArg Reception.gotIdent reception).trans greeted.ident
      vc := by rw [vc, received, greeted.vc]
      rx := by rw [rx, received, greeted.rx]
      calls := (congrArg Reception.calls reception).trans greeted.calls
      seq := (congrArg Reception.seq reception).trans greeted.seq
      inbound := (congrArg Reception.inbound reception).trans greeted.inbound
      found := by rw [received, greeted.found] }

theorem kept_reset (env : Env) (s : Inst) (peer : Int) (conn : Nat) :
    Kept env (resetPeer conn { s with peer }) where
  idle _ := rfl
  waiting _ := ⟨⟨nofun, nofun, rfl, nofun, nofun⟩, rfl, rfl, rfl, rfl, rfl⟩
  settled := nofun

theorem Kept.accepts (kept : Kept env s) (input : Input) (conn : Nat) :
    Kept env (acceptPeer input conn s) := by
  unfold acceptPeer
  split
  · exact kept_reset ..
  · exact kept

theorem acceptPeer_ls (input : Input) (conn : Nat) (s : Inst) :
    (acceptPeer input conn s).ls = s.ls := by
  unfold acceptPeer
  split <;> rfl

theorem Kept.drains (kept : Kept env s) (lawful : env.Lawful) (ls : 0 ≤ s.ls)
    (input : Input) :
    let s' := ident env (receive input s)
    Kept env (if s'.gotIdent then pumpRx env (s'.rx.length + 1) s' else s') := by
  obtain ⟨bytes, received⟩ := receive_eq input s
  rw [received]
  unfold ident
  dsimp only
  by_cases early : s.gotIdent = true
  · rw [if_pos early, if_pos early]
    exact (kept.receives early bytes).pumped lawful ls early
  · rw [if_neg early]
    have early : s.gotIdent = false := Bool.eq_false_iff.mpr early
    have ate := (kept.waiting early).eatIdent ls early bytes
    generalize eatIdent _ = s₁ at ate ⊢
    rcases ate with ⟨waiting, unfinished⟩ | ⟨i, greeted⟩
    · have stays : ¬(s₁.gotIdent = true ∧ (!s₁.sentKex) = true) := by simp [unfinished]
      rw [if_neg stays, if_neg (by simp [unfinished])]
      exact ⟨fun _ => unfinished, fun _ => waiting, fun late => by simp [unfinished] at late⟩
    · have greeted : Greeted i
          (if s₁.gotIdent ∧ !s₁.sentKex then (sendKexinit env s₁).1 else s₁) := by
        split
        · exact greeted.kexinit lawful
        · exact greeted
      rw [if_pos greeted.ident]
      exact greeted.ready.pumped lawful greeted.ls greeted.ident

theorem Kept.pollInst (kept : Kept env s) (lawful : env.Lawful) (input : Input)
    (conn : Nat) : Kept env (pollInst env input conn s) := by
  unfold Ssh.pollInst
  dsimp only
  split
  · exact kept
  · rename_i ls
    split
    · exact kept.accepts input conn
    · exact (kept.accepts input conn).drains lawful
        (by rw [acceptPeer_ls]; omega) input

end Loop

theorem kept_closed {env : Env} (lawful : env.Lawful) : Closed env (Kept env) where
  boot := kept_reset env Inst.boot (-1) 0
  listen s _ _ _ off kept := by
    have ident := kept.idle off
    have waiting := kept.waiting ident
    refine ⟨fun _ => ident, fun _ => { waiting with sound := { waiting.sound with } }, ?_⟩
    intro late
    cases ident.symm.trans late
  poll _ input conn kept := kept.pollInst lawful input conn
  attach _ _ kept := kept.quiet ⟨rfl, fun sound => { sound with }⟩
  sink _ text takes kept := kept.quiet (sshSink_quiet lawful text takes _)

def Reached (env : Env) (s : Inst) : Prop :=
  ∃ (ops : List Op) (i : Fin 4), (ops.foldl (step env) State.boot).insts i = s

/-- What an instance received is of a peer that sends well-formed packets, cut
anywhere. -/
structure Sent (session : Session) (line : Bytes) (packets : List Packet) (s : Inst) :
    Prop where
  identifies : Identifies line
  wellFormed : ∀ packet ∈ packets, packet.WellFormed
  received : s.received <+: line ++ [13, 10] ++ session.stream 0 .start packets

/-- The payloads that an instance handled on its connection are those of the packets
that arrived whole, in their order, under their numbers; and there is room for more. -/
structure Dispatched (session : Session) (line : Bytes) (packets : List Packet) (s : Inst) :
    Prop where
  order : s.calls.map Call.seen <+: dispatch packets
  prompt : ∀ done, done <+: packets →
    line ++ [13, 10] ++ session.stream 0 .start done <+: s.received →
      dispatch done <+: s.calls.map Call.seen
  room : s.rx.length < rxMax

section Runs

variable {env : Env} {s : Inst} {session : Session} {line : Bytes} {packets : List Packet}

theorem Waiting.dispatched (waiting : Waiting s) (sent : Sent session line packets s) :
    Dispatched session line packets s := by
  have received : crlf s.received = none := waiting.received ▸ waiting.line
  have early : ¬line ++ [13, 10] <+: s.received := by
    rintro ⟨more, whole⟩
    rw [← whole, crlf_append sent.identifies.ends] at received
    cases received
  refine ⟨?_, fun done _ whole => ?_, ?_⟩
  · rw [waiting.calls]
    exact List.nil_prefix
  · exact absurd ((List.prefix_append _ _).trans whole) early
  · rw [← waiting.received]
    have fits := sent.identifies.fits
    have short : s.received.length < (line ++ [13, 10]).length := by
      by_contra long
      exact early (List.prefix_of_prefix_length_le (List.prefix_append _ _) sent.received
        (Nat.le_of_not_lt long))
    simp only [List.length_append, List.length_cons, List.length_nil] at short
    omega

theorem protect_length_le (lawful : env.Lawful) (sound : Sound s) (packet : Packet)
    {index : Nat} (seq : s.inp.seq = UInt32.ofNat index) :
    (protect env.crypto index packet s.inbound).1.length ≤ 4 + packet.length + sshMac := by
  cases enc : s.inp.enc with
  | false =>
      rw [protect_clear env.crypto index enc, packet.length_frame]
      exact Nat.le_add_right ..
  | true =>
      obtain ⟨cipher, mac, ctr, enciphered, _, protects⟩ :=
        protect_enc lawful sound packet enc seq
      rw [protects [], List.length_append, enciphered.cipherLength, enciphered.macLength]

theorem Settled.room {done rest : List Packet}
    (settled : Settled session (line ++ [13, 10]) s done rest) (lawful : session.env.Lawful)
    (arrived : Arrived session line (done ++ rest) s) : s.rx.length < rxMax := by
  have aligned := settled.aligned
  cases rest with
  | nil =>
      rw [List.prefix_nil.mp (aligned.begins arrived.received)]
      decide
  | cons packet rest =>
      have short := settled.short packet rfl
      have wire := protect_length_le lawful aligned.sound packet aligned.seq
      obtain ⟨fits, _⟩ := arrived.follows.answered.drop
      have size : packet.length ≤ 1024 := fits.1
      have room : 4 + 1024 + sshMac < rxMax := by decide
      omega

theorem Settled.dispatched {done rest : List Packet}
    (settled : Settled session (line ++ [13, 10]) s done rest) (lawful : session.env.Lawful)
    (arrived : Arrived session line (done ++ rest) s) :
    Dispatched session line (done ++ rest) s := by
  have aligned := settled.aligned
  refine ⟨?_, fun whole among came => ?_, settled.room lawful arrived⟩
  · rw [aligned.calls]
    exact dispatch_append ..
  · rw [aligned.calls]
    rcases List.prefix_or_prefix_of_prefix among (List.prefix_append done rest) with
      earlier | later
    · obtain ⟨_, rfl⟩ := earlier
      exact dispatch_append ..
    · obtain ⟨more, rfl⟩ := later
      cases more with
      | nil => simp
      | cons packet more =>
          -- the next packet is not all there
          exfalso
          obtain ⟨others, same⟩ := (List.prefix_append_right_inj _).mp among
          have short := settled.short packet (by rw [← same]; rfl)
          have length := came.length_le
          rw [aligned.received, session.stream_append, ← aligned.inbound, Nat.zero_add,
            Session.stream] at length
          simp only [List.length_append] at length
          omega

/-- However the stream of a peer is cut, its payloads are handled in order and once,
as long as its packets fit and every one of them is answered. -/
theorem dispatched_of_answered (lawful : env.Lawful) (reached : Reached env s)
    (sent : Sent (s.connection env line) line packets s)
    (answered : (s.connection env line).Answered 0 .start packets) :
    Dispatched (s.connection env line) line packets s := by
  obtain ⟨ops, i, rfl⟩ := reached
  have kept := (kept_closed lawful).run ops i
  generalize (ops.foldl (step env) State.boot).insts i = s at *
  by_cases ident : s.gotIdent = true
  · have arrived : Arrived (s.connection env line) line packets s :=
      ⟨sent.identifies, ⟨sent.wellFormed, answered⟩, sent.received⟩
    obtain ⟨done, rest, rfl, settled⟩ := kept.settled ident line packets arrived
    exact settled.dispatched lawful arrived
  · exact (kept.waiting (Bool.eq_false_iff.mpr ident)).dispatched sent

end Runs

theorem plainEnv_lawful : plainEnv.Lawful where
  ks := by decide
  base _ := rfl
  hmac _ _ := ⟨_, rfl, rfl⟩
  ctr _ state _ within := ⟨_, state, rfl, List.length_map .., within⟩
  inverse _ _ _ _ _ same := by
    cases same
    have back (b : UInt8) : b ^^^ 165 ^^^ 165 = b := by
      rw [UInt8.xor_assoc, UInt8.xor_self, UInt8.xor_zero]
    have whole (bytes : Bytes) : (bytes.map (· ^^^ 165)).map (· ^^^ 165) = bytes := by
      rw [List.map_map]
      exact (List.map_congr_left fun b _ => back b).trans (List.map_id bytes)
    exact congrArg (fun bytes => some (bytes, _)) (whole _)
  part _ state _ _ _ _ same := by
    cases same
    exact ⟨state, by simp [plainEnv, List.map_take]⟩

theorem plainPacket_wellFormed (payloads : List Bytes) (nonempty : [] ∉ payloads) :
    ∀ packet ∈ payloads.map plainPacket, packet.WellFormed := by
  intro packet member
  obtain ⟨payload, among, rfl⟩ := List.mem_map.mp member
  refine ⟨fun none => nonempty (none ▸ among), ?_, ?_⟩ <;>
    simp only [plainPacket, List.length_replicate] <;> omega

/-- The first poll ends within the packet that has the password. -/
theorem dispatched_of_answered_visit :
    let s := ((visits 150).foldl (step plainEnv) State.boot).insts 0
    s.calls.length = 6 ∧
      Dispatched (s.connection plainEnv visitor.vc) visitor.vc (visit.map plainPacket) s :=
  ⟨by decide +kernel, dispatched_of_answered plainEnv_lawful ⟨_, 0, rfl⟩
    ⟨⟨by decide, by decide⟩, plainPacket_wellFormed visit (by decide), by decide +kernel⟩
    (by decide +kernel)⟩

/-- The sends of this environment are refused while a payload is handled. -/
def refusing : Env :=
  { plainEnv with answers := fun conn index =>
      { plainEnv.answers conn index with takes := fun _ => false } }

theorem refusing_lawful : refusing.Lawful := { plainEnv_lawful with }

/-- A payload whose reply was not sent is handled again by the next poll. -/
theorem dispatched_fails :
    ¬∀ (env : Env), env.Lawful → ∀ (s : Inst), Reached env s →
      ∀ (line : Bytes) (packets : List Packet),
        Sent (s.connection env line) line packets s →
          Dispatched (s.connection env line) line packets s := by
  intro claim
  let ops := clientSends keyExchange ++ [Op.poll fun _ => ⟨-1, none⟩]
  have sent : Sent
      (((ops.foldl (step refusing) State.boot).insts 0).connection refusing (ascii "SSH-2.0-x"))
      (ascii "SSH-2.0-x") (keyExchange.map plainPacket)
      ((ops.foldl (step refusing) State.boot).insts 0) :=
    ⟨⟨by decide, by decide⟩, plainPacket_wellFormed keyExchange (by decide), by decide +kernel⟩
  have order := (claim refusing refusing_lawful _ ⟨ops, 0, rfl⟩ _ _ sent).order
  have twice : ((ops.foldl (step refusing) State.boot).insts 0).calls.length = 3 := by
    decide +kernel
  have := order.length_le
  rw [List.length_map, twice] at this
  exact absurd this (by decide)

end Metal.Net.Ssh
