import Metal.Net.SshPeer

namespace Metal.Net.Ssh

open Metal.Lib

/-! Which gates a connection has passed when console traffic goes through it. -/

def Call.grants (call : Call) : Prop :=
  call.kexOk = true ∧ call.payload.headD 0 = sshUserauthRequest ∧
    userauthOk call.payload = true

/-- Console traffic of a connection that has exchanged keys, received NEWKEYS, and
given the right user and password; input comes from a verified packet. -/
structure Gated (o : Output) : Prop where
  enc : o.enc = true
  kexOk : o.kexOk = true
  authOk : o.authOk = true
  newkeys : ∃ call ∈ o.calls, call.kexOk = true ∧ call.payload.headD 0 = sshNewkeys
  granted : ∃ call ∈ o.calls, call.grants
  arrived : o.write = true → ∃ call ∈ o.calls.getLast?,
    call.verified = true ∧ call.payload.headD 0 = sshChannelData

def Call.enters (call : Call) : Bool :=
  call.kexOk &&
    (call.payload.headD 0 = sshChannelOpen && (openField call.payload).isSome ||
      call.payload.headD 0 = sshChannelData && (dataField call.payload).isSome &&
        call.attached)

/-- The peer enters only through a verified packet, after it was let in. -/
def Call.WellTimed (call : Call) : Prop :=
  call.enters = true → call.verified = true ∧ call.authOk = true

instance (call : Call) : Decidable call.WellTimed :=
  inferInstanceAs (Decidable (_ → _))

def Inst.log (s : Inst) : List Call := s.past ++ s.calls

structure Gate (s : Inst) : Prop where
  newkeys : s.inp.enc = true →
    s.kexOk = true ∧ ∃ call ∈ s.calls, call.kexOk = true ∧ call.payload.headD 0 = sshNewkeys
  granted : s.authOk = true → ∃ call ∈ s.calls, call.grants
  chanOk : s.chanOk = true → s.inp.enc = true ∧ s.authOk = true
  outputs : ∀ o ∈ s.outputs, Gated o

structure Same (s s' : Inst) : Prop where
  past : s'.past = s.past
  calls : s'.calls = s.calls
  enc : s'.inp.enc = s.inp.enc
  kexOk : s.kexOk = true → s'.kexOk = true
  authOk : s'.authOk = s.authOk
  chanOk : s'.chanOk = s.chanOk
  outputs : s'.outputs = s.outputs

section Gates

variable {s s' s'' : Inst}

theorem Same.refl (s : Inst) : Same s s := ⟨rfl, rfl, rfl, id, rfl, rfl, rfl⟩

theorem Same.trans (first : Same s s') (second : Same s' s'') : Same s s'' where
  past := second.past.trans first.past
  calls := second.calls.trans first.calls
  enc := second.enc.trans first.enc
  kexOk := second.kexOk ∘ first.kexOk
  authOk := second.authOk.trans first.authOk
  chanOk := second.chanOk.trans first.chanOk
  outputs := second.outputs.trans first.outputs

theorem Same.log (same : Same s s') : s'.log = s.log := by
  rw [Inst.log, same.past, same.calls, Inst.log]

theorem Gate.same (gate : Gate s) (same : Same s s') : Gate s' where
  newkeys enc := by
    obtain ⟨kexOk, received⟩ := gate.newkeys (same.enc ▸ enc)
    exact ⟨same.kexOk kexOk, same.calls ▸ received⟩
  granted authOk := same.calls ▸ gate.granted (same.authOk ▸ authOk)
  chanOk chanOk := by
    rw [same.enc, same.authOk]
    exact gate.chanOk (same.chanOk ▸ chanOk)
  outputs := same.outputs ▸ gate.outputs

theorem send_same (c : Crypto) (payload : Bytes) (taken : Bool) (s : Inst) :
    Same s (s.send c payload taken).1 := ⟨rfl, rfl, rfl, id, rfl, rfl, rfl⟩

theorem sendKexinit_same (env : Env) (s : Inst) : Same s (sendKexinit env s).1 := by
  unfold sendKexinit
  split
  · exact .refl s
  · dsimp only
    split
    · exact .refl s
    · split <;> exact ⟨rfl, rfl, rfl, id, rfl, rfl, rfl⟩

theorem deriveKeys_same (c : Crypto) (s : Inst) : Same s (deriveKeys c s).1 := by
  unfold deriveKeys
  dsimp only
  split
  · split
    · exact .refl s
    · split
      · exact ⟨rfl, rfl, rfl, id, rfl, rfl, rfl⟩
      · split
        · exact ⟨rfl, rfl, rfl, id, rfl, rfl, rfl⟩
        · split <;> exact ⟨rfl, rfl, rfl, id, rfl, rfl, rfl⟩
  · exact .refl s

theorem ecdhReply_same (env : Env) (a : Answers) (qs sig : Bytes) (s : Inst) :
    Same s (ecdhReply env a qs sig s).1 := by
  unfold ecdhReply
  dsimp only
  split
  · exact send_same ..
  · split
    · exact (send_same ..).trans (send_same ..)
    · exact ⟨rfl, rfl, rfl, fun _ => rfl, rfl, rfl, rfl⟩

theorem doEcdh_same (env : Env) (a : Answers) (qc : Bytes) (s : Inst) :
    Same s (doEcdh env a qc s).1 := by
  have set (kMp sid : Bytes) : Same s { s with kMp, sid } := ⟨rfl, rfl, rfl, id, rfl, rfl, rfl⟩
  unfold doEcdh
  split
  · exact .refl s
  · split
    · exact .refl s
    · dsimp only
      split
      · exact .refl s
      · split
        · exact set _ _
        · split
          · exact set _ _
          · split
            · exact (set _ _).trans (deriveKeys_same ..)
            · exact ((set _ _).trans (deriveKeys_same ..)).trans (ecdhReply_same ..)

theorem Gate.note (gate : Gate s) (write : Bool) (enc : s.inp.enc = true)
    (authOk : s.authOk = true)
    (arrived : write = true → ∃ call ∈ s.calls.getLast?,
      call.verified = true ∧ call.payload.headD 0 = sshChannelData) :
    Gate (s.note write) where
  newkeys := gate.newkeys
  granted := gate.granted
  chanOk := gate.chanOk
  outputs o member := by
    rcases List.mem_append.mp member with old | new
    · exact gate.outputs o old
    · obtain rfl := List.mem_singleton.mp new
      obtain ⟨kexOk, newkeys⟩ := gate.newkeys enc
      exact ⟨enc, kexOk, authOk, newkeys, gate.granted authOk, arrived⟩

structure Keeps (s s' : Inst) : Prop where
  log : s'.log = s.log
  gate : Gate s → Gate s'

theorem Same.keeps (same : Same s s') : Keeps s s' := ⟨same.log, fun gate => gate.same same⟩

theorem Keeps.trans (first : Keeps s s') (second : Keeps s' s'') : Keeps s s'' :=
  ⟨second.log.trans first.log, second.gate ∘ first.gate⟩

theorem sinkLoop_keeps (chanOk : s.chanOk = true) (c : Crypto) (takes : Nat → Bool)
    (fuel k : Nat) (text : Bytes) : Keeps s (sinkLoop c takes fuel k text s) := by
  induction fuel generalizing s k text with
  | zero => exact (Same.refl s).keeps
  | succ fuel ih =>
      have noted : Keeps s (s.note false) := ⟨rfl, fun gate =>
        gate.note false (gate.chanOk chanOk).1 (gate.chanOk chanOk).2 nofun⟩
      have sent (payload : Bytes) (taken : Bool) :
          Keeps s ((s.note false).send c payload taken).1 :=
        noted.trans (send_same ..).keeps
      rw [sinkLoop]
      split
      · exact (Same.refl s).keeps
      · dsimp only
        split
        · refine .trans (sent _ _) (ih ?_ _ _)
          exact chanOk
        · exact sent _ _

theorem sshSink_keeps (c : Crypto) (text : Bytes) (takes : Nat → Bool) (s : Inst) :
    Keeps s (sshSink c text takes s) := by
  unfold sshSink
  split
  · exact (Same.refl s).keeps
  · rename_i opened
    exact sinkLoop_keeps (by simp_all) c takes _ 0 text

theorem echo_keeps (c : Crypto) (echo : List (Bytes × (Nat → Bool))) (s : Inst) :
    Keeps s (echo.foldl (fun s (text, takes) => sshSink c text takes s) s) := by
  induction echo generalizing s with
  | nil => exact (Same.refl s).keeps
  | cons print rest ih => exact (sshSink_keeps c print.1 print.2 s).trans (ih _)

/-- The payload that is handled: the last one, with the gates as they still are. -/
structure Handles (s : Inst) (p : Bytes) (call : Call) : Prop where
  last : s.calls.getLast? = some call
  payload : call.payload = p
  verified : call.verified = s.inp.enc
  kexOk : call.kexOk = s.kexOk
  authOk : call.authOk = s.authOk
  attached : call.attached = decide (s.cons ≥ 1)
  timed : call.WellTimed

variable {p : Bytes}

theorem Handles.member {call : Call} (handles : Handles s p call) : call ∈ s.calls :=
  List.mem_of_getLast? handles.last

structure Passes (s : Inst) (p : Bytes) (s' : Inst) : Prop where
  log : s'.log = s.log
  gate : ∀ call, Handles s p call → Gate s → Gate s'

theorem Keeps.passes (keeps : Keeps s s') (p : Bytes) : Passes s p s' :=
  ⟨keeps.log, fun _ _ => keeps.gate⟩

theorem Passes.send (passes : Passes s p s') (c : Crypto) (payload : Bytes) (taken : Bool) :
    Passes s p (s'.send c payload taken).1 :=
  ⟨(send_same ..).log.trans passes.log, fun call handles gate =>
    (passes.gate call handles gate).same (send_same ..)⟩

theorem newkeys_passes (kexOk : s.kexOk = true) (kind : p.headD 0 = sshNewkeys) :
    Passes s p { s with inp := { s.inp with enc := true } } where
  log := rfl
  gate call handles gate := by
    refine ⟨fun _ => ⟨kexOk, call, handles.member, ?_, ?_⟩, gate.granted,
      fun chanOk => ⟨rfl, (gate.chanOk chanOk).2⟩, gate.outputs⟩
    · rw [handles.kexOk, kexOk]
    · rw [handles.payload, kind]

theorem userauth_passes (kexOk : s.kexOk = true) (kind : p.headD 0 = sshUserauthRequest)
    (right : userauthOk p = true) :
    Passes s p { s with authOk := true } where
  log := rfl
  gate call handles gate := by
    have grants : call.grants := by
      refine ⟨?_, ?_, ?_⟩
      · rw [handles.kexOk, kexOk]
      · rw [handles.payload, kind]
      · rw [handles.payload, right]
    exact ⟨gate.newkeys, fun _ => ⟨call, handles.member, grants⟩,
      fun chanOk => ⟨(gate.chanOk chanOk).1, rfl⟩, gate.outputs⟩

theorem open_passes {off : UInt32} (kexOk : s.kexOk = true) (kind : p.headD 0 = sshChannelOpen)
    (opens : openField p = some off) (remoteChan : UInt32) :
    Passes s p { s with remoteChan, chanOk := true } where
  log := rfl
  gate call handles gate := by
    have enters : call.enters = true := by
      rw [Call.enters, handles.payload, handles.kexOk, kexOk, kind, opens]
      rfl
    obtain ⟨verified, authOk⟩ := handles.timed enters
    exact ⟨gate.newkeys, gate.granted,
      fun _ => ⟨handles.verified ▸ verified, handles.authOk ▸ authOk⟩, gate.outputs⟩

theorem data_passes {data : Field} (kexOk : s.kexOk = true) (kind : p.headD 0 = sshChannelData)
    (carries : dataField p = some data) (attached : s.cons ≥ 1) (c : Crypto)
    (echo : List (Bytes × (Nat → Bool))) :
    Passes s p (consoleWrite c echo s) where
  log := (echo_keeps c echo _).log
  gate call handles gate := by
    have enters : call.enters = true := by
      rw [Call.enters, handles.payload, handles.kexOk, kexOk, kind, carries,
        handles.attached, decide_eq_true attached]
      rfl
    obtain ⟨verified, authOk⟩ := handles.timed enters
    refine (echo_keeps c echo _).gate ?_
    refine gate.note true (handles.verified ▸ verified) (handles.authOk ▸ authOk) fun _ => ?_
    exact ⟨call, handles.last, verified, by rw [handles.payload, kind]⟩

theorem onSession_passes (c : Crypto) (a : Answers) (p : Bytes) (kexOk : s.kexOk = true) :
    Passes s p (onSession c a p s).1 := by
  have stays : Passes s p s := (Same.refl s).keeps.passes p
  unfold onSession
  dsimp only
  split
  · rename_i kind
    exact newkeys_passes kexOk kind
  split
  · exact stays
  split
  · split
    · exact stays
    · split
      · exact stays
      · exact stays.send ..
  split
  · rename_i kind
    split
    · rename_i right
      exact (userauth_passes kexOk kind right).send ..
    · exact stays.send ..
  split
  · rename_i kind
    split
    · exact stays
    · rename_i off opens
      exact (open_passes kexOk kind opens _).send ..
  split
  · split
    · exact stays
    · split
      · exact stays
      · split
        · exact stays
        · split
          · exact stays.send ..
          · exact stays
  split
  · rename_i kind
    split
    · exact stays
    · rename_i data carries
      split
      · rename_i attached
        exact data_passes kexOk kind carries attached ..
      · exact stays
  · exact stays

theorem Gate.called (gate : Gate s) (verified : Bool) (p : Bytes) :
    Gate (s.called verified p) := by
  have old (call : Call) (member : call ∈ s.calls) : call ∈ (s.called verified p).calls :=
    List.mem_append_left _ member
  refine ⟨fun enc => ?_, fun authOk => ?_, gate.chanOk, gate.outputs⟩
  · obtain ⟨kexOk, call, member, received⟩ := gate.newkeys enc
    exact ⟨kexOk, call, old call member, received⟩
  · obtain ⟨call, member, grants⟩ := gate.granted authOk
    exact ⟨call, old call member, grants⟩

/-- While every payload that was ever handled came at its time, the gates stand. -/
def Guarded (s : Inst) : Prop := (∀ call ∈ s.log, call.WellTimed) → Gate s

theorem Guarded.keeps (guarded : Guarded s) (keeps : Keeps s s') : Guarded s' :=
  fun timed => keeps.gate (guarded (keeps.log ▸ timed))

theorem onPayload_passes (env : Env) (verified : Bool) (p : Bytes) (s : Inst) :
    Passes (s.called verified p) p (onPayload env verified p s).1 := by
  have same {s' : Inst} (same : Same (s.called verified p) s') :
      Passes (s.called verified p) p s' := same.keeps.passes p
  unfold onPayload
  dsimp only
  split
  · exact same (.refl _)
  split
  · split
    · exact same (.refl _)
    · exact same ⟨rfl, rfl, rfl, id, rfl, rfl, rfl⟩
  split
  · split
    · exact same (.refl _)
    · split
      · exact same (.refl _)
      · exact same (doEcdh_same ..)
  split
  · rename_i kexOk
    exact onSession_passes _ _ p kexOk
  · exact same (.refl _)

theorem Guarded.onPayload (guarded : Guarded s) (env : Env) (verified : Bool) (p : Bytes)
    (honest : verified = s.inp.enc) : Guarded (onPayload env verified p s).1 := by
  intro timed
  have passes := onPayload_passes env verified p s
  have log : (Ssh.onPayload env verified p s).1.log = s.log ++ [s.call verified p] := by
    rw [passes.log, Inst.log, Inst.log, List.append_assoc]
    rfl
  rw [log] at timed
  have gate := guarded fun call member => timed call (List.mem_append_left _ member)
  refine passes.gate (s.call verified p) ?_ (gate.called verified p)
  exact ⟨List.getLast?_concat, rfl, honest, rfl, rfl, rfl, timed _ (by simp)⟩

theorem consume_same (wire : Nat) (s : Inst) : Same s (s.consume wire) :=
  ⟨rfl, rfl, rfl, id, rfl, rfl, rfl⟩

theorem Guarded.same (guarded : Guarded s) (same : Same s s') : Guarded s' :=
  guarded.keeps same.keeps

theorem Guarded.takeClear (guarded : Guarded s) (env : Env) (clear : s.inp.enc = false) :
    Guarded (takeClear env s).1 := by
  unfold Ssh.takeClear
  dsimp only
  split
  · exact guarded
  split
  · exact guarded
  split
  · exact guarded
  split
  · exact guarded
  · have handled := fun p => guarded.onPayload env false p clear.symm
    split
    · exact handled _
    · exact (handled _).same (consume_same ..)

theorem Guarded.takeEnc (guarded : Guarded s) (env : Env) (enc : s.inp.enc = true) :
    Guarded (takeEnc env s).1 := by
  unfold Ssh.takeEnc
  split
  · exact guarded
  split
  · exact guarded
  dsimp only
  split
  · exact guarded
  split
  · exact guarded
  split
  · exact guarded
  rename_i plain ctr _
  have decrypted (rx : Bytes) : Guarded { s with rx, inp := { s.inp with ctr } } :=
    guarded.same ⟨rfl, rfl, rfl, id, rfl, rfl, rfl⟩
  split
  · exact decrypted _
  split
  · exact decrypted _
  split
  · exact decrypted _
  · have handled := fun rx p => (decrypted rx).onPayload env true p enc.symm
    split
    · exact handled _ _
    · exact (handled _ _).same (consume_same ..)

theorem Guarded.pumpRx (guarded : Guarded s) (env : Env) (fuel : Nat) :
    Guarded (pumpRx env fuel s) := by
  induction fuel generalizing s with
  | zero => exact guarded
  | succ fuel ih =>
      have turned : Guarded (if s.inp.enc then Ssh.takeEnc env s else Ssh.takeClear env s).1 := by
        split
        · rename_i enc
          exact guarded.takeEnc env enc
        · rename_i clear
          exact guarded.takeClear env (Bool.eq_false_iff.mpr clear)
      rw [Ssh.pumpRx]
      split
      · rename_i turn
        rw [turn] at turned
        exact ih turned
      · rename_i turn
        rw [turn] at turned
        exact turned

theorem Guarded.reset (guarded : Guarded s) (peer : Int) (conn : Nat) :
    Guarded (resetPeer conn { s with peer }) := by
  intro timed
  have log : (resetPeer conn { s with peer }).log = s.log := List.append_nil _
  exact ⟨nofun, nofun, nofun, (guarded (log ▸ timed)).outputs⟩

theorem ident_same (env : Env) (s : Inst) : Same s (ident env s) := by
  have ate : Same s (eatIdent s) := by
    unfold eatIdent
    split
    · exact .refl s
    · exact ⟨rfl, rfl, rfl, id, rfl, rfl, rfl⟩
  unfold ident
  dsimp only
  split
  · exact .refl s
  · split
    · exact ate.trans (sendKexinit_same ..)
    · exact ate

theorem receive_same (input : Input) (s : Inst) : Same s (receive input s) := by
  unfold receive
  split
  · split
    · exact .refl s
    · exact ⟨rfl, rfl, rfl, id, rfl, rfl, rfl⟩
  · exact .refl s

theorem Guarded.pollInst (guarded : Guarded s) (env : Env) (input : Input) (conn : Nat) :
    Guarded (pollInst env input conn s) := by
  have accepted : Guarded (acceptPeer input conn s) := by
    unfold acceptPeer
    split
    · exact guarded.reset _ _
    · exact guarded
  unfold Ssh.pollInst
  dsimp only
  split
  · exact guarded
  split
  · exact accepted
  · have ready := accepted.same ((receive_same input _).trans (ident_same env _))
    split
    · exact ready.pumpRx _ _
    · exact ready

end Gates

theorem guarded_closed (env : Env) : Closed env Guarded where
  boot _ := ⟨nofun, nofun, nofun, nofun⟩
  listen _ _ _ _ _ guarded := guarded.same ⟨rfl, rfl, rfl, id, rfl, rfl, rfl⟩
  poll _ input conn guarded := guarded.pollInst env input conn
  attach _ _ guarded := guarded.same ⟨rfl, rfl, rfl, id, rfl, rfl, rfl⟩
  sink _ text takes guarded := guarded.keeps (sshSink_keeps _ text takes _)

/-- When every payload that an instance handled came at its time, all of its
console traffic went through a connection that had passed the gates. -/
theorem gated_of_wellTimed (env : Env) (ops : List Op) (i : Fin 4)
    (timed : ∀ call ∈ ((ops.foldl (step env) State.boot).insts i).log, call.WellTimed) :
    ∀ o ∈ ((ops.foldl (step env) State.boot).insts i).outputs, Gated o :=
  ((guarded_closed env).run ops i timed).outputs

/-- After the password, what a client types goes in and what the console prints
goes out. -/
theorem gated_of_wellTimed_visit :
    let s := ((visits 150).foldl (step plainEnv) State.boot).insts 0
    s.outputs.map Output.write = [true, false] ∧ ∀ o ∈ s.outputs, Gated o :=
  ⟨by decide +kernel, gated_of_wellTimed plainEnv (visits 150) 0 (by decide +kernel)⟩

/-- After the key exchange, console input is taken from a clear packet and without
a password. -/
theorem gated_fails :
    ¬∀ (env : Env) (ops : List Op) (i : Fin 4),
      ∀ o ∈ ((ops.foldl (step env) State.boot).insts i).outputs, Gated o := by
  intro claim
  have outputs : (((clientSends (keyExchange ++ [consoleInput])).foldl (step plainEnv)
      State.boot).insts 0).outputs.any (fun o => o.write && !o.enc && !o.authOk) = true := by
    decide +kernel
  obtain ⟨o, member, open_⟩ := List.any_eq_true.mp outputs
  have gated := claim plainEnv _ 0 o member
  simp [gated.enc] at open_

end Metal.Net.Ssh
