import Metal.Net.Ssh

namespace Metal.Net.Ssh

open Metal.Lib

/-! Strings of a payload that wrap around its end, and packets that leave the
field of their own length out of their alignment. -/

def lengthAt (p : Bytes) (off : UInt32) : UInt32 := beU32 (p.drop off.toNat)

/-- The string whose length stands at `off`. -/
def stringAt (p : Bytes) (off : UInt32) : Field := ⟨off + 4, lengthAt p off⟩

def Field.Inside (field : Field) (p : Bytes) : Prop :=
  field.start.toNat + field.len.toNat ≤ p.length

/-- A length and that many bytes are left from `off` on. -/
def Fits (p : Bytes) (off : UInt32) : Prop :=
  off.toNat + 4 + (lengthAt p off).toNat ≤ p.length

structure StringSound (p : Bytes) (off : UInt32) : Prop where
  taken : (takeStr p off).isSome ↔ Fits p off
  inside : ∀ field next, takeStr p off = some (field, next) →
    field.Inside p ∧ off.toNat ≤ next.toNat

/-- Both sums of `take_str` stay below `2 ^ 32`. -/
structure Unwrapped (p : Bytes) (off : UInt32) : Prop where
  start : off.toNat + 4 < 2 ^ 32
  last : off.toNat + 4 ≤ p.length → off.toNat + 4 + (lengthAt p off).toNat < 2 ^ 32

section Strings

variable {p : Bytes} {off next : UInt32} {field : Field}

theorem takeStr_eq_some_iff :
    takeStr p off = some (field, next) ↔
      off + 4 ≤ UInt32.ofNat p.length ∧
        off + 4 + lengthAt p off ≤ UInt32.ofNat p.length ∧
        field = stringAt p off ∧ next = off + 4 + lengthAt p off := by
  unfold takeStr stringAt lengthAt
  dsimp only
  split
  · rename_i past
    have outside := UInt32.not_le.mpr past
    simp [outside]
  · rename_i word
    have inside := UInt32.not_lt.mp word
    split
    · rename_i past
      have outside := UInt32.not_le.mpr past
      simp [outside]
    · rename_i last
      simp [inside, UInt32.not_lt.mp last, eq_comm]

theorem takeStr_isSome_iff (short : p.length < 2 ^ 32) :
    (takeStr p off).isSome ↔
      (off.toNat + 4) % 2 ^ 32 ≤ p.length ∧
        ((off.toNat + 4) % 2 ^ 32 + (lengthAt p off).toNat) % 2 ^ 32 ≤ p.length := by
  have room : (UInt32.ofNat p.length).toNat = p.length := UInt32.toNat_ofNat_of_lt' short
  simp [Option.isSome_iff_exists, takeStr_eq_some_iff, UInt32.le_iff_toNat_le, room]

theorem lengthAt_le_of_tail (p : Bytes) (off : UInt32) (tail : p.length < off.toNat + 4) :
    (lengthAt p off).toNat ≤ 2 ^ 32 - 2 ^ 8 := by
  have below (i : Nat) : ((p.drop off.toNat).getD i 0).toNat < 256 := UInt8.toNat_lt _
  have first := below 0
  have second := below 1
  have third := below 2
  have missing : (p.drop off.toNat).getD 3 0 = 0 := by
    rw [List.getD_eq_getElem?_getD, List.getElem?_eq_none (by rw [List.length_drop]; omega)]
    rfl
  rw [lengthAt, toNat_beU32, missing]
  simp only [UInt8.toNat_zero]
  omega

theorem takeStr_of_wrap (short : p.length < 2 ^ 32) (from_ : off.toNat ≤ p.length)
    (wraps : ¬ Unwrapped p off) : (takeStr p off).isSome := by
  have wide := (lengthAt p off).toNat_lt
  rw [takeStr_isSome_iff short]
  by_cases start : off.toNat + 4 < 2 ^ 32
  · have last : ¬ (off.toNat + 4 ≤ p.length →
        off.toNat + 4 + (lengthAt p off).toNat < 2 ^ 32) :=
      fun last => wraps ⟨start, last⟩
    omega
  · have tail := lengthAt_le_of_tail p off (by omega)
    omega

theorem stringSound_iff (short : p.length < 2 ^ 32) (from_ : off.toNat ≤ p.length) :
    StringSound p off ↔ Unwrapped p off := by
  have wide := (lengthAt p off).toNat_lt
  constructor
  · intro sound
    by_contra wraps
    have fits : Fits p off := sound.taken.mp (takeStr_of_wrap short from_ wraps)
    unfold Fits at fits
    exact wraps ⟨by omega, fun _ => by omega⟩
  · intro unwrapped
    have start := unwrapped.start
    have last := unwrapped.last
    have taken : (takeStr p off).isSome ↔ Fits p off := by
      rw [takeStr_isSome_iff short, Fits]
      omega
    refine ⟨taken, fun field next found => ?_⟩
    have fits : Fits p off := taken.mp (Option.isSome_of_eq_some found)
    obtain ⟨-, -, rfl, rfl⟩ := takeStr_eq_some_iff.mp found
    unfold Fits at fits
    simp only [Field.Inside, stringAt, UInt32.toNat_add, UInt32.reduceToNat]
    omega

theorem stringAt_inside_iff (short : p.length < 2 ^ 32) (taken : (takeStr p off).isSome) :
    (stringAt p off).Inside p ↔
      (stringAt p off).start.toNat + (stringAt p off).len.toNat < 2 ^ 32 := by
  have last := ((takeStr_isSome_iff short).mp taken).2
  simp only [Field.Inside, stringAt, UInt32.toNat_add, UInt32.reduceToNat]
  omega

end Strings

/-- Where the strings stand that the check of a USERAUTH_REQUEST compares. -/
def userauthPlaces (p : Bytes) : List UInt32 :=
  match takeStr p 1 with
  | none => []
  | some (user, svc) =>
      match takeStr p svc with
      | none => []
      | some (_, meth) =>
          match takeStr p meth with
          | none => []
          | some (name, off) =>
              if !strMatch p name "password" ∨ off ≥ UInt32.ofNat p.length then [meth]
              else
                match takeStr p (off + 1) with
                | none => [meth]
                | some _ => if strMatch p user "metal" then [meth, 1, off + 1] else [meth, 1]

/-- Where the strings stand that `on_session` compares, sends back, or writes to the
console. -/
def sessionPlaces (attached : Bool) (p : Bytes) : List UInt32 :=
  let kind := p.headD 0
  if kind = sshServiceRequest then
    match takeStr p 1 with
    | none => []
    | some (sv, _) => if sv.len = 0 ∨ sv.len > 32 then [] else [1]
  else if kind = sshUserauthRequest then userauthPlaces p
  else if kind = sshChannelData then
    match dataField p with
    | none => []
    | some _ => if attached then [5] else []
  else []

/-- Where the strings stand that `on_payload` hands on, with the key of an ECDH_INIT. -/
def payloadPlaces (s : Inst) (p : Bytes) : List UInt32 :=
  if p.length = 0 then []
  else if p.headD 0 = sshKexinit ∧ !s.gotIc then []
  else if p.headD 0 = sshEcdhInit ∧ s.gotIc ∧ !s.kexOk then
    match takeStr p 1 with
    | none => []
    | some (qc, _) => if qc.len ≠ 32 then [] else [1]
  else if s.kexOk then sessionPlaces (s.cons ≥ 1) p
  else []

section Places

variable {p : Bytes} {off next : UInt32} {field : Field}

theorem eq_stringAt (found : takeStr p off = some (field, next)) : field = stringAt p off :=
  (takeStr_eq_some_iff.mp found).2.2.1

theorem dataField_eq (found : dataField p = some field) :
    field = stringAt p 5 ∧ (takeStr p 5).isSome := by
  unfold dataField at found
  split at found
  · cases found
  · split at found
    · cases found
    · rename_i taken
      split at found
      · cases found
      · cases found
        exact ⟨eq_stringAt taken, Option.isSome_of_eq_some taken⟩

theorem userauthOk_iff : userauthOk p = true ↔ ∃ meth pw,
    userauthPlaces p = [meth, 1, pw] ∧ strMatch p (stringAt p pw) "metal" = true := by
  unfold userauthOk userauthPlaces
  rcases takeStr p 1 with _ | ⟨user, svc⟩
  · simp
  dsimp only
  rcases takeStr p svc with _ | ⟨_, meth⟩
  · simp
  dsimp only
  rcases takeStr p meth with _ | ⟨name, off⟩
  · simp
  dsimp only
  split
  · simp
  cases given : takeStr p (off + 1) with
  | none => simp
  | some pw =>
      dsimp only
      rw [eq_stringAt given]
      split <;> simp_all

theorem taken_of_mem_userauthPlaces (place : off ∈ userauthPlaces p) :
    (takeStr p off).isSome := by
  unfold userauthPlaces at place
  split at place
  · simp at place
  · rename_i user
    split at place
    · simp at place
    · split at place
      · simp at place
      · rename_i meth
        have taken := Option.isSome_of_eq_some meth
        split at place
        · simp_all
        · split at place
          · simp_all
          · rename_i pw
            have given := Option.isSome_of_eq_some user
            have last := Option.isSome_of_eq_some pw
            split at place <;> simp only [List.mem_cons, List.not_mem_nil, or_false] at place <;>
              grind

theorem taken_of_mem_sessionPlaces {attached : Bool} (place : off ∈ sessionPlaces attached p) :
    (takeStr p off).isSome := by
  unfold sessionPlaces at place
  dsimp only at place
  split at place
  · split at place
    · simp at place
    · rename_i service
      split at place
      · simp at place
      · rw [List.mem_singleton.mp place]
        exact Option.isSome_of_eq_some service
  split at place
  · exact taken_of_mem_userauthPlaces place
  split at place
  · split at place
    · simp at place
    · rename_i data
      split at place
      · rw [List.mem_singleton.mp place]
        exact (dataField_eq data).2
      · simp at place
  · simp at place

theorem taken_of_mem_payloadPlaces {s : Inst} (place : off ∈ payloadPlaces s p) :
    (takeStr p off).isSome := by
  unfold payloadPlaces at place
  split at place
  · simp at place
  split at place
  · simp at place
  split at place
  · split at place
    · simp at place
    · rename_i key
      split at place
      · simp at place
      · rw [List.mem_singleton.mp place]
        exact Option.isSome_of_eq_some key
  split at place
  · exact taken_of_mem_sessionPlaces place
  · simp at place

end Places

theorem strings_inside_iff (p : Bytes) (short : p.length < 2 ^ 32) :
    (∀ off : UInt32, off.toNat ≤ p.length → (StringSound p off ↔ Unwrapped p off)) ∧
      ∀ s : Inst, (∀ off ∈ payloadPlaces s p, (stringAt p off).Inside p) ↔
        ∀ off ∈ payloadPlaces s p,
          (stringAt p off).start.toNat + (stringAt p off).len.toNat < 2 ^ 32 := by
  refine ⟨fun off from_ => stringSound_iff short from_, fun s => ?_⟩
  exact forall₂_congr fun off place =>
    stringAt_inside_iff short (taken_of_mem_payloadPlaces place)

def wrappedData : Bytes := [sshChannelData, 0, 0, 0, 0, 255, 255, 255, 247]

theorem strings_inside_wrapped :
    (∀ off : UInt32, off.toNat ≤ wrappedData.length →
        (StringSound wrappedData off ↔ Unwrapped wrappedData off)) ∧
      ∀ s : Inst, (∀ off ∈ payloadPlaces s wrappedData,
          (stringAt wrappedData off).Inside wrappedData) ↔
        ∀ off ∈ payloadPlaces s wrappedData, (stringAt wrappedData off).start.toNat +
          (stringAt wrappedData off).len.toNat < 2 ^ 32 :=
  strings_inside_iff wrappedData (by decide)

/-- The console gets a length of almost 4 GiB, and the offset is back at zero. -/
theorem wrappedData_outside :
    takeStr wrappedData 5 = some (⟨9, 4294967287⟩, 0) ∧ ¬ StringSound wrappedData 5 ∧
      payloadPlaces { Inst.boot with kexOk := true, cons := 1 } wrappedData = [5] ∧
      ¬ (stringAt wrappedData 5).Inside wrappedData := by
  have taken : takeStr wrappedData 5 = some (⟨9, 4294967287⟩, 0) := by decide
  have outside : ¬ (stringAt wrappedData 5).Inside wrappedData := by
    rw [← eq_stringAt taken]
    unfold Field.Inside
    decide
  refine ⟨taken, fun sound => ?_, by decide, outside⟩
  exact outside (eq_stringAt taken ▸ (sound.inside _ _ taken).1)

def blockSize (o : Outbound) : Nat := if o.enc then sshBlock else 8

/-- What `send_pkt` lays out before it encrypts. -/
def framePkt (o : Outbound) (payload : Bytes) : Bytes :=
  let pad := padLength (blockSize o) payload.length
  beBytes32 (UInt32.ofNat (1 + payload.length + pad)) ++
    UInt8.ofNat pad :: payload ++ List.replicate pad 0

structure Padded (packet payload padding : Bytes) : Prop where
  laid : packet = beBytes32 (UInt32.ofNat (1 + payload.length + padding.length)) ++
    UInt8.ofNat padding.length :: payload ++ padding
  least : 4 ≤ padding.length
  most : padding.length ≤ 255

structure Conforms (block : Nat) (packet payload padding : Bytes) : Prop
    extends Padded packet payload padding where
  whole : packet.length % block = 0

/-- A packet as it is on the wire: in clear, or encrypted with its MAC behind it. -/
def Carries (c : Crypto) (o : Outbound) (packet wire : Bytes) : Prop :=
  if o.enc then
    ∃ cipher ctr mac, c.ctr o.aes o.ctr packet = some (cipher, ctr) ∧
      c.hmac o.macKey (beBytes32 o.seq ++ packet) = some mac ∧ wire = cipher ++ mac
  else wire = packet

section Packets

variable {c : Crypto} {payload : Bytes} {taken : Bool} {o : Outbound}

theorem padLength_bounds (block n : Nat) (some_ : 4 ≤ block) :
    4 ≤ padLength block n ∧ padLength block n ≤ block + 3 := by
  have under := Nat.mod_lt (1 + n) (show 0 < block by omega)
  unfold padLength
  dsimp only
  split <;> omega

theorem padLength_whole (block n : Nat) (some_ : 0 < block) :
    (1 + n + padLength block n) % block = 0 := by
  have under := Nat.mod_lt (1 + n) some_
  have filled : (1 + n + (block - (1 + n) % block)) % block = 0 := by
    have whole := Nat.div_add_mod (1 + n) block
    rw [show 1 + n + (block - (1 + n) % block) = block * ((1 + n) / block + 1) by
      rw [Nat.mul_add]; omega]
    exact Nat.mul_mod_right ..
  unfold padLength
  dsimp only
  split
  · rw [← Nat.add_assoc, Nat.add_mod_right, filled]
  · exact filled

theorem blockSize_cases (o : Outbound) : blockSize o = 16 ∨ blockSize o = 8 := by
  unfold blockSize sshBlock
  split
  · exact .inl rfl
  · exact .inr rfl

theorem length_framePkt_mod (o : Outbound) (payload : Bytes) :
    (framePkt o payload).length % blockSize o = 4 := by
  have size : (framePkt o payload).length =
      4 + (1 + payload.length + padLength (blockSize o) payload.length) := by
    simp only [framePkt, List.length_append, List.length_cons, length_beBytes32,
      List.length_replicate]
    omega
  have whole := padLength_whole (blockSize o) payload.length
  rw [size]
  rcases blockSize_cases o with block | block <;> rw [block] at whole ⊢ <;>
    have filled := whole (by decide) <;> omega

theorem framePkt_padded (o : Outbound) (payload : Bytes) :
    ∃ padding, Padded (framePkt o payload) payload padding := by
  have bounds := padLength_bounds (blockSize o) payload.length
    (by rcases blockSize_cases o with block | block <;> omega)
  refine ⟨List.replicate (padLength (blockSize o) payload.length) 0, ?_, ?_, ?_⟩
  · rw [List.length_replicate]
    rfl
  · rw [List.length_replicate]
    exact bounds.1
  · rw [List.length_replicate]
    rcases blockSize_cases o with block | block <;> omega

theorem sendPkt_sent (accepted : (sendPkt c payload taken o).2 = true) :
    ∃ wire, (sendPkt c payload taken o).1.sent = o.sent ++ [wire] ∧
      Carries c o (framePkt o payload) wire := by
  unfold sendPkt at accepted ⊢
  unfold Carries framePkt blockSize
  cases enc : o.enc with
  | false =>
      simp only [enc, Bool.false_eq_true, if_false] at accepted ⊢
      split at accepted
      · cases accepted
      · rename_i room
        rw [if_neg room]
        cases taken with
        | false => cases accepted
        | true => exact ⟨_, rfl, rfl⟩
  | true =>
      simp only [enc, if_true] at accepted ⊢
      split at accepted
      · cases accepted
      · rename_i room
        rw [if_neg room]
        split at accepted
        · cases accepted
        · rename_i mac digest
          split at accepted
          · cases accepted
          · rename_i cipher ctr stream
            cases taken with
            | false => cases accepted
            | true => exact ⟨_, rfl, cipher, ctr, mac, stream, digest, rfl⟩

end Packets

theorem sendPkt_misframed (c : Crypto) (payload : Bytes) (taken : Bool) (o : Outbound)
    (accepted : (sendPkt c payload taken o).2 = true) :
    (∃ wire, (sendPkt c payload taken o).1.sent = o.sent ++ [wire] ∧
      Carries c o (framePkt o payload) wire) ∧
      (∃ padding, Padded (framePkt o payload) payload padding) ∧
      ¬ ∃ padding, Conforms (blockSize o) (framePkt o payload) payload padding := by
  refine ⟨sendPkt_sent accepted, framePkt_padded o payload, ?_⟩
  rintro ⟨padding, conforms⟩
  have whole := conforms.whole
  rw [length_framePkt_mod] at whole
  cases whole

theorem sendPkt_misframed_newkeys :
    (∃ wire, (sendPkt plainEnv.crypto [sshNewkeys] true Inst.boot.out).1.sent =
        Inst.boot.out.sent ++ [wire] ∧
      Carries plainEnv.crypto Inst.boot.out (framePkt Inst.boot.out [sshNewkeys]) wire) ∧
      (∃ padding, Padded (framePkt Inst.boot.out [sshNewkeys]) [sshNewkeys] padding) ∧
      ¬ ∃ padding, Conforms (blockSize Inst.boot.out) (framePkt Inst.boot.out [sshNewkeys])
        [sshNewkeys] padding :=
  sendPkt_misframed _ _ _ _ (by decide)

/-- NEWKEYS goes out in twelve bytes. -/
theorem newkeys_unaligned :
    (sendPkt plainEnv.crypto [sshNewkeys] true Inst.boot.out).2 = true ∧
      (sendPkt plainEnv.crypto [sshNewkeys] true Inst.boot.out).1.sent =
        [[0, 0, 0, 8, 6, 21, 0, 0, 0, 0, 0, 0]] ∧
      ¬ ∃ padding, Conforms 8 [0, 0, 0, 8, 6, 21, 0, 0, 0, 0, 0, 0] [sshNewkeys] padding := by
  refine ⟨by decide, by decide, ?_⟩
  rintro ⟨padding, conforms⟩
  exact absurd conforms.whole (by decide)

end Metal.Net.Ssh
