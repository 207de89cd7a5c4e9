import Metal.Net.WgCrypto

namespace Metal.Net.Wg

open Metal.Lib

/-! The handshake under the card's own primitives: it succeeds exactly when the
peers know each other's keys, and both ends finish in one state. -/

def nine : Key := keyOf [9]

/-- The primitives of `__crypto__`, given X25519. A failure at the base point
is ignored and leaves what the key buffer held before. -/
def card (x25519 : Key → Key → Option Key) : Crypto where
  blake2s := blake2s
  hkdf2 := hkdf2
  x25519 := x25519
  x25519Base scalar := (x25519 scalar nine).getD zeroKey
  aeadEncrypt := aeadEncrypt
  aeadDecrypt := aeadDecrypt

structure Agrees (x25519 : Key → Key → Option Key) : Prop where
  base : ∀ secret, (x25519 secret nine).isSome
  agree : ∀ a b pubA pubB, x25519 a nine = some pubA → x25519 b nine = some pubB →
    ∃ dh, x25519 a pubB = some dh ∧ x25519 b pubA = some dh

theorem length_chacha20Block (st : Vector UInt32 16) :
    (chacha20Block st).length = 64 := length_storeWords _

theorem xor_twice (input stream : Bytes) (covers : input.length ≤ stream.length) :
    List.zipWith (· ^^^ ·) (List.zipWith (· ^^^ ·) input stream) stream = input := by
  induction input generalizing stream with
  | nil => rfl
  | cons byte rest ih =>
      cases stream with
      | nil => cases covers
      | cons mask stream =>
          simp only [List.zipWith_cons_cons, UInt8.xor_assoc, UInt8.xor_self,
            UInt8.xor_zero]
          rw [ih stream (Nat.le_of_succ_le_succ covers)]

theorem chacha20XorFrom_nil (key nonce : Bytes) (fuel : Nat) (counter : UInt32) :
    chacha20XorFrom key nonce fuel counter [] = [] := by
  cases fuel with
  | zero => rfl
  | succ fuel => rw [chacha20XorFrom, if_pos rfl]

theorem chacha20XorFrom_succ (key nonce : Bytes) (fuel : Nat) (counter : UInt32)
    (input : Bytes) :
    chacha20XorFrom key nonce (fuel + 1) counter input =
      List.zipWith (· ^^^ ·) (input.take 64)
          (chacha20Block (chachaState key nonce counter)) ++
        chacha20XorFrom key nonce fuel (counter + 1) (input.drop 64) := by
  by_cases empty : input = []
  · rw [empty, List.drop_nil, chacha20XorFrom_nil, chacha20XorFrom_nil]
    rfl
  · rw [chacha20XorFrom, if_neg empty]

theorem length_chacha20XorFrom (key nonce : Bytes) {fuel : Nat} {input : Bytes}
    (enough : input.length ≤ fuel) (counter : UInt32) :
    (chacha20XorFrom key nonce fuel counter input).length = input.length := by
  induction fuel generalizing counter input with
  | zero => rw [chacha20XorFrom, List.length_nil, Nat.le_zero.mp enough]
  | succ fuel ih =>
      rw [chacha20XorFrom_succ, List.length_append,
        ih (by rw [List.length_drop]; omega), List.length_zipWith,
        length_chacha20Block, List.length_take, List.length_drop]
      omega

theorem chacha20XorFrom_twice (key nonce : Bytes) {fuel again : Nat} {input : Bytes}
    (enough : input.length ≤ fuel) (enough' : input.length ≤ again)
    (counter : UInt32) :
    chacha20XorFrom key nonce again counter
      (chacha20XorFrom key nonce fuel counter input) = input := by
  induction fuel generalizing again counter input with
  | zero =>
      obtain rfl := List.length_eq_zero_iff.mp (Nat.le_zero.mp enough)
      rw [chacha20XorFrom_nil, chacha20XorFrom_nil]
  | succ fuel ih =>
      cases again with
      | zero =>
          obtain rfl := List.length_eq_zero_iff.mp (Nat.le_zero.mp enough')
          rw [chacha20XorFrom_nil, chacha20XorFrom_nil]
      | succ again =>
          have stream := length_chacha20Block (chachaState key nonce counter)
          have shorter : (input.drop 64).length ≤ fuel := by
            rw [List.length_drop]
            omega
          have shorter' : (input.drop 64).length ≤ again := by
            rw [List.length_drop]
            omega
          have later := ih shorter shorter' (counter + 1)
          rw [chacha20XorFrom_succ _ _ fuel, chacha20XorFrom_succ]
          generalize chacha20Block (chachaState key nonce counter) = blk at stream
          have size : (List.zipWith (· ^^^ ·) (input.take 64) blk).length =
              min 64 input.length := by
            rw [List.length_zipWith, List.length_take, stream]
            omega
          have cut : ∀ rest : Bytes, (input.length < 64 → rest = []) →
              (List.zipWith (· ^^^ ·) (input.take 64) blk ++ rest).take 64 =
                  List.zipWith (· ^^^ ·) (input.take 64) blk ∧
                (List.zipWith (· ^^^ ·) (input.take 64) blk ++ rest).drop 64 = rest := by
            intro rest last
            by_cases short : input.length < 64
            · rw [last short, List.append_nil, List.take_of_length_le (by omega),
                List.drop_of_length_le (by omega)]
              exact ⟨rfl, rfl⟩
            · exact ⟨List.take_left' (by omega), List.drop_left' (by omega)⟩
          obtain ⟨first, rest⟩ := cut (chacha20XorFrom key nonce fuel (counter + 1)
            (input.drop 64)) fun short => by
              rw [List.drop_of_length_le (by omega), chacha20XorFrom_nil]
          rw [first, rest, later, xor_twice, List.take_append_drop]
          rw [List.length_take, stream]
          exact Nat.min_le_left ..

theorem chacha20Xor_twice (key nonce : Bytes) (counter : UInt32) (input : Bytes) :
    chacha20Xor key nonce counter (chacha20Xor key nonce counter input) = input := by
  unfold chacha20Xor
  exact chacha20XorFrom_twice key nonce (Nat.le_refl _)
    (Nat.le_of_eq (length_chacha20XorFrom key nonce (Nat.le_refl _) counter).symm) counter

theorem aeadDecrypt_encrypt (key : Key) (nonce : UInt64) (ad pt : Bytes) :
    aeadDecrypt key nonce ad (aeadEncrypt key nonce ad pt).1
      (aeadEncrypt key nonce ad pt).2 = some pt := by
  simp only [aeadDecrypt, aeadEncrypt, if_true, chacha20Xor_twice]

section Card

variable {x25519 : Key → Key → Option Key}

@[simp] theorem card_x25519 : (card x25519).x25519 = x25519 := by
  simp only [card]

@[simp] theorem card_x25519Base (scalar : Key) :
    (card x25519).x25519Base scalar = (x25519 scalar nine).getD zeroKey := by
  simp only [card]

@[simp] theorem card_hkdf2 : (card x25519).hkdf2 = hkdf2 := by
  simp only [card]

@[simp] theorem card_aeadEncrypt : (card x25519).aeadEncrypt = aeadEncrypt := by
  simp only [card]

@[simp] theorem card_aeadDecrypt : (card x25519).aeadDecrypt = aeadDecrypt := by
  simp only [card]

theorem card_lawful (agrees : Agrees x25519) : (card x25519).Lawful where
  agree a b := by
    obtain ⟨pubA, ofA⟩ := Option.isSome_iff_exists.mp (agrees.base a)
    obtain ⟨pubB, ofB⟩ := Option.isSome_iff_exists.mp (agrees.base b)
    rw [card_x25519, card_x25519Base, card_x25519Base, ofA, ofB]
    exact agrees.agree a b pubA pubB ofA ofB
  opens key nonce ad pt := by
    rw [card_aeadDecrypt, card_aeadEncrypt]
    exact aeadDecrypt_encrypt key nonce ad pt

end Card

/-- Each peer is configured with a secret whose public key is the other's. -/
def KnowEachOther (crypto : Crypto) (peer0 peer1 : Peer) : Prop :=
  peer0.used = true ∧ peer1.used = true ∧
    crypto.x25519Base peer0.remoteKey = crypto.x25519Base peer1.localKey ∧
    crypto.x25519Base peer1.remoteKey = crypto.x25519Base peer0.localKey

variable {crypto : Crypto}

theorem knowEachOther_of_noisePair {peer0 peer1 : Peer} {pair : NoiseSt × NoiseSt}
    (done : noisePair crypto peer0 peer1 = some pair) : KnowEachOther crypto peer0 peer1 := by
  unfold noisePair at done
  by_cases used : peer0.used = true ∧ peer1.used = true
  · rw [guard, if_pos used] at done
    by_cases known : crypto.x25519Base peer0.remoteKey = crypto.x25519Base peer1.localKey ∧
        crypto.x25519Base peer1.remoteKey = crypto.x25519Base peer0.localKey
    · exact ⟨used.1, used.2, known⟩
    · simp [known] at done
  · simp [used] at done

theorem Crypto.Lawful.noisePair_eq (lawful : crypto.Lawful) {peer0 peer1 : Peer}
    (known : KnowEachOther crypto peer0 peer1) :
    ∃ s, noisePair crypto peer0 peer1 = some (s, s) := by
  obtain ⟨used0, used1, known1, known0⟩ := known
  obtain ⟨es, es0, es1⟩ :=
    lawful.agree (ephFrom crypto peer0.localKey "eph0") peer1.localKey
  obtain ⟨ss, ss0, ss1⟩ := lawful.agree peer0.localKey peer1.localKey
  obtain ⟨ee, ee0, ee1⟩ :=
    lawful.agree (ephFrom crypto peer0.localKey "eph0")
      (ephFrom crypto peer1.localKey "eph1")
  obtain ⟨se, se0, se1⟩ :=
    lawful.agree peer0.localKey (ephFrom crypto peer1.localKey "eph1")
  simp only [noisePair, used0, used1, known0, known1, es0, es1, ss0,
    ss1, ee0, ee1, se0, se1, lawful.decryptHash, and_self, guard_true,
    Option.pure_def, Option.bind_eq_bind, Option.bind_some]
  exact ⟨_, rfl⟩

theorem handshake_of_noisePair {s : State} {ini rsp : NoiseSt}
    (done : noisePair crypto s.peer0 s.peer1 = some (ini, rsp)) :
    handshake crypto s =
      (0, { s with sess := (crypto.hkdf2 ini.ck []).1, ready := true }) := by
  rw [handshake, sessionKey, done]
  rfl

/-- The handshake returns 0 exactly for peers that know each other, and then
both ends have the same chaining key and transcript hash and derive the session
key from it. -/
theorem handshake_iff_known (x25519 : Key → Key → Option Key)
    (agrees : Agrees x25519) (s : State) :
    ((handshake (card x25519) s).1 = 0 ↔ KnowEachOther (card x25519) s.peer0 s.peer1) ∧
      (KnowEachOther (card x25519) s.peer0 s.peer1 →
        ∃ ini rsp, noisePair (card x25519) s.peer0 s.peer1 = some (ini, rsp) ∧
          ini.ck = rsp.ck ∧ ini.h = rsp.h ∧
          (handshake (card x25519) s).2.sess = (hkdf2 ini.ck []).1 ∧
          (handshake (card x25519) s).2.sess = (hkdf2 rsp.ck []).1) := by
  have completes (known : KnowEachOther (card x25519) s.peer0 s.peer1) :=
    (card_lawful agrees).noisePair_eq known
  refine ⟨⟨fun ok => ?_, fun known => ?_⟩, fun known => ?_⟩
  · cases derived : noisePair (card x25519) s.peer0 s.peer1 with
    | none => simp [handshake, sessionKey, derived] at ok
    | some pair => exact knowEachOther_of_noisePair derived
  · obtain ⟨st, derived⟩ := completes known
    rw [handshake_of_noisePair derived]
  · obtain ⟨st, derived⟩ := completes known
    have key : (handshake (card x25519) s).2.sess = (hkdf2 st.ck []).1 := by
      rw [handshake_of_noisePair derived, card_hkdf2]
    exact ⟨st, st, derived, rfl, rfl, key, key⟩

end Metal.Net.Wg
