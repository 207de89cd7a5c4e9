import Metal.Net.X25519
import Metal.Net.Nonces

namespace Metal.Net.Wg

open Metal.Lib

/-! The link of the tunnel as a box for one frame: whatever is called in between, what is read
from it is the frame that was sent last, as it was sent. -/

/-- The shift of the next byte into the nonce undoes that of `putBe64`. -/
theorem shift_byte (w : UInt64) : ((w >>> 8) <<< 8) ||| w.toUInt8.toUInt64 = w := by
  have below := w.toNat_lt
  have low : w.toNat % 2 ^ 8 < 2 ^ 8 := Nat.mod_lt _ (by decide)
  have high : w.toNat / 2 ^ 8 * 2 ^ 8 < 2 ^ 64 := by omega
  apply UInt64.toNat_inj.mp
  simp only [UInt64.toNat_or, UInt64.toNat_shiftLeft, UInt8.toNat_toUInt64,
    UInt64.toNat_toUInt8, UInt64.toNat_shiftRight, UInt64.reduceToNat, Nat.reduceMod]
  rw [Nat.shiftRight_eq_div_pow, Nat.shiftLeft_eq, Nat.mod_eq_of_lt high, ← Nat.shiftLeft_eq,
    ← Nat.shiftLeft_add_eq_or_of_lt low, Nat.shiftLeft_eq]
  omega

theorem length_putBe64 (v : UInt64) : (putBe64 v).length = wgNonce := by
  rw [putBe64, List.length_map, List.length_range, wgNonce]

theorem getBe64_putBe64 (v : UInt64) (rest : Bytes) : getBe64 (putBe64 v ++ rest) = v := by
  have top : v >>> 56 >>> 8 = 0 := by
    have below := v.toNat_lt
    apply UInt64.toNat_inj.mp
    simp only [UInt64.toNat_shiftRight, UInt64.reduceToNat, Nat.reduceMod,
      Nat.shiftRight_eq_div_pow]
    omega
  have next (j k : Nat) (small : j < 64) (byte : j = k + 8) :
      (v >>> UInt64.ofNat j) <<< 8 ||| (v >>> UInt64.ofNat k).toUInt8.toUInt64 =
        v >>> UInt64.ofNat k := by
    subst byte
    have further : v >>> UInt64.ofNat (k + 8) = v >>> UInt64.ofNat k >>> 8 := by
      apply UInt64.toNat_inj.mp
      simp only [UInt64.toNat_shiftRight, UInt64.reduceToNat, Nat.reduceMod,
        UInt64.toNat_ofNat', Nat.shiftRight_eq_div_pow]
      rw [Nat.mod_eq_of_lt (by omega), Nat.mod_eq_of_lt (by omega), Nat.mod_eq_of_lt (by omega),
        Nat.mod_eq_of_lt (by omega), Nat.div_div_eq_div_mul, Nat.pow_add]
    rw [further, shift_byte]
  have first : (0 : UInt64) <<< 8 ||| (v >>> UInt64.ofNat 56).toUInt8.toUInt64 =
      v >>> UInt64.ofNat 56 := by
    have byte := shift_byte (v >>> 56)
    rw [top] at byte
    exact byte
  have eight : (putBe64 v ++ rest).take 8 = putBe64 v := List.take_left' (length_putBe64 v)
  rw [getBe64, eight]
  change (((((((((0 : UInt64) <<< 8 ||| (v >>> UInt64.ofNat 56).toUInt8.toUInt64) <<< 8 |||
    (v >>> UInt64.ofNat 48).toUInt8.toUInt64) <<< 8 |||
    (v >>> UInt64.ofNat 40).toUInt8.toUInt64) <<< 8 |||
    (v >>> UInt64.ofNat 32).toUInt8.toUInt64) <<< 8 |||
    (v >>> UInt64.ofNat 24).toUInt8.toUInt64) <<< 8 |||
    (v >>> UInt64.ofNat 16).toUInt8.toUInt64) <<< 8 |||
    (v >>> UInt64.ofNat 8).toUInt8.toUInt64) <<< 8 |||
    (v >>> UInt64.ofNat 0).toUInt8.toUInt64) = v
  rw [first]
  rw [next 56 48 (by decide) rfl, next 48 40 (by decide) rfl, next 40 32 (by decide) rfl,
    next 32 24 (by decide) rfl, next 24 16 (by decide) rfl, next 16 8 (by decide) rfl,
    next 8 0 (by decide) rfl]
  simp

def sealed (key : Key) (nonce : UInt64) (frame : Bytes) : Bytes :=
  let (ct, tag) := aeadEncrypt key nonce [] frame
  putBe64 nonce ++ ct ++ tag.toList

theorem length_aeadEncrypt (key : Key) (nonce : UInt64) (ad frame : Bytes) :
    (aeadEncrypt key nonce ad frame).1.length = frame.length :=
  length_chacha20XorFrom _ _ (Nat.le_refl _) _

theorem length_sealed (key : Key) (nonce : UInt64) (frame : Bytes) :
    (sealed key nonce frame).length = wgNonce + frame.length + wgTag := by
  simp only [sealed, List.length_append, length_putBe64, length_aeadEncrypt, Vector.length_toList,
    wgTag]

/-- The queue is that of a link that holds this frame, or none. -/
def Holds (s : State) : Option Bytes → Prop
  | none => s.q = []
  | some frame => frame ≠ [] ∧ ∃ nonce, s.q = sealed s.sess nonce frame

variable (x25519 : Key → Key → Option Key)

/-- The frame in the link after a call, with the one that was in it before. Of the state it reads
whether the call succeeds. -/
def mailboxStep (s : State) (held : Option Bytes) : Call → Option Bytes
  | .init arena => if (init arena s).1 = 0 then none else held
  | .deinit => none
  | .peer _ _ _ => held
  | .handshake => held
  | .up node slot _ => if Opens node slot s then none else held
  | .unbind => held
  | .tx frame => if (wgTx (card x25519) frame s).1 = 0 then frame else held
  | .poll => none

def mailbox (s : State) (held : Option Bytes) : List Call → Option Bytes
  | [] => held
  | call :: calls => mailbox (step (card x25519) s call) (mailboxStep x25519 s held call) calls

/-- A handshake over a queued frame gives the key that sealed it. -/
def KeepsKey (s : State) : Call → Prop
  | .handshake =>
      s.q = [] ∨ ∀ key ∈ sessionKey (card x25519) s.peer0 s.peer1, key = s.sess
  | _ => True

variable {x25519} {s : State} {held : Option Bytes}

theorem Holds.long {frame : Bytes} (holds : Holds s (some frame)) :
    wgNonce + wgTag < s.q.length := by
  obtain ⟨some_, nonce, queued⟩ := holds
  have size : s.q.length = wgNonce + frame.length + wgTag := queued ▸ length_sealed ..
  have positive := List.length_pos_iff.mpr some_
  omega

theorem wgPoll_sealed {frame : Bytes} {nonce : UInt64} (some_ : frame ≠ [])
    (queued : s.q = sealed s.sess nonce frame) :
    (wgPoll (card x25519) s).1 = some frame := by
  have opens := aeadDecrypt_encrypt s.sess nonce [] frame
  have covers := length_aeadEncrypt s.sess nonce [] frame
  have size : s.q.length = wgNonce + frame.length + wgTag := queued ▸ length_sealed ..
  have long := Holds.long ⟨some_, nonce, queued⟩
  rw [sealed] at queued
  generalize aeadEncrypt s.sess nonce [] frame = ct_tag at opens covers queued
  obtain ⟨ct, tag⟩ := ct_tag
  dsimp only at opens covers queued
  have number : getBe64 s.q = nonce := by
    rw [queued, List.append_assoc, getBe64_putBe64]
  have body : (s.q.drop wgNonce).take frame.length = ct := by
    rw [queued, List.append_assoc, List.drop_left' (length_putBe64 nonce), List.take_left' covers]
  have seal_ : (Vector.ofFn fun i => (s.q.drop (wgNonce + frame.length)).getD i.val 0 : Tag) =
      tag := by
    rw [queued, List.drop_left' (by rw [List.length_append, length_putBe64, covers])]
    apply Vector.ext
    intro i inside
    simp
  have length_ : s.q.length - wgNonce - wgTag = frame.length := by omega
  rw [wgPoll, if_neg (Nat.not_le.mpr long)]
  dsimp only
  rw [length_, number, body, card_aeadDecrypt]
  rw [seal_]
  exact opens

theorem Holds.poll (holds : Holds s held) : (wgPoll (card x25519) s).1 = held := by
  cases held with
  | none =>
      change s.q = [] at holds
      rw [wgPoll, if_pos (by rw [holds]; exact Nat.zero_le _)]
  | some frame =>
      obtain ⟨some_, nonce, queued⟩ := holds
      exact wgPoll_sealed some_ queued

theorem Holds.of_eq {s' : State} (holds : Holds s held) (queue : s'.q = s.q)
    (key : s.q ≠ [] → s'.sess = s.sess) : Holds s' held := by
  cases held with
  | none => exact queue.trans holds
  | some frame =>
      have busy : s.q ≠ [] := List.ne_nil_of_length_pos (Nat.zero_lt_of_lt holds.long)
      obtain ⟨some_, nonce, queued⟩ := holds
      exact ⟨some_, nonce, by rw [queue, queued, key busy]⟩

theorem wgTx_cases (frame : Option Bytes) (s : State) :
    ((wgTx (card x25519) frame s).1 ≠ 0 ∧ (wgTx (card x25519) frame s).2 = s) ∨
      ∃ sent, frame = some sent ∧ sent ≠ [] ∧ (wgTx (card x25519) frame s).1 = 0 ∧
        (wgTx (card x25519) frame s).2.sess = s.sess ∧
        (wgTx (card x25519) frame s).2.q = sealed s.sess s.nonce sent := by
  have refused : (-1 : Int) ≠ 0 := by decide
  unfold wgTx
  cases frame with
  | none => exact .inl ⟨refused, rfl⟩
  | some sent =>
      dsimp only
      split
      · exact .inl ⟨refused, rfl⟩
      · split
        · exact .inl ⟨refused, rfl⟩
        · rename_i ready _
          refine .inr ⟨sent, rfl, fun empty => ready (.inr ?_), rfl, rfl, ?_⟩
          · rw [empty, List.length_nil]
          · rfl

theorem Holds.tx (holds : Holds s held) (frame : Option Bytes) :
    Holds (wgTx (card x25519) frame s).2 (mailboxStep x25519 s held (.tx frame)) := by
  rw [mailboxStep]
  rcases @wgTx_cases x25519 frame s with
    ⟨refused, same⟩ | ⟨sent, rfl, some_, ok, key, queue⟩
  · rwa [if_neg refused, same]
  · rw [if_pos ok]
    exact ⟨some_, s.nonce, by rw [queue, key]⟩

theorem Holds.handshake (holds : Holds s held) (keeps : KeepsKey x25519 s .handshake) :
    Holds (handshake (card x25519) s).2 held := by
  unfold Wg.handshake
  cases derived : sessionKey (card x25519) s.peer0 s.peer1 with
  | none => exact holds
  | some key =>
      refine holds.of_eq rfl fun busy => ?_
      exact (keeps.resolve_left busy) key derived

theorem Holds.peer (holds : Holds s held) (id : Int) (localKey remoteKey : Option Key) :
    Holds (peer id localKey remoteKey s).2 held := by
  unfold Wg.peer
  repeat' split
  all_goals exact holds.of_eq rfl fun _ => rfl

theorem up_opens {node slot : Bool} (opens : Opens node slot s) (entry : Bool) :
    (up node slot entry s).2.q = [] := by
  obtain ⟨arena, ready, rfl, rfl, unbound⟩ := opens
  simp [up, l2Attach, wgOpen, arena, ready, unbound]

theorem Holds.up (holds : Holds s held) (node slot entry : Bool) :
    Holds (up node slot entry s).2 (mailboxStep x25519 s held (.up node slot entry)) := by
  rw [mailboxStep]
  by_cases opens : Opens node slot s
  · rw [if_pos opens]
    exact up_opens opens entry
  · rw [if_neg opens]
    rcases up_cases node slot entry s with same | ⟨opens', -⟩
    · rwa [same]
    · exact absurd opens' opens

theorem Holds.step (holds : Holds s held) (call : Call) (keeps : KeepsKey x25519 s call) :
    Holds (step (card x25519) s call) (mailboxStep x25519 s held call) := by
  cases call with
  | init arena =>
      rw [Wg.step, mailboxStep, init]
      split
      · exact holds
      · rfl
  | deinit => exact rfl
  | peer id localKey remoteKey => exact holds.peer id localKey remoteKey
  | handshake => exact holds.handshake keeps
  | up node slot entry => exact holds.up node slot entry
  | unbind => exact holds.of_eq rfl fun _ => rfl
  | tx frame => exact holds.tx frame
  | poll =>
      rw [Wg.step, mailboxStep]
      change (wgPoll (card x25519) s).2.q = []
      unfold wgPoll
      split
      next short =>
        cases held with
        | none => exact holds
        | some frame => exact absurd holds.long (Nat.not_lt.mpr short)
      next => rfl

theorem Holds.run {calls : List Call} (holds : Holds s held)
    (keeps : Along (Wg.step (card x25519)) (KeepsKey x25519) s calls) :
    Holds (calls.foldl (Wg.step (card x25519)) s) (mailbox x25519 s held calls) := by
  induction calls generalizing s held with
  | nil => exact holds
  | cons call calls ih => exact ih (holds.step call keeps.1) keeps.2

/-- In every run in which no handshake changes the key under a queued frame, what a poll gives is
the frame of the last send since the last poll, open or start, unchanged, and none if there was no
such send. -/
theorem poll_delivers (x25519 : Key → Key → Option Key) (calls : List Call)
    (keeps : Along (step (card x25519)) (KeepsKey x25519) boot calls) :
    (wgPoll (card x25519) (calls.foldl (step (card x25519)) boot)).1 =
      mailbox x25519 boot none calls := by
  have start : Holds boot none := rfl
  exact (start.run keeps).poll

theorem attach_keepsKey (key0 key1 : Key) :
    Along (step (card x25519)) (KeepsKey x25519) boot (attach key0 key1) := by
  simp [attach, Along, KeepsKey, step, init, peer, boot]

theorem mailbox_attach (agrees : Agrees x25519) (key0 key1 : Key) :
    mailbox x25519 boot none (attach key0 key1) = some [1] := by
  have agreed : ∃ key, sessionKey (card x25519) ⟨true, key0, key1⟩ ⟨true, key1, key0⟩ = some key :=
    (card_lawful agrees).sessionKey_isSome rfl rfl rfl rfl
  obtain ⟨key, agreed⟩ := agreed
  simp [attach, mailbox, mailboxStep, step, init, peer, handshake, agreed, up, l2Attach, wgOpen,
    wgTx, boot, wgQmax, wgNonce, wgTag]

theorem poll_delivers_attached :
    (wgPoll (card Wg.x25519)
      ((attach (secret 1) (secret 2)).foldl (step (card Wg.x25519)) boot)).1 = some [1] :=
  (poll_delivers Wg.x25519 _ (attach_keepsKey _ _)).trans (mailbox_attach x25519_agrees _ _)

end Metal.Net.Wg
