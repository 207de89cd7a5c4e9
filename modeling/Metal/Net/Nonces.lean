import Metal.Lib.Run
import Metal.Net.Wg
import Mathlib.Data.List.Nodup

namespace Metal.Net.Wg

open Metal.Lib

/-! No key encrypts twice under one nonce: runs of the module's calls in any
order. -/

inductive Call
  | init (arena : Bool)
  | deinit
  | peer (id : Int) (localKey remoteKey : Option Key)
  | handshake
  | up (node slot entry : Bool)
  | unbind
  | tx (frame : Option Bytes)
  | poll

variable (crypto : Crypto)

def step (s : State) : Call → State
  | .init arena => (init arena s).2
  | .deinit => deinit s
  | .peer id localKey remoteKey => (peer id localKey remoteKey s).2
  | .handshake => (handshake crypto s).2
  | .up node slot entry => (up node slot entry s).2
  | .unbind => unbind s
  | .tx frame => (wgTx crypto frame s).2
  | .poll => (wgPoll crypto s).2

def NoncesUnique (calls : List Call) : Prop :=
  (calls.foldl (step crypto) boot).log.Nodup

def Opens (node slot : Bool) (s : State) : Prop :=
  s.arena ∧ s.ready ∧ node ∧ slot ∧ ¬ s.bound

instance (node slot : Bool) (s : State) : Decidable (Opens node slot s) :=
  inferInstanceAs (Decidable (_ ∧ _))

/-- The counter is set to zero only under a key that has not encrypted, no
handshake returns to a key that encrypted before the counter was last set to
zero, and the counter does not wrap. -/
def KeepsFresh (s : State) : Call → Prop
  | .up node slot _ => Opens node slot s → s.sess ∉ s.usedKeys
  | .handshake =>
      ∀ key ∈ sessionKey crypto s.peer0 s.peer1, key ∉ s.stale
  | .tx _ => s.nonce.toNat + 1 < 2 ^ 64
  | _ => True

structure Fresh (s : State) : Prop where
  unique : s.log.Nodup
  spent : ∀ entry ∈ s.log, entry.1 ∈ s.stale ∨ entry.2.toNat < s.nonce.toNat
  current : s.ready → s.sess ∉ s.stale

theorem fresh_boot : Fresh boot where
  unique := List.nodup_nil
  spent := by simp [boot]
  current := by simp [boot]

variable {s : State}

theorem Fresh.of_eq {s' : State} (fresh : Fresh s) (log : s'.log = s.log)
    (stale : s'.stale = s.stale) (nonce : s'.nonce = s.nonce)
    (current : s'.ready → s'.sess ∉ s.stale) : Fresh s' where
  unique := log ▸ fresh.unique
  spent := by
    rw [log, stale, nonce]
    exact fresh.spent
  current := stale ▸ current

theorem Fresh.reset {s' : State} (fresh : Fresh s) (log : s'.log = s.log)
    (stale : s'.stale = s.usedKeys) (current : s'.ready → s'.sess ∉ s.usedKeys) : Fresh s' where
  unique := log ▸ fresh.unique
  spent := by
    rw [log, stale]
    exact fun entry member => .inl (List.mem_map_of_mem member)
  current := stale ▸ current

theorem Fresh.init (fresh : Fresh s) (arena : Bool) : Fresh (init arena s).2 := by
  unfold Wg.init
  split
  · exact fresh
  · exact fresh.reset rfl rfl (by simp)

theorem Fresh.peer (fresh : Fresh s) (id : Int) (localKey remoteKey : Option Key) :
    Fresh (peer id localKey remoteKey s).2 := by
  unfold Wg.peer
  repeat' split
  all_goals first
    | exact fresh
    | exact fresh.of_eq rfl rfl rfl (by simp)

theorem Fresh.handshake (fresh : Fresh s) (new : KeepsFresh crypto s .handshake) :
    Fresh (handshake crypto s).2 := by
  unfold Wg.handshake
  cases derived : sessionKey crypto s.peer0 s.peer1 with
  | none => exact fresh
  | some sess => exact fresh.of_eq rfl rfl rfl fun _ => new sess derived

theorem up_cases (node slot entry : Bool) (s : State) :
    (up node slot entry s).2 = s ∨
      Opens node slot s ∧
        (up node slot entry s).2 = { (wgOpen s).2 with bound := true } := by
  unfold up
  by_cases closed : ¬ s.arena ∨ ¬ s.ready
  · rw [if_pos closed]
    exact .inl rfl
  · rw [if_neg closed]
    obtain ⟨arena, ready⟩ : s.arena = true ∧ s.ready = true := by
      simpa using closed
    cases node with
    | false => exact .inl rfl
    | true =>
        cases bound : s.bound with
        | true =>
            left
            simp only [l2Attach, bound]
            rfl
        | false =>
            cases slot with
            | false =>
                left
                simp [l2Attach, bound]
            | true =>
                right
                simp [l2Attach, Opens, wgOpen, arena, ready, bound]

theorem Fresh.up (fresh : Fresh s) (node slot entry : Bool)
    (unused : KeepsFresh crypto s (.up node slot entry)) : Fresh (up node slot entry s).2 := by
  rcases up_cases node slot entry s with same | ⟨opens, opened⟩
  · rwa [same]
  · rw [opened, wgOpen]
    split
    · exact fresh.of_eq rfl rfl rfl fresh.current
    · exact fresh.reset rfl rfl fun _ => unused opens

theorem Fresh.tx (fresh : Fresh s) (frame : Option Bytes)
    (below : KeepsFresh crypto s (.tx frame)) : Fresh (wgTx crypto frame s).2 := by
  have next : (s.nonce + 1).toNat = s.nonce.toNat + 1 := by
    rw [UInt64.toNat_add]
    exact Nat.mod_eq_of_lt below
  unfold wgTx
  cases frame with
  | none => exact fresh
  | some frame =>
      by_cases refused : ¬ s.ready ∨ frame.length = 0
      · simpa only [refused, if_true] using fresh
      · simp only [refused, if_false]
        split
        · exact fresh
        · have ready : s.ready = true := by
            by_contra unready
            exact refused (.inl unready)
          have unspent : (s.sess, s.nonce) ∉ s.log := by
            intro member
            rcases fresh.spent _ member with stale | before
            · exact fresh.current ready stale
            · exact Nat.lt_irrefl _ before
          refine ⟨fresh.unique.cons unspent, ?_, fresh.current⟩
          intro entry member
          rw [next]
          rcases List.mem_cons.mp member with rfl | member
          · exact .inr (Nat.lt_succ_self _)
          · exact (fresh.spent entry member).imp_right Nat.lt_succ_of_lt

theorem Fresh.step (fresh : Fresh s) (call : Call) (keeps : KeepsFresh crypto s call) :
    Fresh (step crypto s call) := by
  cases call with
  | init arena => exact fresh.init arena
  | deinit => exact fresh.of_eq rfl rfl rfl (by simp [Wg.step, deinit])
  | peer id localKey remoteKey => exact fresh.peer id localKey remoteKey
  | handshake => exact fresh.handshake crypto keeps
  | up node slot entry => exact fresh.up crypto node slot entry keeps
  | unbind => exact fresh.of_eq rfl rfl rfl fresh.current
  | tx frame => exact fresh.tx crypto frame keeps
  | poll =>
      have kept : (wgPoll crypto s).2 = s ∨
          (wgPoll crypto s).2 = { s with q := [] } := by
        unfold wgPoll
        split
        · exact .inl rfl
        · exact .inr rfl
      rw [Wg.step]
      rcases kept with same | same
      · rwa [same]
      · rw [same]
        exact fresh.of_eq rfl rfl rfl fresh.current

/-- In every run whose calls all keep the counter fresh, no two encryptions
share key and nonce. -/
theorem noncesUnique_of_keepsFresh (crypto : Crypto) (calls : List Call)
    (keeps : Along (step crypto) (KeepsFresh crypto) boot calls) :
    NoncesUnique crypto calls :=
  (keeps.invariant (fun _ call fresh keeps => fresh.step crypto call keeps)
    fresh_boot).unique

def attach (key0 key1 : Key) : List Call :=
  [.init true, .peer 0 (some key0) (some key1), .peer 1 (some key1) (some key0),
    .handshake, .up true true true, .tx (some [1])]

def reattach (key0 key1 : Key) : List Call :=
  attach key0 key1 ++ [Call.unbind, .up true true true, .tx (some [1])]

variable {crypto}

/-- Whatever the primitives are: when the peers agree on a key, attaching the
link again uses it twice with nonce zero. -/
theorem reattach_repeats {key0 key1 key : Key}
    (agreed : sessionKey crypto ⟨true, key0, key1⟩ ⟨true, key1, key0⟩ =
      some key) :
    ((reattach key0 key1).foldl (step crypto) boot).log =
      [(key, 0), (key, 0)] := by
  simp [reattach, attach, step, init, peer, handshake, agreed, up, l2Attach,
    wgOpen, wgTx, unbind, boot, wgQmax, wgNonce, wgTag]

theorem attach_keepsFresh {key0 key1 key : Key}
    (agreed : sessionKey crypto ⟨true, key0, key1⟩ ⟨true, key1, key0⟩ =
      some key) :
    Along (step crypto) (KeepsFresh crypto) boot
      (attach key0 key1 ++ [Call.tx (some [2])]) := by
  simp [attach, Along, KeepsFresh, step, init, peer, handshake, agreed, up,
    l2Attach, wgOpen, wgTx, boot, wgQmax, wgNonce, wgTag, State.usedKeys]

def plainCrypto : Crypto where
  blake2s data := Vector.ofFn fun i => data.getD i 0
  hkdf2 ck ikm :=
    let mixed : Key := Vector.ofFn fun i => ck[i] ^^^ ikm.getD i 0
    (mixed, mixed)
  x25519 scalar u := some (Vector.ofFn fun i => scalar[i] ^^^ u[i])
  x25519Base scalar := scalar
  aeadEncrypt key _ _ pt := (pt, Vector.ofFn fun i => key[i.val])
  aeadDecrypt key _ _ ct tag :=
    if tag = Vector.ofFn fun i => key[i.val] then some ct else none

theorem plainCrypto_lawful : plainCrypto.Lawful where
  agree a b := by
    refine ⟨_, rfl, ?_⟩
    simp [plainCrypto, UInt8.xor_comm]
  opens key nonce ad pt := by
    simp [plainCrypto]

def secret (fill : UInt8) : Key := Vector.replicate 32 fill

theorem secrets_agree :
    ∃ key, sessionKey plainCrypto ⟨true, secret 1, secret 2⟩
      ⟨true, secret 2, secret 1⟩ = some key :=
  plainCrypto_lawful.sessionKey_isSome rfl rfl rfl rfl

theorem noncesUnique_of_keepsFresh_attached :
    NoncesUnique plainCrypto
      (attach (secret 1) (secret 2) ++ [Call.tx (some [2])]) := by
  obtain ⟨key, agreed⟩ := secrets_agree
  exact noncesUnique_of_keepsFresh plainCrypto _ (attach_keepsFresh agreed)

theorem nonces_repeat :
    ¬ NoncesUnique plainCrypto (reattach (secret 1) (secret 2)) := by
  obtain ⟨key, agreed⟩ := secrets_agree
  rw [NoncesUnique, reattach_repeats agreed]
  simp

end Metal.Net.Wg
