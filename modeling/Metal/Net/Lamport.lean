import Mathlib.Data.UInt
import Metal.Net.Dstate
import Metal.Lib.Run
import Metal.Lib.Table

namespace Metal.Net.Dstate

open Metal.Lib

/-! Sequences of calls on one replica, and its clock. -/

inductive Call
  | init (peerId : UInt32)
  | set (key : Option CString) (value : Option Bytes) (valueLen : UInt32)
  | recv (key : Option CString) (value : Option Bytes) (valueLen : UInt32)
      (version : UInt64) (fromPeer : UInt32)
  | del (key : Option CString)
  | mergeRegister (keyPrefix : Option CString) (fn : Option MergeFn)

def Call.exec : Call → Store → Int × Store
  | .init peerId, _ => (0, Dstate.init peerId)
  | .set key value valueLen, store => Dstate.set key value valueLen store
  | .recv key value valueLen version fromPeer, store =>
      Dstate.recv key value valueLen version fromPeer store
  | .del key, store => Dstate.del key store
  | .mergeRegister keyPrefix fn, store => Dstate.mergeRegister keyPrefix fn store

def Entry.fill (value : Bytes) (valueLen : UInt32) (version : UInt64) (peerId : UInt32)
    (entry : Entry) : Entry :=
  { entry.write value valueLen with version, peerId }

/-- What `set` comes to once its arguments are in order. -/
inductive SetDoes (key : CString) (value : Bytes) (valueLen : UInt32) (store : Store) :
    Int × Store → Prop
  | full (absent : findEntry store key = none) (full : entriesMax ≤ store.entries.length) :
      SetDoes key value valueLen store (-1, bumpClock 0 store)
  | wrote {idx : Nat} (found : findEntry store key = some idx) :
      SetDoes key value valueLen store
        (0, (bumpClock 0 store).modify idx
          (Entry.fill value valueLen (bumpClock 0 store).clock store.peerId))
  | added (absent : findEntry store key = none) (room : store.entries.length < entriesMax) :
      SetDoes key value valueLen store
        (0, (bumpClock 0 store).push
          ((newEntry key).fill value valueLen (bumpClock 0 store).clock store.peerId))

def SetReads (key : CString) (value : Option Bytes) (valueLen : UInt32) : Prop :=
  key.bytes ≠ [] ∧ (valueLen ≠ 0 → value ≠ none) ∧ valueLen.toNat ≤ valueMax

instance (key : CString) (value : Option Bytes) (valueLen : UInt32) :
    Decidable (SetReads key value valueLen) :=
  inferInstanceAs (Decidable (_ ∧ _))

theorem set_refused (key : CString) {value : Option Bytes} {valueLen : UInt32}
    (bad : ¬ SetReads key value valueLen) (store : Store) :
    set (some key) value valueLen store = (-1, store) := by
  unfold set
  dsimp only
  split
  · rfl
  · rename_i given
    split
    · rfl
    · rename_i fits
      refine absurd ⟨fun empty => given (.inl empty), fun some_ none_ => given (.inr ⟨some_, none_⟩),
        Nat.le_of_not_lt fits⟩ bad

variable {key : CString}

theorem set_does {value : Option Bytes} {valueLen : UInt32} (reads : SetReads key value valueLen)
    (store : Store) :
    SetDoes key (value.getD []) valueLen store (set (some key) value valueLen store) := by
  obtain ⟨named, given, fits⟩ := reads
  have ok : ¬(key.bytes = [] ∨ (valueLen ≠ 0 ∧ value = none)) := by
    rintro (empty | ⟨some_, none_⟩)
    · exact named empty
    · exact given some_ none_
  have same : findEntry (bumpClock 0 store) key = findEntry store key := rfl
  unfold set
  dsimp only
  rw [if_neg ok, if_neg (Nat.not_lt_of_le fits), same]
  cases found : findEntry store key with
  | some idx => exact .wrote found
  | none =>
      dsimp only
      split
      · rename_i full
        exact .full found full
      · rename_i room
        exact .added found (Nat.lt_of_not_le room)

def Entry.Sized (entry : Entry) : Prop := entry.valueLen.toNat ≤ valueMax

variable {entry : Entry}

theorem Entry.Sized.copyIn (sized : entry.Sized) (value : Bytes) (valueLen : UInt32) :
    (entry.copyIn value valueLen).Sized := by
  unfold Entry.copyIn
  split
  · rename_i fits
    exact fits
  · exact sized

/-- What `recv` does with an update that it takes. -/
inductive RecvDoes (key : CString) (version : UInt64) (store : Store) : Store → Prop
  | tied {idx : Nat} {entry : Entry} (found : findEntry store key = some idx)
      (there : store.entries[idx]? = some entry) (same : version = entry.version) :
      RecvDoes key version store (bumpClock version store)
  | wrote {idx : Nat} {entry : Entry} {f : Entry → Entry}
      (found : findEntry store key = some idx) (there : store.entries[idx]? = some entry)
      (keeps : ∀ entry, (f entry).key = entry.key)
      (sizes : ∀ entry : Entry, entry.Sized → (f entry).Sized) (newer : entry.version ≤ version)
      (stamp : (f entry).version = version) :
      RecvDoes key version store (bumpClock version (store.modify idx f))
  | merged {idx : Nat} {entry : Entry} {f : Entry → Entry}
      (found : findEntry store key = some idx) (there : store.entries[idx]? = some entry)
      (keeps : ∀ entry, (f entry).key = entry.key)
      (sizes : ∀ entry : Entry, entry.Sized → (f entry).Sized) (same : version = entry.version)
      (stamp : (f entry).version = (bumpClock version store).clock) :
      RecvDoes key version store ((bumpClock version store).modify idx f)
  | added {entry : Entry} (absent : findEntry store key = none)
      (room : store.entries.length < entriesMax)
      (named : entry.key = key.strncpy (keyMax - 1)) (sized : entry.Sized)
      (stamp : entry.version = version) :
      RecvDoes key version store (bumpClock version (store.push entry))

/-- The update is one that `recv` takes: not an echo, not older than what is there, not lost
to a merge that fails, and there is room for it. -/
def takes (key : CString) (value : Option Bytes) (valueLen : UInt32) (version : UInt64)
    (fromPeer : UInt32) (store : Store) : Bool :=
  decide (valueLen = 0 ∨ value ≠ none) && decide (fromPeer ≠ store.peerId) &&
    match lookup store key with
    | none => decide (store.entries.length < entriesMax)
    | some entry =>
        decide (entry.version < version) || (decide (version = entry.version) &&
          match findMerge store key with
          | none => true
          | some merge =>
              decide ((merge.fn entry.content
                ((value.getD []).take valueLen.toNat)).code = 0))

variable {store : Store}

theorem lookup_of_found {idx : Nat} (found : findEntry store key = some idx)
    (there : store.entries[idx]? = some entry) : lookup store key = some entry := by
  rw [lookup, found]
  exact there

theorem lookup_of_absent (absent : findEntry store key = none) : lookup store key = none := by
  rw [lookup, absent]
  rfl

theorem recv_does (key : CString) (value : Option Bytes) (valueLen : UInt32)
    (version : UInt64) (fromPeer : UInt32) (store : Store) :
    (takes key value valueLen version fromPeer store = true ∧
      (recv (some key) value valueLen version fromPeer store).1 = 0 ∧
      RecvDoes key version store (recv (some key) value valueLen version fromPeer store).2) ∨
    (takes key value valueLen version fromPeer store = false ∧
      (recv (some key) value valueLen version fromPeer store).2 = store) := by
  unfold recv takes
  dsimp only
  by_cases given : valueLen ≠ 0 ∧ value = none
  · exact .inr ⟨by simp [given.1, given.2], by rw [if_pos given]⟩
  · have reads : valueLen = 0 ∨ value ≠ none := by
      by_contra neither
      exact given ⟨fun zero => neither (.inl zero), not_not.mp fun some_ => neither (.inr some_)⟩
    rw [if_neg given, decide_eq_true reads]
    by_cases echo : fromPeer = store.peerId
    · exact .inr ⟨by simp [echo], by rw [if_pos echo]⟩
    · rw [if_neg echo]
      cases found : findEntry store key with
      | none =>
          rw [lookup_of_absent found]
          dsimp only
          by_cases full : store.entries.length ≥ entriesMax
          · exact .inr ⟨by simp [full], by rw [if_pos full]⟩
          · refine .inl ⟨by simp [echo, Nat.lt_of_not_le full], by rw [if_neg full], ?_⟩
            rw [if_neg full]
            have empty : (newEntry key).Sized := Nat.zero_le _
            exact .added found (Nat.lt_of_not_le full) (by simp [newEntry])
              (empty.copyIn (value.getD []) valueLen) rfl
      | some idx =>
          obtain ⟨entry, there, -⟩ := findEntry_eq_some found
          rw [lookup_of_found found there]
          dsimp only
          rw [there]
          dsimp only
          unfold recvKnown
          by_cases newer : version > entry.version
          · refine .inl ⟨by simp [echo, newer], rfl, ?_⟩
            rw [if_pos newer]
            exact .wrote found there (fun _ => by simp) (fun _ sized => sized.copyIn _ _)
              (UInt64.le_of_lt newer) rfl
          · rw [if_neg newer]
            by_cases same : version = entry.version
            · rw [if_pos same]
              cases handler : findMerge store key with
              | none =>
                  refine .inl ⟨by simp [echo, same], rfl, ?_⟩
                  dsimp only
                  split
                  · exact .wrote found there (fun _ => by simp)
                      (fun _ sized => sized.copyIn _ _) (UInt64.le_of_eq same.symm)
                      (by simp [same])
                  · exact .tied found there same
              | some merge =>
                  dsimp only
                  by_cases merges : (merge.fn entry.content
                      ((value.getD []).take valueLen.toNat)).code = 0
                  · refine .inl ⟨by simp [echo, same, merges], rfl, ?_⟩
                    rw [if_pos merges]
                    exact .merged found there (fun _ => by simp)
                      (fun _ sized => sized.copyIn _ _) same rfl
                  · exact .inr ⟨by simp [same, merges], by rw [if_neg merges]⟩
            · exact .inr ⟨by simp [newer, same], by rw [if_neg same]⟩

theorem del_cases (key : Option CString) (store : Store) :
    del key store = (-1, store) ∧
        (∀ name, key = some name → name.bytes = [] ∨ findEntry store name = none) ∨
      ∃ name idx, key = some name ∧ name.bytes ≠ [] ∧ findEntry store name = some idx ∧
        del key store = (0, { store with entries := swapRemove store.entries idx }) := by
  cases key with
  | none => exact .inl ⟨rfl, nofun⟩
  | some name =>
      unfold del
      dsimp only
      by_cases empty : name.bytes = []
      · exact .inl ⟨if_pos empty, fun _ same => .inl (Option.some.inj same ▸ empty)⟩
      · rw [if_neg empty]
        cases found : findEntry store name with
        | none => exact .inl ⟨rfl, fun _ same => .inr (Option.some.inj same ▸ found)⟩
        | some idx =>
            obtain ⟨entry, there, -⟩ := findEntry_eq_some found
            refine .inr ⟨name, idx, rfl, empty, found, ?_⟩
            dsimp only
            rw [swapRemove, List.getLast?_eq_getElem?]
            cases last : store.entries[store.entries.length - 1]? with
            | none =>
                have inside := (List.getElem?_eq_some_iff.mp there).1
                rw [List.getElem?_eq_none_iff] at last
                omega
            | some last =>
                dsimp only
                rw [List.dropLast_eq_take, List.length_set]

theorem mergeRegister_frame (keyPrefix : Option CString) (fn : Option MergeFn) (store : Store) :
    (mergeRegister keyPrefix fn store).2.entries = store.entries ∧
      (mergeRegister keyPrefix fn store).2.clock = store.clock := by
  unfold mergeRegister
  split
  · split
    · exact ⟨rfl, rfl⟩
    · split <;> exact ⟨rfl, rfl⟩
  · exact ⟨rfl, rfl⟩

theorem bumpClock_clock {incoming : UInt64} (fits : incoming.toNat + 1 < 2 ^ 64)
    (fits' : store.clock.toNat + 1 < 2 ^ 64) :
    (bumpClock incoming store).clock.toNat = max incoming.toNat store.clock.toNat + 1 := by
  unfold bumpClock
  dsimp only
  split
  · rename_i above
    have above : store.clock.toNat ≤ incoming.toNat := above
    rw [UInt64.toNat_add, UInt64.toNat_one, Nat.mod_eq_of_lt fits, Nat.max_eq_left above]
  · rename_i below
    have below : incoming.toNat ≤ store.clock.toNat := Nat.le_of_lt (Nat.lt_of_not_le below)
    rw [UInt64.toNat_add, UInt64.toNat_one, Nat.mod_eq_of_lt fits', Nat.max_eq_right below]

theorem mem_modify {idx : Nat} {f : Entry → Entry} (member : entry ∈ (store.modify idx f).entries) :
    entry ∈ store.entries ∨ ∃ old, store.entries[idx]? = some old ∧ entry = f old := by
  obtain ⟨n, there⟩ := List.mem_iff_getElem?.mp member
  rw [Store.modify, List.getElem?_modify] at there
  obtain ⟨old, was, rfl⟩ := Option.map_eq_some_iff.mp there
  by_cases here : idx = n
  · exact .inr ⟨old, here ▸ was, if_pos here⟩
  · exact .inl ((if_neg here : (if idx = n then f old else old) = old).symm ▸
      List.mem_of_getElem? was)

/-- A store and the versions that its replica has accepted since it began. -/
structure Replica where
  store : Store
  accepted : List UInt64

def Replica.start (peerId : UInt32) : Replica := ⟨init peerId, []⟩

/-- A call; `init` begins another replica. -/
def Replica.step (r : Replica) (call : Call) : Replica where
  store := (call.exec r.store).2
  accepted :=
    match call with
    | .init _ => []
    | .recv (some key) value valueLen version fromPeer =>
        if takes key value valueLen version fromPeer r.store then version :: r.accepted
        else r.accepted
    | _ => r.accepted

def Steady (r : Replica) : Call → Prop
  | .set (some key) value valueLen =>
      SetReads key value valueLen → r.store.clock.toNat + 1 < 2 ^ 64
  | .recv (some key) value valueLen version fromPeer =>
      takes key value valueLen version fromPeer r.store = true →
        version.toNat + 1 < 2 ^ 64 ∧ r.store.clock.toNat + 1 < 2 ^ 64
  | _ => True

structure Ahead (r : Replica) : Prop where
  stored : ∀ entry ∈ r.store.entries, entry.version.toNat ≤ r.store.clock.toNat
  accepted : ∀ version ∈ r.accepted, version.toNat ≤ r.store.clock.toNat
  short : ∀ entry ∈ r.store.entries, entry.key.length ≤ keyMax - 1

/-- A successful `set` gives the entry of its key a version above the one it had, and above
all that were accepted. -/
def Stamps (r : Replica) : Call → Prop
  | .set (some key) value valueLen =>
      (set (some key) value valueLen r.store).1 = 0 →
        ∃ (idx : Nat) (entry : Entry),
          (set (some key) value valueLen r.store).2.entries[idx]? = some entry ∧
            entry.key = key.strncpy (keyMax - 1) ∧
            (∀ old, r.store.entries[idx]? = some old → old.version < entry.version) ∧
            ∀ version ∈ r.accepted, version < entry.version
  | _ => True

namespace Ahead

variable {r : Replica}

theorem start (peerId : UInt32) : Ahead (Replica.start peerId) := ⟨nofun, nofun, nofun⟩

theorem bumped (ahead : Ahead r) {incoming : UInt64} (fits : incoming.toNat + 1 < 2 ^ 64)
    (fits' : r.store.clock.toNat + 1 < 2 ^ 64) (accepted : List UInt64)
    (new : ∀ version ∈ accepted, version = incoming ∨ version ∈ r.accepted) :
    Ahead ⟨bumpClock incoming r.store, accepted⟩ := by
  have clock := bumpClock_clock fits fits'
  refine ⟨fun entry member => ?_, fun version member => ?_, ahead.short⟩
  · have old := ahead.stored entry member
    dsimp only
    omega
  · dsimp only
    rcases new version member with rfl | before
    · omega
    · have old := ahead.accepted version before
      omega

theorem modified (ahead : Ahead r) {idx : Nat} {f : Entry → Entry}
    (keeps : ∀ entry, (f entry).key = entry.key)
    (stamp : ∀ entry, r.store.entries[idx]? = some entry →
      (f entry).version.toNat ≤ r.store.clock.toNat) :
    Ahead ⟨r.store.modify idx f, r.accepted⟩ := by
  refine ⟨fun entry member => ?_, ahead.accepted, fun entry member => ?_⟩
  · rcases mem_modify member with old | ⟨old, was, rfl⟩
    · exact ahead.stored entry old
    · exact stamp old was
  · rcases mem_modify member with old | ⟨old, was, rfl⟩
    · exact ahead.short entry old
    · rw [keeps]
      exact ahead.short old (List.mem_of_getElem? was)

theorem pushed (ahead : Ahead r) (named : entry.key = key.strncpy (keyMax - 1))
    (stamp : entry.version.toNat ≤ r.store.clock.toNat) :
    Ahead ⟨r.store.push entry, r.accepted⟩ := by
  refine ⟨fun other member => ?_, ahead.accepted, fun other member => ?_⟩
  · rcases List.mem_append.mp member with old | new
    · exact ahead.stored other old
    · rw [List.mem_singleton.mp new]
      exact stamp
  · rcases List.mem_append.mp member with old | new
    · exact ahead.short other old
    · rw [List.mem_singleton.mp new, named]
      exact key.strncpy_length_le _

theorem step (ahead : Ahead r) {call : Call} (steady : Steady r call) :
    Ahead (r.step call) := by
  cases call with
  | init peerId => exact start peerId
  | set key value valueLen =>
      cases key with
      | none => exact ahead
      | some key =>
          change Ahead ⟨(set (some key) value valueLen r.store).2, r.accepted⟩
          by_cases reads : SetReads key value valueLen
          · have fits := steady reads
            have clock := bumpClock_clock (by decide : (0 : UInt64).toNat + 1 < 2 ^ 64) fits
            have bumped := ahead.bumped (by decide : (0 : UInt64).toNat + 1 < 2 ^ 64) fits
              r.accepted fun _ => .inr
            have does := set_does reads r.store
            generalize set (some key) value valueLen r.store = result at does
            cases does with
            | full => exact bumped
            | wrote => exact bumped.modified (fun _ => rfl) fun _ _ => Nat.le_refl _
            | added => exact bumped.pushed rfl (Nat.le_refl _)
          · rw [set_refused key reads]
            exact ahead
  | recv key value valueLen version fromPeer =>
      cases key with
      | none => exact ahead
      | some key =>
          rcases recv_does key value valueLen version fromPeer r.store with
            ⟨taken, -, does⟩ | ⟨refused, same⟩
          · obtain ⟨fits, fits'⟩ := steady taken
            have clock := bumpClock_clock fits fits'
            have bumped := ahead.bumped fits fits' (version :: r.accepted)
              fun other member => List.mem_cons.mp member
            have log : r.step (.recv (some key) value valueLen version fromPeer) =
                ⟨(recv (some key) value valueLen version fromPeer r.store).2,
                  version :: r.accepted⟩ := by
              rw [Replica.step]
              simp only [taken, if_true]
              rfl
            rw [log]
            generalize (recv (some key) value valueLen version fromPeer r.store).2 = store at does
            cases does with
            | tied => exact bumped
            | wrote found there keeps _ _ stamp =>
                refine bumped.modified keeps fun entry is => ?_
                rw [← Option.some.inj (there.symm.trans is), stamp]
                change version.toNat ≤ (bumpClock version r.store).clock.toNat
                omega
            | merged found there keeps _ _ stamp =>
                refine bumped.modified keeps fun entry is => ?_
                rw [← Option.some.inj (there.symm.trans is), stamp]
            | added _ _ named _ stamp =>
                refine bumped.pushed named ?_
                rw [stamp]
                change version.toNat ≤ (bumpClock version r.store).clock.toNat
                omega
          · have log : r.step (.recv (some key) value valueLen version fromPeer) = r := by
              rw [Replica.step]
              simp only [refused]
              exact congrArg (Replica.mk · r.accepted) same
            rw [log]
            exact ahead
  | del key =>
      change Ahead ⟨(del key r.store).2, r.accepted⟩
      rcases del_cases key r.store with ⟨same, -⟩ | ⟨name, idx, -, -, found, same⟩
      · rw [same]
        exact ahead
      · obtain ⟨entry, there, -⟩ := findEntry_eq_some found
        have old (entry : Entry) (member : entry ∈ swapRemove r.store.entries idx) :
            entry ∈ r.store.entries :=
          (swapRemove_perm (List.getElem?_eq_some_iff.mp there).1).subset
            (List.mem_cons_of_mem _ member)
        rw [same]
        exact ⟨fun entry member => ahead.stored entry (old entry member), ahead.accepted,
          fun entry member => ahead.short entry (old entry member)⟩
  | mergeRegister keyPrefix fn =>
      obtain ⟨entries, clock⟩ := mergeRegister_frame keyPrefix fn r.store
      refine ⟨?_, ?_, ?_⟩
      · change ∀ entry ∈ (mergeRegister keyPrefix fn r.store).2.entries, entry.version.toNat ≤
          (mergeRegister keyPrefix fn r.store).2.clock.toNat
        rw [entries, clock]
        exact ahead.stored
      · change ∀ version ∈ r.accepted, version.toNat ≤
          (mergeRegister keyPrefix fn r.store).2.clock.toNat
        rw [clock]
        exact ahead.accepted
      · change ∀ entry ∈ (mergeRegister keyPrefix fn r.store).2.entries, _
        rw [entries]
        exact ahead.short

theorem stamps (ahead : Ahead r) {call : Call} (steady : Steady r call) : Stamps r call := by
  cases call with
  | set key value valueLen =>
      cases key with
      | none => trivial
      | some key =>
          intro ok
          by_cases reads : SetReads key value valueLen
          · have fits := steady reads
            have clock := bumpClock_clock (by decide : (0 : UInt64).toNat + 1 < 2 ^ 64) fits
            have above {version : UInt64} (below : version.toNat ≤ r.store.clock.toNat) :
                version < (bumpClock 0 r.store).clock := by
              rw [UInt64.lt_iff_toNat_lt]
              omega
            have does := set_does reads r.store
            generalize set (some key) value valueLen r.store = result at does ok ⊢
            cases does with
            | full => cases ok
            | @wrote idx found =>
                obtain ⟨entry, there, named⟩ := findEntry_eq_some found
                have member := List.mem_of_getElem? there
                refine ⟨idx, _, (List.getElem?_modify_eq ..).trans
                  (congrArg (Option.map _) there), ?_, fun old was => ?_,
                  fun version member => above (ahead.accepted version member)⟩
                · exact named.trans (CString.strncpy_of_length_le
                    (named ▸ ahead.short entry member)).symm
                · rw [← Option.some.inj (there.symm.trans was)]
                  exact above (ahead.stored entry member)
            | added absent room =>
                refine ⟨r.store.entries.length, _, List.getElem?_concat_length, rfl,
                  fun old was => ?_, fun version member => above (ahead.accepted version member)⟩
                rw [List.getElem?_eq_none (Nat.le_refl _)] at was
                cases was
          · rw [set_refused key reads] at ok
            cases ok
  | _ => trivial

end Ahead

/-- In a run in which the clock does not wrap, it is never behind a version that is stored or
was accepted, and each successful `set` stamps its entry above all of them. -/
theorem clock_ahead {peerId : UInt32} {calls : List Call}
    (steady : Along Replica.step Steady (Replica.start peerId) calls) :
    Ahead (calls.foldl Replica.step (Replica.start peerId)) ∧
      Along Replica.step (fun r call => Ahead r ∧ Stamps r call) (Replica.start peerId)
        calls := by
  have general (r : Replica) (calls : List Call) (ahead : Ahead r)
      (steady : Along Replica.step Steady r calls) :
      Along Replica.step (fun r call => Ahead r ∧ Stamps r call) r calls := by
    induction calls generalizing r with
    | nil => trivial
    | cons call rest ih =>
        exact ⟨⟨ahead, ahead.stamps steady.1⟩,
          ih _ (ahead.step steady.1) steady.2⟩
  exact ⟨steady.invariant (fun _ _ ahead steady => ahead.step steady) (Ahead.start peerId),
    general _ _ (Ahead.start peerId) steady⟩

def doorKey : CString := ⟨ascii "door", by decide⟩

theorem clock_ahead_set :
    Ahead ([.recv (some doorKey) (some [1]) 1 5 2, .set (some doorKey) (some [0]) 1].foldl
        Replica.step (Replica.start 1)) ∧
      Along Replica.step (fun r call => Ahead r ∧ Stamps r call) (Replica.start 1)
        [.recv (some doorKey) (some [1]) 1 5 2, .set (some doorKey) (some [0]) 1] :=
  clock_ahead ⟨fun _ => by decide +kernel, fun _ => by decide +kernel, trivial⟩

/-- A peer sends the greatest version. -/
theorem clock_ahead_fails :
    ¬ Ahead ([.recv (some doorKey) (some [1]) 1 (2 ^ 64 - 1) 2].foldl Replica.step
      (Replica.start 1)) := by
  intro ahead
  exact absurd (ahead.accepted (2 ^ 64 - 1) (by decide +kernel)) (by decide +kernel)

end Metal.Net.Dstate
