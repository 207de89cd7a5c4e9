import Metal.Net.Dstate
import Mathlib.Data.Prod.Lex
import Mathlib.Data.List.Dedup
import Mathlib.Data.List.Perm.Subperm

namespace Metal.Net.Dstate

open Metal.Lib

/-! Replicas that receive the same updates, in any orders and any number of
times. -/

structure Update where
  key : CString
  value : Bytes
  version : UInt64
  peer : UInt32
  sized : value.length < 2 ^ 32

def Update.valueLen (update : Update) : UInt32 := update.value.length.toUInt32

def Update.stamp (update : Update) : ℕ ×ₗ ℕ :=
  toLex (update.version.toNat, update.peer.toNat)

def Entry.stamp (entry : Entry) : ℕ ×ₗ ℕ :=
  toLex (entry.version.toNat, entry.peerId.toNat)

def receive (store : Store) (update : Update) : Store :=
  (recv (some update.key) (some update.value) update.valueLen update.version
    update.peer store).2

def deliver (self : UInt32) (updates : List Update) : Store :=
  updates.foldl receive (init self)

abbrev Reading := Bytes × UInt64 × UInt32

def Entry.reading (entry : Entry) : Reading :=
  (entry.content, entry.version, entry.peerId)

def Update.reading (update : Update) : Reading :=
  (update.value, update.version, update.peer)

def view (store : Store) (key : CString) : Option Reading :=
  (lookup store key).map Entry.reading

/-- No later update of the same key is among `updates`. -/
def Update.Prevails (updates : List Update) (update : Update) : Prop :=
  update ∈ updates ∧
    ∀ other ∈ updates, other.key = update.key → other.stamp ≤ update.stamp

/-- The updates that two replicas `first` and `second` are to agree on: both take
them from other peers, every key fits in, and the stamps of a key tell its
updates apart. -/
structure Feed (first second : UInt32) where
  updates : List Update
  foreign : ∀ update ∈ updates, update.peer ≠ first ∧ update.peer ≠ second
  few : (updates.map Update.key).dedup.length ≤ entriesMax
  distinct : ∀ update ∈ updates, ∀ other ∈ updates,
    update.key = other.key → update.stamp = other.stamp → update = other

/-- However the updates reach the two replicas, for every key both end with
what the greatest update of that key says, or without the key. -/
def Converges {first second : UInt32} (feed : Feed first second) : Prop :=
  ∀ order order' : List Update,
    (∀ update, update ∈ order ↔ update ∈ feed.updates) →
      (∀ update, update ∈ order' ↔ update ∈ feed.updates) →
        ∀ key,
          view (deliver first order) key = view (deliver second order') key ∧
            (∀ update : Update, update.key = key → update.Prevails feed.updates →
              view (deliver first order) key = some update.reading) ∧
            ((∀ update ∈ feed.updates, update.key ≠ key) →
              view (deliver first order) key = none)

variable {entry : Entry}

theorem modify_congr {l : List Entry} {idx : Nat} {f g : Entry → Entry}
    (here : l[idx]? = some entry) (same : f entry = g entry) : l.modify idx f = l.modify idx g := by
  apply List.ext_getElem?
  intro other
  rw [List.getElem?_modify, List.getElem?_modify]
  by_cases hit : idx = other
  · subst hit
    simp [here, same]
  · simp [hit]

theorem Update.valueLen_toNat (update : Update) :
    update.valueLen.toNat = update.value.length := by
  have sized := update.sized
  simp only [valueLen, Nat.toUInt32, UInt32.toNat_ofNat']
  omega

def Entry.adopt (update : Update) (entry : Entry) : Entry :=
  { entry.copyIn update.value update.valueLen with
    version := update.version, peerId := update.peer }

theorem Entry.adopt_key (update : Update) (entry : Entry) :
    (entry.adopt update).key = entry.key := by
  simp [adopt]

variable {update : Update}

theorem Entry.adopt_content (entry : Entry) (fits : update.value.length ≤ valueMax) :
    (entry.adopt update).content = update.value := by
  have len := update.valueLen_toNat
  simp only [adopt, copyIn, len, fits, if_true, content, write]
  rw [take_memcpy le_rfl, List.take_length]

/-- The entry after it was offered an update: it keeps the greater stamp. -/
def Entry.offered (update : Update) (entry : Entry) : Entry :=
  if entry.stamp < update.stamp then entry.adopt update else entry

theorem Entry.offered_key (update : Update) (entry : Entry) :
    (entry.offered update).key = entry.key := by
  unfold offered
  split
  · exact entry.adopt_key update
  · rfl

theorem Entry.stamp_lt_iff :
    entry.stamp < update.stamp ↔
      entry.version < update.version ∨
        entry.version = update.version ∧ entry.peerId < update.peer := by
  rw [Entry.stamp, Update.stamp, Prod.Lex.toLex_lt_toLex,
    UInt64.lt_iff_toNat_lt, UInt32.lt_iff_toNat_lt, UInt64.toNat_inj]

theorem recvKnown_entries {store : Store} {idx : Nat} (update : Update)
    (unmerged : store.merges = []) (here : store.entries[idx]? = some entry) :
    (recvKnown idx entry update.key update.value update.valueLen update.version
      update.peer store).entries =
        (store.modify idx (Entry.offered update)).entries := by
  have noMerge : findMerge store update.key = none := by
    simp [findMerge, unmerged]
  have kept (older : ¬ entry.stamp < update.stamp) :
      store.entries = (store.modify idx (Entry.offered update)).entries :=
    (List.modify_id idx store.entries).symm.trans
      (modify_congr here (if_neg older).symm)
  unfold recvKnown
  rw [noMerge]
  by_cases newer : entry.version < update.version
  · rw [if_pos newer]
    exact modify_congr here
      (if_pos (Entry.stamp_lt_iff.mpr (.inl newer))).symm
  · rw [if_neg newer]
    by_cases tie : update.version = entry.version
    · rw [if_pos tie]
      by_cases above : entry.peerId < update.peer
      · simp only [gt_iff_lt, above, if_true]
        refine modify_congr here ?_
        rw [Entry.offered, if_pos (Entry.stamp_lt_iff.mpr
          (.inr ⟨tie.symm, above⟩)), Entry.adopt, tie]
        simp only [Entry.copyIn, Entry.write]
        split <;> rfl
      · simp only [gt_iff_lt, above, if_false]
        exact kept (by simp [Entry.stamp_lt_iff, newer, above])
    · rw [if_neg tie]
      exact kept (by simp [Entry.stamp_lt_iff, newer, Ne.symm tie])

theorem receive_known {store : Store} {idx : Nat} (foreign : update.peer ≠ store.peerId)
    (unmerged : store.merges = []) (found : findEntry store update.key = some idx) :
    (receive store update).entries =
      (store.modify idx (Entry.offered update)).entries := by
  obtain ⟨entry, here, -⟩ := findEntry_eq_some found
  rw [← recvKnown_entries update unmerged here]
  simp [receive, recv, foreign, found, here]

theorem receive_new {store : Store} (foreign : update.peer ≠ store.peerId)
    (unknown : findEntry store update.key = none) (room : store.entries.length < entriesMax) :
    (receive store update).entries =
      (store.push ((newEntry update.key).adopt update)).entries := by
  simp only [receive, recv, foreign, unknown]
  simp [Nat.not_le.mpr room, bumpClock, Entry.adopt]

theorem receive_config (store : Store) (update : Update)
    (unmerged : store.merges = []) :
    (receive store update).peerId = store.peerId ∧
      (receive store update).merges = [] := by
  have noMerge : findMerge store update.key = none := by
    simp [findMerge, unmerged]
  simp only [receive, recv]
  repeat' split
  all_goals simp only [recvKnown, noMerge, unmerged, and_self]
  all_goals repeat' split
  all_goals simp [bumpClock, Store.modify, Store.push, unmerged]

/-! The store refines one register per key. The stamp of an entry is always
that of the register; its value is the register's unless that was too long to
be copied. -/

inductive Reflects : Option Entry → Option Update → Prop
  | absent : Reflects none none
  | entry {entry : Entry} {update : Update}
      (version : entry.version = update.version)
      (peer : entry.peerId = update.peer)
      (content : update.value.length ≤ valueMax →
        entry.content = update.value) : Reflects (some entry) (some update)

theorem reflects_adopt (entry : Entry) (update : Update) :
    Reflects (some (entry.adopt update)) (some update) :=
  .entry rfl rfl entry.adopt_content

theorem Reflects.offer {held : Option Update} (reflects : Reflects (some entry) held)
    (update : Update) :
    Reflects (some (entry.offered update))
      (offer Update.stamp held update) := by
  cases reflects with
  | @entry _ before version peer content =>
      have same : entry.stamp = before.stamp := by
        rw [Entry.stamp, Update.stamp, version, peer]
      unfold Entry.offered Lib.offer
      rw [same]
      by_cases newer : before.stamp < update.stamp
      · simp only [newer, if_true]
        exact reflects_adopt entry update
      · simp only [newer, if_false]
        exact .entry version peer content

structure Mirrors (replica : UInt32) (keys : List CString) (store : Store)
    (held : CString → Option Update) : Prop where
  own : store.peerId = replica
  unmerged : store.merges = []
  separate : (store.entries.map Entry.key).Nodup
  known : ∀ key ∈ store.entries.map Entry.key, key ∈ keys
  reflects : ∀ key, Reflects (lookup store key) (held key)

variable {replica : UInt32} {keys : List CString} {store : Store}
  {held : CString → Option Update}

theorem Mirrors.init (replica : UInt32) (keys : List CString) :
    Mirrors replica keys (init replica) fun _ => none where
  own := rfl
  unmerged := rfl
  separate := List.nodup_nil
  known := by simp [Dstate.init]
  reflects := fun _ => .absent

section Mirrors

variable (mirrors : Mirrors replica keys store held) (few : keys.dedup.length ≤ entriesMax)
include mirrors few

theorem Mirrors.room {key : CString} (member : key ∈ keys)
    (unknown : findEntry store key = none) :
    store.entries.length < entriesMax := by
  have fresh : key ∉ store.entries.map Entry.key := by
    simpa using findEntry_eq_none.mp unknown
  have listed : key :: store.entries.map Entry.key ⊆ keys.dedup := by
    intro other otherMember
    rw [List.mem_dedup]
    rcases List.mem_cons.mp otherMember with rfl | otherMember
    · exact member
    · exact mirrors.known other otherMember
  have bound :=
    (List.subperm_of_subset (mirrors.separate.cons fresh) listed).length_le
  simp only [List.length_cons, List.length_map] at bound
  omega

theorem Mirrors.receive (member : update.key ∈ keys)
    (foreign : update.peer ≠ replica) (short : update.key.length < keyMax) :
    Mirrors replica keys (receive store update)
      (offerAt Update.stamp Update.key held update) := by
  have others : update.peer ≠ store.peerId := mirrors.own ▸ foreign
  obtain ⟨own, unmerged⟩ := receive_config store update mirrors.unmerged
  cases found : findEntry store update.key with
  | some idx =>
      have entries := receive_known others mirrors.unmerged found
      have keysKept : (Dstate.receive store update).entries.map Entry.key =
          store.entries.map Entry.key := by
        rw [entries, modify_keys _ _ (Entry.offered_key update)]
      refine ⟨own.trans mirrors.own, unmerged, ?_, ?_, ?_⟩
      · rw [keysKept]
        exact mirrors.separate
      · rw [keysKept]
        exact mirrors.known
      · intro key
        rw [lookup_congr entries,
          lookup_modify found (Entry.offered_key update)]
        by_cases same : key = update.key
        · subst same
          obtain ⟨entry, here, -⟩ := findEntry_eq_some found
          have entryHere : lookup store update.key = some entry := by
            simp [lookup, found, atIdx, here]
          have reflects := mirrors.reflects update.key
          rw [entryHere] at reflects
          simpa [offerAt, entryHere] using reflects.offer update
        · simpa [offerAt, same] using mirrors.reflects key
  | none =>
      have entries := receive_new others found
        (mirrors.room few member found)
      have keyKept : ((newEntry update.key).adopt update).key = update.key := by
        rw [Entry.adopt_key]
        exact CString.strncpy_of_length_le (Nat.le_pred_of_lt short)
      have fresh := findEntry_eq_none.mp found
      refine ⟨own.trans mirrors.own, unmerged, ?_, ?_, ?_⟩
      · rw [entries, Store.push, List.map_append, List.map_singleton, keyKept]
        refine List.nodup_append.mpr
          ⟨mirrors.separate, List.nodup_singleton _, ?_⟩
        intro key keyMember other otherMember
        obtain ⟨entry, entryMember, rfl⟩ := List.mem_map.mp keyMember
        rw [List.mem_singleton.mp otherMember]
        exact fresh entry entryMember
      · rw [entries, Store.push, List.map_append, List.map_singleton, keyKept]
        intro key keyMember
        rcases List.mem_append.mp keyMember with keyMember | keyMember
        · exact mirrors.known key keyMember
        · exact List.mem_singleton.mp keyMember ▸ member
      · intro key
        rw [lookup_congr entries, lookup_push, keyKept]
        by_cases same : key = update.key
        · subst same
          have absent := lookup_eq_none.mpr fresh
          have reflects := mirrors.reflects update.key
          rw [absent] at reflects
          generalize heldHere : held update.key = before at reflects
          cases reflects
          simpa [offerAt, heldHere, offer, absent] using
            reflects_adopt (newEntry update.key) update
        · simpa [offerAt, same, Ne.symm same] using mirrors.reflects key

theorem Mirrors.foldl {updates : List Update}
    (given : ∀ update ∈ updates, update.key ∈ keys ∧ update.peer ≠ replica ∧
      update.key.length < keyMax) :
    Mirrors replica keys (updates.foldl Dstate.receive store)
      (updates.foldl (offerAt Update.stamp Update.key) held) := by
  induction updates generalizing store held with
  | nil => exact mirrors
  | cons update updates ih =>
      obtain ⟨member, foreign, short⟩ := given update List.mem_cons_self
      exact ih (mirrors.receive few member foreign short)
        fun other otherMember => given other (List.mem_cons_of_mem _ otherMember)

end Mirrors

/-! Whatever it receives, a store has only keys and values that fit. -/

structure Entry.Bounded (entry : Entry) : Prop where
  key : entry.key.length < keyMax
  content : entry.content.length ≤ valueMax

theorem Entry.Bounded.copyIn (bounded : entry.Bounded) (value : Bytes) (valueLen : UInt32) :
    (entry.copyIn value valueLen).Bounded := by
  unfold Entry.copyIn
  split
  · refine ⟨bounded.key, ?_⟩
    exact (List.length_take_le _ _).trans ‹_›
  · exact bounded

theorem newEntry_bounded (key : CString) : (newEntry key).Bounded where
  key := Nat.lt_succ_of_le (key.strncpy_length_le _)
  content := by simp [newEntry, Entry.content]

theorem Entry.Bounded.offered (bounded : entry.Bounded) (update : Update) :
    (entry.offered update).Bounded := by
  have copied := bounded.copyIn update.value update.valueLen
  unfold Entry.offered
  split
  · exact ⟨copied.key, copied.content⟩
  · exact bounded

theorem receive_bounded (bounded : ∀ entry ∈ store.entries, entry.Bounded)
    (unmerged : store.merges = []) : ∀ entry ∈ (receive store update).entries, entry.Bounded := by
  by_cases echo : update.peer = store.peerId
  · simpa [receive, recv, echo] using bounded
  · cases found : findEntry store update.key with
    | some idx =>
        rw [receive_known echo unmerged found]
        intro entry member
        obtain ⟨position, here⟩ := List.mem_iff_getElem?.mp member
        simp only [Store.modify, List.getElem?_modify, Option.map_eq_map,
          Option.map_eq_some_iff] at here
        obtain ⟨before, beforeHere, rfl⟩ := here
        have beforeBounded := bounded before (List.mem_of_getElem? beforeHere)
        split
        · exact beforeBounded.offered update
        · exact beforeBounded
    | none =>
        by_cases room : store.entries.length < entriesMax
        · rw [receive_new echo found room]
          intro entry member
          rcases List.mem_append.mp member with member | member
          · exact bounded entry member
          · rw [List.mem_singleton.mp member]
            have copied := (newEntry_bounded update.key).copyIn
              update.value update.valueLen
            exact ⟨copied.key, copied.content⟩
        · simpa [receive, recv, echo, found, Nat.not_lt.mp room] using bounded

theorem deliver_bounded (replica : UInt32) (updates : List Update) :
    ∀ entry ∈ (deliver replica updates).entries, entry.Bounded := by
  have kept : ∀ store : Store, store.merges = [] →
      (∀ entry ∈ store.entries, entry.Bounded) →
        ∀ entry ∈ (updates.foldl receive store).entries, entry.Bounded := by
    induction updates with
    | nil => exact fun _ _ bounded => bounded
    | cons update updates ih =>
        intro store unmerged bounded
        exact ih _ (receive_config store update unmerged).2
          (receive_bounded bounded unmerged)
  exact kept (init replica) rfl (by simp [init])

theorem Reflects.view {entry : Option Entry} (reflects : Reflects entry (some update))
    (fits : update.value.length ≤ valueMax) : entry.map Entry.reading = some update.reading := by
  cases reflects with
  | entry version peer content =>
      simp [Entry.reading, Update.reading, version, peer, content fits]

theorem exists_prevails {updates : List Update} (member : update ∈ updates) :
    ∃ last : Update, last.key = update.key ∧ last.Prevails updates := by
  have listed : update ∈ updates.filter (·.key = update.key) := by
    simpa using member
  obtain ⟨last, lastMember, greatest⟩ := exists_latest Update.stamp listed
  simp only [List.mem_filter, decide_eq_true_eq] at lastMember greatest
  refine ⟨last, lastMember.2, lastMember.1, ?_⟩
  intro other otherMember same
  exact greatest other ⟨otherMember, same.trans lastMember.2⟩

variable {first second : UInt32} (feed : Feed first second)

structure Feed.Fits : Prop where
  keys : ∀ update ∈ feed.updates, update.key.length < keyMax
  values : ∀ update : Update, update.Prevails feed.updates →
    update.value.length ≤ valueMax

variable {feed}

theorem Feed.Fits.settles (fits : feed.Fits) {order : List Update}
    (foreign : ∀ update ∈ feed.updates, update.peer ≠ replica)
    (delivered : ∀ update, update ∈ order ↔ update ∈ feed.updates)
    (key : CString) :
    (∀ update : Update, update.key = key → update.Prevails feed.updates →
      view (deliver replica order) key = some update.reading) ∧
    ((∀ update ∈ feed.updates, update.key ≠ key) →
      view (deliver replica order) key = none) := by
  have given : ∀ update ∈ order,
      update.key ∈ feed.updates.map Update.key ∧ update.peer ≠ replica ∧
        update.key.length < keyMax := by
    intro update member
    have listed := (delivered update).mp member
    exact ⟨List.mem_map_of_mem listed, foreign update listed,
      fits.keys update listed⟩
  have mirrors := (Mirrors.init replica _).foldl feed.few given
  have reflects := mirrors.reflects key
  rw [foldl_offerAt] at reflects
  constructor
  · rintro update rfl prevails
    have latest : Latest Update.stamp
        (order.filter (·.key = update.key)) update := by
      constructor
      · simpa [delivered] using prevails.1
      · intro other otherMember
        simp only [List.mem_filter, delivered, decide_eq_true_eq] at otherMember
        exact prevails.2 other otherMember.1 otherMember.2
    rw [latest.foldl_offer] at reflects
    · exact reflects.view (fits.values update prevails)
    · intro one oneMember two twoMember same
      simp only [List.mem_filter, delivered, decide_eq_true_eq]
        at oneMember twoMember
      exact feed.distinct one oneMember.1 two twoMember.1
        (oneMember.2.trans twoMember.2.symm) same
  · intro absent
    have nothing : order.filter (·.key = key) = [] := by
      simpa [List.filter_eq_nil_iff, delivered] using absent
    rw [nothing] at reflects
    generalize stored : lookup _ key = entry at reflects
    cases reflects
    rw [view, deliver, stored]
    rfl

theorem Converges.fits (converges : Converges feed) : feed.Fits := by
  have stored {update : Update} (prevails : update.Prevails feed.updates) :
      ∃ entry : Entry, entry.Bounded ∧ entry.key = update.key ∧
        entry.content = update.value := by
    have agreed := (converges feed.updates feed.updates (fun _ => Iff.rfl)
      (fun _ => Iff.rfl) update.key).2.1 update rfl prevails
    obtain ⟨entry, found, reading⟩ := Option.map_eq_some_iff.mp agreed
    have member : entry ∈ (deliver first feed.updates).entries := by
      rw [lookup_eq_find?] at found
      exact List.mem_of_find?_eq_some found
    exact ⟨entry, deliver_bounded _ _ entry member, lookup_key found,
      congrArg Prod.fst reading⟩
  constructor
  · intro update member
    obtain ⟨last, same, prevails⟩ := exists_prevails member
    obtain ⟨entry, bounded, key, -⟩ := stored prevails
    rw [← same, ← key]
    exact bounded.key
  · intro update prevails
    obtain ⟨entry, bounded, -, content⟩ := stored prevails
    exact content ▸ bounded.content

/-- Two replicas agree on the greatest update of every key, whatever the order
of delivery, exactly when every key and every such update fits. -/
theorem converges_iff_fits (feed : Feed first second) :
    Converges feed ↔ feed.Fits := by
  refine ⟨Converges.fits, ?_⟩
  intro fits order order' delivered delivered' key
  have one := fits.settles (fun update member => (feed.foreign update member).1)
    delivered key
  have two := fits.settles (fun update member => (feed.foreign update member).2)
    delivered' key
  refine ⟨?_, one⟩
  by_cases known : ∃ update ∈ feed.updates, update.key = key
  · obtain ⟨update, member, rfl⟩ := known
    obtain ⟨last, same, prevails⟩ := exists_prevails member
    rw [one.1 last same prevails, two.1 last same prevails]
  · have absent : ∀ update ∈ feed.updates, update.key ≠ key :=
      fun update member same => known ⟨update, member, same⟩
    rw [one.2 absent, two.2 absent]

def shortUpdate : Update where
  key := ⟨[107], by decide⟩
  value := [97]
  version := 1
  peer := 1
  sized := by decide

def longUpdate : Update where
  key := ⟨[107], by decide⟩
  value := List.replicate (valueMax + 1) 0
  version := 2
  peer := 1
  sized := by
    rw [List.length_replicate]
    decide

def longFeed : Feed 2 3 where
  updates := [shortUpdate, longUpdate]
  foreign := by simp [shortUpdate, longUpdate]
  few := (List.dedup_sublist _).length_le.trans (by decide)
  distinct := by
    simp [shortUpdate, longUpdate, Update.stamp]

theorem converges_fails : ¬ Converges longFeed := by
  intro converges
  have prevails : longUpdate.Prevails longFeed.updates := by
    constructor
    · simp [longFeed]
    · simp [longFeed, shortUpdate, longUpdate, Update.stamp,
        Prod.Lex.toLex_le_toLex]
  have fits := converges.fits.values longUpdate prevails
  rw [longUpdate, List.length_replicate] at fits
  exact Nat.not_succ_le_self _ fits

end Metal.Net.Dstate
