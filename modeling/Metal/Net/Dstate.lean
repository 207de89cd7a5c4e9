import Metal.Lib.Latest
import Metal.Lib.CString

namespace Metal.Net.Dstate

open Metal.Lib

/-! The replicated key-value store of `net/dstate`. -/

def keyMax : Nat := 128

def valueMax : Nat := 4096

def entriesMax : Nat := 64

def mergesMax : Nat := 8

structure Entry where
  key : CString
  value : Bytes
  valueLen : UInt32
  version : UInt64
  peerId : UInt32

def Entry.content (entry : Entry) : Bytes := entry.value.take entry.valueLen.toNat

structure Merged where
  code : Int32
  merged : Bytes
  mergedLen : UInt32

abbrev MergeFn := Bytes → Bytes → Merged

structure Merge where
  keyPrefix : CString
  fn : MergeFn

/-- `entries` and `merges` are the first `s_n` and `s_nm` cells of the arrays. -/
structure Store where
  entries : List Entry
  merges : List Merge
  clock : UInt64
  peerId : UInt32

def findEntry (store : Store) (key : CString) : Option Nat :=
  store.entries.findIdx? (·.key = key)

def findMerge (store : Store) (key : CString) : Option Merge :=
  store.merges.foldl
    (fun best merge =>
      if merge.keyPrefix.length ≤ key.length ∧ key.startsWith merge.keyPrefix ∧
          best.elim 0 (·.keyPrefix.length) < merge.keyPrefix.length then
        some merge
      else best)
    none

def init (peerId : UInt32) : Store where
  entries := []
  merges := []
  clock := 0
  peerId := peerId

def bumpClock (incoming : UInt64) (store : Store) : Store :=
  { store with
    clock := if incoming ≥ store.clock then incoming + 1 else store.clock + 1 }

/-- `memcpy` of nothing leaves the buffer, so the source's test for an empty
value is not repeated here. -/
def Entry.write (value : Bytes) (valueLen : UInt32) (entry : Entry) : Entry :=
  { entry with value := memcpy entry.value value valueLen.toNat, valueLen }

def Entry.copyIn (value : Bytes) (valueLen : UInt32) (entry : Entry) : Entry :=
  if valueLen.toNat ≤ valueMax then entry.write value valueLen else entry

def newEntry (key : CString) : Entry where
  key := key.strncpy (keyMax - 1)
  value := List.replicate valueMax 0
  valueLen := 0
  version := 0
  peerId := 0

def Store.modify (idx : Nat) (f : Entry → Entry) (store : Store) : Store :=
  { store with entries := store.entries.modify idx f }

def Store.push (entry : Entry) (store : Store) : Store :=
  { store with entries := store.entries ++ [entry] }

def set (key : Option CString) (value : Option Bytes) (valueLen : UInt32)
    (store : Store) : Int × Store :=
  match key with
  | none => (-1, store)
  | some key =>
      if key.bytes = [] ∨ (valueLen ≠ 0 ∧ value = none) then (-1, store)
      else if valueLen.toNat > valueMax then (-1, store)
      else
        let store := bumpClock 0 store
        let fill := fun entry : Entry =>
          { entry.write (value.getD []) valueLen with
            version := store.clock, peerId := store.peerId }
        match findEntry store key with
        | some idx => (0, store.modify idx fill)
        | none =>
            if store.entries.length ≥ entriesMax then (-1, store)
            else (0, store.push (fill (newEntry key)))

/-- The code and, on success, the bytes copied out; `room` is the length of the
caller's buffer, if it gave one. -/
def get (key : Option CString) (room : Option UInt32) (store : Store) :
    Int × Bytes :=
  match key, room with
  | none, _ | _, none => (-1, [])
  | some key, some room =>
      match findEntry store key >>= fun idx => store.entries[idx]? with
      | none => (-1, [])
      | some entry =>
          if entry.valueLen.toNat > valueMax then (-1, [])
          else if entry.valueLen > 0 ∧ room < entry.valueLen then (-2, [])
          else (0, entry.content)

def del (key : Option CString) (store : Store) : Int × Store :=
  match key with
  | none => (-1, store)
  | some key =>
      if key.bytes = [] then (-1, store)
      else
        match findEntry store key with
        | none => (-1, store)
        | some idx =>
            -- the last entry takes the place of the deleted one
            let last := store.entries.length - 1
            let moved :=
              match store.entries[last]? with
              | some entry => store.entries.set idx entry
              | none => store.entries
            (0, { store with entries := moved.take last })

def mergeRegister (keyPrefix : Option CString) (fn : Option MergeFn)
    (store : Store) : Int × Store :=
  match keyPrefix, fn with
  | some keyPrefix, some fn =>
      if keyPrefix.bytes = [] then (-1, store)
      else if store.merges.length ≥ mergesMax then (-1, store)
      else
        (0, { store with
          merges := store.merges ++ [⟨keyPrefix.strncpy (keyMax - 1), fn⟩] })
  | _, _ => (-1, store)

/-- An update for a key that the store has, at `idx`. -/
def recvKnown (idx : Nat) (entry : Entry) (key : CString) (value : Bytes)
    (valueLen : UInt32) (version : UInt64) (fromPeer : UInt32)
    (store : Store) : Store :=
  if version > entry.version then
    bumpClock version <| store.modify idx fun entry =>
      { entry.copyIn value valueLen with version, peerId := fromPeer }
  else if version = entry.version then
    match findMerge store key with
    | some merge =>
        let result := merge.fn entry.content (value.take valueLen.toNat)
        if result.code = 0 then
          let store := bumpClock version store
          store.modify idx fun entry =>
            { entry.copyIn result.merged result.mergedLen with
              version := store.clock, peerId := store.peerId }
        else store
    | none =>
        if fromPeer > entry.peerId then
          bumpClock version <| store.modify idx fun entry =>
            { entry.copyIn value valueLen with peerId := fromPeer }
        else bumpClock version store
  else store

def recv (key : Option CString) (value : Option Bytes) (valueLen : UInt32)
    (version : UInt64) (fromPeer : UInt32) (store : Store) : Int × Store :=
  match key with
  | none => (-1, store)
  | some key =>
      if valueLen ≠ 0 ∧ value = none then (-1, store)
      else if fromPeer = store.peerId then (0, store)
      else
        let value := value.getD []
        match findEntry store key with
        | some idx =>
            match store.entries[idx]? with
            | some entry =>
                (0, recvKnown idx entry key value valueLen version fromPeer store)
            | none => (0, store)
        | none =>
            if store.entries.length ≥ entriesMax then (-1, store)
            else
              (0, bumpClock version <| store.push
                { (newEntry key).copyIn value valueLen with
                  version, peerId := fromPeer })

def count (store : Store) : Nat := store.entries.length

def atIdx (store : Store) (idx : Nat) : Option Entry := store.entries[idx]?

/-! What one operation does to the entry found under a key. -/

@[simp] theorem Entry.copyIn_key (value : Bytes) (valueLen : UInt32)
    (entry : Entry) : (entry.copyIn value valueLen).key = entry.key := by
  unfold copyIn write
  split <;> rfl

@[simp] theorem Entry.copyIn_version (value : Bytes) (valueLen : UInt32)
    (entry : Entry) : (entry.copyIn value valueLen).version = entry.version := by
  unfold copyIn write
  split <;> rfl

def lookup (store : Store) (key : CString) : Option Entry :=
  findEntry store key >>= atIdx store

variable {key : CString} {store : Store}

theorem findEntry_eq_some {idx : Nat} (found : findEntry store key = some idx) :
    ∃ entry, store.entries[idx]? = some entry ∧ entry.key = key := by
  obtain ⟨bound, hit, -⟩ := List.findIdx?_eq_some_iff_getElem.mp found
  exact ⟨_, List.getElem?_eq_getElem bound, by simpa using hit⟩

theorem findEntry_eq_none :
    findEntry store key = none ↔ ∀ entry ∈ store.entries, entry.key ≠ key := by
  simp [findEntry]

theorem lookup_eq_find? (store : Store) (key : CString) :
    lookup store key = store.entries.find? (·.key = key) := by
  unfold lookup findEntry atIdx
  generalize store.entries = entries
  induction entries with
  | nil => rfl
  | cons entry entries ih =>
      by_cases hit : entry.key = key
      · simp [List.findIdx?_cons, hit]
      · rw [List.find?_cons_of_neg (by simpa using hit), ← ih]
        simp [List.findIdx?_cons, hit, Option.bind_map]

theorem lookup_key {entry : Entry} (found : lookup store key = some entry) : entry.key = key := by
  rw [lookup_eq_find?] at found
  simpa using List.find?_some found

theorem lookup_eq_none : lookup store key = none ↔ ∀ entry ∈ store.entries, entry.key ≠ key := by
  simp [lookup_eq_find?]

/-- A change of the entry at a key's index that keeps its key is seen under
that key and under no other. -/
theorem lookup_modify {idx : Nat} {f : Entry → Entry} (found : findEntry store key = some idx)
    (keeps : ∀ entry, (f entry).key = entry.key) (other : CString) :
    lookup (store.modify idx f) other =
      if other = key then (lookup store key).map f else lookup store other := by
  rw [lookup_eq_find?, lookup_eq_find?, lookup_eq_find?, Store.modify]
  unfold findEntry at found
  generalize store.entries = entries at found
  induction entries generalizing idx with
  | nil => simp at found
  | cons entry entries ih =>
      rw [List.findIdx?_cons] at found
      by_cases hit : entry.key = key
      · obtain rfl : idx = 0 := by simpa [hit] using found.symm
        by_cases same : other = key
        · simp [same, keeps, hit]
        · have miss : ¬ entry.key = other := fun h => same (h.symm.trans hit)
          simp [same, keeps, miss]
      · obtain ⟨rest, later, rfl⟩ : ∃ rest,
            entries.findIdx? (·.key = key) = some rest ∧ idx = rest + 1 := by
          simpa [hit, eq_comm] using found
        by_cases here : entry.key = other
        · have differ : other ≠ key := fun h => hit (here.trans h)
          simp [here, differ]
        · simpa [here, hit] using ih later

theorem modify_keys (store : Store) (idx : Nat) {f : Entry → Entry}
    (keeps : ∀ entry, (f entry).key = entry.key) :
    (store.modify idx f).entries.map Entry.key =
      store.entries.map Entry.key := by
  apply List.ext_getElem?
  intro other
  simp only [Store.modify, List.getElem?_map, List.getElem?_modify,
    Option.map_eq_map, Option.map_map]
  congr 1
  funext entry
  by_cases hit : idx = other
  · simp [hit, keeps]
  · simp [hit]

theorem lookup_congr {store' : Store} (same : store.entries = store'.entries) (key : CString) :
    lookup store key = lookup store' key := by
  rw [lookup_eq_find?, lookup_eq_find?, same]

theorem lookup_push (store : Store) (entry : Entry) (key : CString) :
    lookup (store.push entry) key =
      (lookup store key).or (if entry.key = key then some entry else none) := by
  simp only [lookup_eq_find?, Store.push, List.find?_append,
    List.find?_singleton, decide_eq_true_eq]

end Metal.Net.Dstate
