import Metal.Lib.Run
import Metal.Net.Mesh
import Mathlib.Data.List.Nodup
import Mathlib.Data.List.Perm.Subperm

namespace Metal.Net.Mesh

open Metal.Lib

/-! Runs of the two tables: no neighbor and no remote service twice, and no
remote service without its neighbor. -/

inductive Op
  | recv (own : Option Zid) (payload : Option Bytes) (now now' : Int64)
  | add (zenohId host : Option CString) (caps : UInt32) (now : Int64)
  | seen (zenohId : Option CString) (now : Int64)
  | drop (zenohId : Option CString)
  | reap (timeout now : Int64)
  | init (arena : Bool) (limit : UInt32)
  | register (svc : Option Service)
  | registerRemote (name fqn : Option CString) (port : UInt16) (peerId : UInt32)
  | dropPeer (peerId : UInt32)

def step (s : State) : Op → State
  | .recv own payload now now' => meshRecv own payload now now' s
  | .add zenohId host caps now =>
      { s with neighbors := (neighborsAdd zenohId host caps now s.neighbors).2 }
  | .seen zenohId now =>
      { s with neighbors := (neighborsSeen zenohId now s.neighbors).2 }
  | .drop zenohId => { s with neighbors := (neighborsDrop zenohId s.neighbors).2 }
  | .reap timeout now => neighborsReap timeout now s
  | .init arena limit => { s with services := (servicesInit arena limit s.services).2 }
  | .register svc => { s with services := (servicesRegister svc s.services).2 }
  | .registerRemote name fqn port peerId =>
      { s with services := (registerRemote name fqn port peerId s.services).2 }
  | .dropPeer peerId => { s with services := (dropPeer peerId s.services).2 }

def Record.key : Record → Option (UInt32 × CString)
  | .here _ => none
  | .remote peerId name _ _ => some (peerId, name)

def Services.keys (t : Services) : List (UInt32 × CString) :=
  t.rows.filterMap Record.key

def State.counts (s : State) : Nat × Nat :=
  (s.neighbors.rows.length, s.services.rows.length)

/-- Strings that are kept fit the rows; a neighbor is dropped when it has no
remote service, and a remote service is registered for a live neighbor. -/
def KeepsMesh (s : State) : Op → Prop
  | .recv _ payload _ _ => ∀ row ∈ meshRow payload,
      row.zid.length < zenohIdSize ∧ row.name.length < nameSize
  | .add zenohId _ _ _ => ∀ id ∈ zenohId, id.length < zenohIdSize
  | .drop zenohId => ∀ id ∈ zenohId, ∀ row ∈ s.neighbors.rows,
      row.zenohId = id → ∀ key ∈ s.services.keys, key.1 ≠ row.peerId
  | .registerRemote name _ _ peerId =>
      (∀ text ∈ name, text.length < nameSize) ∧
        (peerId ≠ 0 → ∃ row ∈ s.neighbors.rows, row.alive = true ∧ row.peerId = peerId)
  | _ => True

instance (s : State) : ∀ op, Decidable (KeepsMesh s op)
  | .recv _ _ _ _ | .add _ _ _ _ | .drop _ | .registerRemote _ _ _ _ => by
      unfold KeepsMesh
      infer_instance
  | .seen _ _ | .reap _ _ | .init _ _ | .register _ | .dropPeer _ => isTrue trivial

/-- No two neighbors are one, no two remote services are one, every remote
service belongs to a live neighbor, and a record received again at any later
time changes no count. -/
structure Consistent (s : State) : Prop where
  neighbors : (s.neighbors.rows.map Neighbor.zenohId).Nodup
  services : s.services.keys.Nodup
  linked : ∀ key ∈ s.services.keys,
    ∃ row ∈ s.neighbors.rows, row.alive = true ∧ row.peerId = key.1
  again : ∀ own payload now now' later later',
    KeepsMesh s (.recv own payload now now') →
      (meshRecv own payload later later' (meshRecv own payload now now' s)).counts =
        (meshRecv own payload now now' s).counts

def Neighbor.ident (row : Neighbor) : UInt32 × CString := (row.peerId, row.zenohId)

structure Neighbors.Apart (t : Neighbors) : Prop where
  distinct : (t.rows.map Neighbor.zenohId).Nodup
  alive : ∀ row ∈ t.rows, row.alive = true

structure Neighbors.Same (t t' : Neighbors) : Prop where
  ident : t'.rows.map Neighbor.ident = t.rows.map Neighbor.ident
  alive : (∀ row ∈ t.rows, row.alive = true) → ∀ row ∈ t'.rows, row.alive = true

section Neighbors

variable {t t' : Neighbors}

theorem Neighbors.Same.refl (t : Neighbors) : t.Same t := ⟨rfl, id⟩

theorem Neighbors.Same.zenohIds (same : t.Same t') :
    t'.rows.map Neighbor.zenohId = t.rows.map Neighbor.zenohId := by
  have := congrArg (List.map Prod.snd) same.ident
  rw [List.map_map, List.map_map] at this
  exact this

theorem Neighbors.Same.apart (same : t.Same t') (apart : t.Apart) : t'.Apart :=
  ⟨same.zenohIds ▸ apart.distinct, same.alive apart.alive⟩

theorem Neighbors.Same.length (same : t.Same t') : t'.rows.length = t.rows.length := by
  have := congrArg List.length same.ident
  rwa [List.length_map, List.length_map] at this

theorem modifyFirst_same (zenohId : CString) (change : Neighbor → Neighbor)
    (keeps : ∀ row, (change row).ident = row.ident ∧ (change row).alive = true)
    (t : Neighbors) :
    modifyFirst (Neighbor.isAlive zenohId) change t.rows = none ∧
        (∀ row ∈ t.rows, Neighbor.isAlive zenohId row = false) ∨
      ∃ row rows, modifyFirst (Neighbor.isAlive zenohId) change t.rows = some (row, rows) ∧
        t.Same ⟨rows, t.nextPeerId⟩ ∧
        ∃ old ∈ t.rows, old.zenohId = zenohId ∧ old.peerId = row.peerId := by
  rcases modifyFirst_cases (Neighbor.isAlive zenohId) change t.rows with
    missed | ⟨before, old, after, split, found, -, hit⟩
  · exact .inl missed
  · refine .inr ⟨_, _, hit, ⟨?_, ?_⟩, old, by simp [split], ?_, ?_⟩
    · simp only [split, List.map_append, List.map_cons, (keeps old).1]
    · intro alive row member
      rcases List.mem_append.mp member with earlier | later
      · exact alive row (by simp [split, earlier])
      · rcases List.mem_cons.mp later with rfl | later
        · exact (keeps old).2
        · exact alive row (by simp [split, later])
    · simpa using (Bool.and_eq_true_iff.mp found).2
    · exact (congrArg Prod.fst (keeps old).1).symm

/-- Adding a known id leaves the neighbors as they are, adding a new one appends
it unless the table is full. -/
inductive Added (zenohId : CString) (t : Neighbors) : Int → Neighbors → Prop
  | known (t' : Neighbors) (same : t.Same t') (row : Neighbor) (member : row ∈ t.rows)
      (id : row.zenohId = zenohId) : Added zenohId t (signed row.peerId) t'
  | full (absent : ∀ row ∈ t.rows, Neighbor.isAlive zenohId row = false)
      (full : t.rows.length ≥ neighborsMax) : Added zenohId t (-1) t
  | new (absent : ∀ row ∈ t.rows, Neighbor.isAlive zenohId row = false)
      (room : t.rows.length < neighborsMax) (row : Neighbor)
      (id : row.zenohId = zenohId.strncpy (zenohIdSize - 1)) (alive : row.alive = true) :
      Added zenohId t (signed row.peerId) ⟨t.rows ++ [row], t.nextPeerId + 1⟩

theorem neighborsAdd_cases (zenohId host : CString) (caps : UInt32) (now : Int64)
    (t : Neighbors) :
    Added zenohId t (neighborsAdd (some zenohId) (some host) caps now t).1
      (neighborsAdd (some zenohId) (some host) caps now t).2 := by
  unfold neighborsAdd
  dsimp only
  rcases modifyFirst_same zenohId
      (fun row =>
        { row with
          host := host.strncpy (hostSize - 1)
          caps
          lastSeenUs := now
          alive := true }) (fun _ => ⟨rfl, rfl⟩) t with
    ⟨missed, absent⟩ | ⟨row, rows, hit, same, old, member, id, peer⟩
  · rw [missed]
    dsimp only
    split
    · rename_i full
      exact .full absent full
    · rename_i room
      exact .new absent (Nat.lt_of_not_le room)
        ⟨t.nextPeerId, _, _, _, _, true⟩ rfl rfl
  · rw [hit]
    dsimp only
    rw [← peer]
    exact .known _ same old member id

theorem neighborsSeen_same (zenohId : Option CString) (now : Int64) (t : Neighbors) :
    t.Same (neighborsSeen zenohId now t).2 := by
  cases zenohId with
  | none => exact .refl t
  | some zenohId =>
      unfold neighborsSeen
      dsimp only
      rcases modifyFirst_same zenohId
          (fun row => { row with lastSeenUs := now, alive := true })
          (fun _ => ⟨rfl, rfl⟩) t with
        ⟨missed, -⟩ | ⟨row, rows, hit, same, -⟩
      · rw [missed]
        exact .refl t
      · rw [hit]
        exact same

variable {peer : Int} {zenohId : CString}

theorem Neighbors.Apart.add (apart : t.Apart) (short : zenohId.length < zenohIdSize)
    (added : Added zenohId t peer t') : t'.Apart := by
  cases added with
  | known t' same row member id => exact same.apart apart
  | full absent full => exact apart
  | new absent room row id alive =>
      rw [CString.strncpy_of_length_le (Nat.le_sub_one_of_lt short)] at id
      refine ⟨?_, ?_⟩
      · rw [List.map_append, List.map_singleton, ← List.concat_eq_append,
          List.nodup_concat, id]
        refine ⟨fun member => ?_, apart.distinct⟩
        obtain ⟨old, member, same⟩ := List.mem_map.mp member
        have := absent old member
        simp [Neighbor.isAlive, apart.alive old member, same] at this
      · intro old member
        rcases List.mem_append.mp member with old' | new
        · exact apart.alive old old'
        · rw [List.mem_singleton.mp new]
          exact alive

theorem Neighbors.Same.linked (same : t.Same t') {peerId : UInt32}
    (linked : ∃ row ∈ t.rows, row.peerId = peerId) :
    ∃ row ∈ t'.rows, row.peerId = peerId := by
  obtain ⟨row, member, peer⟩ := linked
  have known : row.ident ∈ t'.rows.map Neighbor.ident :=
    same.ident ▸ List.mem_map_of_mem member
  obtain ⟨row', member', ident⟩ := List.mem_map.mp known
  exact ⟨row', member', (congrArg Prod.fst ident).trans peer⟩

theorem Added.linked (added : Added zenohId t peer t') {peerId : UInt32}
    (linked : ∃ row ∈ t.rows, row.peerId = peerId) : ∃ row ∈ t'.rows, row.peerId = peerId := by
  cases added with
  | known t' same row member id => exact same.linked linked
  | full absent full => exact linked
  | new absent room new id alive =>
      obtain ⟨row, member, peer⟩ := linked
      exact ⟨row, List.mem_append_left _ member, peer⟩

theorem Added.present (short : zenohId.length < zenohIdSize) (added : Added zenohId t peer t') :
    (peer = -1 ∧ t' = t ∧ t.rows.length ≥ neighborsMax ∧
        ∀ row ∈ t.rows, Neighbor.isAlive zenohId row = false) ∨
      ∃ row ∈ t'.rows, row.zenohId = zenohId ∧ peer = signed row.peerId := by
  cases added with
  | known t' same row member id =>
      have known : row.ident ∈ t'.rows.map Neighbor.ident :=
        same.ident ▸ List.mem_map_of_mem member
      obtain ⟨row', member', ident⟩ := List.mem_map.mp known
      refine .inr ⟨row', member', (congrArg Prod.snd ident).trans id, ?_⟩
      rw [show row'.peerId = row.peerId from congrArg Prod.fst ident]
  | full absent full => exact .inl ⟨rfl, rfl, full, absent⟩
  | new absent room row id alive =>
      rw [CString.strncpy_of_length_le (Nat.le_sub_one_of_lt short)] at id
      exact .inr ⟨row, by simp, id, rfl⟩

theorem Added.known_again (apart : t.Apart) {row : Neighbor} (member : row ∈ t.rows)
    (id : row.zenohId = zenohId) (added : Added zenohId t peer t') :
    peer = signed row.peerId ∧ t.Same t' := by
  have found : Neighbor.isAlive zenohId row = true := by
    simp [Neighbor.isAlive, apart.alive row member, id]
  cases added with
  | known t' same row' member' id' =>
      rw [List.inj_on_of_nodup_map apart.distinct member member' (id.trans id'.symm)]
      exact ⟨rfl, same⟩
  | full absent full => simp [absent row member] at found
  | new absent room new _ alive => simp [absent row member] at found

theorem Added.again {peer' : Int} {t₁ t₂ t₃ : Neighbors} (apart : t.Apart)
    (short : zenohId.length < zenohIdSize) (first : Added zenohId t peer t₁) (same : t₁.Same t₂)
    (second : Added zenohId t₂ peer' t₃) : peer' = peer ∧ t₃.rows.length = t₂.rows.length := by
  have apart₂ := same.apart (apart.add short first)
  rcases first.present short with ⟨rfl, rfl, full, absent⟩ | ⟨row, member, id, rfl⟩
  · cases second with
    | known t₃ same' row member id =>
        have known : zenohId ∈ t₁.rows.map Neighbor.zenohId :=
          same.zenohIds ▸ id ▸ List.mem_map_of_mem member
        obtain ⟨old, member, id⟩ := List.mem_map.mp known
        have := absent old member
        simp [Neighbor.isAlive, apart.alive old member, id] at this
    | full absent full => exact ⟨rfl, rfl⟩
    | new absent room row id alive =>
        rw [same.length] at room
        omega
  · have known : row.ident ∈ t₂.rows.map Neighbor.ident :=
      same.ident ▸ List.mem_map_of_mem member
    obtain ⟨row', member', ident⟩ := List.mem_map.mp known
    have id' : row'.zenohId = row.zenohId := congrArg Prod.snd ident
    have peerId : row'.peerId = row.peerId := congrArg Prod.fst ident
    obtain ⟨rfl, same'⟩ := second.known_again apart₂ member' (id'.trans id)
    exact ⟨by rw [peerId], same'.length⟩

theorem Neighbors.Apart.subperm {rows : List Neighbor} (apart : t.Apart)
    (fewer : rows.Subperm t.rows) (next : UInt32) : (⟨rows, next⟩ : Neighbors).Apart where
  distinct := by
    obtain ⟨kept, perm, sub⟩ := fewer
    exact (perm.map _).nodup_iff.mp (apart.distinct.sublist (sub.map _))
  alive row member := apart.alive row (fewer.subset member)

theorem neighborsDrop_cases (zenohId : CString) (t : Neighbors) :
    (neighborsDrop (some zenohId) t).2 = t ∨
      ∃ row, row.zenohId = zenohId ∧
        (row :: (neighborsDrop (some zenohId) t).2.rows).Perm t.rows := by
  unfold neighborsDrop
  dsimp only
  cases found : t.rows.findIdx? fun row => row.zenohId = zenohId with
  | none => exact .inl rfl
  | some i =>
      obtain ⟨below, here, -⟩ := List.findIdx?_eq_some_iff_getElem.mp found
      exact .inr ⟨t.rows[i], by simpa using here, swapRemove_perm below⟩

end Neighbors

section Services

variable {t t' : Services}

/-- Remote services have a peer, and there are none before `init`. -/
structure Services.Proper (t : Services) : Prop where
  distinct : t.keys.Nodup
  peers : ∀ key ∈ t.keys, key.1 ≠ 0
  ready : t.cap = none → t.keys = []

theorem isRemote_iff (peerId : UInt32) (name : CString) (record : Record) :
    record.isRemote peerId name = true ↔ record.key = some (peerId, name) := by
  cases record with
  | here svc => simp [Record.isRemote, Record.key]
  | remote peerId' name' fqn port => simp [Record.isRemote, Record.key]

theorem key_renew (fqn : CString) (port : UInt16) (record : Record) :
    (record.renew fqn port).key = record.key := by
  cases record with
  | here svc => rfl
  | remote peerId name fqn' port' => rfl

/-- Registering a known service again leaves the keys, a new one is appended
unless the table is full. -/
inductive Registered (peerId : UInt32) (name : CString) (t : Services) : Services → Prop
  | refused (why : t.cap = none ∨ peerId = 0) : Registered peerId name t t
  | known (t' : Services) (member : (peerId, name) ∈ t.keys) (cap : t'.cap = t.cap)
      (keys : t'.keys = t.keys) (length : t'.rows.length = t.rows.length) :
      Registered peerId name t t'
  | full (cap : Nat) (isCap : t.cap = some cap) (absent : (peerId, name) ∉ t.keys)
      (full : t.rows.length ≥ cap) : Registered peerId name t t
  | new (cap : Nat) (isCap : t.cap = some cap) (peer : peerId ≠ 0)
      (absent : (peerId, name) ∉ t.keys) (room : t.rows.length < cap) (t' : Services)
      (cap' : t'.cap = t.cap)
      (keys : t'.keys = t.keys ++ [(peerId, name.strncpy (nameSize - 1))]) :
      Registered peerId name t t'

theorem registerRemote_cases (name fqn : CString) (port : UInt16) (peerId : UInt32)
    (t : Services) :
    Registered peerId name t (registerRemote (some name) (some fqn) port peerId t).2 := by
  unfold registerRemote
  cases isCap : t.cap with
  | none => exact .refused (.inl isCap)
  | some cap =>
      dsimp only
      by_cases zero : peerId = 0
      · rw [if_pos zero]
        exact .refused (.inr zero)
      · rw [if_neg zero]
        rcases modifyFirst_cases (Record.isRemote peerId name) (Record.renew fqn port)
            t.rows with
          ⟨missed, absent⟩ | ⟨before, old, after, split, found, -, hit⟩
        · have new : (peerId, name) ∉ t.keys := by
            intro member
            obtain ⟨record, member, key⟩ := List.mem_filterMap.mp member
            have := absent record member
            rw [(isRemote_iff peerId name record).mpr key] at this
            cases this
          rw [missed]
          dsimp only
          by_cases full : t.rows.length ≥ cap
          · rw [if_pos full]
            exact .full cap isCap new full
          · rw [if_neg full]
            refine .new cap isCap zero new (Nat.lt_of_not_le full) _ isCap.symm ?_
            simp [Services.keys, Record.key]
        · rw [hit]
          have member : (peerId, name) ∈ t.keys :=
            List.mem_filterMap.mpr
              ⟨old, by simp [split], (isRemote_iff peerId name old).mp found⟩
          refine .known _ member isCap.symm ?_ (by simp [split])
          simp [Services.keys, split, List.filterMap_cons, key_renew]

theorem Services.Proper.registered {peerId : UInt32} {name : CString} (proper : t.Proper)
    (short : name.length < nameSize) (registered : Registered peerId name t t') :
    t'.Proper ∧ ∀ key ∈ t'.keys, key ∈ t.keys ∨ key.1 = peerId := by
  cases registered with
  | refused why => exact ⟨proper, fun key member => .inl member⟩
  | known t' member cap keys length =>
      rw [← keys]
      refine ⟨⟨keys ▸ proper.distinct, keys ▸ proper.peers, ?_⟩, fun key member => .inl member⟩
      rw [cap, keys]
      exact proper.ready
  | full cap isCap absent full => exact ⟨proper, fun key member => .inl member⟩
  | new cap isCap peer absent room t' cap' keys =>
      rw [CString.strncpy_of_length_le (Nat.le_sub_one_of_lt short)] at keys
      refine ⟨⟨?_, ?_, ?_⟩, ?_⟩
      · rw [keys, ← List.concat_eq_append, List.nodup_concat]
        exact ⟨absent, proper.distinct⟩
      · intro key member
        rw [keys, List.mem_append, List.mem_singleton] at member
        rcases member with old | rfl
        · exact proper.peers key old
        · exact peer
      · rw [cap', isCap]
        rintro ⟨⟩
      · intro key member
        rw [keys, List.mem_append, List.mem_singleton] at member
        rcases member with old | rfl
        · exact .inl old
        · exact .inr rfl

theorem Registered.again {peerId : UInt32} {name : CString} {t'' : Services}
    (short : name.length < nameSize) (first : Registered peerId name t t')
    (second : Registered peerId name t' t'') : t''.rows.length = t'.rows.length := by
  cases second with
  | refused why => rfl
  | known t'' member cap keys length => exact length
  | full cap isCap absent full => rfl
  | new cap isCap peer absent room t'' cap' keys =>
      cases first with
      | refused why =>
          rcases why with none_ | zero
          · rw [isCap] at none_
            cases none_
          · exact absurd zero peer
      | known t' member cap'' keys' length' => exact absurd (keys' ▸ member) absent
      | full cap'' isCap' absent' full =>
          rw [isCap] at isCap'
          cases isCap'
          omega
      | new cap'' isCap' peer' absent' room' t' capEq keys' =>
          rw [keys', CString.strncpy_of_length_le (Nat.le_sub_one_of_lt short)] at absent
          simp at absent

theorem dropPeer_keys (peerId : UInt32) (t : Services) :
    (dropPeer peerId t).2.cap = t.cap ∧
      ((t.cap = none ∨ peerId = 0) ∧ (dropPeer peerId t).2.keys = t.keys ∨
        (dropPeer peerId t).2.keys.Perm (t.keys.filter fun key => key.1 ≠ peerId)) := by
  unfold dropPeer
  by_cases refused : t.cap = none ∨ peerId = 0
  · rw [if_pos refused]
    exact ⟨rfl, .inl ⟨refused, rfl⟩⟩
  · rw [if_neg refused]
    refine ⟨rfl, .inr ?_⟩
    refine ((sweep_perm (Record.isOf peerId) t.rows).1.filterMap Record.key).trans ?_
    have same : (t.rows.filter fun record => !Record.isOf peerId record).filterMap Record.key =
        t.keys.filter fun key => key.1 ≠ peerId := by
      unfold Services.keys
      induction t.rows with
      | nil => rfl
      | cons record rest ih =>
          cases record with
          | here svc =>
              simpa [Record.isOf, Record.key, List.filterMap_cons] using ih
          | remote peerId' name fqn port =>
              by_cases its : peerId' = peerId
              · simpa [Record.isOf, Record.key, List.filterMap_cons, its] using ih
              · simpa [Record.isOf, Record.key, List.filterMap_cons, its] using ih
    rw [same]

theorem Services.Proper.fewer (proper : t.Proper) (cap : t'.cap = none → t.cap = none)
    (fewer : t'.keys.Subperm t.keys) : t'.Proper where
  distinct := by
    obtain ⟨kept, perm, sub⟩ := fewer
    exact perm.nodup_iff.mp (proper.distinct.sublist sub)
  peers key member := proper.peers key (fewer.subset member)
  ready none_ := List.subperm_nil.mp (proper.ready (cap none_) ▸ fewer)

theorem Services.Proper.dropPeer (proper : t.Proper) (peerId : UInt32) :
    (Mesh.dropPeer peerId t).2.Proper ∧
      ∀ key ∈ (Mesh.dropPeer peerId t).2.keys, key ∈ t.keys ∧ key.1 ≠ peerId := by
  obtain ⟨cap, same | kept⟩ := dropPeer_keys peerId t
  · refine ⟨proper.fewer (cap ▸ id) (same.2 ▸ .refl _), fun key member => ?_⟩
    rw [same.2] at member
    refine ⟨member, ?_⟩
    rcases same.1 with none_ | rfl
    · rw [proper.ready none_] at member
      cases member
    · exact proper.peers key member
  · refine ⟨proper.fewer (cap ▸ id)
      (kept.subperm.trans List.filter_sublist.subperm), fun key member => ?_⟩
    simpa using kept.subset member

theorem Services.Proper.dropPeers (proper : t.Proper) (gone : List Neighbor) :
    (gone.foldl (fun t row => (Mesh.dropPeer row.peerId t).2) t).Proper ∧
      ∀ key ∈ (gone.foldl (fun t row => (Mesh.dropPeer row.peerId t).2) t).keys,
        key ∈ t.keys ∧ ∀ row ∈ gone, key.1 ≠ row.peerId := by
  induction gone generalizing t with
  | nil => exact ⟨proper, fun key member => ⟨member, by simp⟩⟩
  | cons row rest ih =>
      obtain ⟨proper', without⟩ := proper.dropPeer row.peerId
      obtain ⟨proper'', rest⟩ := ih proper'
      refine ⟨proper'', fun key member => ?_⟩
      obtain ⟨member', others⟩ := rest key member
      obtain ⟨old, apart⟩ := without key member'
      exact ⟨old, List.forall_mem_cons.mpr ⟨apart, others⟩⟩

theorem Services.Proper.init (proper : t.Proper) (arena : Bool) (limit : UInt32) :
    (servicesInit arena limit t).2.Proper ∧
      (servicesInit arena limit t).2.keys = t.keys := by
  unfold servicesInit
  cases isCap : t.cap with
  | some cap => exact ⟨proper, rfl⟩
  | none =>
      dsimp only
      have empty := proper.ready isCap
      cases arena with
      | false => exact ⟨proper, rfl⟩
      | true =>
          have keys (n : Nat) : (t.rows.take n).filterMap Record.key = [] :=
            List.sublist_nil.mp (empty ▸ (List.take_sublist n t.rows).filterMap Record.key)
          refine ⟨⟨?_, ?_, ?_⟩, (keys _).trans empty.symm⟩
          · simp [Services.keys, keys]
          · simp [Services.keys, keys]
          · rintro ⟨⟩

theorem register_keys (svc : Option Service) (t : Services) :
    (servicesRegister svc t).2.cap = t.cap ∧
      (servicesRegister svc t).2.keys = t.keys := by
  unfold servicesRegister
  split
  · exact ⟨rfl, rfl⟩
  · split
    · exact ⟨rfl, rfl⟩
    · exact ⟨rfl, by simp [Services.keys, Record.key]⟩

end Services

section Mesh

variable {s s' s'' : State} {row : MeshRow}

/-- What a row of the mesh does: its host becomes a neighbor, and when that gives
a peer id, the service is registered for the peer. -/
inductive Received (row : MeshRow) (s : State) : State → Prop
  | alone (peer : Int) (neighbors : Neighbors)
      (added : Added row.zid s.neighbors peer neighbors) (without : ¬ peer > 0) :
      Received row s { s with neighbors }
  | both (peer : Int) (neighbors neighbors' : Neighbors) (services : Services)
      (added : Added row.zid s.neighbors peer neighbors) (given : peer > 0)
      (same : neighbors.Same neighbors')
      (registered : Registered (UInt32.ofNat peer.toNat) row.name s.services services) :
      Received row s ⟨neighbors', services⟩

theorem meshRecv_cases (own : Option Zid) (payload : Option Bytes) :
    (∀ now now' s, meshRecv own payload now now' s = s) ∨
      ∃ row, meshRow payload = some row ∧
        ∀ now now' s, Received row s (meshRecv own payload now now' s) := by
  unfold meshRecv
  cases parsed : meshRow payload with
  | none => exact .inl fun _ _ _ => rfl
  | some row =>
      dsimp only
      by_cases ours : (own.any fun own => zidHex own = row.zid.bytes) = true
      · exact .inl fun _ _ _ => if_pos ours
      · refine .inr ⟨row, rfl, fun now now' s => ?_⟩
        rw [if_neg ours]
        have added := neighborsAdd_cases row.zid row.host (capHasZenoh ||| capHasServices)
          now s.neighbors
        split
        · rename_i given
          exact .both _ _ _ _ added given (neighborsSeen_same _ now' _)
            (registerRemote_cases row.name row.fqn row.port _ s.services)
        · rename_i without
          exact .alone _ _ added without

theorem ofNat_signed {peerId : UInt32} (given : signed peerId > 0) :
    UInt32.ofNat (signed peerId).toNat = peerId := by
  have below := peerId.toNat_lt
  have value : (signed peerId).toNat = peerId.toNat := by
    unfold signed at given ⊢
    split at given <;> omega
  rw [value]
  exact UInt32.ofNat_toNat

structure Linked (s : State) : Prop where
  apart : s.neighbors.Apart
  proper : s.services.Proper
  linked : ∀ key ∈ s.services.keys, ∃ row ∈ s.neighbors.rows, row.peerId = key.1

theorem linked_boot : Linked boot where
  apart := ⟨List.nodup_nil, by simp [boot]⟩
  proper := ⟨List.nodup_nil, by simp [boot, Services.keys], fun _ => rfl⟩
  linked := by simp [boot, Services.keys]

section Linked

variable (linked : Linked s)
include linked

theorem Linked.received (zid : row.zid.length < zenohIdSize)
    (name : row.name.length < nameSize) (received : Received row s s') : Linked s' := by
  cases received with
  | alone peer neighbors added without =>
      exact ⟨linked.apart.add zid added, linked.proper,
        fun key member => added.linked (linked.linked key member)⟩
  | both peer neighbors neighbors' services added given same registered =>
      obtain ⟨proper, either⟩ := linked.proper.registered name registered
      refine ⟨same.apart (linked.apart.add zid added), proper, fun key member => ?_⟩
      apply same.linked
      rcases either key member with old | peerOf
      · exact added.linked (linked.linked key old)
      · rcases added.present zid with ⟨rfl, -⟩ | ⟨neighbor, member, -, rfl⟩
        · exact absurd given (by decide)
        · exact ⟨neighbor, member, by rw [peerOf, ofNat_signed given]⟩

/-- A row that did not become a neighbor does not become one later, and one that
did is known. -/
theorem Received.again (zid : row.zid.length < zenohIdSize)
    (name : row.name.length < nameSize) (first : Received row s s')
    (second : Received row s' s'') : s''.counts = s'.counts := by
  cases first with
  | alone peer neighbors added without =>
      cases second with
      | alone peer' neighbors' added' without' =>
          have length := (added.again linked.apart zid (.refl neighbors) added').2
          exact Prod.ext length rfl
      | both peer' _ _ services added' given same registered =>
          obtain ⟨rfl, -⟩ := added.again linked.apart zid (.refl neighbors) added'
          exact absurd given without
  | both peer neighbors neighbors' services added given same registered =>
      cases second with
      | alone peer' _ added' without =>
          obtain ⟨rfl, -⟩ := added.again linked.apart zid same added'
          exact absurd given without
      | both peer' _ _ services' added' given' same' registered' =>
          obtain ⟨rfl, length⟩ := added.again linked.apart zid same added'
          exact Prod.ext (same'.length.trans length) (registered.again name registered')

theorem Linked.neighbors {neighbors : Neighbors} (apart : neighbors.Apart)
    (links : ∀ key ∈ s.services.keys, ∃ row ∈ neighbors.rows, row.peerId = key.1) :
    Linked { s with neighbors } :=
  ⟨apart, linked.proper, links⟩

theorem Linked.services {services : Services}
    (proper : services.Proper) (fewer : ∀ key ∈ services.keys, key ∈ s.services.keys) :
    Linked { s with services } :=
  ⟨linked.apart, proper, fun key member => linked.linked key (fewer key member)⟩

theorem Linked.drop (zenohId : Option CString)
    (keeps : KeepsMesh s (.drop zenohId)) : Linked (step s (.drop zenohId)) := by
  cases zenohId with
  | none => exact linked
  | some zenohId =>
      rcases neighborsDrop_cases zenohId s.neighbors with same | ⟨row, id, perm⟩
      · rw [step, same]
        exact linked
      · have fewer := (List.sublist_cons_self row _).subperm.trans perm.subperm
        refine linked.neighbors (linked.apart.subperm fewer _) fun key member => ?_
        obtain ⟨other, known, peer⟩ := linked.linked key member
        refine ⟨other, ?_, peer⟩
        rcases List.mem_cons.mp (perm.symm.subset known) with rfl | left
        · exact absurd peer.symm (keeps zenohId rfl other known id key member)
        · exact left

theorem Linked.reap (timeout now : Int64) : Linked (neighborsReap timeout now s) := by
  obtain ⟨kept, gone⟩ := sweep_perm (Neighbor.isStale timeout now) s.neighbors.rows
  obtain ⟨proper, without⟩ := linked.proper.dropPeers
    (sweep (Neighbor.isStale timeout now) s.neighbors.rows.length 0 s.neighbors.rows).2
  refine ⟨linked.apart.subperm (kept.subperm.trans List.filter_sublist.subperm) _, proper,
    fun key member => ?_⟩
  obtain ⟨old, apart⟩ := without key member
  obtain ⟨row, known, peer⟩ := linked.linked key old
  refine ⟨row, kept.symm.subset (List.mem_filter.mpr ⟨known, ?_⟩), peer⟩
  cases stale : Neighbor.isStale timeout now row with
  | false => rfl
  | true =>
      exact absurd peer.symm
        (apart row (gone.symm.subset (List.mem_filter.mpr ⟨known, stale⟩)))

theorem Linked.registerRemote (name fqn : Option CString) (port : UInt16) (peerId : UInt32)
    (keeps : KeepsMesh s (.registerRemote name fqn port peerId)) :
    Linked (step s (.registerRemote name fqn port peerId)) := by
  have same : name = none ∨ fqn = none →
      (Mesh.registerRemote name fqn port peerId s.services).2 = s.services := by
    unfold Mesh.registerRemote
    rintro (rfl | rfl)
    · split <;> rfl
    · split
      · rfl
      · cases name <;> rfl
  cases name with
  | none => rw [step, same (.inl rfl)]; exact linked
  | some name =>
      cases fqn with
      | none => rw [step, same (.inr rfl)]; exact linked
      | some fqn =>
          obtain ⟨proper, either⟩ := linked.proper.registered (keeps.1 name rfl)
            (registerRemote_cases name fqn port peerId s.services)
          refine ⟨linked.apart, proper, fun key member => ?_⟩
          rcases either key member with old | rfl
          · exact linked.linked key old
          · obtain ⟨row, known, -, peer⟩ := keeps.2 (proper.peers key member)
            exact ⟨row, known, peer⟩

theorem Linked.step (op : Op) (keeps : KeepsMesh s op) : Linked (Mesh.step s op) := by
  cases op with
  | recv own payload now now' =>
      rcases meshRecv_cases own payload with ignored | ⟨row, parsed, received⟩
      · rw [Mesh.step, ignored]
        exact linked
      · obtain ⟨zid, name⟩ := keeps row parsed
        exact linked.received zid name (received now now' s)
  | add zenohId host caps now =>
      cases zenohId with
      | none => exact linked
      | some zenohId =>
          cases host with
          | none => exact linked
          | some host =>
              have added := neighborsAdd_cases zenohId host caps now s.neighbors
              exact linked.neighbors (linked.apart.add (keeps zenohId rfl) added)
                fun key member => added.linked (linked.linked key member)
  | seen zenohId now =>
      have same := neighborsSeen_same zenohId now s.neighbors
      exact linked.neighbors (same.apart linked.apart)
        fun key member => same.linked (linked.linked key member)
  | drop zenohId => exact linked.drop zenohId keeps
  | reap timeout now => exact linked.reap timeout now
  | init arena limit =>
      obtain ⟨proper, keys⟩ := linked.proper.init arena limit
      exact linked.services proper fun key member => keys ▸ member
  | register svc =>
      obtain ⟨cap, keys⟩ := register_keys svc s.services
      exact linked.services (linked.proper.fewer (cap ▸ id) (keys ▸ .refl _))
        fun key member => keys ▸ member
  | registerRemote name fqn port peerId =>
      exact linked.registerRemote name fqn port peerId keeps
  | dropPeer peerId =>
      obtain ⟨proper, without⟩ := linked.proper.dropPeer peerId
      exact linked.services proper fun key member => (without key member).1

theorem Linked.consistent : Consistent s where
  neighbors := linked.apart.distinct
  services := linked.proper.distinct
  linked key member := by
    obtain ⟨row, known, peer⟩ := linked.linked key member
    exact ⟨row, known, linked.apart.alive row known, peer⟩
  again own payload now now' later later' keeps := by
    rcases meshRecv_cases own payload with ignored | ⟨row, parsed, received⟩
    · rw [ignored later]
    · obtain ⟨zid, name⟩ := keeps row parsed
      exact (received now now' s).again linked zid name (received later later' _)

end Linked

/-- A run whose steps all keep the tables apart and linked is consistent. -/
theorem consistent_of_keeps (ops : List Op) (keeps : Along Mesh.step KeepsMesh boot ops) :
    Consistent (ops.foldl Mesh.step boot) :=
  (keeps.invariant (fun _ op linked keeps => linked.step op keeps) linked_boot).consistent

def seenTwice : List Op :=
  [.init true 0, .recv none (ascii "z|h|n|f|1") 0 0, .recv none (ascii "z|h|n|f|1") 5 5,
    .reap 10 20]

theorem consistent_of_keeps_seenTwice : Consistent (seenTwice.foldl Mesh.step boot) :=
  consistent_of_keeps seenTwice (by decide)

/-- A neighbor that is dropped leaves its services behind. -/
theorem consistent_fails :
    ¬ Consistent (([.init true 0, .recv none (ascii "z|h|n|f|1") 0 0,
      .drop (some (CString.ofBytes (ascii "z")))] : List Op).foldl Mesh.step boot) := by
  intro consistent
  have orphan := consistent.linked (1, CString.ofBytes (ascii "n"))
  revert orphan
  decide

end Mesh

end Metal.Net.Mesh
