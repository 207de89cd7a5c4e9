import Metal.Lib.CString
import Metal.Lib.Table

namespace Metal.Net.Mesh

open Metal.Lib

/-! The table of `net/neighbors` and the registry of `services`, which the
records that peers publish feed. -/

def neighborsMax : Nat := 32

structure Neighbor where
  peerId : UInt32
  host : CString
  zenohId : CString
  caps : UInt32
  lastSeenUs : Int64
  alive : Bool

/-- Lengths of the buffers for a neighbor's host and id, with terminator. -/
def hostSize : Nat := 64

def zenohIdSize : Nat := 128

structure Neighbors where
  rows : List Neighbor
  nextPeerId : UInt32

/-- A peer id as the `int32_t` that is returned. -/
def signed (peerId : UInt32) : Int :=
  if peerId.toNat < 2 ^ 31 then peerId.toNat else peerId.toNat - 2 ^ 32

def Neighbor.isAlive (zenohId : CString) (row : Neighbor) : Bool :=
  row.alive && row.zenohId = zenohId

def neighborsAdd (zenohId host : Option CString) (caps : UInt32) (now : Int64)
    (t : Neighbors) : Int × Neighbors :=
  match zenohId, host with
  | some zenohId, some host =>
      match modifyFirst (Neighbor.isAlive zenohId) (fun row =>
          { row with
            host := host.strncpy (hostSize - 1)
            caps
            lastSeenUs := now
            alive := true }) t.rows with
      | some (row, rows) => (signed row.peerId, { t with rows })
      | none =>
          if t.rows.length ≥ neighborsMax then (-1, t)
          else
            let row : Neighbor :=
              { peerId := t.nextPeerId
                host := host.strncpy (hostSize - 1)
                zenohId := zenohId.strncpy (zenohIdSize - 1)
                caps
                lastSeenUs := now
                alive := true }
            (signed row.peerId, ⟨t.rows ++ [row], t.nextPeerId + 1⟩)
  | _, _ => (-1, t)

def neighborsSeen (zenohId : Option CString) (now : Int64) (t : Neighbors) :
    Int × Neighbors :=
  match zenohId with
  | none => (-1, t)
  | some zenohId =>
      match modifyFirst (Neighbor.isAlive zenohId)
          (fun row => { row with lastSeenUs := now, alive := true }) t.rows with
      | some (row, rows) => (signed row.peerId, { t with rows })
      | none => (-1, t)

def neighborsDrop (zenohId : Option CString) (t : Neighbors) : Int × Neighbors :=
  match zenohId with
  | none => (-1, t)
  | some zenohId =>
      match t.rows.findIdx? fun row => row.zenohId = zenohId with
      | some i => (0, { t with rows := swapRemove t.rows i })
      | none => (-1, t)

def Neighbor.isStale (timeout now : Int64) (row : Neighbor) : Bool :=
  !row.alive ||
    (timeout > 0 && now ≥ row.lastSeenUs && now - row.lastSeenUs ≥ timeout)

def servicesMax : Nat := 16

/-- Rows of the pool that serves before `init`. -/
def servicesPre : Nat := 4

structure Service where
  name : CString
  fqn : CString
  defaultPort : UInt16

inductive Record
  | here (svc : Service)
  | remote (peerId : UInt32) (name fqn : CString) (port : UInt16)

def nameSize : Nat := 64

def fqnSize : Nat := 128

/-- `cap` is the size of the pool that `init` took from the arena. -/
structure Services where
  cap : Option Nat
  rows : List Record

/-- `limit` is the soft limit of the card, and `arena` tells whether the arena
serves the pool. -/
def servicesInit (arena : Bool) (limit : UInt32) (t : Services) : Int × Services :=
  match t.cap with
  | some _ => (0, t)
  | none =>
      let cap :=
        if limit = 0 ∨ limit.toNat > servicesMax then servicesMax else limit.toNat
      if arena then (0, ⟨some cap, t.rows.take cap⟩) else (-1, t)

/-- `none` stands for a record with a part missing. -/
def servicesRegister (svc : Option Service) (t : Services) : Int × Services :=
  match svc with
  | none => (-1, t)
  | some svc =>
      if t.rows.length ≥ t.cap.getD servicesPre then (-1, t)
      else (0, { t with rows := t.rows ++ [Record.here svc] })

def Record.isRemote (peerId : UInt32) (name : CString) : Record → Bool
  | .here _ => false
  | .remote peerId' name' _ _ => peerId' = peerId && name' = name

def Record.renew (fqn : CString) (port : UInt16) : Record → Record
  | .here svc => .here svc
  | .remote peerId name _ _ => .remote peerId name (fqn.strncpy (fqnSize - 1)) port

def registerRemote (name fqn : Option CString) (port : UInt16) (peerId : UInt32)
    (t : Services) : Int × Services :=
  match t.cap with
  | none => (-1, t)
  | some cap =>
      match name, fqn with
      | some name, some fqn =>
          if peerId = 0 then (-1, t)
          else
            match modifyFirst (Record.isRemote peerId name) (Record.renew fqn port)
                t.rows with
            | some (_, rows) => (0, { t with rows })
            | none =>
                if t.rows.length ≥ cap then (-1, t)
                else
                  (0, { t with
                    rows := t.rows ++
                      [Record.remote peerId (name.strncpy (nameSize - 1))
                        (fqn.strncpy (fqnSize - 1)) port] })
      | _, _ => (-1, t)

def Record.isOf (peerId : UInt32) : Record → Bool
  | .here _ => false
  | .remote peerId' _ _ _ => peerId' = peerId

def dropPeer (peerId : UInt32) (t : Services) : Int × Services :=
  if t.cap = none ∨ peerId = 0 then (-1, t)
  else (0, { t with rows := (sweep (Record.isOf peerId) t.rows.length 0 t.rows).1 })

structure State where
  neighbors : Neighbors
  services : Services

def boot : State := ⟨⟨[], 1⟩, ⟨none, []⟩⟩

def neighborsReap (timeout now : Int64) (s : State) : State :=
  let rows := s.neighbors.rows
  let (kept, gone) := sweep (Neighbor.isStale timeout now) rows.length 0 rows
  { neighbors := { s.neighbors with rows := kept }
    services := gone.foldl (fun t row => (dropPeer row.peerId t).2) s.services }

abbrev Zid := Vector UInt8 16

def zidHex (zid : Zid) : Bytes :=
  zid.toList.flatMap fun (byte : UInt8) => [hexDigit (byte >>> 4), hexDigit (byte &&& 15)]

/-- `strtok_r(…, "|", &save)`: the next token, and what is saved. -/
def strtok (save : CString) : Option (CString × CString) :=
  let bar : UInt8 := 124
  let start := save.drop (save.bytes.takeWhile (· = bar)).length
  let len := (start.bytes.takeWhile (· ≠ bar)).length
  if len = 0 then none
  else some (start.strncpy len, start.drop (len + 1))

/-- `(uint16_t)strtoul(…, NULL, 10)`: blanks, a sign and digits, of which the
last 16 bits are kept. -/
def strtoulPort (text : CString) : UInt16 :=
  let blank (c : UInt8) : Bool := c = 32 || c = 9 || c = 10 || c = 13
  let rest := text.bytes.dropWhile blank
  let digits (bytes : Bytes) : UInt16 :=
    (bytes.takeWhile fun c => 48 ≤ c && c ≤ 57).foldl
      (fun v c => v * 10 + (c - 48).toUInt16) 0
  match rest with
  | 45 :: rest => 0 - digits rest
  | 43 :: rest => digits rest
  | rest => digits rest

structure MeshRow where
  zid : CString
  host : CString
  name : CString
  fqn : CString
  port : UInt16

/-- The row of a payload: `zidhex|host|name|fqn|port`. -/
def meshRow (payload : Option Bytes) : Option MeshRow := do
  let payload ← payload
  guard (payload.length ≠ 0 ∧ payload.length < 384)
  let (zid, save) ← strtok (CString.ofBytes payload)
  let (host, save) ← strtok save
  let (name, save) ← strtok save
  let (fqn, save) ← strtok save
  let (port, _) ← strtok save
  return ⟨zid, host, name, fqn, strtoulPort port⟩

def capHasZenoh : UInt32 := 4

def capHasServices : UInt32 := 8

/-- `own` is this host's zenoh id, when there is a session; `now` and `now'`
are what the clock says for `add` and for `seen`. -/
def meshRecv (own : Option Zid) (payload : Option Bytes) (now now' : Int64)
    (s : State) : State :=
  match meshRow payload with
  | none => s
  | some row =>
      if own.any fun own => zidHex own = row.zid.bytes then s
      else
        let (peer, neighbors) := neighborsAdd (some row.zid) (some row.host)
          (capHasZenoh ||| capHasServices) now s.neighbors
        if peer > 0 then
          { neighbors := (neighborsSeen (some row.zid) now' neighbors).2
            services := (registerRemote (some row.name) (some row.fqn) row.port
              (UInt32.ofNat peer.toNat) s.services).2 }
        else
          { s with neighbors }

end Metal.Net.Mesh
