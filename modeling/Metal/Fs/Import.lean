import Metal.Fs.Fat

namespace Metal.Fs

open Metal.Lib

/-! Importing a volume: its boot sector and the walk over its directories. -/

def fatPathMax : Nat := 256

/-- The loop of `lfn_slot`: the units of a slot, from the place `at_` on. -/
def lfnUnits (sec : Sector) (e : Nat) : List Nat → Nat → List UInt16 → Except Fault (List UInt16)
  | [], _, ucs => .ok ucs
  | pos :: rest, at_, ucs =>
      if at_ < 260 then do
        let u ← sec.le16 (e + pos)
        lfnUnits sec e rest (at_ + 1) (ucs.set at_ u)
      else .ok ucs

def lfnPos : List Nat := [1, 3, 5, 7, 9, 14, 16, 18, 20, 22, 24, 28, 30]

def lfnSlot (sec : Sector) (e : Nat) (ucs : List UInt16) : Except Fault (List UInt16) := do
  let first ← sec.byte e
  let seq := (first &&& 0x1f).toNat
  if seq = 0 ∨ 20 < seq then return ucs
  else lfnUnits sec e lfnPos ((seq - 1) * 13) ucs

/-- `cap` is the size of the buffer that `dst` is the front of. -/
def putUtf16 (cap : Nat) (dst : Bytes) (u : UInt16) : Bytes :=
  if u = 0 ∨ u = 0xffff ∨ dst.length + 1 ≥ cap then dst
  else if u < 0x80 then dst ++ [u.toUInt8]
  else if u < 0x800 ∧ dst.length + 2 < cap then
    dst ++ [(u >>> 6 ||| 0xc0).toUInt8, (u &&& 0x3f ||| 0x80).toUInt8]
  else if dst.length + 3 < cap then
    dst ++ [(u >>> 12 ||| 0xe0).toUInt8, (u >>> 6 &&& 0x3f ||| 0x80).toUInt8,
      (u &&& 0x3f ||| 0x80).toUInt8]
  else dst

def lfnUtf8 (ucs : List UInt16) : CString :=
  .ofBytes ((ucs.takeWhile fun u => u ≠ 0 ∧ u ≠ 0xffff).foldl (putUtf16 fatPathMax) [])

def nameField (sec : Sector) (i : Nat) : Nat → Except Fault Bytes
  | 0 => .ok []
  | left + 1 => do
      let c ← sec.byte i
      if c = 32 then return []
      else
        let rest ← nameField sec (i + 1) left
        return c :: rest

def name83 (sec : Sector) (e : Nat) : Except Fault CString := do
  let base ← nameField sec e 8
  let c ← sec.byte (e + 8)
  if c = 32 then return .ofBytes base
  else
    let ext ← nameField sec (e + 8) 3
    return .ofBytes (base ++ 46 :: ext)

/-- The bytes that `join_path` puts in front of the leaf; `none` where the slash
does not fit. -/
def joinFront (dir : CString) : Option Bytes :=
  let dst := dir.bytes.take (fatPathMax - 1)
  if dst.getLast? = some slash then some dst
  else if dst.length + 1 ≥ fatPathMax then none
  else some (dst ++ [slash])

theorem slash_nul {dir : CString} {front : Bytes} (joined : joinFront dir = some front) :
    (0 : UInt8) ∉ front := by
  have dst : (0 : UInt8) ∉ dir.bytes.take (fatPathMax - 1) := fun member =>
    dir.nulFree (List.mem_of_mem_take member)
  rw [joinFront] at joined
  split at joined
  case isTrue =>
    obtain rfl := Option.some.inj joined
    exact dst
  case isFalse =>
    split at joined
    case isTrue => nomatch joined
    case isFalse =>
      obtain rfl := Option.some.inj joined
      rw [List.mem_append, List.mem_singleton]
      exact not_or.mpr ⟨dst, by decide⟩

def joinPath (dir leaf : CString) : Option CString :=
  if leaf.bytes = [] then none
  else
    match joined : joinFront dir with
    | none => none
    | some front =>
        if front.length + leaf.length + 1 ≤ fatPathMax then
          some ⟨front ++ leaf.bytes, by
            rw [List.mem_append]
            exact not_or.mpr ⟨slash_nul joined, leaf.nulFree⟩⟩
        else none

/-- What the walk has made: the entries, how often it has asked the arena, and how
many entries were added. -/
structure Walk where
  ents : List Ent
  asked : Nat
  added : Nat

/-- `serves` tells of each request whether the arena has room. -/
def addEnt (serves : Nat → Bool) (e : Ent) (w : Walk) : Walk :=
  if e.path.bytes = [] ∨ (findEnt e.path w.ents).isSome then w
  else if serves w.asked && serves (w.asked + 1) then
    { ents := e :: w.ents, asked := w.asked + 2, added := w.added + 1 }
  else { w with asked := w.asked + 2 }

structure Lfn where
  ucs : List UInt16
  have_ : Bool

def Lfn.start : Lfn := ⟨List.replicate 260 0, false⟩

inductive DirEnt
  | last
  | skip
  | slot (ucs : List UInt16)
  | dir (path : CString) (clus : UInt32)
  | file (path : CString) (clus size : UInt32)

def dots (leaf : CString) : Bool :=
  leaf.bytes = [] || leaf.bytes = [46] || leaf.bytes = [46, 46]

def namedEnt (path : CString) (attr : UInt8) (clus size : UInt32) : DirEnt :=
  if attr &&& 0x10 ≠ 0 then if clus < 2 then .skip else .dir path clus
  else if clus < 2 ∧ size ≠ 0 then .skip
  else .file path clus size

def entClus (bits : FatBits) (sec : Sector) (e : Nat) : Except Fault UInt32 := do
  let low ← sec.le16 (e + 26)
  if bits = .fat32 then
    let high ← sec.le16 (e + 20)
    return low.toUInt32 ||| high.toUInt32 <<< 16
  else return low.toUInt32

def entLeaf (sec : Sector) (e : Nat) (l : Lfn) : Except Fault CString :=
  if l.have_ then .ok (lfnUtf8 l.ucs) else name83 sec e

def readEnt (bits : FatBits) (sec : Sector) (e : Nat) (pre : CString) (l : Lfn) :
    Except Fault DirEnt := do
  let first ← sec.byte e
  if first = 0 then return .last
  else if first = 0xe5 then return .skip
  else
    let attr ← sec.byte (e + 11)
    if attr = 0x0f then
      let ucs := if first &&& 0x40 ≠ 0 then Lfn.start.ucs else l.ucs
      let ucs ← lfnSlot sec e ucs
      return .slot ucs
    else if attr &&& 0x08 ≠ 0 then return .skip
    else
      let size ← sec.le32 (e + 28)
      let clus ← entClus bits sec e
      let leaf ← entLeaf sec e l
      if dots leaf then return .skip
      else
        match joinPath pre leaf with
        | none => return .skip
        | some path => return namedEnt path attr clus size

/-- `walk_dir` for a directory below: its cluster and its path. -/
abbrev Descend := UInt32 → CString → Walk → Except Fault (Int × Walk)

def takeEnt (serves : Nat → Bool) (descend : Descend) (v : Vol) (sec : Sector) (e : Nat)
    (pre : CString) (l : Lfn) (w : Walk) : Except Fault (Int × Lfn × Walk) := do
  match ← readEnt v.bits sec e pre l with
  | .last => return (-2, { l with have_ := false }, w)
  | .skip => return (0, { l with have_ := false }, w)
  | .slot ucs => return (0, ⟨ucs, true⟩, w)
  | .file path clus size =>
      return (0, { l with have_ := false }, addEnt serves ⟨v, path, clus, size, false⟩ w)
  | .dir path clus =>
      let (st, w) ← descend clus path (addEnt serves ⟨v, path, clus, 0, true⟩ w)
      return (st, { l with have_ := false }, w)

/-- The loop over the entries of a sector, `left` of them from byte `i` on. -/
def walkDirSec (serves : Nat → Bool) (descend : Descend) (v : Vol) (sec : Sector)
    (pre : CString) : Nat → Nat → Lfn → Walk → Except Fault (Bool × Lfn × Walk)
  | 0, _, l, w => .ok (false, l, w)
  | left + 1, i, l, w => do
      let (st, l, w) ← takeEnt serves descend v sec i pre l w
      if st = -2 then return (true, l, w)
      else walkDirSec serves descend v sec pre left (i + 32) l w

/-- A loop over sectors; what comes back first is the status of `walk_dir`, where
it is settled. -/
def walkSecs (serves : Nat → Bool) (disk : Disk) (descend : Descend) (v : Vol) (pre : CString)
    (lba : UInt32) : Nat → UInt32 → Lfn → Walk → Except Fault (Option Int × Lfn × Walk)
  | 0, _, l, w => .ok (none, l, w)
  | left + 1, i, l, w =>
      match disk (lba + i).toNat with
      | none => .ok (some (-1), l, w)
      | some sec => do
          let (stop, l, w) ← walkDirSec serves descend v sec pre 16 0 l w
          if stop then return (some 0, l, w)
          else walkSecs serves disk descend v pre lba left (i + 1) l w

/-- The loop over the clusters of a directory, at most `left` of them. -/
def walkClus (serves : Nat → Bool) (disk : Disk) (descend : Descend) (v : Vol) (pre : CString) :
    Nat → UInt32 → Lfn → Walk → Except Fault (Int × Walk)
  | 0, _, _, w => .ok (0, w)
  | left + 1, clus, l, w =>
      if 2 ≤ clus ∧ clus < v.bits.eoc then do
        let (stop, l, w) ← walkSecs serves disk descend v pre
          (clusLba v.firstData v.spc clus) v.spc.toNat 0 l w
        match stop with
        | some st => return (st, w)
        | none =>
            let next ← fatEntry disk v.reserved v.bits clus
            if next = 0 then return (0, w)
            else walkClus serves disk descend v pre left next l w
      else .ok (0, w)

/-- One activation of `walk_dir`. -/
def walkDirWith (serves : Nat → Bool) (disk : Disk) (descend : Descend) (v : Vol)
    (start rootSecs : UInt32) (pre : CString) (w : Walk) : Except Fault (Int × Walk) :=
  if rootSecs ≠ 0 then do
    let (stop, _, w) ← walkSecs serves disk descend v pre (v.firstData - rootSecs)
      rootSecs.toNat 0 .start w
    return (stop.getD 0, w)
  else do
    let maxClus ← div (v.tot - v.firstData) v.spc
    if start < 2 ∨ maxClus = 0 then return (-1, w)
    else walkClus serves disk descend v pre maxClus.toNat start .start w

/-- At most `depth` activations of `walk_dir` are nested. -/
def walkDir (serves : Nat → Bool) (disk : Disk) (v : Vol) :
    Nat → UInt32 → UInt32 → CString → Walk → Except Fault (Int × Walk)
  | 0, _, _, _, _ => .error .tooDeep
  | depth + 1, start, rootSecs, pre, w =>
      walkDirWith serves disk (fun clus path => walkDir serves disk v depth clus 0 path) v start
        rootSecs pre w

structure Boot where
  bps : UInt16
  spc : UInt8
  reserved : UInt16
  nfats : UInt8
  rootEnts : UInt16
  tot16 : UInt16
  fat16 : UInt16
  tot32 : UInt32
  fat32 : UInt32
  rootClus : UInt32

namespace Boot

def read (sec : Sector) : Except Fault Boot := do
  let bps ← sec.le16 11
  let spc ← sec.byte 13
  let reserved ← sec.le16 14
  let nfats ← sec.byte 16
  let rootEnts ← sec.le16 17
  let tot16 ← sec.le16 19
  let fat16 ← sec.le16 22
  let tot32 ← sec.le32 32
  let fat32 ← sec.le32 36
  let rootClus ← sec.le32 44
  return ⟨bps, spc, reserved, nfats, rootEnts, tot16, fat16, tot32, fat32, rootClus⟩

def tot (b : Boot) : UInt32 := if b.tot16 ≠ 0 then b.tot16.toUInt32 else b.tot32

def fatSz (b : Boot) : UInt32 := if b.fat16 ≠ 0 then b.fat16.toUInt32 else b.fat32

def rootSecs (b : Boot) : UInt32 :=
  if b.fat16 ≠ 0 then (b.rootEnts.toUInt32 * 32 + 511) / 512 else 0

def firstData (b : Boot) : UInt32 :=
  b.reserved.toUInt32 + b.nfats.toUInt32 * b.fatSz + b.rootSecs

def Accepted (b : Boot) : Prop :=
  b.bps = 512 ∧ b.spc ≠ 0 ∧ b.spc &&& (b.spc - 1) = 0 ∧ b.spc ≤ 64 ∧ b.reserved ≠ 0 ∧
    b.nfats ≠ 0 ∧ b.nfats ≤ 2 ∧ 4 ≤ b.tot ∧ b.fatSz ≠ 0 ∧ b.firstData < b.tot

instance (b : Boot) : Decidable b.Accepted := by
  unfold Accepted
  infer_instance

def bits (b : Boot) : Except Fault FatBits :=
  if b.fat16 = 0 then .ok .fat32
  else do
    let nclus ← div (b.tot - b.firstData) b.spc.toUInt32
    return if nclus < 4085 then .fat12 else .fat16

/-- The volume on the device `blk`, if it is one that is taken. -/
def vol (blk : Int) (b : Boot) : Except Fault (Option Vol) :=
  if accepted : b.Accepted then do
    let bits ← b.bits
    return some
      { blk := blk
        reserved := b.reserved.toUInt32
        bits := bits
        firstData := b.firstData
        spc := b.spc.toUInt32
        tot := b.tot
        reserved_lt := by
          rw [UInt16.toNat_toUInt32]
          exact b.reserved.toNat_lt
        spc_pos := by
          rw [UInt8.toNat_toUInt32]
          exact Nat.pos_of_ne_zero fun zero => accepted.2.1 (UInt8.toNat_inj.mp zero)
        spc_le := by
          rw [UInt8.toNat_toUInt32]
          exact UInt8.le_iff_toNat_le.mp accepted.2.2.2.1
        data_lt := UInt32.lt_iff_toNat_lt.mp accepted.2.2.2.2.2.2.2.2.2 }
  else .ok none

end Boot

def bootVol (disk : Disk) (blk : Int) : Except Fault (Option (Vol × Boot)) :=
  match disk 0 with
  | none => .ok none
  | some sec => do
      let first ← sec.byte 510
      let second ← sec.byte 511
      if first ≠ 0x55 ∨ second ≠ 0xaa then return none
      else
        let boot ← Boot.read sec
        let v ← boot.vol blk
        return v.map fun v => (v, boot)

def esp : CString := ⟨ascii "/esp", by decide⟩

/-- The entries of all volumes; `arena` tells whether the card has one. -/
structure Entries where
  arena : Bool
  ents : List Ent
  deriving DecidableEq

/-- `ready` tells whether the device is; the first request is the one for the volume. -/
def importBlk (serves : Nat → Bool) (disks : Int → Disk) (ready : Bool) (depth : Nat) (blk : Int)
    (s : Entries) : Except Fault (Int × Entries) :=
  if !s.arena || blk < 0 || !ready then .ok (-1, s)
  else do
    match ← bootVol (disks blk) blk with
    | none => return (-1, s)
    | some (v, boot) =>
        if !serves 0 then return (-1, s)
        else
          let start := if v.bits ≠ .fat32 then 0 else boot.rootClus
          let rootSecs := if v.bits ≠ .fat32 then boot.rootSecs else 0
          let (st, w) ← walkDir serves (disks blk) v depth start rootSecs esp ⟨s.ents, 1, 0⟩
          let s := { s with ents := w.ents }
          if st ≠ 0 ∧ w.added = 0 then return (-1, s)
          else return (w.added, s)

end Metal.Fs
