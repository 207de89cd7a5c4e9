import Metal.Lib.CString

namespace Metal.Fs

open Metal.Lib

/-! A FAT volume on a block device: its entries, its clusters and its files. -/

def fatSec : Nat := 512

inductive Fault
  | outside
  | byZero
  | tooDeep
  deriving DecidableEq

structure Sector where
  bytes : Bytes
  length_eq : bytes.length = fatSec

namespace Sector

def byte (sec : Sector) (i : Nat) : Except Fault UInt8 :=
  match sec.bytes[i]? with
  | some byte => .ok byte
  | none => .error .outside

def le16 (sec : Sector) (i : Nat) : Except Fault UInt16 := do
  let low ← sec.byte i
  let high ← sec.byte (i + 1)
  return low.toUInt16 ||| high.toUInt16 <<< 8

def le32 (sec : Sector) (i : Nat) : Except Fault UInt32 := do
  let first ← sec.byte i
  let second ← sec.byte (i + 1)
  let third ← sec.byte (i + 2)
  let fourth ← sec.byte (i + 3)
  return first.toUInt32 ||| second.toUInt32 <<< 8 ||| third.toUInt32 <<< 16 |||
    fourth.toUInt32 <<< 24

end Sector

def div (a b : UInt32) : Except Fault UInt32 := if b = 0 then .error .byZero else .ok (a / b)

inductive FatBits
  | fat12
  | fat16
  | fat32
  deriving DecidableEq

/-- The sectors of a device; `none` where the read fails. -/
abbrev Disk := Nat → Option Sector

/-- The volumes that `import_blk` makes. -/
structure Vol where
  blk : Int
  reserved : UInt32
  bits : FatBits
  firstData : UInt32
  spc : UInt32
  tot : UInt32
  reserved_lt : reserved.toNat < 2 ^ 16
  spc_pos : 0 < spc.toNat
  spc_le : spc.toNat ≤ 64
  data_lt : firstData.toNat < tot.toNat
  deriving DecidableEq

def half (clus : UInt32) (low high : UInt8) : UInt32 :=
  let raw := low.toUInt32 ||| high.toUInt32 <<< 8
  if clus &&& 1 ≠ 0 then (raw >>> 4) &&& 0xfff else raw &&& 0xfff

def FatBits.offset (bits : FatBits) (clus : UInt32) : UInt32 :=
  match bits with
  | .fat12 => clus + clus / 2
  | .fat16 => clus * 2
  | .fat32 => clus * 4

/-- The entry at byte `o` of a sector; one of 12 bits may go on in the next. -/
def entryIn (disk : Disk) (bits : FatBits) (clus lba : UInt32) (o : Nat) : Except Fault UInt32 :=
  match disk lba.toNat with
  | none => .ok 0
  | some sec =>
      match bits with
      | .fat12 =>
          if o + 1 ≥ fatSec then
            match disk (lba + 1).toNat with
            | none => .ok 0
            | some nxt => do
                let low ← sec.byte o
                let high ← nxt.byte 0
                return half clus low high
          else do
            let low ← sec.byte o
            let high ← sec.byte (o + 1)
            return half clus low high
      | .fat16 =>
          if o + 1 ≥ fatSec then .ok 0
          else do
            let entry ← sec.le16 o
            return entry.toUInt32
      | .fat32 =>
          if o + 3 ≥ fatSec then .ok 0
          else do
            let entry ← sec.le32 o
            return entry &&& 0x0fffffff

def fatEntry (disk : Disk) (reserved : UInt32) (bits : FatBits) (clus : UInt32) :
    Except Fault UInt32 :=
  let off := bits.offset clus
  entryIn disk bits clus (reserved + off / 512) (off % 512).toNat

def FatBits.eoc : FatBits → UInt32
  | .fat12 => 0xff8
  | .fat16 => 0xfff8
  | .fat32 => 0x0ffffff8

def clusLba (firstData spc clus : UInt32) : UInt32 := firstData + (clus - 2) * spc

/-- The loop over the sectors of a cluster; `out` is what has been copied. -/
def readSecs (disk : Disk) (lba : UInt32) (want : Nat) : Nat → UInt32 → Bytes → Option Bytes
  | 0, _, out => some out
  | left + 1, i, out =>
      if out.length < want then
        match disk (lba + i).toNat with
        | none => none
        | some sec =>
            readSecs disk lba want left (i + 1)
              (out ++ sec.bytes.take (min (want - out.length) fatSec))
      else some out

/-- The loop over the clusters, at most `left` of them. -/
def readClusters (disk : Disk) (v : Vol) (want : Nat) :
    Nat → UInt32 → Bytes → Except Fault (Option Bytes)
  | 0, _, out => .ok (some out)
  | left + 1, clus, out =>
      if 2 ≤ clus ∧ clus < v.bits.eoc ∧ out.length < want then
        match readSecs disk (clusLba v.firstData v.spc clus) want v.spc.toNat 0 out with
        | none => .ok none
        | some out => do
            let next ← fatEntry disk v.reserved v.bits clus
            if next = 0 then return none
            else readClusters disk v want left next out
      else .ok (some out)

def readFile (disk : Disk) (v : Vol) (start size cap : UInt32) : Except Fault (Option Bytes) :=
  if start < 2 ∨ v.spc = 0 then .ok none
  else
    let want := if cap < size then cap else size
    if want = 0 then .ok (some [])
    else do
      let clusBytes := v.spc * 512
      let need ← div (size + clusBytes - 1) clusBytes
      let need := if need = 0 then 1 else need
      let got ← readClusters disk v want.toNat need.toNat start []
      return got.bind fun out => if out.length > 0 then some out else none

structure Ent where
  vol : Vol
  path : CString
  clus : UInt32
  size : UInt32
  isDir : Bool
  deriving DecidableEq

def findEnt (path : CString) (ents : List Ent) : Option Ent :=
  if path.bytes = [] then none else ents.find? fun e => e.path = path

/-- What a caller with a buffer of `cap` bytes reads. -/
def fatRead (disks : Int → Disk) (ents : List Ent) (path : CString) (cap : UInt32) :
    Except Fault (Option Bytes) :=
  match findEnt path ents with
  | none => .ok none
  | some e =>
      if e.isDir then .ok none
      else if e.size = 0 then .ok (some [])
      else readFile (disks e.vol.blk) e.vol e.clus e.size cap

end Metal.Fs
