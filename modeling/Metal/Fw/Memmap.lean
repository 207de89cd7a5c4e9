import Metal.Lib.Words

namespace Metal.Fw.Memmap

open Metal.Lib

/-! The fed memory map of `fw/memmap` and the range that boot picks from it. -/

structure MbInfo where
  flags : UInt32
  mmapLength : UInt32
  mmapAddr : UInt32

inductive Fed
  | nothing
  | mb (magic : UInt32) (info : Option MbInfo)
  | mmap (blob : Bytes)

/-- The bytes of the map; a multiboot map is read from `memory` where it lies. -/
def fedMmap (memory : Nat → UInt8) : Fed → Option Bytes
  | .nothing => none
  | .mmap blob => some blob
  | .mb magic info =>
      match info with
      | none => none
      | some info =>
          if magic ≠ 0x2BADB002 then none
          else if info.flags &&& ((1 : UInt32) <<< 6) = 0 then none
          -- address 0 is the NULL that `pick` checks for
          else if info.mmapAddr = 0 then none
          else some ((List.range info.mmapLength.toNat).map fun i =>
            memory (info.mmapAddr.toNat + i))

def mmapU32 (p : Bytes) : UInt32 := leU32 p

def mmapU64 (p : Bytes) : UInt64 := leU64 p

structure Record where
  size : UInt32
  base : UInt64
  len : UInt64
  type : UInt32
  deriving DecidableEq

def readRecord (p : Bytes) : Record :=
  ⟨mmapU32 p, mmapU64 (p.drop 4), mmapU64 (p.drop 12), mmapU32 (p.drop 20)⟩

/-- The records that a walk of the map visits, in order; each step moves on by
at least 24 bytes, so the length of the map is fuel enough. -/
def walk : Nat → Bytes → List Record
  | 0, _ => []
  | fuel + 1, p =>
      if 24 ≤ p.length then
        let record := readRecord p
        let step := record.size + 4
        record :: if step < 24 then [] else walk fuel (p.drop step.toNat)
      else
        []

def records (map : Bytes) : List Record := walk map.length map

def alignUpU64 (x a : UInt64) : UInt64 := (x + (a - 1)) &&& ~~~(a - 1)

structure Best where
  base : UInt64
  src : UInt64

def consider (best : Best) (part : UInt64 × UInt64) : Best :=
  let (r0, r1) := part
  if r1 ≤ r0 then best
  else
    let a := alignUpU64 r0 4096
    if a ≥ r1 then best
    else
      let n := r1 - a
      if n < 32 * 1024 then best
      else if n > best.src then ⟨a, n⟩
      else best

/-- The parts of a record that `pick` considers, outside the avoided range. -/
def parts (avoidLo avoidHi : UInt64) (record : Record) : List (UInt64 × UInt64) :=
  let r1 := record.base + record.len
  if record.type = 1 ∧ record.len ≠ 0 then
    if avoidHi ≤ avoidLo ∨ r1 ≤ avoidLo ∨ record.base ≥ avoidHi then
      [(record.base, r1)]
    else
      [(record.base, if avoidLo < r1 then avoidLo else r1),
        (if avoidHi > record.base then avoidHi else record.base, r1)]
  else
    []

def pick (memory : Nat → UInt8) (fed : Fed) (avoidLo avoidHi want : UInt64) :
    Option (UInt64 × UInt64) :=
  match fedMmap memory fed with
  | none => none
  | some map =>
      if map.length < 24 then none
      else
        let avoidHi := if avoidHi < avoidLo then avoidLo else avoidHi
        let best := ((records map).flatMap (parts avoidLo avoidHi)).foldl consider ⟨0, 0⟩
        if best.src = 0 then none
        else
          let n := if want ≠ 0 ∧ best.src > want then want else best.src
          some (best.base, n)

end Metal.Fw.Memmap
