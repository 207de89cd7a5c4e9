import Metal.Lib.Memory
import Metal.Lib.Publish

namespace Metal.Drivers.VirtioTx

open Metal.Lib Function

/-! Sending in `drivers/net/virtio`: any number of cores are in `fw_vnet_tx`, one
load, store or compare-exchange of one core at a time, and the device reads what it is
shown and gives descriptors back in any order.  The cores load and store ring memory byte
by byte, as `ring_ld16`, `ring_st16` and `ring_st32` do, and the device reads words. -/

def fwQsz : Nat := 16

def vnetHdr : Nat := 12

def fwTxSpins : UInt32 := 200000

def pmMetalNetTxWait : Int32 := 1

/-- What `frame` and `len` of a call point out. -/
structure Frame where
  bytes : Bytes
  small : bytes.length < 2 ^ 16
  deriving DecidableEq

def Frame.len (frame : Frame) : UInt16 := UInt16.ofNat frame.bytes.length

/-- The send buffer, length and flags of a descriptor, and the avail entry, of a slot. -/
structure Slot where
  buf : Bytes
  len : Cells 4
  flags : Cells 2
  avail : Cells 2

structure Chain where
  bytes : Bytes
  flags : UInt16

def Slot.chain (slot : Slot) : Chain := ⟨slot.buf.take slot.len.nat, slot.flags.half⟩

def Frame.chain (frame : Frame) : Chain := ⟨List.replicate vnetHdr 0 ++ frame.bytes, 0⟩

/-- The stores of a slot; from `len` on one for each byte of a word. -/
inductive Stage
  | header
  | body
  | len (k : Fin 4)
  | flags (k : Fin 2)
  | avail (k : Fin 2)
  deriving DecidableEq

def Stage.store (frame : Frame) (slot : UInt16) : Stage → Slot → Slot
  | .header, old => { old with buf := writeAt 0 (List.replicate vnetHdr 0) old.buf }
  | .body, old => { old with buf := writeAt vnetHdr frame.bytes old.buf }
  | .len k, old => { old with len := old.len.store k (vnetHdr + frame.bytes.length) }
  | .flags k, old => { old with flags := old.flags.store k 0 }
  | .avail k, old => { old with avail := old.avail.store k slot.toNat }

/-- The next access of a core; `place` numbers its claims, and `low` is the first byte of
the used index, of which the second is loaded next. -/
inductive Pc
  | away
  | load (frame : Frame) (spins : UInt32)
  | reap (frame : Frame) (spins : UInt32) (aidx : UInt16)
  | reapHigh (frame : Frame) (spins : UInt32) (aidx : UInt16) (low : UInt8)
  | reaped (frame : Frame) (spins : UInt32) (aidx used : UInt16)
  | check (frame : Frame) (spins : UInt32) (aidx : UInt16)
  | claim (frame : Frame) (aidx : UInt16)
  | store (stage : Stage) (frame : Frame) (aidx : UInt16) (place : Nat)
  | publish (frame : Frame) (aidx : UInt16) (place : Nat)
  | publishHigh (frame : Frame) (aidx : UInt16) (place : Nat)
  | notify (frame : Frame) (place : Nat)
  deriving DecidableEq

def Stage.next (frame : Frame) (aidx : UInt16) (place : Nat) : Stage → Pc
  | .header => .store .body frame aidx place
  | .body => .store (.len 0) frame aidx place
  | .len k =>
      if more : k.val + 1 < 4 then .store (.len ⟨k + 1, more⟩) frame aidx place
      else .store (.flags 0) frame aidx place
  | .flags k =>
      if more : k.val + 1 < 2 then .store (.flags ⟨k + 1, more⟩) frame aidx place
      else .store (.avail 0) frame aidx place
  | .avail k =>
      if more : k.val + 1 < 2 then .store (.avail ⟨k + 1, more⟩) frame aidx place
      else .publish frame aidx place

structure Call where
  frame : Frame
  result : Int32
  place : Option Nat

structure Taken where
  place : Nat
  id : UInt16
  deriving DecidableEq

/-- `frames` are those of the claimed places.  From it on a record of what happened,
with counts that do not wrap; `seen` is what the device made of what it read. -/
structure State (Core : Type) where
  txLast : UInt16
  availLast : UInt16
  availIdx : Published
  usedIdx : UInt16
  slots : Nat → Slot
  devNext : UInt16
  held : List Taken
  pc : Core → Pc
  frames : List Frame
  fetched : Nat
  seen : List Chain
  returned : List Nat
  calls : List Call

/-- After `fw_setup_queue`. -/
def State.boot (Core : Type) (qframe : UInt32) : State Core where
  txLast := 0
  availLast := 0
  availIdx := .start 0
  usedIdx := 0
  slots _ := ⟨List.replicate (vnetHdr + qframe.toNat) 0, cells 4 0, cells 2 0, cells 2 0⟩
  devNext := 0
  held := []
  pc _ := .away
  frames := []
  fetched := 0
  seen := []
  returned := []
  calls := []

inductive Act (Core : Type)
  | call (core : Core) (frame : Frame)
  | run (core : Core) (spurious : Bool)
  | look
  | fetch
  | giveBack (taken : Taken)

section Step

variable {Core : Type} [DecidableEq Core]

def State.goto (core : Core) (pc : Pc) (s : State Core) : State Core :=
  { s with pc := update s.pc core pc }

def State.answer (core : Core) (call : Call) (s : State Core) : State Core :=
  { s with
    pc := update s.pc core .away
    calls := s.calls ++ [call] }

def call (qframe : UInt32) (core : Core) (frame : Frame) (s : State Core) : State Core :=
  if s.pc core = .away then
    if frame.len = 0 ∨ frame.len.toUInt32 > qframe then s.answer core ⟨frame, -1, none⟩
    else s.goto core (.load frame 0)
  else s

/-- The next access of a core; a compare-exchange may fail without a reason. -/
def runCore (core : Core) (spurious : Bool) (s : State Core) : State Core :=
  match s.pc core with
  | .away => s
  | .load frame spins => s.goto core (.reap frame spins s.availLast)
  | .reap frame spins aidx => s.goto core (.reapHigh frame spins aidx (half s.usedIdx 0))
  | .reapHigh frame spins aidx low =>
      s.goto core (.reaped frame spins aidx (pair low (half s.usedIdx 1)).half)
  | .reaped frame spins aidx used =>
      { s.goto core (.check frame spins aidx) with txLast := used }
  | .check frame spins aidx =>
      if aidx - s.txLast < UInt16.ofNat fwQsz then s.goto core (.claim frame aidx)
      else if spins ≥ fwTxSpins then s.answer core ⟨frame, pmMetalNetTxWait, none⟩
      else s.goto core (.load frame (spins + 1))
  | .claim frame aidx =>
      if s.availLast = aidx ∧ !spurious then
        { s with
          pc := update s.pc core (.store .header frame aidx s.frames.length)
          availLast := aidx + 1
          frames := s.frames ++ [frame] }
      -- `spins = 0`, and the loop adds one
      else s.goto core (.load frame 1)
  | .store stage frame aidx place =>
      let slot := aidx.toNat % fwQsz
      { s with
        pc := update s.pc core (stage.next frame aidx place)
        slots := update s.slots slot
          (stage.store frame (UInt16.ofNat slot) (s.slots slot)) }
  | .publish frame aidx place =>
      { s with
        pc := update s.pc core (.publishHigh frame aidx place)
        availIdx := s.availIdx.storeLow (aidx + 1) (place + 1) }
  | .publishHigh frame aidx place =>
      { s with
        pc := update s.pc core (.notify frame place)
        availIdx := s.availIdx.storeHigh (aidx + 1) }
  | .notify frame place => s.answer core ⟨frame, 0, some place⟩

/-- The device loads the avail index. -/
def look (s : State Core) : State Core := { s with availIdx := s.availIdx.load }

/-- The device reads an avail entry that it was shown, and its descriptor. -/
def fetch (s : State Core) : State Core :=
  if s.devNext = s.availIdx.last then s
  else
    let id := (s.slots (s.devNext.toNat % fwQsz)).avail.half
    { s with
      devNext := s.devNext + 1
      held := s.held ++ [⟨s.fetched, id⟩]
      fetched := s.fetched + 1
      seen := s.seen ++ [(s.slots id.toNat).chain] }

def giveBack (taken : Taken) (s : State Core) : State Core :=
  if taken ∈ s.held then
    { s with
      usedIdx := s.usedIdx + 1
      held := s.held.erase taken
      returned := s.returned ++ [taken.place] }
  else s

def step (qframe : UInt32) (s : State Core) : Act Core → State Core
  | .call core frame => call qframe core frame s
  | .run core spurious => runCore core spurious s
  | .look => look s
  | .fetch => fetch s
  | .giveBack taken => giveBack taken s

end Step

def Pc.unwritten : Pc → Option Nat
  | .store _ _ _ place => some place
  | _ => none

def Pc.place : Pc → Option Nat
  | .store _ _ _ place | .publish _ _ place | .publishHigh _ _ place
  | .notify _ place => some place
  | _ => none

def Pc.halfway : Pc → Bool
  | .publishHigh _ _ _ => true
  | _ => false

variable {Core : Type}

def Ready (s : State Core) (place : Nat) : Prop :=
  (s.slots (place % fwQsz)).avail.half = UInt16.ofNat (place % fwQsz) ∧
    s.frames[place]?.map Frame.chain = some (s.slots (place % fwQsz)).chain

/-- Nobody writes a slot that the device can see and has not given back; each frame
that was sent is shown at one place, and there the device finds it.  The avail index that
the device sees only grows, and is whole when no core is storing it. -/
structure Exclusive (s : State Core) : Prop where
  apart : ∀ core place, (s.pc core).unwritten = some place →
    ∀ other < s.availIdx.count, other % fwQsz = place % fwQsz → other ∈ s.returned
  ready : ∀ place < s.availIdx.count, place ∉ s.returned → Ready s place
  seen : s.seen = (s.frames.take s.fetched).map Frame.chain
  sent : ∀ call ∈ s.calls, call.result = 0 → ∃ place, call.place = some place ∧
    place < s.availIdx.count ∧ s.frames[place]? = some call.frame
  sentOnce : (s.calls.filterMap Call.place).Nodup
  availIdx : s.availIdx.Forward fwQsz
  whole : s.availIdx.Torn → ∃ core, (s.pc core).halfway = true

/-- The steps that go right: a slot is claimed after the device gave it back, the low byte
of a place is stored when those before it are written and none after it was shown, and a
high byte is that of the last low one, which is what the device loads with it. -/
def Keeps (s : State Core) : Act Core → Prop
  | .run core spurious =>
      match s.pc core with
      | .claim _ aidx => s.availLast = aidx → spurious = false →
          ∀ place < s.frames.length, place % fwQsz = aidx.toNat % fwQsz →
            place ∈ s.returned
      | .publish _ _ place =>
          s.availIdx.count ≤ place + 1 ∧
            ∀ core' other, (s.pc core').unwritten = some other → place < other
      | .publishHigh _ aidx _ => s.availIdx.Fits (aidx + 1)
      | _ => True
  | .look => ¬ s.availIdx.Torn
  | _ => True

def Stage.Done (frame : Frame) (id : UInt16) (slot : Slot) : Stage → Prop
  | .header => True
  | .body => slot.buf.take vnetHdr = List.replicate vnetHdr 0
  | .len k => slot.buf.take (vnetHdr + frame.bytes.length) = frame.chain.bytes ∧
      slot.len.Begins (vnetHdr + frame.bytes.length) k
  | .flags k => slot.buf.take slot.len.nat = frame.chain.bytes ∧ slot.flags.Begins 0 k
  | .avail k => slot.chain = frame.chain ∧ slot.avail.Begins id.toNat k

def Knows (qframe : UInt32) (s : State Core) : Pc → Prop
  | .away => True
  | .load frame _ | .reap frame _ _ | .reapHigh frame _ _ _ | .reaped frame _ _ _ | .check frame _ _
  | .claim frame _ => frame.bytes.length ≤ qframe.toNat
  | .store stage frame aidx place => aidx = UInt16.ofNat place ∧
      s.frames[place]? = some frame ∧ frame.bytes.length ≤ qframe.toNat ∧
      stage.Done frame (UInt16.ofNat (place % fwQsz)) (s.slots (place % fwQsz))
  | .publish frame aidx place => aidx = UInt16.ofNat place ∧ s.frames[place]? = some frame
  | .publishHigh frame _ place => place < s.availIdx.count ∧ s.frames[place]? = some frame
  | .notify frame place => place < s.availIdx.count ∧ s.frames[place]? = some frame

structure Inv (qframe : UInt32) (s : State Core) extends Exclusive s where
  availLast : s.availLast = UInt16.ofNat s.frames.length
  index : s.availIdx.Sound fwQsz
  devNext : s.devNext = UInt16.ofNat s.fetched
  fetchedLe : s.fetched ≤ s.availIdx.known
  shownLe : s.availIdx.count ≤ s.frames.length
  reused : ∀ older newer, older < newer → newer < s.frames.length →
    older % fwQsz = newer % fwQsz → older ∈ s.returned
  returnedLt : ∀ place ∈ s.returned, place < s.fetched
  heldLt : ∀ taken ∈ s.held, taken.place < s.fetched
  sizes : ∀ slot, (s.slots slot).buf.length = vnetHdr + qframe.toNat
  written : ∀ place < s.frames.length, place ∉ s.returned →
    (∃ core, (s.pc core).unwritten = some place) ∨ Ready s place
  hidden : ∀ core place, (s.pc core).unwritten = some place → s.availIdx.count ≤ place
  knows : ∀ core, Knows qframe s (s.pc core)
  onePlace : ∀ core core' place, (s.pc core).place = some place →
    (s.pc core').place = some place → core = core'
  unanswered : ∀ core place, (s.pc core).place = some place →
    place ∉ s.calls.filterMap Call.place
  answered : ∀ place ∈ s.calls.filterMap Call.place, place < s.frames.length

end Metal.Drivers.VirtioTx
