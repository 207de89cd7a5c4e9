import Metal.Drivers.VirtioTx
import Metal.Lib.Slots

namespace Metal.Drivers.VirtioRing

open Metal.Lib
open Metal.Drivers.VirtioTx (Frame vnetHdr pmMetalNetTxWait)

/-! The in-process ring of `drivers/net/virtio`: a frame that is sent is copied into a
slot of the same NIC, and polling hands it up from there. -/

structure Limit where
  soft : UInt32
  dflt : UInt32

def Limit.now (limit : Limit) : UInt32 := if limit.soft = 0 then limit.dflt else limit.soft

structure Rings where
  txBuf : Bytes
  txLen : List UInt16
  rxBuf : Bytes
  rxLen : List UInt16

structure Vnet where
  txAvail : UInt16
  txUsed : UInt16
  rxPosted : UInt16
  rxFilled : UInt16
  rxDev : UInt16
  rxDrv : UInt16
  rings : Option Rings
  qn : UInt32
  qframe : UInt32

/-- A row of `vnet_row`. -/
def Vnet.row : Vnet := ⟨0, 0, 0, 0, 0, 0, none, 0, 0⟩

namespace Vnet

/-- `VNET_HDR + qframe`, in 32 bits. -/
def txWidth (d : Vnet) : Nat := (UInt32.ofNat vnetHdr + d.qframe).toNat

def slot (d : Vnet) (i : UInt16) : Nat := i.toNat % d.qn.toNat

end Vnet

/-- `answer` is what the four allocations give, when each gives something. -/
def ringFit (queue frame : Limit) (answer : Option Rings) (d : Vnet) : Int32 × Vnet :=
  if d.rings.isSome ∧ d.qn = queue.now ∧ d.qframe = frame.now then (0, d)
  else
    match answer with
    | none => (-1, d)
    | some rings => (0, { d with rings := some rings, qn := queue.now, qframe := frame.now })

def vqReset (d : Vnet) : Vnet :=
  { d with
    txAvail := 0
    txUsed := 0
    rxPosted := d.qn.toUInt16
    rxFilled := 0
    rxDev := 0
    rxDrv := 0 }

/-! ### Sending

`none` is an access outside of a block. -/

def write (at_ : Nat) (new block : Bytes) : Option Bytes :=
  if at_ + new.length ≤ block.length then some (writeAt at_ new block) else none

def store {α : Type} (i : Nat) (new : α) (table : List α) : Option (List α) :=
  if i < table.length then some (table.set i new) else none

/-- One turn of the loop of `device_run`. -/
def deviceTurn (d : Vnet) : Option Vnet := do
  let rings ← d.rings
  let i := d.slot d.txUsed
  let n ← rings.txLen[i]?
  let d := { d with txUsed := d.txUsed + 1 }
  if n.toNat ≤ vnetHdr ∨ d.rxPosted = 0 then some d
  else
    let n := n - UInt16.ofNat vnetHdr
    let n := if d.qframe < n.toUInt32 then d.qframe.toUInt16 else n
    let frame ← slice rings.txBuf (i * d.txWidth + vnetHdr) n.toNat
    let rxBuf ← write (d.slot d.rxDev * d.qframe.toNat) frame rings.rxBuf
    let rxLen ← store (d.slot d.rxDev) n rings.rxLen
    some { d with
      rings := some { rings with rxBuf := rxBuf, rxLen := rxLen }
      rxDev := d.rxDev + 1
      rxPosted := d.rxPosted - 1
      rxFilled := d.rxFilled + 1 }

def deviceTurns : Nat → Vnet → Option Vnet
  | 0, d => some d
  | turns + 1, d => if d.txUsed = d.txAvail then some d else (deviceTurn d).bind (deviceTurns turns)

/-- Each turn brings `txUsed` one nearer to `txAvail`. -/
def deviceRun (d : Vnet) : Option Vnet := deviceTurns (d.txAvail - d.txUsed).toNat d

def virtioTx (frame : Frame) (d : Vnet) : Option (Int32 × Vnet) :=
  if frame.len = 0 ∨ d.qframe < frame.len.toUInt32 then some (-1, d)
  else if d.qn ≤ (d.txAvail - d.txUsed).toUInt32 then some (pmMetalNetTxWait, d)
  else do
    let rings ← d.rings
    let i := d.slot d.txAvail
    let txBuf ← write (i * d.txWidth) (List.replicate vnetHdr 0) rings.txBuf
    let txBuf ← write (i * d.txWidth + vnetHdr) frame.bytes txBuf
    let txLen ← store i (UInt16.ofNat vnetHdr + frame.len) rings.txLen
    let d ← deviceRun { d with
      rings := some { rings with txBuf := txBuf, txLen := txLen }
      txAvail := d.txAvail + 1 }
    some (0, d)

/-- What a turn of the loop of `virtio_poll` hands up. -/
structure Delivery where
  slot : Nat
  n : UInt16
  deriving DecidableEq

/-- One turn of the loop up to the call of `pm_metal_net_ip_rx_from`; without a delivery,
the loop is over. -/
def pollTurn (d : Vnet) : Option (Option Delivery × Vnet) :=
  if d.rxFilled = 0 then some (none, d)
  else do
    let rings ← d.rings
    let i := d.slot d.rxDrv
    let n ← rings.rxLen[i]?
    some (some ⟨i, n⟩, { d with
      rxDrv := d.rxDrv + 1
      rxFilled := d.rxFilled - 1
      rxPosted := d.rxPosted + 1 })

def Vnet.shows (d : Vnet) (delivery : Delivery) : Option Bytes :=
  d.rings.bind fun rings => slice rings.rxBuf (delivery.slot * d.qframe.toNat) delivery.n.toNat

/-- A bounded queue of frames.  `delivering` are those that are handed up and whose
callback has not come back, the innermost first; `taken` and `delivered` are records. -/
structure Fifo where
  waiting : List Bytes
  delivering : List Bytes
  taken : List Bytes
  delivered : List Bytes

namespace Fifo

def empty : Fifo := ⟨[], [], [], []⟩

/-- A frame that is accepted while `n` are waiting is lost. -/
def accept (n : Nat) (frame : Bytes) (f : Fifo) : Fifo :=
  if f.waiting.length < n then
    { f with waiting := f.waiting ++ [frame], taken := f.taken ++ [frame] }
  else f

def deliver (f : Fifo) : Fifo :=
  match f.waiting with
  | [] => f
  | frame :: waiting =>
      { f with
        waiting := waiting
        delivering := frame :: f.delivering
        delivered := f.delivered ++ [frame] }

def back (f : Fifo) : Fifo := { f with delivering := f.delivering.tail }

def InOrder (f : Fifo) : Prop := f.delivered ++ f.waiting = f.taken

end Fifo

/-- `calls` are the deliveries of the polls under way, the innermost first.  From `handed`
on a record: what each callback was shown when it was called, and the queue that the same
calls make. -/
structure World where
  d : Vnet
  calls : List Delivery
  handed : List Bytes
  fifo : Fifo

/-- The core sends, or polls, outside of a callback or in the innermost one; or that one
comes back. -/
inductive Event
  | tx (frame : Frame)
  | poll
  | back

namespace World

def boot (d : Vnet) : World := ⟨vqReset d, [], [], Fifo.empty⟩

def advance (w : World) : Option World := do
  let (delivery, d) ← pollTurn w.d
  let w := { w with d := d, fifo := w.fifo.deliver }
  match delivery with
  | none => some w
  | some delivery =>
      let bytes ← d.shows delivery
      some { w with calls := delivery :: w.calls, handed := w.handed ++ [bytes] }

def step (w : World) : Event → Option World
  | .tx frame => do
      let (status, d) ← virtioTx frame w.d
      some { w with
        d := d
        fifo := if status = 0 then w.fifo.accept d.qn.toNat frame.bytes else w.fifo }
  | .poll => do
      let d ← deviceRun w.d
      advance { w with d := d }
  | .back =>
      match w.calls with
      | [] => some w
      | _ :: calls => advance { w with calls := calls, fifo := w.fifo.back }

/-- The frames that were handed up are those of the queue, and every callback under way
still sees its own. -/
structure Delivers (w : World) : Prop where
  order : w.fifo.InOrder
  handed : w.handed = w.fifo.delivered
  current : List.Forall₂ (fun delivery frame => w.d.shows delivery = some frame)
    w.calls w.fifo.delivering

/-- The slot of the next frame is not one that waits, or that a callback sees. -/
def Free (w : World) : Prop :=
  (∀ i < w.d.rxFilled.toNat, w.d.slot (w.d.rxDrv + UInt16.ofNat i) ≠ w.d.slot w.d.rxDev) ∧
    ∀ delivery ∈ w.calls, delivery.slot ≠ w.d.slot w.d.rxDev

/-- When a send is refused, or its frame with its header is shorter than 2^16 and inside of
the tx block, and the frame is stored into a free slot or all `qn` frames wait. -/
def Clear (w : World) : Event → Prop
  | .tx frame =>
      frame.bytes = [] ∨ w.d.qframe.toNat < frame.bytes.length ∨
        vnetHdr + frame.bytes.length < 2 ^ 16 ∧
        w.d.slot w.d.txAvail * w.d.txWidth + (vnetHdr + frame.bytes.length) ≤
          w.d.qn.toNat * w.d.txWidth ∧
        if w.d.rxPosted = 0 then w.d.qn.toNat ≤ w.d.rxFilled.toNat else w.Free
  | .poll | .back => True

instance (w : World) : Decidable w.Free :=
  inferInstanceAs (Decidable (_ ∧ _))

instance (w : World) : ∀ event, Decidable (w.Clear event)
  | .tx _ => inferInstanceAs (Decidable (_ ∨ _ ∨ _ ∧ _ ∧ _))
  | .poll | .back => isTrue trivial

end World

/-- `none` is a run that went outside of a block. -/
def next (w : Option World) (event : Event) : Option World := w.bind fun w => w.step event

def Clears (w : Option World) (event : Event) : Prop := ∀ now ∈ w, World.Clear now event

instance (w : Option World) (event : Event) : Decidable (Clears w event) :=
  inferInstanceAs (Decidable (∀ now ∈ w, World.Clear now event))

end Metal.Drivers.VirtioRing
