import Metal.Drivers.VirtioRing

namespace Metal.Drivers.VirtioRing

open Metal.Lib
open Metal.Drivers.VirtioTx (Frame vnetHdr pmMetalNetTxWait)

/-! The in-process ring is a queue of frames while its slots are free. -/

variable {d : Vnet} {rings : Rings} {frame : Frame}

theorem Vnet.slot_lt (some_ : 0 < d.qn.toNat) (i : UInt16) : d.slot i < d.qn.toNat :=
  Nat.mod_lt i.toNat some_

theorem write_of_le {at_ : Nat} {new block : Bytes} (fits : at_ + new.length ≤ block.length) :
    write at_ new block = some (writeAt at_ new block) := if_pos fits

theorem store_of_lt {α : Type} {i : Nat} {table : List α} (inside : i < table.length) (new : α) :
    store i new table = some (table.set i new) := if_pos inside

theorem slot_inside {slot n width count : Nat} (inside : slot < n) (small : count ≤ width) :
    slot * width + count ≤ n * width := by
  have : (slot + 1) * width ≤ n * width := Nat.mul_le_mul_right width inside
  rw [Nat.succ_mul] at this
  omega

theorem Frame.toNat_len (frame : Frame) : frame.len.toNat = frame.bytes.length :=
  UInt16.toNat_ofNat_of_lt' frame.small

structure Rings.Sized (rings : Rings) (d : Vnet) : Prop where
  tx : rings.txBuf.length = d.qn.toNat * d.txWidth
  txLen : rings.txLen.length = d.qn.toNat
  rx : rings.rxBuf.length = d.qn.toNat * d.qframe.toNat
  rxLen : rings.rxLen.length = d.qn.toNat

/-- The rings that `ringFit` leaves have the sizes of the limits, when those that it is given
have. -/
theorem ringFit_sized {queue limit : Limit} {answer : Option Rings} {after : Vnet}
    (kept : ∀ rings, d.rings = some rings → rings.Sized d)
    (made : ∀ rings, answer = some rings →
      rings.Sized { d with qn := queue.now, qframe := limit.now })
    (fit : ringFit queue limit answer d = (0, after)) :
    ∃ rings, after.rings = some rings ∧ rings.Sized after := by
  unfold ringFit at fit
  split at fit
  · rename_i same
    cases fit
    obtain ⟨rings, here⟩ := Option.isSome_iff_exists.mp same.1
    exact ⟨rings, here, kept rings here⟩
  · split at fit
    · cases fit
    · rename_i rings
      cases fit
      obtain ⟨tx, txLen, rx, rxLen⟩ := made rings rfl
      exact ⟨rings, rfl, tx, txLen, rx, rxLen⟩

def Rings.stored (rings : Rings) (d : Vnet) (frame : Frame) : Rings :=
  { rings with
    rxBuf := writeAt (d.slot d.rxDev * d.qframe.toNat) frame.bytes rings.rxBuf
    rxLen := rings.rxLen.set (d.slot d.rxDev) frame.len }

theorem deviceTurn_of_reads (here : d.rings = some rings) (sized : rings.Sized d)
    (some_ : 0 < d.qn.toNat) (full : frame.bytes ≠ []) (fits : frame.bytes.length ≤ d.qframe.toNat)
    (small : vnetHdr + frame.bytes.length < 2 ^ 16)
    (len : rings.txLen[d.slot d.txUsed]? = some (UInt16.ofNat vnetHdr + frame.len))
    (bytes : slice rings.txBuf (d.slot d.txUsed * d.txWidth + vnetHdr) frame.bytes.length =
      some frame.bytes) :
    deviceTurn d = some (if d.rxPosted = 0 then { d with txUsed := d.txUsed + 1 }
      else { d with
        txUsed := d.txUsed + 1
        rings := some (rings.stored d frame)
        rxDev := d.rxDev + 1
        rxPosted := d.rxPosted - 1
        rxFilled := d.rxFilled + 1 }) := by
  have header : (UInt16.ofNat vnetHdr).toNat = vnetHdr := rfl
  have length := Frame.toNat_len frame
  have positive := List.length_pos_iff.mpr full
  have whole : (UInt16.ofNat vnetHdr + frame.len).toNat = vnetHdr + frame.bytes.length := by
    rw [UInt16.toNat_add, header, length, Nat.mod_eq_of_lt small]
  have longer : ¬ (UInt16.ofNat vnetHdr + frame.len).toNat ≤ vnetHdr := by omega
  have payload : UInt16.ofNat vnetHdr + frame.len - UInt16.ofNat vnetHdr = frame.len := by
    rw [UInt16.add_comm, UInt16.add_sub_cancel]
  have cut : ¬ d.qframe < frame.len.toUInt32 := by
    rw [UInt32.lt_iff_toNat_lt, UInt16.toNat_toUInt32]
    omega
  have room : d.slot d.rxDev * d.qframe.toNat + frame.bytes.length ≤ rings.rxBuf.length := by
    rw [sized.rx]
    exact slot_inside (Vnet.slot_lt some_ _) fits
  have row : d.slot d.rxDev < rings.rxLen.length := by
    rw [sized.rxLen]
    exact Vnet.slot_lt some_ _
  split
  · rename_i none_
    simp only [deviceTurn, here, Option.bind_eq_bind, Option.bind_some, len, none_, or_true,
      if_true]
  · rename_i more
    simp only [deviceTurn, here, Option.bind_eq_bind, Option.bind_some, len, longer, more,
      or_self, if_false, payload, cut, length]
    change (slice rings.txBuf (d.slot d.txUsed * d.txWidth + vnetHdr) _).bind _ = _
    rw [bytes, Option.bind_some]
    change (write (d.slot d.rxDev * d.qframe.toNat) frame.bytes rings.rxBuf).bind _ = _
    rw [write_of_le room, Option.bind_some]
    change (store (d.slot d.rxDev) frame.len rings.rxLen).bind _ = _
    rw [store_of_lt row, Option.bind_some]
    rfl

def Rings.loaded (rings : Rings) (d : Vnet) (frame : Frame) : Rings :=
  { rings with
    txBuf := writeAt (d.slot d.txAvail * d.txWidth + vnetHdr) frame.bytes
      (writeAt (d.slot d.txAvail * d.txWidth) (List.replicate vnetHdr 0) rings.txBuf)
    txLen := rings.txLen.set (d.slot d.txAvail) (UInt16.ofNat vnetHdr + frame.len) }

def Vnet.sent (d : Vnet) (rings : Rings) (frame : Frame) : Vnet :=
  if d.rxPosted = 0 then
    { d with txAvail := d.txAvail + 1, txUsed := d.txUsed + 1, rings := some rings }
  else { d with
    txAvail := d.txAvail + 1
    txUsed := d.txUsed + 1
    rings := some (rings.stored d frame)
    rxDev := d.rxDev + 1
    rxPosted := d.rxPosted - 1
    rxFilled := d.rxFilled + 1 }

theorem succ_sub_self (i : UInt16) : (i + 1 - i).toNat = 1 := by
  rw [UInt16.add_comm, UInt16.add_sub_cancel]
  rfl

theorem virtioTx_of_fits (here : d.rings = some rings) (sized : rings.Sized d)
    (some_ : 0 < d.qn.toNat) (idle : d.txUsed = d.txAvail) (full : frame.bytes ≠ [])
    (fits : frame.bytes.length ≤ d.qframe.toNat) (small : vnetHdr + frame.bytes.length < 2 ^ 16)
    (inside : d.slot d.txAvail * d.txWidth + (vnetHdr + frame.bytes.length) ≤
      d.qn.toNat * d.txWidth) :
    (rings.loaded d frame).Sized d ∧
      virtioTx frame d = some (0, d.sent (rings.loaded d frame) frame) := by
  have length := Frame.toNat_len frame
  have positive := List.length_pos_iff.mpr full
  have header : (List.replicate vnetHdr (0 : UInt8)).length = vnetHdr := List.length_replicate
  have fitsHeader : d.slot d.txAvail * d.txWidth + (List.replicate vnetHdr (0 : UInt8)).length ≤
      rings.txBuf.length := by
    rw [header, sized.tx]
    omega
  have fitsBody : d.slot d.txAvail * d.txWidth + vnetHdr + frame.bytes.length ≤
      (writeAt (d.slot d.txAvail * d.txWidth) (List.replicate vnetHdr 0) rings.txBuf).length := by
    rw [length_writeAt fitsHeader, sized.tx]
    omega
  have row : d.slot d.txAvail < rings.txLen.length := by
    rw [sized.txLen]
    exact Vnet.slot_lt some_ _
  have loaded : (rings.loaded d frame).Sized d :=
    { tx := by rw [Rings.loaded, length_writeAt fitsBody, length_writeAt fitsHeader, sized.tx]
      txLen := by rw [Rings.loaded, List.length_set, sized.txLen]
      rx := sized.rx
      rxLen := sized.rxLen }
  refine ⟨loaded, ?_⟩
  have accepted : ¬ (frame.len = 0 ∨ d.qframe < frame.len.toUInt32) := by
    rw [UInt32.lt_iff_toNat_lt, UInt16.toNat_toUInt32, ← UInt16.toNat_inj, length]
    simp only [UInt16.toNat_zero]
    omega
  have room : ¬ d.qn ≤ (d.txAvail - d.txUsed).toUInt32 := by
    rw [idle, UInt16.sub_self, UInt32.le_iff_toNat_le]
    exact Nat.not_le.mpr some_
  let loadedVnet : Vnet := { d with
    rings := some (rings.loaded d frame)
    txAvail := d.txAvail + 1 }
  have sizedVnet : (rings.loaded d frame).Sized loadedVnet :=
    ⟨loaded.tx, loaded.txLen, loaded.rx, loaded.rxLen⟩
  have len : (rings.loaded d frame).txLen[loadedVnet.slot loadedVnet.txUsed]? =
      some (UInt16.ofNat vnetHdr + frame.len) := by
    change (rings.txLen.set (d.slot d.txAvail) _)[d.slot d.txUsed]? = _
    rw [idle, List.getElem?_set_self row]
  have bytes : slice (rings.loaded d frame).txBuf
      (loadedVnet.slot loadedVnet.txUsed * loadedVnet.txWidth + vnetHdr) frame.bytes.length =
        some frame.bytes := by
    change slice (writeAt _ _ _) (d.slot d.txUsed * d.txWidth + vnetHdr) _ = _
    rw [idle, slice_writeAt fitsBody]
  have turn := deviceTurn_of_reads rfl sizedVnet some_ full fits small len bytes
  have one : (d.txAvail + 1 - d.txUsed).toNat = 1 := by rw [idle, succ_sub_self]
  have pending : d.txUsed ≠ d.txAvail + 1 := by
    intro same
    rw [← same, UInt16.sub_self] at one
    cases one
  rw [virtioTx, if_neg accepted, if_neg room, here]
  change (write (d.slot d.txAvail * d.txWidth) (List.replicate vnetHdr 0) rings.txBuf).bind _ = _
  rw [write_of_le fitsHeader, Option.bind_some]
  change (write (d.slot d.txAvail * d.txWidth + vnetHdr) frame.bytes _).bind _ = _
  rw [write_of_le fitsBody, Option.bind_some]
  change (store (d.slot d.txAvail) _ rings.txLen).bind _ = _
  rw [store_of_lt row, Option.bind_some]
  change (deviceTurns (d.txAvail + 1 - d.txUsed).toNat loadedVnet).bind _ = _
  rw [one, deviceTurns, if_neg pending, turn]
  rfl

@[simp] theorem Vnet.sent_slot (i : UInt16) : (d.sent rings frame).slot i = d.slot i := by
  unfold Vnet.sent
  split <;> rfl

@[simp] theorem Vnet.sent_qn : (d.sent rings frame).qn = d.qn := by
  unfold Vnet.sent
  split <;> rfl

@[simp] theorem Vnet.sent_qframe : (d.sent rings frame).qframe = d.qframe := by
  unfold Vnet.sent
  split <;> rfl

@[simp] theorem Vnet.sent_rxDrv : (d.sent rings frame).rxDrv = d.rxDrv := by
  unfold Vnet.sent
  split <;> rfl

theorem Vnet.sent_idle (idle : d.txUsed = d.txAvail) :
    (d.sent rings frame).txUsed = (d.sent rings frame).txAvail := by
  unfold Vnet.sent
  split <;> rw [idle]

def Vnet.Holds (d : Vnet) (slot : Nat) (frame : Bytes) : Prop :=
  ∃ rings n, d.rings = some rings ∧ rings.rxLen[slot]? = some n ∧ n.toNat ≤ d.qframe.toNat ∧
    d.shows ⟨slot, n⟩ = some frame

theorem Rings.Sized.sent (sized : rings.Sized d) (some_ : 0 < d.qn.toNat)
    (fits : frame.bytes.length ≤ d.qframe.toNat) :
    ∃ rings', (d.sent rings frame).rings = some rings' ∧ rings'.Sized (d.sent rings frame) := by
  unfold Vnet.sent
  split
  · exact ⟨rings, rfl, sized.tx, sized.txLen, sized.rx, sized.rxLen⟩
  · refine ⟨rings.stored d frame, rfl, sized.tx, sized.txLen, ?_, ?_⟩
    · rw [Rings.stored, length_writeAt]
      · exact sized.rx
      · rw [sized.rx]
        exact slot_inside (Vnet.slot_lt some_ _) fits
    · rw [Rings.stored, List.length_set]
      exact sized.rxLen

section Sent

variable {loaded : Rings} (here : d.rings = some rings) (sized : loaded.Sized d)
  (some_ : 0 < d.qn.toNat) (fits : frame.bytes.length ≤ d.qframe.toNat)
  (sameBuf : loaded.rxBuf = rings.rxBuf) (sameLen : loaded.rxLen = rings.rxLen)

include here sized some_ fits sameBuf in
theorem Vnet.shows_sent {delivery : Delivery} (short : delivery.n.toNat ≤ d.qframe.toNat)
    (other : d.rxPosted ≠ 0 → delivery.slot ≠ d.slot d.rxDev) :
    (d.sent loaded frame).shows delivery = d.shows delivery := by
  have before : d.shows delivery =
      slice rings.rxBuf (delivery.slot * d.qframe.toNat) delivery.n.toNat := by
    rw [Vnet.shows, here, Option.bind_some]
  rw [before, ← sameBuf]
  unfold Vnet.sent
  split
  · rfl
  · rename_i more
    change slice (writeAt (d.slot d.rxDev * d.qframe.toNat) frame.bytes loaded.rxBuf)
      (delivery.slot * d.qframe.toNat) delivery.n.toNat = _
    apply slice_writeAt_of_apart
    · rw [sized.rx]
      exact slot_inside (Vnet.slot_lt some_ _) fits
    · exact slot_apart (other more) short fits

include here sized some_ fits sameBuf sameLen in
theorem Vnet.Holds.sent {slot : Nat} {held : Bytes} (holds : d.Holds slot held)
    (other : d.rxPosted ≠ 0 → slot ≠ d.slot d.rxDev) :
    (d.sent loaded frame).Holds slot held := by
  obtain ⟨rings', n, here', len, short, shows⟩ := holds
  obtain rfl : rings = rings' := Option.some.inj (here.symm.trans here')
  have kept : (d.sent loaded frame).shows ⟨slot, n⟩ = d.shows ⟨slot, n⟩ :=
    Vnet.shows_sent here sized some_ fits sameBuf short other
  have len' : ∃ after, (d.sent loaded frame).rings = some after ∧ after.rxLen[slot]? = some n := by
    unfold Vnet.sent
    split
    · exact ⟨loaded, rfl, by rw [sameLen, len]⟩
    · rename_i more
      exact ⟨loaded.stored d frame, rfl,
        by rw [Rings.stored, List.getElem?_set_ne (other more).symm, sameLen, len]⟩
  obtain ⟨after, now, row⟩ := len'
  exact ⟨after, n, now, row, by rwa [Vnet.sent_qframe], kept.trans shows⟩

include sized some_ fits in
theorem Vnet.holds_sent (more : d.rxPosted ≠ 0) :
    (d.sent loaded frame).Holds (d.slot d.rxDev) frame.bytes := by
  have length := Frame.toNat_len frame
  have room : d.slot d.rxDev * d.qframe.toNat + frame.bytes.length ≤ loaded.rxBuf.length := by
    rw [sized.rx]
    exact slot_inside (Vnet.slot_lt some_ _) fits
  have row : d.slot d.rxDev < loaded.rxLen.length := by
    rw [sized.rxLen]
    exact Vnet.slot_lt some_ _
  have stored : d.sent loaded frame = { d with
      txAvail := d.txAvail + 1
      txUsed := d.txUsed + 1
      rings := some (loaded.stored d frame)
      rxDev := d.rxDev + 1
      rxPosted := d.rxPosted - 1
      rxFilled := d.rxFilled + 1 } := if_neg more
  rw [stored]
  refine ⟨loaded.stored d frame, frame.len, rfl, List.getElem?_set_self row, ?_, ?_⟩
  · rw [length]
    exact fits
  · change slice (writeAt (d.slot d.rxDev * d.qframe.toNat) frame.bytes loaded.rxBuf)
      (d.slot d.rxDev * d.qframe.toNat) frame.len.toNat = _
    rw [length, slice_writeAt room]

end Sent

structure World.Inv (w : World) : Prop extends World.Delivers w where
  some_ : 0 < w.d.qn.toNat
  sized : ∃ rings, w.d.rings = some rings ∧ rings.Sized w.d
  idle : w.d.txUsed = w.d.txAvail
  count : w.d.rxFilled.toNat = w.fifo.waiting.length
  posted : w.d.rxPosted.toNat + w.d.rxFilled.toNat = w.d.qn.toNat % 2 ^ 16
  head : w.d.rxDrv + w.d.rxFilled = w.d.rxDev
  waits : ∀ i frame, w.fifo.waiting[i]? = some frame →
    w.d.Holds (w.d.slot (w.d.rxDrv + UInt16.ofNat i)) frame
  short : ∀ delivery ∈ w.calls, delivery.n.toNat ≤ w.d.qframe.toNat

namespace World.Inv

variable {w : World}

theorem boot (some_ : 0 < d.qn.toNat) (here : d.rings = some rings) (sized : rings.Sized d) :
    (World.boot d).Inv where
  order := rfl
  handed := rfl
  current := .nil
  some_ := some_
  sized := ⟨rings, here, sized.tx, sized.txLen, sized.rx, sized.rxLen⟩
  idle := rfl
  count := rfl
  posted := by
    change d.qn.toUInt16.toNat + 0 = d.qn.toNat % 2 ^ 16
    rw [UInt32.toNat_toUInt16, Nat.add_zero]
  head := rfl
  waits := nofun
  short := nofun

section Inv

variable (inv : w.Inv)
include inv

theorem back {calls : List Delivery} {delivery : Delivery}
    (under : w.calls = delivery :: calls) :
    World.Inv { w with calls := calls, fifo := w.fifo.back } where
  order := inv.order
  handed := inv.handed
  current := by
    have current := inv.current
    rw [under] at current
    cases delivering : w.fifo.delivering with
    | nil =>
        rw [delivering] at current
        cases current
    | cons frame rest =>
        rw [delivering] at current
        rw [Fifo.back, delivering]
        exact (List.forall₂_cons.mp current).2
  some_ := inv.some_
  sized := inv.sized
  idle := inv.idle
  count := inv.count
  posted := inv.posted
  head := inv.head
  waits := inv.waits
  short delivery member := inv.short delivery (under ▸ List.mem_cons_of_mem _ member)

theorem advance : ∃ w', w.advance = some w' ∧ w'.Inv := by
  cases waiting : w.fifo.waiting with
  | nil =>
      have none_ : w.d.rxFilled = 0 := by
        rw [← UInt16.toNat_inj, inv.count, waiting]
        rfl
      have still : w.fifo.deliver = w.fifo := by rw [Fifo.deliver, waiting]
      refine ⟨w, ?_, inv⟩
      rw [World.advance, pollTurn, if_pos none_, still]
      rfl
  | cons frame rest =>
      have count := inv.count
      rw [waiting, List.length_cons] at count
      have more : w.d.rxFilled ≠ 0 := by
        intro none_
        rw [none_] at count
        cases count
      have one : (1 : UInt16).toNat = 1 := rfl
      have filled : (w.d.rxFilled - 1).toNat = rest.length := by
        rw [UInt16.toNat_sub_of_le _ _ (by rw [UInt16.le_iff_toNat_le, one]; omega), one, count,
          Nat.add_sub_cancel]
      have posted := inv.posted
      have posted' : (w.d.rxPosted + 1).toNat = w.d.rxPosted.toNat + 1 := by
        rw [UInt16.toNat_add, one, Nat.mod_eq_of_lt (by omega)]
      have kept : (w.d.rxPosted + 1).toNat + (w.d.rxFilled - 1).toNat = w.d.qn.toNat % 2 ^ 16 := by
        omega
      obtain ⟨rings, n, here, len, short, shows⟩ := inv.waits 0 frame (by rw [waiting]; rfl)
      have first_ : w.d.rxDrv + UInt16.ofNat 0 = w.d.rxDrv := UInt16.add_zero _
      rw [first_] at len shows
      have turn : pollTurn w.d = some (some ⟨w.d.slot w.d.rxDrv, n⟩, { w.d with
          rxDrv := w.d.rxDrv + 1
          rxFilled := w.d.rxFilled - 1
          rxPosted := w.d.rxPosted + 1 }) := by
        simp only [pollTurn, more, if_false, here, Option.bind_eq_bind, Option.bind_some, len]
      have delivered : w.fifo.deliver = { w.fifo with
          waiting := rest
          delivering := frame :: w.fifo.delivering
          delivered := w.fifo.delivered ++ [frame] } := by
        rw [Fifo.deliver, waiting]
      refine ⟨{ w with
        d := { w.d with
          rxDrv := w.d.rxDrv + 1
          rxFilled := w.d.rxFilled - 1
          rxPosted := w.d.rxPosted + 1 }
        fifo := w.fifo.deliver
        calls := ⟨w.d.slot w.d.rxDrv, n⟩ :: w.calls
        handed := w.handed ++ [frame] }, ?_, ?_⟩
      · rw [World.advance, turn]
        change (w.d.shows ⟨w.d.slot w.d.rxDrv, n⟩).bind _ = _
        rw [shows]
        rfl
      · rw [delivered]
        exact {
          order := by
            have order := inv.order
            rw [Fifo.InOrder, waiting] at order
            rw [Fifo.InOrder, List.append_assoc]
            exact order
          handed := by rw [inv.handed]
          current := .cons shows inv.current
          some_ := inv.some_
          sized := inv.sized.imp fun _ sized =>
            ⟨sized.1, sized.2.tx, sized.2.txLen, sized.2.rx, sized.2.rxLen⟩
          idle := inv.idle
          count := filled
          posted := kept
          head := by
            change w.d.rxDrv + 1 + (w.d.rxFilled - 1) = w.d.rxDev
            rw [← inv.head, UInt16.add_assoc, UInt16.add_comm 1, UInt16.sub_add_cancel]
          waits := fun i other waits => by
            have step : w.d.rxDrv + 1 + UInt16.ofNat i = w.d.rxDrv + UInt16.ofNat (i + 1) := by
              rw [ofNat_succ, UInt16.add_assoc, UInt16.add_comm 1]
            change Vnet.Holds _ (w.d.slot (w.d.rxDrv + 1 + UInt16.ofNat i)) other
            rw [step]
            exact inv.waits (i + 1) other (by rw [waiting]; exact waits)
          short := fun delivery member => by
            rcases List.mem_cons.mp member with rfl | member
            · exact short
            · exact inv.short delivery member }

theorem current_sent {rings loaded : Rings} (here : w.d.rings = some rings)
    (sized : loaded.Sized w.d) (fits : frame.bytes.length ≤ w.d.qframe.toNat)
    (sameBuf : loaded.rxBuf = rings.rxBuf)
    (free : w.d.rxPosted ≠ 0 → ∀ delivery ∈ w.calls, delivery.slot ≠ w.d.slot w.d.rxDev) :
    List.Forall₂ (fun delivery held => (w.d.sent loaded frame).shows delivery = some held)
      w.calls w.fifo.delivering := by
  have both := (List.forall₂_and_left w.calls w.fifo.delivering).mpr
    ⟨fun delivery (member : delivery ∈ w.calls) => member, inv.current⟩
  refine both.imp fun delivery held ⟨member, shows⟩ => ?_
  rw [Vnet.shows_sent here sized inv.some_ fits sameBuf (inv.short delivery member)
    fun more => free more delivery member]
  exact shows

theorem full {rings loaded : Rings} (here : w.d.rings = some rings)
    (sized : loaded.Sized w.d) (fits : frame.bytes.length ≤ w.d.qframe.toNat)
    (sameBuf : loaded.rxBuf = rings.rxBuf) (sameLen : loaded.rxLen = rings.rxLen)
    (none_ : w.d.rxPosted = 0) : World.Inv { w with d := w.d.sent loaded frame } := by
  have same : w.d.sent loaded frame = { w.d with
      txAvail := w.d.txAvail + 1
      txUsed := w.d.txUsed + 1
      rings := some loaded } := if_pos none_
  exact {
    order := inv.order
    handed := inv.handed
    current := inv.current_sent here sized fits sameBuf fun more => absurd none_ more
    some_ := by
      rw [Vnet.sent_qn]
      exact inv.some_
    sized := sized.sent inv.some_ fits
    idle := Vnet.sent_idle inv.idle
    count := by
      rw [same]
      exact inv.count
    posted := by
      rw [same]
      exact inv.posted
    head := by
      rw [same]
      exact inv.head
    waits := fun i held waits => by
      rw [Vnet.sent_slot, Vnet.sent_rxDrv]
      exact (inv.waits i held waits).sent here sized inv.some_ fits sameBuf sameLen
        fun more => absurd none_ more
    short := by
      rw [Vnet.sent_qframe]
      exact inv.short }

theorem queued {rings loaded : Rings} (here : w.d.rings = some rings)
    (sized : loaded.Sized w.d) (fits : frame.bytes.length ≤ w.d.qframe.toNat)
    (sameBuf : loaded.rxBuf = rings.rxBuf) (sameLen : loaded.rxLen = rings.rxLen)
    (more : w.d.rxPosted ≠ 0) (free : w.Free) :
    World.Inv { w with
      d := w.d.sent loaded frame
      fifo := w.fifo.accept w.d.qn.toNat frame.bytes } := by
  have next : w.d.sent loaded frame = { w.d with
      txAvail := w.d.txAvail + 1
      txUsed := w.d.txUsed + 1
      rings := some (loaded.stored w.d frame)
      rxDev := w.d.rxDev + 1
      rxPosted := w.d.rxPosted - 1
      rxFilled := w.d.rxFilled + 1 } := if_neg more
  have one : (1 : UInt16).toNat = 1 := rfl
  have positive : 0 < w.d.rxPosted.toNat :=
    Nat.pos_of_ne_zero fun none_ => more (UInt16.toNat_inj.mp none_)
  have posted := inv.posted
  have count := inv.count
  have filled : (w.d.rxFilled + 1).toNat = w.d.rxFilled.toNat + 1 := by
    rw [UInt16.toNat_add, one, Nat.mod_eq_of_lt (by omega)]
  have left : (w.d.rxPosted - 1).toNat = w.d.rxPosted.toNat - 1 := by
    rw [UInt16.toNat_sub_of_le _ _ (by rw [UInt16.le_iff_toNat_le, one]; omega), one]
  have kept : (w.d.rxPosted - 1).toNat + (w.d.rxFilled + 1).toNat = w.d.qn.toNat % 2 ^ 16 := by
    omega
  have room : w.fifo.waiting.length < w.d.qn.toNat := by omega
  have accepted : w.fifo.accept w.d.qn.toNat frame.bytes = { w.fifo with
      waiting := w.fifo.waiting ++ [frame.bytes]
      taken := w.fifo.taken ++ [frame.bytes] } := if_pos room
  rw [accepted]
  exact {
    order := by
      rw [Fifo.InOrder, ← List.append_assoc, inv.order]
    handed := inv.handed
    current := inv.current_sent here sized fits sameBuf fun _ => free.2
    some_ := by
      rw [Vnet.sent_qn]
      exact inv.some_
    sized := sized.sent inv.some_ fits
    idle := Vnet.sent_idle inv.idle
    count := by
      rw [next, List.length_append, List.length_singleton, ← count]
      exact filled
    posted := by
      rw [next]
      exact kept
    head := by
      rw [next]
      change w.d.rxDrv + (w.d.rxFilled + 1) = w.d.rxDev + 1
      rw [← UInt16.add_assoc, inv.head]
    waits := fun i held waits => by
      rw [Vnet.sent_slot, Vnet.sent_rxDrv]
      obtain ⟨rfl, rfl⟩ | old := append_cases waits
      · have last : w.d.rxDrv + UInt16.ofNat w.fifo.waiting.length = w.d.rxDev := by
          rw [← count, UInt16.ofNat_toNat, inv.head]
        rw [last]
        exact Vnet.holds_sent sized inv.some_ fits more
      · have below : i < w.d.rxFilled.toNat := by
          rw [count]
          exact (List.getElem?_eq_some_iff.mp old).1
        exact (inv.waits i held old).sent here sized inv.some_ fits sameBuf sameLen
          fun _ => free.1 i below
    short := by
      rw [Vnet.sent_qframe]
      exact inv.short }

theorem tx (clear : w.Clear (.tx frame)) : ∃ w', w.step (.tx frame) = some w' ∧ w'.Inv := by
  have length := Frame.toNat_len frame
  by_cases refused : frame.len = 0 ∨ w.d.qframe < frame.len.toUInt32
  · refine ⟨w, ?_, inv⟩
    rw [World.step, virtioTx, if_pos refused]
    rfl
  · rw [UInt32.lt_iff_toNat_lt, UInt16.toNat_toUInt32, ← UInt16.toNat_inj, length] at refused
    obtain ⟨some_, fits⟩ := not_or.mp refused
    have full : frame.bytes ≠ [] := fun empty => some_ (by rw [empty]; rfl)
    have fits := Nat.not_lt.mp fits
    obtain empty | long | ⟨small, inside, clear⟩ := clear
    · exact absurd empty full
    · exact absurd long (Nat.not_lt.mpr fits)
    · obtain ⟨rings, here, sized⟩ := inv.sized
      obtain ⟨loaded, sent⟩ :=
        virtioTx_of_fits here sized inv.some_ inv.idle full fits small inside
      refine ⟨{ w with
        d := w.d.sent (rings.loaded w.d frame) frame
        fifo := w.fifo.accept w.d.qn.toNat frame.bytes }, ?_, ?_⟩
      · rw [World.step, sent]
        change some _ = _
        rw [if_pos rfl, Vnet.sent_qn]
      · by_cases none_ : w.d.rxPosted = 0
        · rw [if_pos none_, inv.count] at clear
          have lost : w.fifo.accept w.d.qn.toNat frame.bytes = w.fifo :=
            if_neg (Nat.not_lt.mpr clear)
          rw [lost]
          exact inv.full here loaded fits rfl rfl none_
        · rw [if_neg none_] at clear
          exact inv.queued here loaded fits rfl rfl none_ clear

theorem step (event : Event) (clear : w.Clear event) :
    ∃ w', w.step event = some w' ∧ w'.Inv := by
  cases event with
  | tx frame => exact inv.tx clear
  | poll =>
      have still : deviceRun w.d = some w.d := by
        rw [deviceRun, inv.idle, UInt16.sub_self]
        rfl
      rw [World.step, still]
      exact inv.advance
  | back =>
      rw [World.step]
      cases under : w.calls with
      | nil => exact ⟨w, rfl, inv⟩
      | cons delivery calls => exact (inv.back under).advance

/-- The slots of the waiting frames and of the next one are apart in a ring that is not full,
when its length divides 2^16, where `rx_dev` wraps. -/
theorem free_of_dvd (away : w.calls = []) (dvd : w.d.qn.toNat ∣ 2 ^ 16)
    (more : w.d.rxFilled.toNat < w.d.qn.toNat) : w.Free := by
  refine ⟨fun i waits same => ?_, by rw [away]; nofun⟩
  have turns (n : UInt16) :
      w.d.slot (w.d.rxDrv + n) = (w.d.rxDrv.toNat + n.toNat) % w.d.qn.toNat := by
    rw [Vnet.slot, UInt16.toNat_add, Nat.mod_mod_of_dvd _ dvd]
  have small : (UInt16.ofNat i).toNat = i :=
    UInt16.toNat_ofNat_of_lt' (waits.trans (UInt16.toNat_lt _))
  rw [← inv.head, turns, turns, small] at same
  have apart := (Nat.modEq_iff_dvd' (Nat.add_le_add_left (Nat.le_of_lt waits) _)).mp same
  rw [Nat.add_sub_add_left] at apart
  exact absurd (Nat.le_of_dvd (Nat.sub_pos_of_lt waits) apart) (by omega)

/-- A send outside of callbacks meets the condition in a ring whose length divides 2^16. -/
theorem clear_of_dvd (away : w.calls = []) (small : w.d.qn.toNat < 2 ^ 16)
    (dvd : w.d.qn.toNat ∣ 2 ^ 16) (narrow : vnetHdr + w.d.qframe.toNat < 2 ^ 32) (frame : Frame)
    (short : vnetHdr + frame.bytes.length < 2 ^ 16) : w.Clear (.tx frame) := by
  by_cases fits : frame.bytes.length ≤ w.d.qframe.toNat
  · refine .inr (.inr ⟨short, slot_inside (Vnet.slot_lt inv.some_ _) ?_, ?_⟩)
    · have header : (UInt32.ofNat vnetHdr).toNat = vnetHdr := rfl
      rw [Vnet.txWidth, UInt32.toNat_add, header, Nat.mod_eq_of_lt narrow]
      exact Nat.add_le_add_left fits _
    · have posted := inv.posted
      rw [Nat.mod_eq_of_lt small] at posted
      split
      · rename_i none_
        rw [none_] at posted
        exact Nat.le_of_eq (posted.symm.trans (Nat.zero_add _))
      · rename_i more
        have some_ : w.d.rxPosted.toNat ≠ 0 := fun zero => more (UInt16.toNat_inj.mp zero)
        exact inv.free_of_dvd away dvd (by omega)
  · exact .inr (.inl (Nat.lt_of_not_le fits))

end Inv

end World.Inv

theorem inv_of_clear (here : d.rings = some rings) (sized : rings.Sized d)
    (some_ : 0 < d.qn.toNat) (run : List Event)
    (along : Along next Clears (some (World.boot d)) run) :
    ∃ w, run.foldl next (some (World.boot d)) = some w ∧ w.Inv := by
  let inv : Option World → Prop := fun w => ∃ now, w = some now ∧ now.Inv
  have keeps : ∀ w event, inv w → Clears w event → inv (next w event) := by
    rintro _ event ⟨now, rfl, holds⟩ clear
    exact holds.step event (clear now rfl)
  exact along.invariant keeps ⟨_, rfl, World.Inv.boot some_ here sized⟩

theorem delivers_of_clear (here : d.rings = some rings) (sized : rings.Sized d)
    (some_ : 0 < d.qn.toNat) (run : List Event)
    (along : Along next Clears (some (World.boot d)) run) :
    ∃ w, run.foldl next (some (World.boot d)) = some w ∧ w.Delivers := by
  obtain ⟨w, ran, inv⟩ := inv_of_clear here sized some_ run along
  exact ⟨w, ran, inv.toDelivers⟩

/-- Rings of `qn` slots for frames of `qframe` bytes. -/
def ringsOf (qn qframe : Nat) : Rings where
  txBuf := List.replicate (qn * (vnetHdr + qframe)) 0
  txLen := List.replicate qn 0
  rxBuf := List.replicate (qn * qframe) 0
  rxLen := List.replicate qn 0

def nic (qn qframe : UInt32) : Vnet :=
  { Vnet.row with rings := some (ringsOf qn.toNat qframe.toNat), qn := qn, qframe := qframe }

theorem ringsOf_sized {qn qframe : UInt32} (narrow : vnetHdr + qframe.toNat < 2 ^ 32) :
    (ringsOf qn.toNat qframe.toNat).Sized (nic qn qframe) where
  tx := by
    have header : (UInt32.ofNat vnetHdr).toNat = vnetHdr := rfl
    rw [ringsOf, List.length_replicate, nic, Vnet.txWidth, UInt32.toNat_add, header,
      Nat.mod_eq_of_lt narrow]
  txLen := List.length_replicate
  rx := List.length_replicate
  rxLen := List.length_replicate

def frameOf (byte : UInt8) : Frame := ⟨[byte], by rw [List.length_singleton]; decide⟩

/-- A frame is sent from the callback of another, into a slot that is free. -/
def answered : List Event :=
  [.tx (frameOf 1), .tx (frameOf 2), .poll, .tx (frameOf 3), .back, .back, .back]

theorem delivers_answered :
    ∃ w, answered.foldl next (some (World.boot (nic 4 1))) = some w ∧ w.Delivers :=
  delivers_of_clear rfl (ringsOf_sized (by decide)) (by decide) answered (by decide)

example : ((answered.foldl next (some (World.boot (nic 4 1)))).map World.handed) =
    some [[1], [2], [3]] := by decide

def overwritten : List Event := [.tx (frameOf 1), .poll, .tx (frameOf 2)]

theorem delivers_fails :
    ¬ ∃ w, overwritten.foldl next (some (World.boot (nic 1 1))) = some w ∧ w.Delivers := by
  rintro ⟨w, ran, delivers⟩
  have calls : (overwritten.foldl next (some (World.boot (nic 1 1)))).map World.calls =
      some [⟨0, 1⟩] := by decide
  have fifo : (overwritten.foldl next (some (World.boot (nic 1 1)))).map
      (fun w => w.fifo.delivering) = some [[1]] := by decide
  have sees : (overwritten.foldl next (some (World.boot (nic 1 1)))).bind
      (fun w => w.d.shows ⟨0, 1⟩) = some [2] := by decide
  rw [ran] at calls fifo sees
  have fifo : w.fifo.delivering = [[1]] := Option.some.inj fifo
  have current := delivers.current
  rw [Option.some.inj calls, fifo] at current
  have same := (List.forall₂_cons.mp current).1
  rw [Option.bind_some] at sees
  rw [sees] at same
  cases same

end Metal.Drivers.VirtioRing
