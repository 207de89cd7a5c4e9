import Mathlib.Data.BitVec
import Metal.Lib.Program
import Metal.Lib.Run

namespace Metal.Coop

open Metal.Lib

/-! Ready-ring words: state in the top two bits, kind in the next fourteen, a
48-bit task pointer below. -/

abbrev Word := BitVec 64

abbrev TaskPtr := BitVec 48

def ringStEmpty : Word := 0
def ringStReady : Word := 1
def ringStClaimed : Word := 2
def ringKindTask : Word := 1
def ringKindStop : Word := 3
def ringPayMask : Word := 0x0000ffffffffffff

def ringPack (st kind pay : Word) : Word :=
  (st <<< 62) ||| (kind <<< 48) ||| (pay &&& ringPayMask)

def ringSt (w : Word) : Word := w >>> 62

def ringKind (w : Word) : Word := (w >>> 48) &&& 0x3fff

def ringPay (w : Word) : Word := w &&& ringPayMask

def ptrPay (p : TaskPtr) : Word := p.setWidth 64 &&& ringPayMask

def payPtr (pay : Word) : TaskPtr := pay.setWidth 48

theorem toNat_and_payMask (w : Word) :
    (w &&& ringPayMask).toNat = w.toNat % 2 ^ 48 := by
  rw [BitVec.toNat_and]
  exact Nat.and_two_pow_sub_one_eq_mod w.toNat 48

theorem toNat_ptrPay (p : TaskPtr) : (ptrPay p).toNat = p.toNat := by
  have bound := p.isLt
  rw [ptrPay, toNat_and_payMask, BitVec.toNat_setWidth]
  omega

variable {st kind : Word}

section Word

variable (pay : Word) (stBound : st.toNat < 4) (kindBound : kind.toNat < 2 ^ 14)
include pay stBound kindBound

theorem toNat_ringPack : (ringPack st kind pay).toNat =
      st.toNat * 2 ^ 62 + (kind.toNat * 2 ^ 48 + pay.toNat % 2 ^ 48) := by
  have kindShift : (kind <<< 48).toNat = kind.toNat <<< 48 := by
    have bound : kind.toNat * 2 ^ 48 < 2 ^ 64 := by omega
    rw [BitVec.toNat_shiftLeft, Nat.shiftLeft_eq, Nat.mod_eq_of_lt bound]
  have stShift : (st <<< 62).toNat = st.toNat <<< 62 := by
    have bound : st.toNat * 2 ^ 62 < 2 ^ 64 := by omega
    rw [BitVec.toNat_shiftLeft, Nat.shiftLeft_eq, Nat.mod_eq_of_lt bound]
  have high : kind.toNat * 2 ^ 48 + pay.toNat % 2 ^ 48 < 2 ^ 62 := by omega
  have low : pay.toNat % 2 ^ 48 < 2 ^ 48 := Nat.mod_lt _ (by decide)
  have middle : kind.toNat <<< 48 ||| pay.toNat % 2 ^ 48 =
      kind.toNat * 2 ^ 48 + pay.toNat % 2 ^ 48 := by
    rw [← Nat.shiftLeft_add_eq_or_of_lt low, Nat.shiftLeft_eq]
  rw [ringPack, BitVec.or_assoc, BitVec.toNat_or, BitVec.toNat_or,
    toNat_and_payMask, kindShift, stShift, middle,
    ← Nat.shiftLeft_add_eq_or_of_lt high, Nat.shiftLeft_eq]

theorem ringSt_ringPack : ringSt (ringPack st kind pay) = st := by
  apply BitVec.eq_of_toNat_eq
  rw [ringSt, BitVec.toNat_ushiftRight, toNat_ringPack pay stBound kindBound,
    Nat.shiftRight_eq_div_pow]
  omega

theorem ringKind_ringPack : ringKind (ringPack st kind pay) = kind := by
  apply BitVec.eq_of_toNat_eq
  rw [ringKind, BitVec.toNat_and, BitVec.toNat_ushiftRight,
    toNat_ringPack pay stBound kindBound, Nat.shiftRight_eq_div_pow]
  rw [show (0x3fff : Word).toNat = 2 ^ 14 - 1 from rfl,
    Nat.and_two_pow_sub_one_eq_mod]
  omega

theorem ringPay_ringPack : (ringPay (ringPack st kind pay)).toNat = pay.toNat % 2 ^ 48 := by
  rw [ringPay, toNat_and_payMask, toNat_ringPack pay stBound kindBound]
  omega

end Word

theorem payPtr_ringPay_ringPack (p : TaskPtr) (stBound : st.toNat < 4)
    (kindBound : kind.toNat < 2 ^ 14) : payPtr (ringPay (ringPack st kind (ptrPay p))) = p := by
  have bound := p.isLt
  apply BitVec.eq_of_toNat_eq
  rw [payPtr, BitVec.toNat_setWidth,
    ringPay_ringPack _ stBound kindBound, toNat_ptrPay]
  omega

theorem toNat_ringKind_lt (w : Word) : (ringKind w).toNat < 2 ^ 14 := by
  rw [ringKind, BitVec.toNat_and]
  exact Nat.lt_of_le_of_lt Nat.and_le_right (by decide)

/-- The word a claim stores in place of `w`. -/
def claimedWord (w : Word) : Word :=
  ringPack ringStClaimed (ringKind w) (ringPay w)

theorem ringKind_claimedWord (w : Word) :
    ringKind (claimedWord w) = ringKind w :=
  ringKind_ringPack _ (by decide) (toNat_ringKind_lt w)

theorem ringSt_claimedWord (w : Word) :
    ringSt (claimedWord w) = ringStClaimed :=
  ringSt_ringPack _ (by decide) (toNat_ringKind_lt w)

theorem ringPay_claimedWord (w : Word) : ringPay (claimedWord w) = ringPay w := by
  apply BitVec.eq_of_toNat_eq
  rw [claimedWord, ringPay_ringPack _ (by decide) (toNat_ringKind_lt w),
    ringPay, toNat_and_payMask]
  omega

theorem ne_empty_of_ready {w : Word} (ready : ringSt w = ringStReady) :
    w ≠ ringStEmpty := by
  intro empty
  rw [empty] at ready
  exact absurd ready (by decide)

/-! The inbox.  `n` and `mask` are fixed once the slot table is mapped; the
indices and the count are 32-bit words. -/

structure Inbox where
  n : Nat
  head : Nat
  tail : Nat
  count : Nat
  slot : Nat → Word

inductive RingOp
  | loadTail
  | storeTail (value : Nat)
  | loadHead
  | storeHead (value : Nat)
  | loadCount
  | addCount
  | subCount
  | loadSlot (idx : Nat)
  | casSlot (idx : Nat) (expected desired : Word)
  | clearSlot (idx : Nat)

@[reducible] def RingOp.Ret : RingOp → Type
  | .loadTail => Nat
  | .storeTail _ => Unit
  | .loadHead => Nat
  | .storeHead _ => Unit
  | .loadCount => Nat
  | .addCount => Unit
  | .subCount => Unit
  | .loadSlot _ => Word
  | .casSlot _ _ _ => Bool
  | .clearSlot _ => Unit

def ringExec : (o : RingOp) → Inbox → o.Ret × Inbox
  | .loadTail, box => (box.tail, box)
  | .storeTail value, box => ((), { box with tail := value })
  | .loadHead, box => (box.head, box)
  | .storeHead value, box => ((), { box with head := value })
  | .loadCount, box => (box.count, box)
  | .addCount, box => ((), { box with count := (box.count + 1) % 2 ^ 32 })
  | .subCount, box =>
      ((), { box with count := (box.count + (2 ^ 32 - 1)) % 2 ^ 32 })
  | .loadSlot idx, box => (box.slot idx, box)
  | .casSlot idx expected desired, box =>
      if box.slot idx = expected then
        (true, { box with slot := Function.update box.slot idx desired })
      else (false, box)
  | .clearSlot idx, box =>
      ((), { box with slot := Function.update box.slot idx ringStEmpty })

abbrev RingSig : Signature where
  Op := RingOp
  Ret := RingOp.Ret
  Proc := Empty
  Res := nofun

abbrev RingProgram := Program RingSig

namespace Inbox

def loadTail : RingProgram Nat := .op RingOp.loadTail .done
def storeTail (value : Nat) : RingProgram Unit := .op (.storeTail value) .done
def loadHead : RingProgram Nat := .op RingOp.loadHead .done
def storeHead (value : Nat) : RingProgram Unit := .op (.storeHead value) .done
def loadCount : RingProgram Nat := .op RingOp.loadCount .done
def addCount : RingProgram Unit := .op RingOp.addCount .done
def subCount : RingProgram Unit := .op RingOp.subCount .done
def loadSlot (idx : Nat) : RingProgram Word := .op (.loadSlot idx) .done
def clearSlot (idx : Nat) : RingProgram Unit := .op (.clearSlot idx) .done

def casSlot (idx : Nat) (expected desired : Word) : RingProgram Bool :=
  .op (.casSlot idx expected desired) .done

end Inbox

/-- `(start + i) & mask` on 32-bit words. -/
def ringIndex (n start i : Nat) : Nat := (start + i) % 2 ^ 32 &&& (n - 1)

theorem ringIndex_lt {n : Nat} (positive : 0 < n) (start i : Nat) :
    ringIndex n start i < n := by
  have bound : ringIndex n start i ≤ n - 1 := Nat.and_le_right
  omega

/-- The slots `ring_push` tries from its tail snapshot. -/
def ringHunt (n count : Nat) : Nat :=
  let hunt := (n + (2 ^ 32 - count)) % 2 ^ 32
  let hunt := if hunt > n then n else hunt
  let hunt := hunt + 16
  if hunt > n then n else hunt

/-- The inner loop of `ring_push`; true once the word is stored and counted. -/
def ringPushScan (n : Nat) (neu : Word) (start : Nat) :
    (left i : Nat) → RingProgram Bool
  | 0, _ => pure false
  | left + 1, i => do
      let idx := ringIndex n start i
      if ← Inbox.casSlot idx ringStEmpty neu then
        Inbox.storeTail (ringIndex n idx 1)
        Inbox.addCount
        pure true
      else ringPushScan n neu start left (i + 1)

def ringPushAttempt (n : Nat) (neu : Word) : (attempts : Nat) → RingProgram Bool
  | 0 => pure false
  | attempts + 1 => do
      let start ← Inbox.loadTail
      let count ← Inbox.loadCount
      if ← ringPushScan n neu start (ringHunt n count) 0 then pure true
      else
        let count ← Inbox.loadCount
        if count ≥ n then pure false
        else ringPushAttempt n neu attempts

/-- `ring_push`; true stands for the return value 0, false for -1. -/
def ringPush (n : Nat) (kind : Word) (payload : TaskPtr) : RingProgram Bool :=
  ringPushAttempt n (ringPack ringStReady kind (ptrPay payload)) 4

def ringClaimScan (n : Nat) (start : Nat) :
    (left i : Nat) → RingProgram (Option (Word × Nat))
  | 0, _ => pure none
  | left + 1, i => do
      let idx := ringIndex n start i
      let word ← Inbox.loadSlot idx
      if ringSt word ≠ ringStReady then ringClaimScan n start left (i + 1)
      else if ringKind word = ringKindStop then
        ringClaimScan n start left (i + 1)
      else
        let claimed := claimedWord word
        if ← Inbox.casSlot idx word claimed then
          Inbox.storeHead (ringIndex n idx 1)
          pure (some (claimed, idx))
        else ringClaimScan n start left (i + 1)

/-- `ring_claim`; `none` stands for the return value -1. -/
def ringClaim (n : Nat) : RingProgram (Option (Word × Nat)) := do
  if (← Inbox.loadCount) = 0 then pure none
  else
    let start ← Inbox.loadHead
    ringClaimScan n start n 0

def ringRelease (n idx : Nat) : RingProgram Unit := do
  if idx ≥ n then pure ()
  else
    Inbox.clearSlot idx
    Inbox.subCount

def ringSolo : RingProgram α → Inbox → α × Inbox
  | .done value, box => (value, box)
  | .op o next, box =>
      let outcome := ringExec o box
      ringSolo (next outcome.1) outcome.2
  | .call p _, _ => nomatch p

end Metal.Coop
