import Metal.Build.Graph
import Metal.Lib.Heap
import Metal.Lib.Memory

namespace Metal.Build.Keep

open Metal.Lib

/-! The retained objects of a build: one arena in a span of memory, a table of
slots in age order, and the calls that keep, resize, drop and read. Sizes are
those of a 64-bit seat. `none` is a run the language does not define: a slot
outside the table, a block freed twice or read after it was freed. -/

def maxSrcPath : Nat := 96

def keepSpanDefault : UInt32 := 64 * 1024 * 1024

def keepDefault : UInt32 := 160

structure KeepObj where
  fqn : Bytes
  src : Bytes
  bytes : Option Nat
  len : UInt32
  deriving DecidableEq

def KeepObj.zero : KeepObj := ⟨[], [], none, 0⟩

/-- `sizeof(build_keep_obj_t)` -/
def keepObjSize : Nat := strMax + maxSrcPath + 8 + 8

structure Arena where
  span : Nat
  heap : Heap Bytes

/-- The statics of the cache. `answers` is what the allocators will say, call
by call: a block, or `none` where they refuse. -/
structure Cache where
  keep : Option Nat
  slots : List KeepObj
  keepCap : Nat
  nKeep : Nat
  backing : Option Nat
  arena : Option Arena
  answers : List (Option Nat)

def keepWant (soft dflt : UInt32) : UInt32 := if soft ≠ 0 then soft else dflt

namespace Cache

def start (answers : List (Option Nat)) : Cache :=
  ⟨none, [], 0, 0, none, none, answers⟩

def ask (c : Cache) : Option Nat × Cache :=
  match c.answers with
  | [] => (none, c)
  | answer :: rest => (answer, { c with answers := rest })

/-- `pm_util_mem_alloc` on the arena: a block of the span that is not in use,
or nothing. -/
def alloc (c : Cache) (size : Nat) : Option Nat × Cache :=
  match c.ask with
  | (none, c) => (none, c)
  | (some block, c) =>
      match c.arena with
      | none => (none, c)
      | some arena =>
          match arena.heap.claim block [] with
          | none => (none, c)
          | some heap =>
              if size ≤ arena.span then
                (some block, { c with arena := some { arena with heap := heap } })
              else (none, c)

def free (c : Cache) (block : Nat) : Option Cache :=
  match c.arena with
  | none => none
  | some arena =>
      match arena.heap.free block with
      | none => none
      | some heap => some { c with arena := some { arena with heap := heap } }

def keepDrop (c : Cache) (i : Nat) : Option Cache :=
  match c.slots[i]? with
  | none => none
  | some slot =>
      match slot.bytes, c.arena with
      | some block, some _ =>
          (c.free block).map fun c => { c with slots := c.slots.set i .zero }
      | _, _ => some { c with slots := c.slots.set i .zero }

/-- `memmove` of `n` slots from place `i + 1` to place `i`. -/
def shift (slots : List KeepObj) (i n : Nat) : List KeepObj :=
  slots.take i ++ (slots.drop (i + 1)).take n ++ slots.drop (i + n)

def keepEvict (c : Cache) (i : Nat) : Option Cache :=
  if c.nKeep = 0 then none
  else
    match c.keepDrop i with
    | none => none
    | some c =>
        let slots := if i + 1 < c.nKeep then shift c.slots i (c.nKeep - i - 1) else c.slots
        if c.nKeep - 1 < slots.length then
          some { c with slots := slots.set (c.nKeep - 1) .zero, nKeep := c.nKeep - 1 }
        else none

theorem ask_nKeep (c : Cache) : c.ask.2.nKeep = c.nKeep := by
  rw [ask]
  split <;> rfl

theorem alloc_nKeep (c : Cache) (size : Nat) : (c.alloc size).2.nKeep = c.nKeep := by
  have asked := ask_nKeep c
  rw [alloc]
  split
  next taken =>
    rw [taken] at asked
    exact asked
  next taken =>
    rw [taken] at asked
    split
    · exact asked
    · split
      · exact asked
      · split <;> exact asked

variable {c' c : Cache}

theorem keepDrop_nKeep {i : Nat} (dropped : c.keepDrop i = some c') : c'.nKeep = c.nKeep := by
  rw [keepDrop] at dropped
  split at dropped
  · cases dropped
  · split at dropped
    · obtain ⟨freed, taken, rfl⟩ := Option.map_eq_some_iff.mp dropped
      rw [free] at taken
      split at taken
      · cases taken
      · split at taken
        · cases taken
        · cases taken
          rfl
    · cases dropped
      rfl

theorem keepEvict_nKeep {i : Nat} (evicted : c.keepEvict i = some c') : c.nKeep = c'.nKeep + 1 := by
  rw [keepEvict] at evicted
  split at evicted
  · cases evicted
  next some_ =>
    split at evicted
    · cases evicted
    next dropped =>
      have same := keepDrop_nKeep dropped
      obtain ⟨-, evicted⟩ := Option.ite_none_right_eq_some.mp evicted
      cases evicted
      dsimp only
      omega

/-- `while (full(s_n_keep)) build_keep_evict(0)` -/
def evictWhile (full : Nat → Bool) (c : Cache) : Option Cache :=
  if full c.nKeep then
    match _evicted : c.keepEvict 0 with
    | none => none
    | some c' => evictWhile full c'
  else some c
termination_by c.nKeep
decreasing_by
  have fewer := keepEvict_nKeep _evicted
  omega

theorem evictWhile_again {full : Nat → Bool} (more : full c.nKeep = true)
    (evicted : c.keepEvict 0 = some c') : c.evictWhile full = c'.evictWhile full := by
  rw [evictWhile, if_pos more]
  split
  next refused =>
    rw [refused] at evicted
    cases evicted
  next taken =>
    rw [taken] at evicted
    cases evicted
    rfl

def lend (cacheSoft : UInt32) (c : Cache) : Bool × Cache :=
  match c.backing, c.ask with
  | some _, _ => (true, c)
  | none, (none, c) => (false, c)
  | none, (some block, c) =>
      match c.ask with
      | (none, c) => (false, c)
      | (some _, c) =>
          (true,
            { c with
              backing := some block
              arena := some ⟨(keepWant cacheSoft keepSpanDefault).toNat, .empty⟩ })

def keepReady (keepSoft cacheSoft : UInt32) (c : Cache) : Bool × Cache :=
  if c.arena.isSome ∧ c.keep.isSome then (true, c)
  else
    match c.lend cacheSoft with
    | (false, c) => (false, c)
    | (true, c) =>
        match c.keep with
        | some _ => (true, c)
        | none =>
            let cap := (keepWant keepSoft keepDefault).toNat
            match c.alloc (cap * keepObjSize) with
            | (none, c) => (false, c)
            | (some table, c) =>
                (true,
                  { c with
                    keep := some table
                    slots := List.replicate cap .zero
                    keepCap := cap
                    nKeep := 0 })

def keepSlotsApply (soft : UInt32) (c : Cache) : Option (Int × Cache) :=
  match c.keep with
  | none => some (0, c)
  | some table =>
      let cap := (keepWant soft keepDefault).toNat
      if cap = c.keepCap then some (0, c)
      else
        match c.alloc (cap * keepObjSize) with
        | (none, c) => some (-1, c)
        | (some next, c) =>
            match c.evictWhile (cap < ·) with
            | none => none
            | some c =>
                (c.free table).map fun freed =>
                  (0,
                    { freed with
                      keep := some next
                      slots := c.slots.take c.nKeep ++ List.replicate (cap - c.nKeep) .zero
                      keepCap := cap })

def cacheApply (c : Cache) : Option Cache :=
  match c.backing with
  | none => some c
  | some _ =>
      (c.evictWhile (0 < ·)).map fun c =>
        { c with keep := none, slots := [], keepCap := 0, backing := none, arena := none }

/-- The entries of the unit go, from slot `i` on. -/
def supersede (fqn : Bytes) (i : Nat) (c : Cache) : Option Cache :=
  if i < c.nKeep then
    match c.slots[i]? with
    | none => none
    | some slot =>
        if slot.fqn = fqn then
          match _evicted : c.keepEvict i with
          | none => none
          | some c' => supersede fqn i c'
        else supersede fqn (i + 1) c
  else some c
termination_by c.nKeep - i
decreasing_by
  · have fewer := keepEvict_nKeep _evicted
    omega
  · omega

theorem supersede_again {fqn : Bytes} {i : Nat} {slot : KeepObj} (inside : i < c.nKeep)
    (there : c.slots[i]? = some slot) (same : slot.fqn = fqn) (evicted : c.keepEvict i = some c') :
    c.supersede fqn i = c'.supersede fqn i := by
  rw [supersede, if_pos inside, there]
  dsimp only
  rw [if_pos same]
  split
  next refused =>
    rw [refused] at evicted
    cases evicted
  next taken =>
    rw [taken] at evicted
    cases evicted
    rfl

theorem supersede_next {fqn : Bytes} {i : Nat} {slot : KeepObj} (inside : i < c.nKeep)
    (there : c.slots[i]? = some slot) (other : slot.fqn ≠ fqn) :
    c.supersede fqn i = c.supersede fqn (i + 1) := by
  rw [supersede, if_pos inside, there]
  exact if_neg other

/-- An allocation that lets the oldest entries go until it succeeds or none is
left. -/
def allocRoom (size : Nat) (c : Cache) : Option (Option Nat × Cache) :=
  match _asked : c.alloc size with
  | (some block, c') => some (some block, c')
  | (none, c') =>
      if 0 < c'.nKeep then
        match _evicted : c'.keepEvict 0 with
        | none => none
        | some c'' => allocRoom size c''
      else some (none, c')
termination_by c.nKeep
decreasing_by
  have fewer := keepEvict_nKeep _evicted
  have same := alloc_nKeep c size
  rw [_asked] at same
  dsimp only at same
  omega

theorem allocRoom_of_some {size block : Nat} (asked : c.alloc size = (some block, c')) :
    c.allocRoom size = some (some block, c') := by
  rw [allocRoom]
  split
  next taken =>
    rw [taken] at asked
    cases asked
    rfl
  next taken =>
    rw [taken] at asked
    cases asked

theorem allocRoom_of_none {size : Nat} (asked : c.alloc size = (none, c')) (empty : c'.nKeep = 0) :
    c.allocRoom size = some (none, c') := by
  rw [allocRoom]
  split
  next taken =>
    rw [taken] at asked
    cases asked
  next taken =>
    rw [taken] at asked
    cases asked
    rw [if_neg (by omega)]

theorem allocRoom_again {size : Nat} {c'' : Cache} (asked : c.alloc size = (none, c'))
    (evicted : c'.keepEvict 0 = some c'') : c.allocRoom size = c''.allocRoom size := by
  have some_ := keepEvict_nKeep evicted
  rw [allocRoom]
  split
  next taken =>
    rw [taken] at asked
    cases asked
  next taken =>
    rw [taken] at asked
    cases asked
    rw [if_pos (by omega)]
    split
    next refused =>
      rw [refused] at evicted
      cases evicted
    next taken =>
      rw [taken] at evicted
      cases evicted
      rfl

def enter (block : Nat) (fqn src object : Bytes) (c : Cache) : Option Cache :=
  match c.arena with
  | none => none
  | some arena =>
      match arena.heap.write block object with
      | none => none
      | some heap =>
          if c.nKeep < c.slots.length then
            some
              { c with
                arena := some { arena with heap := heap }
                slots := c.slots.set c.nKeep
                  ⟨snprintf strMax fqn, snprintf maxSrcPath src, some block,
                    .ofNat object.length⟩
                nKeep := c.nKeep + 1 }
          else none

end Cache

/-- One object handed over: its source's name and its bytes, where there are
any. -/
structure Product where
  src : Option Bytes
  obj : Option Bytes

def Product.name (product : Product) : Bytes := product.src.getD (ascii "object")

namespace Cache

def keepEach (fqn : Bytes) : List Product → Cache → Option Cache
  | [], c => some c
  | product :: rest, c =>
      match product.obj with
      | none | some [] => keepEach fqn rest c
      | some object =>
          match c.evictWhile (c.keepCap ≤ ·) with
          | none => none
          | some c =>
              match c.allocRoom object.length with
              | none => none
              | some (none, c) => some c
              | some (some block, c) =>
                  match c.enter block fqn product.name object with
                  | none => none
                  | some c => keepEach fqn rest c

def keepObjects (keepSoft cacheSoft : UInt32) (fqn : Option Bytes) (products : List Product)
    (c : Cache) : Option Cache :=
  match fqn, products with
  | none, _ | some _, [] => some c
  | some fqn, product :: rest =>
      match c.keepReady keepSoft cacheSoft with
      | (false, c) => some c
      | (true, c) =>
          match c.supersede fqn 0 with
          | none => none
          | some c => c.keepEach fqn (product :: rest)

/-- The `idx`th of the slots that bear the name, `seen` of them passed. -/
def findObject (fqn : Bytes) (idx : Nat) : Nat → List KeepObj → Option KeepObj
  | _, [] => none
  | seen, slot :: rest =>
      if slot.fqn ≠ fqn then findObject fqn idx seen rest
      else if seen ≠ idx then findObject fqn idx (seen + 1) rest
      else some slot

/-- The code of the call and the bytes it copies out; `out` is where to, if
anywhere, and how much goes there. -/
def objectRead (fqn : Option Bytes) (idx : Nat) (off : UInt32) (out : Option UInt32)
    (c : Cache) : Option (Status × Bytes) :=
  match fqn, out with
  | none, _ | _, none => some (.parse, [])
  | some fqn, some outMax =>
      match findObject fqn idx 0 (c.slots.take c.nKeep) with
      | none => some (.parse, [])
      | some slot =>
          if off < slot.len then
            let n := if outMax < slot.len - off then outMax else slot.len - off
            match c.arena, slot.bytes with
            | some arena, some block =>
                match arena.heap block with
                | none => none
                | some held => (slice held off.toNat n.toNat).map fun copied => (.ok, copied)
            | _, _ => none
          else some (.ok, [])

/-- Reading at `0, w, 2w, ...`, `count` times, one window behind the other. -/
def download (fqn : Bytes) (idx : Nat) (w : UInt32) (c : Cache) : Nat → Option Bytes
  | 0 => some []
  | count + 1 =>
      match c.download fqn idx w count,
        c.objectRead (some fqn) idx (.ofNat (count * w.toNat)) (some w) with
      | some front, some (.ok, copied) => some (front ++ copied)
      | _, _ => none

end Cache

structure UnitName extends CString where
  fits : bytes.length < strMax

inductive Call
  | keepObjects (keepSoft cacheSoft : UInt32) (fqn : Option UnitName) (products : List Product)
  | keepSlotsApply (soft : UInt32)
  | cacheApply

def Cache.step (c : Cache) : Call → Option Cache
  | .keepObjects keepSoft cacheSoft fqn products =>
      c.keepObjects keepSoft cacheSoft (fqn.map (·.bytes)) products
  | .keepSlotsApply soft => (c.keepSlotsApply soft).map Prod.snd
  | .cacheApply => c.cacheApply

end Metal.Build.Keep
