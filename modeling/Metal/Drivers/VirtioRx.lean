import Metal.Lib.Run
import Metal.Lib.Publish

namespace Metal.Drivers.VirtioRx

open Metal.Lib Function

/-! Receiving in `drivers/net/virtio`: any number of cores are in `fw_vnet_poll`,
one load, store or compare-exchange of one core at a time, and the device works on
the rings between them.  The cores load and store ring memory byte by byte, as
`ring_ld16` and `ring_st16` do, and the device reads and writes words. -/

def fwQsz : Nat := 16

def vnetHdr : UInt16 := 12

structure UsedElem where
  id : UInt16
  len : UInt32

structure Fill where
  id : UInt16
  bytes : Bytes

def Fill.elem (fill : Fill) : UsedElem := ⟨fill.id, UInt32.ofNat fill.bytes.length⟩

/-- The next access of a core; `entry` and `place` number its claims, and `low` is the
first byte of a word of which the second is loaded next. -/
inductive Pc
  | away
  | frontier (low : UInt8)
  | check (uidx : UInt16)
  | claim (uidx last : UInt16)
  | id (entry : Nat) (last : UInt16)
  | idHigh (entry : Nat) (last : UInt16) (low : UInt8)
  | len (entry : Nat) (last id : UInt16)
  | lenHigh (entry : Nat) (last id : UInt16) (low : UInt8)
  | rxFrom (entry : Nat) (id n : UInt16)
  | tail (entry : Nat) (id : UInt16)
  | grab (entry : Nat) (id at_ : UInt16)
  | give (entry : Nat) (id at_ : UInt16) (place : Nat)
  | giveHigh (entry : Nat) (id at_ : UInt16) (place : Nat)
  | publish (at_ : UInt16) (place : Nat)
  | publishHigh (at_ : UInt16)
  | reload

structure Delivery where
  entry : Nat
  payload : Option Bytes

structure Return where
  entry : Nat
  id : UInt16
  place : Nat

/-- `devNext` is how far the device has read the avail ring, `held` what it read and
did not fill, `pending` what it filled under an index that it did not store.  From
`fills` on a record of what happened: counts and their effects, without wrapping. -/
structure State (Core : Type) where
  rxLast : UInt16
  availLast : UInt16
  availIdx : Published
  availRing : Nat → Cells 2
  usedIdx : UInt16
  usedRing : Nat → UsedElem
  buf : UInt16 → Bytes
  devNext : UInt16
  held : List UInt16
  pending : Option Fill
  pc : Core → Pc
  fills : List Fill
  claimed : Nat
  placed : Nat
  gave : Nat → Option UInt16
  fetched : Nat
  delivered : List Delivery
  returned : List Return

/-- After `fw_setup_queue`. -/
def State.boot (Core : Type) : State Core where
  rxLast := 0
  availLast := UInt16.ofNat fwQsz
  availIdx := .start fwQsz
  availRing := cells 2
  usedIdx := 0
  usedRing _ := ⟨0, 0⟩
  buf _ := []
  devNext := 0
  held := []
  pending := none
  pc _ := .away
  fills := []
  claimed := 0
  placed := fwQsz
  gave place := if place < fwQsz then some (UInt16.ofNat place) else none
  fetched := 0
  delivered := []
  returned := []

/-- What the stack is given of a buffer of `n` bytes. -/
def rxPayload (qframe : UInt32) (n : UInt16) (bytes : Bytes) : Option Bytes :=
  if n > vnetHdr then
    let n := n - vnetHdr
    let n := if n.toUInt32 > qframe then qframe.toUInt16 else n
    some ((bytes.drop vnetHdr.toNat).take n.toNat)
  else none

def Fill.payload (qframe : UInt32) (fill : Fill) : Option Bytes :=
  rxPayload qframe fill.elem.len.toUInt16 fill.bytes

inductive Act (Core : Type)
  | run (core : Core) (spurious : Bool)
  | look
  | fetch
  | fill (id : UInt16) (bytes : Bytes)
  | bump

section Step

variable {Core : Type} [DecidableEq Core]

def State.goto (core : Core) (pc : Pc) (s : State Core) : State Core :=
  { s with pc := update s.pc core pc }

/-- The next access of a core; a compare-exchange may fail without a reason. -/
def runCore (qframe : UInt32) (core : Core) (spurious : Bool) (s : State Core) : State Core :=
  match s.pc core with
  | .away | .reload => s.goto core (.frontier (half s.usedIdx 0))
  | .frontier low => s.goto core (.check (pair low (half s.usedIdx 1)).half)
  | .check uidx =>
      if uidx - s.rxLast = 0 then s.goto core .away
      else s.goto core (.claim uidx s.rxLast)
  | .claim uidx last =>
      if s.rxLast = last ∧ !spurious then
        { s with
          pc := update s.pc core (.id s.claimed last)
          rxLast := last + 1
          claimed := s.claimed + 1 }
      else s.goto core (.check uidx)
  | .id entry last =>
      s.goto core (.idHigh entry last (half (s.usedRing (last.toNat % fwQsz)).id 0))
  | .idHigh entry last low =>
      s.goto core (.len entry last (pair low (half (s.usedRing (last.toNat % fwQsz)).id 1)).half)
  | .len entry last id =>
      s.goto core (.lenHigh entry last id
        (half (s.usedRing (last.toNat % fwQsz)).len.toUInt16 0))
  | .lenHigh entry last id low =>
      s.goto core (.rxFrom entry id
        (pair low (half (s.usedRing (last.toNat % fwQsz)).len.toUInt16 1)).half)
  | .rxFrom entry id n =>
      { s with
        pc := update s.pc core (.tail entry id)
        delivered := s.delivered ++ [⟨entry, rxPayload qframe n (s.buf id)⟩] }
  | .tail entry id => s.goto core (.grab entry id s.availLast)
  | .grab entry id at_ =>
      if s.availLast = at_ ∧ !spurious then
        { s with
          pc := update s.pc core (.give entry id at_ s.placed)
          availLast := at_ + 1
          placed := s.placed + 1 }
      else s.goto core (.grab entry id s.availLast)
  | .give entry id at_ place =>
      { s with
        pc := update s.pc core (.giveHigh entry id at_ place)
        availRing := update s.availRing (at_.toNat % fwQsz)
          ((s.availRing (at_.toNat % fwQsz)).store 0 id.toNat) }
  | .giveHigh entry id at_ place =>
      { s with
        pc := update s.pc core (.publish at_ place)
        availRing := update s.availRing (at_.toNat % fwQsz)
          ((s.availRing (at_.toNat % fwQsz)).store 1 id.toNat)
        gave := update s.gave place (some id)
        returned := s.returned ++ [⟨entry, id, place⟩] }
  | .publish at_ place =>
      { s with
        pc := update s.pc core (.publishHigh at_)
        availIdx := s.availIdx.storeLow (at_ + 1) (place + 1) }
  | .publishHigh at_ =>
      { s with
        pc := update s.pc core .reload
        availIdx := s.availIdx.storeHigh (at_ + 1) }

/-- The device loads the avail index. -/
def look (s : State Core) : State Core := { s with availIdx := s.availIdx.load }

def fetch (s : State Core) : State Core :=
  if s.devNext = s.availIdx.last then s
  else
    { s with
      devNext := s.devNext + 1
      held := s.held ++ [(s.availRing (s.devNext.toNat % fwQsz)).half]
      fetched := s.fetched + 1 }

def fill (id : UInt16) (bytes : Bytes) (s : State Core) : State Core :=
  if id ∈ s.held ∧ s.pending = none then
    { s with
      buf := update s.buf id bytes
      usedRing := update s.usedRing (s.usedIdx.toNat % fwQsz)
        (Fill.elem ⟨id, bytes⟩)
      pending := some ⟨id, bytes⟩ }
  else s

def bump (s : State Core) : State Core :=
  match s.pending with
  | none => s
  | some fill =>
      { s with
        usedIdx := s.usedIdx + 1
        held := s.held.erase fill.id
        pending := none
        fills := s.fills ++ [fill] }

def step (qframe : UInt32) (s : State Core) : Act Core → State Core
  | .run core spurious => runCore qframe core spurious s
  | .look => look s
  | .fetch => fetch s
  | .fill id bytes => fill id bytes s
  | .bump => bump s

end Step

def Pc.unread : Pc → Option Nat
  | .id entry _ | .idHigh entry _ _ | .len entry _ _ | .lenHigh entry _ _ _ => some entry
  | _ => none

def Pc.undelivered : Pc → Option Nat
  | .id entry _ | .idHigh entry _ _ | .len entry _ _ | .lenHigh entry _ _ _
  | .rxFrom entry _ _ => some entry
  | _ => none

def Pc.entry : Pc → Option Nat
  | .id entry _ | .idHigh entry _ _ | .len entry _ _ | .lenHigh entry _ _ _
  | .rxFrom entry _ _ | .tail entry _ | .grab entry _ _ | .give entry _ _ _
  | .giveHigh entry _ _ _ => some entry
  | _ => none

def Pc.unwritten : Pc → Option Nat
  | .give _ _ _ place | .giveHigh _ _ _ place => some place
  | _ => none

def Pc.halfway : Pc → Bool
  | .publishHigh _ => true
  | _ => false

variable {Core : Type}

/-- The device has put each used entry there once; it is taken once, by a core that
gives the stack what it holds, and its buffer is handed back once, or a core is still
at it.  The avail index that the device sees only grows, over entries that are written, and
is whole when no core is storing it. -/
structure Exact (qframe : UInt32) (s : State Core) : Prop where
  rxLast : s.rxLast = UInt16.ofNat s.claimed
  usedIdx : s.usedIdx = UInt16.ofNat s.fills.length
  behind : s.claimed ≤ s.fills.length
  deliveredOnce : (s.delivered.map Delivery.entry).Nodup
  deliveredAll : ∀ entry, entry < s.claimed ↔
    entry ∈ s.delivered.map Delivery.entry ∨ ∃ core, (s.pc core).undelivered = some entry
  deliveredExact : ∀ delivery ∈ s.delivered, ∃ fill,
    s.fills[delivery.entry]? = some fill ∧ delivery.payload = fill.payload qframe
  oneCore : ∀ core core' entry, (s.pc core).entry = some entry →
    (s.pc core').entry = some entry → core = core'
  returnedOnce : (s.returned.map Return.entry).Nodup
  returnedAll : ∀ entry, entry < s.claimed ↔
    entry ∈ s.returned.map Return.entry ∨ ∃ core, (s.pc core).entry = some entry
  returnedExact : ∀ back ∈ s.returned, ∃ fill,
    s.fills[back.entry]? = some fill ∧ back.id = fill.id
  availIdx : s.availIdx.Forward fwQsz
  written : ∀ count ∈ s.availIdx.counts, ∀ place < count, s.gave place ≠ none
  whole : s.availIdx.Torn → ∃ core, (s.pc core).halfway = true

/-- The steps that go right: the used index is still ahead at a claim, the low byte of a
place is stored when those before it are written and none after it was shown, a high byte
is that of the last low one, which is what the device loads with it, and a used entry is
overwritten after it was read. -/
def Keeps (s : State Core) : Act Core → Prop
  | .run core spurious =>
      match s.pc core with
      | .claim _ last =>
          s.rxLast = last → spurious = false → s.usedIdx ≠ last
      | .publish _ place =>
          s.availIdx.count ≤ place + 1 ∧
            ∀ core' other, (s.pc core').unwritten = some other → place < other
      | .publishHigh at_ => s.availIdx.Fits (at_ + 1)
      | _ => True
  | .look => ¬ s.availIdx.Torn
  | .fetch => True
  | .fill id _ => id ∈ s.held → s.pending = none →
      ∀ core entry, (s.pc core).unread = some entry →
        entry % fwQsz ≠ s.fills.length % fwQsz
  | .bump => True

inductive Owner (Core : Type)
  | place (n : Nat)
  | device
  | entry (n : Nat)
  | core (core : Core)

/-- Who has a buffer: an avail entry that the device did not read, the device, a used
entry that is not claimed, or a core. -/
def Owns (s : State Core) : Owner Core → UInt16 → Prop
  | .place n, id => s.fetched ≤ n ∧ s.gave n = some id
  | .device, id => id ∈ s.held
  | .entry n, id => s.claimed ≤ n ∧ ∃ fill, s.fills[n]? = some fill ∧ fill.id = id
  | .core core, id => ∃ n fill, (s.pc core).entry = some n ∧ s.fills[n]? = some fill ∧
      fill.id = id

def Knows (s : State Core) : Pc → Prop
  | .id entry last => last = UInt16.ofNat entry ∧ entry < s.fills.length
  | .idHigh entry last low => last = UInt16.ofNat entry ∧
      ∃ fill, s.fills[entry]? = some fill ∧ low = half fill.id 0
  | .len entry last id => last = UInt16.ofNat entry ∧
      ∃ fill, s.fills[entry]? = some fill ∧ fill.id = id
  | .lenHigh entry last id low => last = UInt16.ofNat entry ∧
      ∃ fill, s.fills[entry]? = some fill ∧ fill.id = id ∧ low = half fill.elem.len.toUInt16 0
  | .rxFrom entry id n => ∃ fill, s.fills[entry]? = some fill ∧ fill.id = id ∧
      n = fill.elem.len.toUInt16
  | .tail entry id | .grab entry id _ => ∃ fill, s.fills[entry]? = some fill ∧ fill.id = id
  | .give entry id at_ place => (∃ fill, s.fills[entry]? = some fill ∧ fill.id = id) ∧
      at_ = UInt16.ofNat place ∧ place < s.placed ∧ s.gave place = none
  | .giveHigh entry id at_ place => (∃ fill, s.fills[entry]? = some fill ∧ fill.id = id) ∧
      at_ = UInt16.ofNat place ∧ place < s.placed ∧ s.gave place = none ∧
      (s.availRing (place % fwQsz)).Begins id.toNat 1
  | .publish at_ place => at_ = UInt16.ofNat place ∧ place < s.placed ∧ s.gave place ≠ none
  | _ => True

structure Inv (qframe : UInt32) (s : State Core) extends Exact qframe s where
  availLast : s.availLast = UInt16.ofNat s.placed
  index : s.availIdx.Sound fwQsz
  devNext : s.devNext = UInt16.ofNat s.fetched
  fetchedLe : s.fetched ≤ s.availIdx.known
  shownLe : s.availIdx.count ≤ s.placed
  shown : ∀ place < s.availIdx.count, s.gave place ≠ none
  single : ∀ x y id, Owns s x id → Owns s y id → x = y
  heldNodup : s.held.Nodup
  small : ∀ x id, Owns s x id → id.toNat < fwQsz
  avail : ∀ place id, s.fetched ≤ place → s.gave place = some id →
    s.availRing (place % fwQsz) = half id
  used : ∀ n fill, s.claimed ≤ n ∨ (∃ core, (s.pc core).unread = some n) →
    s.fills[n]? = some fill → s.usedRing (n % fwQsz) = fill.elem
  pending : ∀ fill, s.pending = some fill →
    s.usedRing (s.fills.length % fwQsz) = fill.elem ∧ s.buf fill.id = fill.bytes ∧
      fill.id ∈ s.held
  bufs : ∀ n fill, s.claimed ≤ n ∨ (∃ core, (s.pc core).undelivered = some n) →
    s.fills[n]? = some fill → s.buf fill.id = fill.bytes
  knows : ∀ core, Knows s (s.pc core)
  undelivered : ∀ core n, (s.pc core).undelivered = some n →
    n ∉ s.delivered.map Delivery.entry
  unreturned : ∀ core n, (s.pc core).entry = some n → n ∉ s.returned.map Return.entry
  unwritten : ∀ place < s.placed, s.gave place = none →
    ∃ core, (s.pc core).unwritten = some place
  onePlace : ∀ core core' place, (s.pc core).unwritten = some place →
    (s.pc core').unwritten = some place → core = core'
  unplaced : ∀ place, s.placed ≤ place → s.gave place = none

variable {s : State Core} {qframe : UInt32}

theorem Inv.moves (inv : Inv qframe s) (s' : State Core) (old new : Owner Core) {id₀ : UInt16}
    (owned : Owns s old id₀) (moved : ∀ x id, Owns s' x id →
      x = new ∧ id = id₀ ∨ Owns s x id ∧ ¬(x = old ∧ id = id₀)) :
    (∀ x y id, Owns s' x id → Owns s' y id → x = y) ∧
      ∀ x id, Owns s' x id → id.toNat < fwQsz := by
  constructor
  · intro x y id first second
    rcases moved x id first with ⟨rfl, rfl⟩ | ⟨first, stays⟩ <;>
      rcases moved y id second with ⟨rfl, same⟩ | ⟨second, stays'⟩
    · rfl
    · exact absurd ⟨inv.single y old id second owned, rfl⟩ stays'
    · subst same
      exact absurd ⟨inv.single x old id first owned, rfl⟩ stays
    · exact inv.single x y id first second
  · intro x id owns
    rcases moved x id owns with ⟨_, rfl⟩ | ⟨owns, _⟩
    · exact inv.small old id owned
    · exact inv.small x id owns

theorem Pc.entry_of_undelivered {pc : Pc} {n : Nat} (holds : pc.undelivered = some n) :
    pc.entry = some n := by
  cases pc <;> first
    | exact holds
    | cases holds

theorem owns_same (s s' : State Core) (fetched : s'.fetched = s.fetched)
    (gave : s'.gave = s.gave) (held : s'.held = s.held) (claimed : s'.claimed = s.claimed)
    (fills : s'.fills = s.fills) (entry : ∀ core, (s'.pc core).entry = (s.pc core).entry)
    (x : Owner Core) (id : UInt16) : Owns s' x id ↔ Owns s x id := by
  cases x with
  | place n => rw [Owns, Owns, fetched, gave]
  | device => rw [Owns, Owns, held]
  | entry n => rw [Owns, Owns, claimed, fills]
  | core core => rw [Owns, Owns, entry, fills]

theorem Knows.later {s' : State Core} {pc : Pc} (knows : Knows s pc)
    (fills : ∀ (n : Nat) fill, s.fills[n]? = some fill → s'.fills[n]? = some fill)
    (placed : s.placed ≤ s'.placed)
    (open_ : ∀ place, pc.unwritten = some place → s.gave place = none →
      s'.gave place = none ∧ s'.availRing (place % fwQsz) = s.availRing (place % fwQsz))
    (given : ∀ place, s.gave place ≠ none → s'.gave place ≠ none) : Knows s' pc := by
  cases pc with
  | id entry last =>
      obtain ⟨count, there⟩ := knows
      have filled := fills entry _ (List.getElem?_eq_getElem there)
      exact ⟨count, (List.getElem?_eq_some_iff.mp filled).1⟩
  | idHigh entry last low | len entry last id | lenHigh entry last id low =>
      obtain ⟨count, fill, filled, same⟩ := knows
      exact ⟨count, fill, fills _ _ filled, same⟩
  | rxFrom entry id n | tail entry id | grab entry id at_ =>
      obtain ⟨fill, filled, same⟩ := knows
      exact ⟨fill, fills _ _ filled, same⟩
  | give entry id at_ place =>
      obtain ⟨⟨fill, filled, same⟩, count, below, none_⟩ := knows
      exact ⟨⟨fill, fills _ _ filled, same⟩, count, Nat.lt_of_lt_of_le below placed,
        (open_ place rfl none_).1⟩
  | giveHigh entry id at_ place =>
      obtain ⟨⟨fill, filled, same⟩, count, below, none_, low⟩ := knows
      obtain ⟨still, ring⟩ := open_ place rfl none_
      exact ⟨⟨fill, fills _ _ filled, same⟩, count, Nat.lt_of_lt_of_le below placed, still,
        ring ▸ low⟩
  | publish at_ place =>
      obtain ⟨count, below, some_⟩ := knows
      exact ⟨count, Nat.lt_of_lt_of_le below placed, given place some_⟩
  | _ => trivial

theorem Knows.unwritten {pc : Pc} (knows : Knows s pc) {place : Nat}
    (writes : pc.unwritten = some place) :
    place < s.placed ∧ s.gave place = none ∧
      ∃ entry fill, pc.entry = some entry ∧ s.fills[entry]? = some fill := by
  cases pc with
  | give entry id at_ place =>
      cases writes
      obtain ⟨⟨fill, filled, _⟩, _, below, none_⟩ := knows
      exact ⟨below, none_, entry, fill, rfl, filled⟩
  | giveHigh entry id at_ place =>
      cases writes
      obtain ⟨⟨fill, filled, _⟩, _, below, none_, _⟩ := knows
      exact ⟨below, none_, entry, fill, rfl, filled⟩
  | _ => cases writes

theorem Inv.placed_le (inv : Inv qframe s) : s.placed - s.fetched ≤ fwQsz := by
  refine range_le (fun n (x : Owner Core × UInt16) => Owns s x.1 x.2 ∧
    (x.1 = .place n ∨ ∃ core, x.1 = .core core ∧ (s.pc core).unwritten = some n))
    (fun x => x.2.toNat) (fun n above below => ?_) (fun n m x y first second same => ?_)
  · cases given : s.gave n with
    | some id =>
        have owned : Owns s (.place n) id := ⟨above, given⟩
        exact ⟨(.place n, id), ⟨owned, .inl rfl⟩, inv.small _ _ owned⟩
    | none =>
        obtain ⟨core, unwritten⟩ := inv.unwritten n below given
        obtain ⟨_, _, entry, fill, holds, filled⟩ := (inv.knows core).unwritten unwritten
        have owned : Owns s (.core core) fill.id := ⟨entry, fill, holds, filled, rfl⟩
        exact ⟨(.core core, fill.id), ⟨owned, .inr ⟨core, rfl, unwritten⟩⟩,
          inv.small _ _ owned⟩
  · obtain ⟨owned, tag⟩ := first
    obtain ⟨owned', tag'⟩ := second
    have same : x.2 = y.2 := UInt16.toNat_inj.mp same
    have owner : x.1 = y.1 := inv.single _ _ _ owned (same ▸ owned')
    rw [owner] at tag
    rcases tag with place | ⟨core, is, has⟩ <;> rcases tag' with place' | ⟨core', is', has'⟩
    · rw [place] at place'
      cases place'
      rfl
    · rw [place] at is'
      cases is'
    · rw [is] at place'
      cases place'
    · rw [is] at is'
      cases is'
      rw [has] at has'
      cases has'
      rfl

theorem Inv.unclaimed_lt (inv : Inv qframe s) {id : UInt16} (held : id ∈ s.held) :
    s.fills.length - s.claimed < fwQsz := by
  have all : s.fills.length + 1 - s.claimed ≤ fwQsz := by
    refine range_le (fun n (x : Owner Core × UInt16) => Owns s x.1 x.2 ∧
      (x.1 = .entry n ∧ n < s.fills.length ∨ x.1 = .device ∧ n = s.fills.length))
      (fun x => x.2.toNat) (fun n above below => ?_) (fun n m x y first second same => ?_)
    · rcases Nat.lt_succ_iff_lt_or_eq.mp below with there | rfl
      · have owned : Owns s (.entry n) s.fills[n].id :=
          ⟨above, _, List.getElem?_eq_getElem there, rfl⟩
        exact ⟨(.entry n, _), ⟨owned, .inl ⟨rfl, there⟩⟩, inv.small _ _ owned⟩
      · have owned : Owns s .device id := held
        exact ⟨(.device, id), ⟨owned, .inr ⟨rfl, rfl⟩⟩, inv.small _ _ owned⟩
    · obtain ⟨owned, tag⟩ := first
      obtain ⟨owned', tag'⟩ := second
      have same : x.2 = y.2 := UInt16.toNat_inj.mp same
      have owner : x.1 = y.1 := inv.single _ _ _ owned (same ▸ owned')
      rw [owner] at tag
      rcases tag with ⟨is, _⟩ | ⟨is, rfl⟩ <;> rcases tag' with ⟨is', _⟩ | ⟨is', rfl⟩
      · rw [is] at is'
        cases is'
        rfl
      · rw [is] at is'
        cases is'
      · rw [is] at is'
        cases is'
      · rfl
  have := inv.behind
  omega

end Metal.Drivers.VirtioRx
