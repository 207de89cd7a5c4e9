import Metal.Lib.CString
import Metal.Lib.Ring
import Metal.Lib.Run

namespace Metal.Build.Events

open Metal.Lib

/-! The event ring of `build`: what happens in a build is appended under the next number, and
read back from the number that the reader saw last. -/

structure Event where
  seq : UInt32
  kind : UInt16
  target : UInt16
  tUs : UInt32
  durUs : UInt32
  bytes : UInt32
  fqn : Bytes
  src : Bytes

def eventFqn : Nat := 64

def eventSrc : Nat := 40

def Event.zero : Event where
  seq := 0
  kind := 0
  target := 0
  tUs := 0
  durUs := 0
  bytes := 0
  fqn := List.replicate eventFqn 0
  src := List.replicate eventSrc 0

structure Ring where
  events : List Event
  nEvents : UInt32
  eventSeq : UInt32

/-- The part of the build context that the ring is; it is made at the first use. `depth` is
what the event knob asks for. -/
structure State where
  depth : UInt32
  ctx : Option Ring

/-- `granted` says whether there is an arena with memory for the context. -/
def buildCtxAcquire (granted : Bool) (s : State) : State :=
  match s.ctx with
  | some _ => s
  | none =>
      if granted then
        { s with ctx := some ⟨List.replicate s.depth.toNat Event.zero, s.depth, 0⟩ }
      else s

/-- The arguments of an emission that are not null; `monoUs` is the clock at the time. -/
structure Call where
  kind : UInt16
  target : UInt16
  fqn : CString
  src : Option CString
  durUs : UInt32
  bytes : UInt32
  monoUs : UInt64

def srcTail (src : CString) : Bytes :=
  if eventSrc ≤ src.length then src.bytes.drop (src.length - (eventSrc - 1)) else src.bytes

def Call.event (call : Call) (seq : UInt32) : Event where
  seq := seq
  kind := call.kind
  target := call.target
  tUs := call.monoUs.toUInt32
  durUs := call.durUs
  bytes := call.bytes
  fqn := padded (call.fqn.bytes.take (eventFqn - 1)) eventFqn
  src := padded (((call.src.map srcTail).getD []).take (eventSrc - 1)) eventSrc

def Ring.append (call : Call) (ring : Ring) : Ring :=
  let seq := ring.eventSeq + 1
  { ring with
    events := ring.events.set ((seq - 1) % ring.nEvents).toNat (call.event seq)
    eventSeq := seq }

def State.append (call : Option Call) (s : State) : State :=
  match s.ctx, call with
  | some ring, some call => { s with ctx := some (ring.append call) }
  | _, _ => s

def buildEventEmit (granted : Bool) (call : Option Call) (s : State) : State :=
  (buildCtxAcquire granted s).append call

/-- The copying loop; `room` is what `max` leaves. -/
def copyTail (ring : Ring) (newest : UInt32) : Nat → UInt32 → List Event
  | 0, _ => []
  | room + 1, start =>
      if start ≤ newest then
        ring.events.getD ((start - 1) % ring.nEvents).toNat Event.zero ::
          copyTail ring newest room (start + 1)
      else []

def windowStart (ring : Ring) (since : UInt32) : UInt32 :=
  if ring.nEvents ≤ ring.eventSeq - (since + 1) then ring.eventSeq - ring.nEvents + 1
  else since + 1

def Ring.eventsSince (ring : Ring) (since : UInt32) (out : Bool) (max : UInt32) : List Event :=
  if !out || max == 0 || ring.eventSeq ≤ since then []
  else copyTail ring ring.eventSeq max.toNat (windowStart ring since)

/-- The rows and the newest number; `out` says whether there is an array. -/
def buildEventsSince (granted : Bool) (since : UInt32) (out : Bool) (max : UInt32) (s : State) :
    (List Event × UInt32) × State :=
  let s := buildCtxAcquire granted s
  match s.ctx with
  | none => (([], 0), s)
  | some ring => ((ring.eventsSince since out max, ring.eventSeq), s)

/-- What a poll asked for and got, and how many emissions there were before it. -/
structure Poll where
  since : UInt32
  rows : List Event
  emitted : Nat

structure World where
  state : State
  emitted : List Call
  polls : List Poll

def World.received (w : World) : List Event := w.polls.flatMap (·.rows)

def World.since (w : World) : UInt32 := (w.received.getLast?.map (·.seq)).getD 0

inductive Act
  | emit (granted : Bool) (call : Option Call)
  | poll (granted : Bool) (out : Bool) (max : UInt32)

def appended (s : State) (call : Option Call) : List Call :=
  if s.ctx.isSome then call.toList else []

def World.step (w : World) : Act → World
  | .emit granted call =>
      { w with
        state := buildEventEmit granted call w.state
        emitted := w.emitted ++ appended (buildCtxAcquire granted w.state) call }
  | .poll granted out max =>
      let result := buildEventsSince granted w.since out max w.state
      { w with
        state := result.2
        polls := w.polls ++ [⟨w.since, result.1.1, w.emitted.length⟩] }

def World.start (depth : UInt32) : World := ⟨⟨depth, none⟩, [], []⟩

def World.run (depth : UInt32) (acts : List Act) : World := acts.foldl World.step (.start depth)

def emits (acts : List Act) : Nat := acts.countP fun act => act matches .emit ..

def eventsOf (calls : List Call) : List Event :=
  calls.mapIdx fun i call => call.event (UInt32.ofNat (i + 1))

/-- The poller receives events in their order and as they were emitted, and passes over those
only that the ring no longer holds. -/
structure Sound (w : World) : Prop where
  increasing : (w.received.map (·.seq.toNat)).Pairwise (· < ·)
  genuine : ∀ e ∈ w.received, 0 < e.seq ∧
    ∃ call, w.emitted[e.seq.toNat - 1]? = some call ∧ e = call.event e.seq
  skipped : ∀ poll ∈ w.polls, ∀ seq : Nat, poll.since.toNat < seq →
    (∃ e ∈ poll.rows, seq < e.seq.toNat) → (∀ e ∈ poll.rows, e.seq.toNat ≠ seq) →
    seq + w.state.depth.toNat ≤ poll.emitted

/-- How many rows the ring holds for a reader that saw `since` last. -/
def rowsLeft (ring : Ring) (since : UInt32) : Nat :=
  min (ring.eventSeq.toNat - since.toNat) ring.nEvents.toNat

def Fit (w : World) : Act → Prop
  | .emit .. => True
  | .poll _ _ max => ∀ ring, w.state.ctx = some ring →
      ring.eventSeq.toNat + 1 < 2 ^ 32 ∨ rowsLeft ring w.since = 0 ∨
        max.toNat ≤ rowsLeft ring w.since

structure Ring.Holds (ring : Ring) (depth : UInt32) (calls : List Call) : Prop where
  deep : ring.nEvents = depth
  rows : ring.events.length = depth.toNat
  newest : ring.eventSeq.toNat = calls.length
  wraps : Wraps ring.events (eventsOf calls)

theorem length_eventsOf (calls : List Call) : (eventsOf calls).length = calls.length :=
  List.length_mapIdx

theorem eventsOf_concat (calls : List Call) (call : Call) :
    eventsOf (calls ++ [call]) =
      eventsOf calls ++ [call.event (UInt32.ofNat (calls.length + 1))] := by
  rw [eventsOf, List.mapIdx_concat]
  rfl

variable {ring : Ring} {depth since : UInt32} {calls : List Call}

theorem toNat_pred_mod {seq : UInt32} (some_ : 0 < seq) (n : UInt32) :
    ((seq - 1) % n).toNat = (seq.toNat - 1) % n.toNat := by
  have one : (1 : UInt32) ≤ seq := by
    rw [UInt32.le_iff_toNat_le]
    exact UInt32.lt_iff_toNat_lt.mp some_
  rw [UInt32.toNat_mod, UInt32.toNat_sub_of_le _ _ one]
  rfl

theorem Ring.Holds.append (holds : ring.Holds depth calls) (some_ : 0 < depth)
    (fewer : calls.length + 1 < 2 ^ 32) (call : Call) :
    (ring.append call).Holds depth (calls ++ [call]) := by
  have some' : 0 < depth.toNat := UInt32.lt_iff_toNat_lt.mp some_
  have next : (ring.eventSeq + 1).toNat = calls.length + 1 := by
    rw [UInt32.toNat_add, holds.newest]
    exact Nat.mod_eq_of_lt fewer
  have number : ring.eventSeq + 1 = UInt32.ofNat (calls.length + 1) := by
    rw [← next, UInt32.ofNat_toNat]
  have positive : 0 < ring.eventSeq + 1 := by
    rw [UInt32.lt_iff_toNat_lt, next]
    exact Nat.succ_pos _
  have slot : ((ring.eventSeq + 1 - 1) % ring.nEvents).toNat =
      (eventsOf calls).length % ring.events.length := by
    rw [toNat_pred_mod positive, next, holds.deep, holds.rows, length_eventsOf,
      Nat.add_sub_cancel]
  refine ⟨holds.deep, ?_, ?_, ?_⟩
  · exact List.length_set.trans holds.rows
  · rw [List.length_append]
    exact next
  · rw [eventsOf_concat, ← number]
    change Wraps (ring.events.set _ _) _
    rw [slot]
    exact holds.wraps.push (by rwa [holds.rows]) _

theorem copyTail_eq (holds : ring.Holds depth calls) {start : UInt32} (room : Nat)
    (some_ : 0 < start) (near : start.toNat ≤ calls.length + 1)
    (kept : calls.length < start.toNat + depth.toNat)
    (fits : calls.length + 1 < 2 ^ 32 ∨ room + start.toNat ≤ calls.length + 1) :
    copyTail ring ring.eventSeq room start = ((eventsOf calls).drop (start.toNat - 1)).take room := by
  induction room generalizing start with
  | zero => rw [copyTail, List.take_zero]
  | succ room ih =>
      have positive : 0 < start.toNat := UInt32.lt_iff_toNat_lt.mp some_
      rw [copyTail]
      split
      next more =>
        have inside : start.toNat - 1 < calls.length := by
          rw [UInt32.le_iff_toNat_le, holds.newest] at more
          omega
        have inside' : start.toNat - 1 < (eventsOf calls).length := by rwa [length_eventsOf]
        have row : ring.events.getD ((start - 1) % ring.nEvents).toNat Event.zero =
            (eventsOf calls)[start.toNat - 1] := by
          have held := holds.wraps (start.toNat - 1) (by rw [length_eventsOf, holds.rows]; omega)
            inside'
          rw [toNat_pred_mod some_, holds.deep, ← holds.rows, List.getD_eq_getElem?_getD, held,
            List.getElem?_eq_getElem inside', Option.getD_some]
        rw [row, List.drop_eq_getElem_cons inside', List.take_succ_cons]
        congr 1
        cases room with
        | zero => rw [copyTail, List.take_zero]
        | succ room =>
            have next : (start + 1).toNat = start.toNat + 1 := by
              have bound := ring.eventSeq.toNat_lt
              rw [holds.newest] at bound
              rw [UInt32.toNat_add]
              change (start.toNat + 1) % 2 ^ 32 = _
              exact Nat.mod_eq_of_lt (by omega)
            have behind : (start + 1).toNat - 1 = start.toNat - 1 + 1 := by omega
            rw [ih (by rw [UInt32.lt_iff_toNat_lt, next]; exact Nat.succ_pos _)
              (by omega) (by omega) (by omega), behind]
      next last =>
        rw [UInt32.le_iff_toNat_le, holds.newest] at last
        rw [List.drop_eq_nil_of_le (by rw [length_eventsOf]; omega), List.take_nil]

theorem eventsSince_eq (out : Bool) (holds : ring.Holds depth calls) (some_ : 0 < depth)
    {max : UInt32}
    (fits : ring.eventSeq.toNat + 1 < 2 ^ 32 ∨ rowsLeft ring since = 0 ∨
      max.toNat ≤ rowsLeft ring since) :
    ∃ skip room, ring.eventsSince since out max = ((eventsOf calls).drop skip).take room ∧
      since.toNat ≤ skip ∧ (since.toNat < skip → skip + depth.toNat ≤ calls.length) := by
  rw [Ring.eventsSince]
  split
  · exact ⟨since.toNat, 0, by rw [List.take_zero], Nat.le_refl _, fun less =>
      (Nat.lt_irrefl _ less).elim⟩
  next open_ =>
    simp only [Bool.or_eq_true, decide_eq_true_eq, not_or] at open_
    have newer : since.toNat < calls.length := by
      have other := open_.2
      rw [UInt32.le_iff_toNat_le, holds.newest] at other
      omega
    have bound := ring.eventSeq.toNat_lt
    have deep := UInt32.lt_iff_toNat_lt.mp some_
    have next : (since + 1).toNat = since.toNat + 1 := by
      rw [holds.newest] at bound
      rw [UInt32.toNat_add]
      exact Nat.mod_eq_of_lt (by change since.toNat + 1 < _; omega)
    have gap : (ring.eventSeq - (since + 1)).toNat = calls.length - (since.toNat + 1) := by
      rw [UInt32.toNat_sub_of_le _ _ (by rw [UInt32.le_iff_toNat_le, next, holds.newest]; omega),
        next, holds.newest]
    rw [rowsLeft, holds.newest, holds.deep] at fits
    rw [holds.newest] at bound
    rw [windowStart]
    split
    next older =>
      rw [UInt32.le_iff_toNat_le, gap, holds.deep] at older
      rw [holds.deep]
      have clipped : (ring.eventSeq - depth + 1).toNat = calls.length - depth.toNat + 1 := by
        rw [UInt32.toNat_add, UInt32.toNat_sub_of_le _ _
          (by rw [UInt32.le_iff_toNat_le, holds.newest]; omega), holds.newest]
        exact Nat.mod_eq_of_lt (by change calls.length - depth.toNat + 1 < _; omega)
      refine ⟨calls.length - depth.toNat, max.toNat, ?_, by omega, by omega⟩
      rw [copyTail_eq holds max.toNat (by rw [UInt32.lt_iff_toNat_lt, clipped]; exact Nat.succ_pos _)
        (by omega) (by omega) (by omega), clipped, Nat.add_sub_cancel]
    next recent =>
      rw [UInt32.le_iff_toNat_le, gap, holds.deep] at recent
      refine ⟨since.toNat, max.toNat, ?_, Nat.le_refl _, fun less => (Nat.lt_irrefl _ less).elim⟩
      rw [copyTail_eq holds max.toNat (by rw [UInt32.lt_iff_toNat_lt, next]; exact Nat.succ_pos _)
        (by omega) (by omega) (by omega), next, Nat.add_sub_cancel]

theorem getElem?_eventsOf (calls : List Call) (i : Nat) :
    (eventsOf calls)[i]? = calls[i]?.map fun call => call.event (UInt32.ofNat (i + 1)) :=
  List.getElem?_mapIdx

theorem numbers_eventsOf (small : calls.length < 2 ^ 32) :
    (eventsOf calls).map (·.seq.toNat) = List.range' 1 calls.length := by
  refine List.ext_getElem? fun i => ?_
  rw [List.getElem?_map, getElem?_eventsOf]
  rcases Nat.lt_or_ge i calls.length with inside | outside
  · rw [List.getElem?_eq_getElem inside, List.getElem?_range' inside, Option.map_some,
      Option.map_some, Nat.one_mul, Nat.add_comm 1]
    exact congrArg some (Nat.mod_eq_of_lt (by omega))
  · rw [List.getElem?_eq_none outside, List.getElem?_eq_none (by rwa [List.length_range'])]
    rfl

theorem numbers_rows (small : calls.length < 2 ^ 32) (skip room : Nat) :
    (((eventsOf calls).drop skip).take room).map (·.seq.toNat) =
      List.range' (skip + 1) (min room (calls.length - skip)) := by
  rw [List.map_take, List.map_drop, numbers_eventsOf small, List.drop_range', Nat.mul_one,
    Nat.add_comm 1]
  rcases Nat.le_total (calls.length - skip) room with all | part
  · rw [List.take_range'_of_length_le all, Nat.min_eq_right all]
  · rw [List.take_range'_of_length_ge part, Nat.min_eq_left part]

theorem mem_rows {skip room : Nat} {e : Event}
    (member : e ∈ ((eventsOf calls).drop skip).take room) (small : calls.length < 2 ^ 32) :
    0 < e.seq ∧ ∃ call, calls[e.seq.toNat - 1]? = some call ∧ e = call.event e.seq := by
  obtain ⟨i, at_⟩ := List.mem_iff_getElem?.mp (List.mem_of_mem_drop (List.mem_of_mem_take member))
  rw [getElem?_eventsOf] at at_
  obtain ⟨call, found, rfl⟩ := Option.map_eq_some_iff.mp at_
  have inside := (List.getElem?_eq_some_iff.mp found).1
  have number : (UInt32.ofNat (i + 1)).toNat = i + 1 := Nat.mod_eq_of_lt (by omega)
  refine ⟨?_, call, ?_, rfl⟩
  · change 0 < UInt32.ofNat (i + 1)
    rw [UInt32.lt_iff_toNat_lt, number]
    exact Nat.succ_pos i
  · change calls[(UInt32.ofNat (i + 1)).toNat - 1]? = _
    rw [number, Nat.add_sub_cancel, found]

structure Inv (w : World) : Prop where
  deep : 0 < w.state.depth
  holds : ∀ ring, w.state.ctx = some ring → ring.Holds w.state.depth w.emitted
  idle : w.state.ctx = none → w.emitted = []
  sound : Sound w
  seen : ∀ e ∈ w.received, e.seq.toNat ≤ w.since.toNat

theorem toNat_since (w : World) :
    w.since.toNat = ((w.received.map (·.seq.toNat)).getLast?).getD 0 := by
  rw [World.since, List.getLast?_map]
  cases w.received.getLast? with
  | none => rfl
  | some e => rfl

theorem Inv.start {depth : UInt32} (deep : 0 < depth) : Inv (.start depth) where
  deep := deep
  holds := nofun
  idle := fun _ => rfl
  sound := ⟨List.Pairwise.nil, fun _ member => (List.not_mem_nil member).elim,
    fun _ member => (List.not_mem_nil member).elim⟩
  seen := fun _ member => (List.not_mem_nil member).elim

theorem Ring.Holds.fresh (depth : UInt32) :
    Ring.Holds ⟨List.replicate depth.toNat Event.zero, depth, 0⟩ depth [] :=
  ⟨rfl, List.length_replicate, rfl, Wraps.nil _⟩

variable {w : World}

theorem Inv.acquire (inv : Inv w) (granted : Bool) :
    Inv { w with state := buildCtxAcquire granted w.state } := by
  rw [buildCtxAcquire]
  split
  · exact inv
  next none_ =>
    split
    · refine ⟨inv.deep, ?_, nofun, ⟨inv.sound.increasing, inv.sound.genuine, inv.sound.skipped⟩,
        inv.seen⟩
      rintro ring ⟨⟩
      rw [inv.idle none_]
      exact Ring.Holds.fresh _
    · exact inv

theorem Sound.emit (sound : Sound w) (state : State) (deep : state.depth = w.state.depth)
    (more : List Call) : Sound { w with state := state, emitted := w.emitted ++ more } := by
  refine ⟨sound.increasing, ?_, ?_⟩
  · intro e member
    obtain ⟨some_, call, found, same⟩ := sound.genuine e member
    refine ⟨some_, call, ?_, same⟩
    exact (List.getElem?_append_left (List.getElem?_eq_some_iff.mp found).1).trans found
  · change ∀ poll ∈ w.polls, ∀ seq : Nat, _ → _ → _ → seq + state.depth.toNat ≤ _
    rw [deep]
    exact sound.skipped

theorem Inv.emit (inv : Inv w) (granted : Bool) (call : Option Call)
    (fewer : w.emitted.length + 1 < 2 ^ 32) : Inv (w.step (.emit granted call)) := by
  have taken := inv.acquire granted
  change Inv { w with
    state := (buildCtxAcquire granted w.state).append call
    emitted := w.emitted ++ appended (buildCtxAcquire granted w.state) call }
  generalize buildCtxAcquire granted w.state = s at taken ⊢
  obtain ⟨depth, _ | ring⟩ := s
  · have same : w.emitted ++ [] = w.emitted := List.append_nil _
    change Inv { w with state := ⟨depth, none⟩, emitted := w.emitted ++ [] }
    rw [same]
    exact taken
  cases call with
  | none =>
      have same : w.emitted ++ [] = w.emitted := List.append_nil _
      change Inv { w with state := ⟨depth, some ring⟩, emitted := w.emitted ++ [] }
      rw [same]
      exact taken
  | some call =>
      refine ⟨taken.deep, ?_, nofun, taken.sound.emit (State.append (some call) _) rfl [call],
        inv.seen⟩
      intro other same
      obtain rfl : ring.append call = other := Option.some.inj same
      exact (taken.holds ring rfl).append taken.deep fewer call

theorem Inv.rows (inv : Inv w) (small : w.emitted.length < 2 ^ 32) (skip room : Nat)
    (later : w.since.toNat ≤ skip)
    (passed : w.since.toNat < skip → skip + w.state.depth.toNat ≤ w.emitted.length) :
    Inv { w with polls := w.polls ++
      [⟨w.since, ((eventsOf w.emitted).drop skip).take room, w.emitted.length⟩] } := by
  have numbers := numbers_rows small skip room
  have genuine : ∀ e ∈ ((eventsOf w.emitted).drop skip).take room, _ := fun e member =>
    mem_rows member small
  generalize ((eventsOf w.emitted).drop skip).take room = rows at numbers genuine ⊢
  generalize min room (w.emitted.length - skip) = count at numbers
  have inRows {e : Event} (member : e ∈ rows) :
      skip < e.seq.toNat ∧ e.seq.toNat < skip + 1 + count := by
    have listed := List.mem_map_of_mem (f := fun e => e.seq.toNat) member
    rw [numbers, List.mem_range'_1] at listed
    exact listed
  have all : World.received { w with polls := w.polls ++ [⟨w.since, rows, w.emitted.length⟩] } =
      w.received ++ rows := by
    rw [World.received, List.flatMap_append]
    exact congrArg (w.received ++ ·) (List.append_nil rows)
  refine ⟨inv.deep, inv.holds, inv.idle, ⟨?_, ?_, ?_⟩, ?_⟩
  · rw [all, List.map_append, numbers]
    refine List.pairwise_append.mpr ⟨inv.sound.increasing, List.pairwise_lt_range' 1, ?_⟩
    intro a old b new
    obtain ⟨e, member, rfl⟩ := List.mem_map.mp old
    have before := inv.seen e member
    have after := (List.mem_range'_1.mp new).1
    omega
  · intro e member
    rw [all] at member
    rcases List.mem_append.mp member with old | new
    · exact inv.sound.genuine e old
    · exact genuine e new
  · intro poll member seq behind below absent
    rcases List.mem_append.mp member with old | new
    · exact inv.sound.skipped poll old seq behind below absent
    · obtain rfl := List.mem_singleton.mp new
      obtain ⟨e, inside, before⟩ := below
      have last := (inRows inside).2
      have clipped : seq ≤ skip := by
        by_contra within
        have listed : seq ∈ rows.map (·.seq.toNat) := by
          rw [numbers, List.mem_range'_1]
          omega
        obtain ⟨e, member, same⟩ := List.mem_map.mp listed
        exact absent e member same
      have held := passed (Nat.lt_of_lt_of_le behind clipped)
      exact Nat.le_trans (Nat.add_le_add_right clipped _) held
  · intro e member
    rw [toNat_since, all, List.map_append, numbers]
    rw [all] at member
    cases count with
    | zero =>
        rw [List.range'_zero, List.append_nil, ← toNat_since]
        rcases List.mem_append.mp member with old | new
        · exact inv.seen e old
        · have inside := inRows new
          omega
    | succ count =>
        rw [List.getLast?_append, List.getLast?_range', if_neg (Nat.succ_ne_zero _),
          Option.some_or, Option.getD_some]
        rcases List.mem_append.mp member with old | new
        · have before := inv.seen e old
          omega
        · have inside := inRows new
          omega

theorem Inv.poll (inv : Inv w) (small : w.emitted.length < 2 ^ 32) {granted out : Bool}
    {max : UInt32} (fit : Fit w (.poll granted out max)) :
    Inv (w.step (.poll granted out max)) := by
  have taken := inv.acquire granted
  have fresh : ∀ ring, (buildCtxAcquire granted w.state).ctx = some ring →
      ring.eventSeq.toNat + 1 < 2 ^ 32 ∨ rowsLeft ring w.since = 0 ∨
        max.toNat ≤ rowsLeft ring w.since := by
    intro ring found
    cases old : w.state.ctx with
    | some other =>
        rw [buildCtxAcquire, old] at found
        exact fit ring found
    | none =>
        rw [(taken.holds ring found).newest]
        change w.emitted.length + 1 < _ ∨ _
        rw [inv.idle old]
        exact .inl (by decide)
  change Inv { w with
    state := (buildEventsSince granted w.since out max w.state).2
    polls := w.polls ++
      [⟨w.since, (buildEventsSince granted w.since out max w.state).1.1, w.emitted.length⟩] }
  rw [buildEventsSince]
  generalize buildCtxAcquire granted w.state = s at taken fresh ⊢
  obtain ⟨depth, _ | ring⟩ := s
  · exact taken.rows small w.since.toNat 0 (Nat.le_refl _) fun less =>
      (Nat.lt_irrefl _ less).elim
  · obtain ⟨skip, room, rows, later, passed⟩ :=
      eventsSince_eq out (taken.holds ring rfl) taken.deep (fresh ring rfl)
    dsimp only
    rw [rows]
    exact taken.rows small skip room later passed

theorem length_step_le (w : World) (act : Act) :
    (w.step act).emitted.length ≤ w.emitted.length + emits [act] := by
  cases act with
  | emit granted call =>
      change (w.emitted ++ appended _ call).length ≤ w.emitted.length + 1
      rw [List.length_append, appended]
      cases call with
      | none => split <;> exact Nat.le_succ _
      | some call =>
          split
          · exact Nat.le_refl _
          · exact Nat.le_succ _
  | poll granted out max => exact Nat.le_refl _

theorem run_inv {acts : List Act} (inv : Inv w) (fewer : w.emitted.length + emits acts < 2 ^ 32)
    (fit : Along World.step Fit w acts) : Inv (acts.foldl World.step w) := by
  induction acts generalizing w with
  | nil => exact inv
  | cons act rest ih =>
      have both : emits (act :: rest) = emits [act] + emits rest := by
        rw [← List.singleton_append, emits, List.countP_append]
        rfl
      have longer := length_step_le w act
      refine ih ?_ (by omega) fit.2
      cases act with
      | emit granted call =>
          have one : emits [Act.emit granted call] = 1 := rfl
          exact inv.emit granted call (by omega)
      | poll granted out max => exact inv.poll (by omega) fit.1

/-- In every run of fewer than 2^32 emissions, the poller gets the events in order and as they
were emitted, without those only that left the ring. -/
theorem polls_sound (depth : UInt32) (deep : 0 < depth) (acts : List Act)
    (fewer : emits acts < 2 ^ 32) (fit : Along World.step Fit (.start depth) acts) :
    Sound (World.run depth acts) := by
  refine (run_inv (Inv.start deep) ?_ fit).sound
  rw [show (World.start depth).emitted.length = 0 from rfl, Nat.zero_add]
  exact fewer

def unitStart : Call := ⟨0, 0, ⟨[117], by decide⟩, none, 0, 0, 0⟩

/-- Three events, one of which is gone from a ring of two before the poll. -/
theorem run_three :
    emits [.emit true (some unitStart), .emit true (some unitStart), .emit true (some unitStart),
      .poll true true 5] < 2 ^ 32 ∧
    Sound (World.run 2 [.emit true (some unitStart), .emit true (some unitStart),
      .emit true (some unitStart), .poll true true 5]) :=
  ⟨by decide, polls_sound 2 (by decide) _ (by decide)
    ⟨trivial, trivial, trivial, fun ring same => .inl (by
      obtain rfl := Option.some.inj same
      decide), trivial⟩⟩

theorem received_poll {ring : Ring} (has : w.state.ctx = some ring) {granted out : Bool}
    {max : UInt32} :
    (w.step (.poll granted out max)).received =
      w.received ++ ring.eventsSince w.since out max := by
  have rows : (buildEventsSince granted w.since out max w.state).1.1 =
      ring.eventsSince w.since out max := by
    rw [buildEventsSince, buildCtxAcquire, has]
    dsimp only
    rw [has]
  change (w.polls ++ [_]).flatMap _ = _
  rw [List.flatMap_append, List.flatMap_singleton, ← rows]
  rfl

theorem run_replicate (n : Nat) : ∃ row : Event,
    World.run 1 (List.replicate (n + 1) (.emit true (some unitStart))) =
      ⟨⟨1, some ⟨[row], 1, UInt32.ofNat (n + 1)⟩⟩, List.replicate (n + 1) unitStart, []⟩ := by
  induction n with
  | zero => exact ⟨unitStart.event 1, rfl⟩
  | succ n ih =>
      obtain ⟨row, before⟩ := ih
      refine ⟨unitStart.event (UInt32.ofNat (n + 1) + 1), ?_⟩
      have slot : ((UInt32.ofNat (n + 1) + 1 - 1) % 1).toNat = 0 := by
        rw [UInt32.toNat_mod]
        exact Nat.mod_one _
      rw [World.run, List.replicate_succ', List.foldl_append, ← World.run, before,
        List.replicate_succ' (n := n + 1) (a := unitStart)]
      change World.mk ⟨1, some ⟨[row].set ((UInt32.ofNat (n + 1) + 1 - 1) % 1).toNat _, 1, _⟩⟩ _ _ =
        _
      rw [slot, UInt32.ofNat_add (n + 1) 1]
      rfl

def wholeCycle (n : Nat) : List Act :=
  List.replicate (n + 1) (Act.emit true (some unitStart)) ++ [Act.poll true true 2]

theorem emits_wholeCycle (n : Nat) : emits (wholeCycle n) = n + 1 := by
  rw [emits, wholeCycle, List.countP_append, List.countP_replicate]
  rfl

theorem eventsSince_last (row : Event) :
    Ring.eventsSince ⟨[row], 1, 4294967295⟩ 0 true 2 = [row, row] := by
  have older : (1 : UInt32) ≤ 4294967295 - (0 + 1) := by decide
  have start : (4294967295 : UInt32) - 1 + 1 = 4294967295 := by decide
  have open_ : ¬ (!true || (2 : UInt32) == 0 || decide ((4294967295 : UInt32) ≤ 0)) = true := by
    decide
  have wrapped : (4294967295 : UInt32) + 1 ≤ 4294967295 := by decide
  have held (seq : UInt32) : [row].getD ((seq - 1) % 1).toNat Event.zero = row := by
    rw [UInt32.toNat_mod]
    change [row].getD (_ % 1) Event.zero = row
    rw [Nat.mod_one]
    rfl
  rw [Ring.eventsSince, if_neg open_, windowStart, if_pos older]
  change copyTail _ 4294967295 2 (4294967295 - 1 + 1) = _
  rw [start, copyTail, if_pos (UInt32.le_refl _), copyTail, if_pos wrapped, copyTail, held, held]

theorem wholeCycle_twice {n : Nat} (last : UInt32.ofNat (n + 1) = 4294967295) :
    ¬ Sound (World.run 1 (wholeCycle n)) := by
  intro sound
  obtain ⟨row, before⟩ := run_replicate n
  rw [World.run, wholeCycle, List.foldl_append, ← World.run, before, last] at sound
  have increasing := sound.increasing
  rw [List.foldl_cons, List.foldl_nil, received_poll rfl] at increasing
  rw [World.since, World.received, List.flatMap_nil, List.nil_append] at increasing
  change ((Ring.eventsSince _ 0 true 2).map _).Pairwise _ at increasing
  rw [eventsSince_last] at increasing
  exact Nat.lt_irrefl _ ((List.pairwise_cons.mp increasing).1 _ List.mem_cons_self)

/-- After the last number, a poll for more rows than there are gets a row twice. -/
theorem run_fails :
    emits (wholeCycle 4294967294) < 2 ^ 32 ∧ ¬ Sound (World.run 1 (wholeCycle 4294967294)) := by
  refine ⟨?_, wholeCycle_twice rfl⟩
  rw [emits_wholeCycle]
  decide

end Metal.Build.Events
