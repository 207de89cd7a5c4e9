import Metal.Lib.Words
import Metal.Net.Ip.Route

namespace Metal.Net.Ip.Arp

open Metal.Lib

/-! `net/ip/__link__`: the table of neighbours. A slot has the MAC of a neighbour and a
datagram that waits for it. The card never looks into a datagram, so its type is left
open. -/

inductive State
  | free
  | asking
  | live
  deriving DecidableEq

/-- `at_` is when a live entry goes stale, or when to ask again. -/
structure Entry (δ : Type) where
  state : State
  h : Int
  addr : UInt32
  mac : Bytes
  at_ : UInt64
  tries : UInt32
  pend : Option δ

variable {δ : Type}

def Entry.zero : Entry δ := ⟨.free, 0, 0, [0, 0, 0, 0, 0, 0], 0, 0, none⟩

def Entry.claimed (e : Entry δ) : Bool := e.addr != 0

def Entry.key (e : Entry δ) : Int × UInt32 := (e.h, e.addr)

/-- `grow` says how the next growths of the table go. -/
structure Table (δ : Type) where
  slots : List (Entry δ)
  used : Nat
  grow : List (Option Nat)

def boot (grow : List (Option Nat)) : Table δ := ⟨[], 0, grow⟩

/-- What happens, in its order: a datagram starts to wait, a MAC is learned with its
expiry, a datagram goes out, a lookup succeeds, an ARP frame goes out. -/
inductive Event (δ : Type)
  | queued (h : Int) (addr : UInt32) (d : δ)
  | learned (h : Int) (addr : UInt32) (mac : Bytes) (expiry : UInt64)
  | sent (h : Int) (addr : UInt32) (mac : Bytes) (d : δ)
  | found (now : UInt64) (h : Int) (addr : UInt32) (mac : Bytes)
  | arp (h : Int) (op : UInt16) (dmac tha : Bytes) (tpa : UInt32)
  deriving DecidableEq

def ttlUs : UInt64 := 60000000

def retryUs : UInt64 := 500000

def maxTries : UInt32 := 4

def pendMax : Nat := 1500

def bcast : Bytes := [0xff, 0xff, 0xff, 0xff, 0xff, 0xff]

def noMac : Bytes := [0, 0, 0, 0, 0, 0]

def arpFind (t : Table δ) (h : Int) (addr : UInt32) : Option Nat :=
  if addr = 0 then none else t.slots.findIdx? fun e => e.addr == addr && e.h == h

/-- The first of the slots that were touched least recently, `i` being the number of the
first slot of the list. -/
def oldest : Nat → List (Entry δ) → Option (Nat × UInt64)
  | _, [] => none
  | i, e :: rest =>
      match oldest (i + 1) rest with
      | none => some (i, e.at_)
      | some (j, least) => if least < e.at_ then some (j, least) else some (i, e.at_)

def claim (slots : List (Entry δ)) (used : Nat) (i : Nat) (h : Int) (addr : UInt32)
    (grow : List (Option Nat)) : Table δ :=
  ⟨slots.set i { Entry.zero with h := h, addr := addr }, used + 1, grow⟩

def arpSlot (t : Table δ) (h : Int) (addr : UInt32) : Option Nat × Table δ :=
  match arpFind t h addr with
  | some i => (some i, t)
  | none =>
      match t.slots.findIdx? fun e => e.addr == 0 with
      | some i => (some i, claim t.slots t.used i h addr t.grow)
      | none =>
          match t.grow.headD none with
          | some more =>
              (some t.slots.length, claim (t.slots ++ List.replicate (more + 1) Entry.zero) t.used
                t.slots.length h addr t.grow.tail)
          | none =>
              match oldest 0 t.slots with
              | none => (none, { t with grow := t.grow.tail })
              | some (i, _) => (some i, claim t.slots (t.used - 1) i h addr t.grow.tail)

def put (t : Table δ) (i : Nat) (e : Entry δ) : Table δ := { t with slots := t.slots.set i e }

/-- `wanted`: the caller has room for the MAC. -/
def arpLookup (t : Table δ) (now : UInt64) (h : Int) (addr : UInt32) (wanted : Bool) :
    Table δ × List (Event δ) :=
  match (arpFind t h addr).bind fun i => t.slots[i]?.map fun e => (i, e) with
  | none => (t, [])
  | some (i, e) =>
      if e.state ≠ .live ∨ ¬ wanted then (t, [])
      else if e.at_ ≤ now then (put t i { e with state := .free }, [])
      else (t, [.found now h addr e.mac])

def arpLearn (t : Table δ) (now : UInt64) (h : Int) (addr : UInt32) (mac : Option Bytes) :
    Table δ × List (Event δ) :=
  match mac with
  | none => (t, [])
  | some mac =>
      if h < 0 ∨ addr = 0 ∨ addr = 0xffffffff then (t, [])
      else
        let (slot, t) := arpSlot t h addr
        match slot.bind fun i => t.slots[i]?.map fun e => (i, e) with
        | none => (t, [])
        | some (i, e) =>
            let e' := { e with
              state := .live, tries := 0, at_ := now + ttlUs, mac := mac, pend := none }
            (put t i e', .learned h addr mac (now + ttlUs) ::
              (e.pend.map fun d => .sent h addr mac d).toList)

def arpAsk (t : Table δ) (now : UInt64) (h : Int) (addr : UInt32) :
    Table δ × List (Event δ) :=
  if h < 0 ∨ addr = 0 ∨ addr = 0xffffffff then (t, [])
  else
    let (slot, t) := arpSlot t h addr
    match slot.bind fun i => t.slots[i]?.map fun e => (i, e) with
    | none => (t, [])
    | some (i, e) =>
        if e.state = .live then (t, [])
        else
          (put t i { e with state := .asking, tries := e.tries + 1, at_ := now + retryUs },
            [.arp h 1 bcast noMac addr])

/-- The tests that `queue` makes of its arguments. -/
def Accepts (size : δ → Nat) (h : Int) (d : δ) : Prop :=
  0 ≤ h ∧ size d ≠ 0 ∧ size d ≤ pendMax

instance (size : δ → Nat) (h : Int) (d : δ) : Decidable (Accepts size h d) :=
  inferInstanceAs (Decidable (_ ∧ _ ∧ _))

/-- Unlike the others, `queue` does not ask that the address is not zero. -/
def arpQueue (size : δ → Nat) (t : Table δ) (h : Int) (addr : UInt32) (pkt : Option δ) :
    Table δ × List (Event δ) :=
  match pkt with
  | none => (t, [])
  | some d =>
      if ¬ Accepts size h d then (t, [])
      else
        let (slot, t) := arpSlot t h addr
        match slot.bind fun i => t.slots[i]?.map fun e => (i, e) with
        | none => (t, [])
        | some (i, e) => (put t i { e with pend := some d }, [.queued h addr d])

/-- One turn of the loop of `tick`. -/
def tickSlot (t : Table δ) (now : UInt64) (i : Nat) : Table δ × List (Event δ) :=
  match t.slots[i]? with
  | none => (t, [])
  | some e =>
      if e.state = .free ∨ now < e.at_ then (t, [])
      else if e.state = .live then (put t i { e with state := .free }, [])
      else if maxTries ≤ e.tries then
        ({ put t i Entry.zero with used := t.used - 1 }, [])
      else
        (put t i { e with tries := e.tries + 1, at_ := now + retryUs },
          [.arp e.h 1 bcast noMac e.addr])

/-- What arrives while a frame goes out is a call of its own, between two turns of the
loop. -/
def arpTick (t : Table δ) (now : UInt64) : Table δ × List (Event δ) :=
  (List.range t.slots.length).foldl (fun (t, out) i =>
    let (t, more) := tickSlot t now i
    (t, out ++ more)) (t, [])

def arpInput (links : Link.Links) (t : Table δ) (now : UInt64) (h : Int)
    (frame : Option Bytes) : Table δ × List (Event δ) :=
  match frame with
  | none => (t, [])
  | some frame =>
      if h < 0 ∨ frame.length < 42 then (t, [])
      else if beU16 (frame.drop 14) ≠ 1 ∨ beU16 (frame.drop 16) ≠ 0x0800 then (t, [])
      else if frame.getD 18 0 ≠ 6 ∨ frame.getD 19 0 ≠ 4 then (t, [])
      else
        let sha := (frame.drop 22).take 6
        let spa := beU32 (frame.drop 28)
        let tpa := beU32 (frame.drop 38)
        let (t, out) := arpLearn t now h spa (some sha)
        let ours := Link.l2AddrOf links h
        if beU16 (frame.drop 20) ≠ 1 then (t, out)
        else if (ours = 0 ∨ tpa ≠ ours) ∧ ¬ Link.l2AddrOurs links tpa then (t, out)
        else (t, out ++ [Event.arp h 2 ((frame.drop 6).take 6) sha spa])

inductive Call (δ : Type)
  | lookup (now : UInt64) (h : Int) (addr : UInt32) (wanted : Bool)
  | learn (now : UInt64) (h : Int) (addr : UInt32) (mac : Option Bytes)
  | ask (now : UInt64) (h : Int) (addr : UInt32)
  | queue (h : Int) (addr : UInt32) (pkt : Option δ)
  | tick (now : UInt64)
  | tickSlot (now : UInt64) (i : Nat)
  | input (links : Link.Links) (now : UInt64) (h : Int) (frame : Option Bytes)

def exec (size : δ → Nat) (t : Table δ) : Call δ → Table δ × List (Event δ)
  | .lookup now h addr wanted => arpLookup t now h addr wanted
  | .learn now h addr mac => arpLearn t now h addr mac
  | .ask now h addr => arpAsk t now h addr
  | .queue h addr pkt => arpQueue size t h addr pkt
  | .tick now => arpTick t now
  | .tickSlot now i => tickSlot t now i
  | .input links now h frame => arpInput links t now h frame

structure World (δ : Type) where
  table : Table δ
  trace : List (Event δ)

def step (size : δ → Nat) (w : World δ) (call : Call δ) : World δ :=
  let (table, more) := exec size w.table call
  ⟨table, w.trace ++ more⟩

def Latest (seen : List (Event δ)) (h : Int) (addr : UInt32) (mac : Bytes)
    (expiry : UInt64) : Prop :=
  ∃ first later, seen = first ++ Event.learned h addr mac expiry :: later ∧
    ∀ ev ∈ later, ∀ mac' expiry', ev ≠ .learned h addr mac' expiry'

/-- What must have happened before: a datagram goes to a MAC that was learned for its
neighbour after it was queued for that neighbour, and a lookup finds the last MAC
learned, before its expiry. -/
def Told (seen : List (Event δ)) : Event δ → Prop
  | .sent h addr mac d =>
      ∃ first later, seen = first ++ Event.queued h addr d :: later ∧
        ∃ expiry, .learned h addr mac expiry ∈ later
  | .found now h addr mac => ∃ expiry, Latest seen h addr mac expiry ∧ now < expiry
  | _ => True

def append (seen : List (Event δ)) (ev : Event δ) : List (Event δ) := seen ++ [ev]

theorem foldl_append (seen more : List (Event δ)) : more.foldl append seen = seen ++ more := by
  induction more generalizing seen with
  | nil => rw [List.foldl_nil, List.append_nil]
  | cons ev rest ih => rw [List.foldl_cons, ih, append, List.append_assoc, List.singleton_append]

variable {t : Table δ} {trace more : List (Event δ)} {e : Entry δ} {i : Nat}

theorem claimed_iff : e.claimed = true ↔ e.addr ≠ 0 := by
  simp [Entry.claimed]

variable {h : Int} {addr : UInt32}

theorem Latest.append {mac : Bytes} {expiry : UInt64} (latest : Latest trace h addr mac expiry)
    (silent : ∀ ev ∈ more, ∀ mac' expiry', ev ≠ .learned h addr mac' expiry') :
    Latest (trace ++ more) h addr mac expiry := by
  obtain ⟨first, later, same, quiet⟩ := latest
  refine ⟨first, later ++ more, by rw [same]; simp, ?_⟩
  intro ev member
  rcases List.mem_append.mp member with before | added
  · exact quiet ev before
  · exact silent ev added

theorem arpFind_some (found : arpFind t h addr = some i) :
    addr ≠ 0 ∧ ∃ e, t.slots[i]? = some e ∧ e.h = h ∧ e.addr = addr := by
  unfold arpFind at found
  split at found
  · cases found
  · case isFalse named =>
      obtain ⟨inside, here, _⟩ := List.findIdx?_eq_some_iff_getElem.mp found
      rw [Bool.and_eq_true, beq_iff_eq, beq_iff_eq] at here
      exact ⟨named, t.slots[i], List.getElem?_eq_getElem inside, here.2, here.1⟩

theorem arpFind_none (missing : arpFind t h addr = none) (named : addr ≠ 0) :
    ∀ e ∈ t.slots, e.key ≠ (h, addr) := by
  intro e member same
  rw [arpFind, if_neg named] at missing
  have differs := List.findIdx?_eq_none_iff.mp missing e member
  cases same
  simp at differs

theorem oldest_some {k : Nat} {l : List (Entry δ)} {least : UInt64}
    (found : oldest k l = some (i, least)) : k ≤ i ∧ ∃ e, l[i - k]? = some e := by
  induction l generalizing k i least with
  | nil => cases found
  | cons e rest ih =>
      have first (same : i = k) : k ≤ i ∧ ∃ x, (e :: rest)[i - k]? = some x := by
        rw [same, Nat.sub_self]
        exact ⟨Nat.le_refl k, e, rfl⟩
      rw [oldest] at found
      split at found
      · cases found
        exact first rfl
      · case h_2 j least' behind =>
          split at found
          · cases found
            obtain ⟨below, x, there⟩ := ih behind
            have shift : i - k = (i - (k + 1)) + 1 := by omega
            exact ⟨by omega, x, by rw [shift]; exact there⟩
          · cases found
            exact first rfl

section Counts

variable [DecidableEq δ]

def Event.isSent (h : Int) (addr : UInt32) (d : δ) : Event δ → Bool
  | .sent h' addr' _ d' => h' == h && addr' == addr && d' == d
  | _ => false

def Event.isQueued (h : Int) (addr : UInt32) (d : δ) : Event δ → Bool
  | .queued h' addr' d' => h' == h && addr' == addr && d' == d
  | _ => false

def Entry.waits (h : Int) (addr : UInt32) (d : δ) (e : Entry δ) : Bool :=
  e.h == h && e.addr == addr && e.pend == some d

/-- The table and its past: every claimed slot has a key of its own and is counted, each
datagram goes out at most as often as it was queued, and all that happened was due. -/
structure Kept (w : World δ) : Prop where
  distinct : Distinct Entry.claimed Entry.key w.table.slots
  count : w.table.used = w.table.slots.countP Entry.claimed
  once : ∀ h addr d,
    w.trace.countP (Event.isSent h addr d) ≤ w.trace.countP (Event.isQueued h addr d)
  told : ∀ seen ev rest, w.trace = seen ++ ev :: rest → Told seen ev

structure Inv (t : Table δ) (trace : List (Event δ)) : Prop where
  distinct : Distinct Entry.claimed Entry.key t.slots
  count : t.used = t.slots.countP Entry.claimed
  idle : ∀ e ∈ t.slots, e.addr = 0 → e.state = .free ∧ e.pend = none
  waiting : ∀ e ∈ t.slots, ∀ d, e.pend = some d → .queued e.h e.addr d ∈ trace
  fresh : ∀ e ∈ t.slots, e.state = .live → Latest trace e.h e.addr e.mac e.at_
  flow : ∀ h addr d,
    trace.countP (Event.isSent h addr d) + t.slots.countP (Entry.waits h addr d) ≤
      trace.countP (Event.isQueued h addr d)
  told : Along append Told [] trace

section Inv

variable (inv : Inv t trace)
include inv

theorem Inv.claim {used added : Nat} {old : Entry δ}
    (grow : List (Option Nat)) (named : addr ≠ 0)
    (here : (t.slots ++ List.replicate added Entry.zero)[i]? = some old)
    (count : used + old.claimed.toNat = t.used) (missing : ∀ e ∈ t.slots, e.key ≠ (h, addr)) :
    Inv (claim (t.slots ++ List.replicate added Entry.zero) used i h addr grow) trace := by
  let slots := t.slots ++ List.replicate added Entry.zero
  let new : Entry δ := { Entry.zero with h := h, addr := addr }
  have back (x : Entry δ) (member : x ∈ slots) : x ∈ t.slots ∨ x = Entry.zero := by
    rcases List.mem_append.mp member with before | added
    · exact Or.inl before
    · exact Or.inr (List.eq_of_mem_replicate added)
  have kept (x : Entry δ) (member : x ∈ slots.set i new) :
      x ∈ t.slots ∨ x = Entry.zero ∨ x = new := by
    rcases List.mem_or_eq_of_mem_set member with before | rfl
    · rcases back x before with old | zero
      · exact Or.inl old
      · exact Or.inr (Or.inl zero)
    · exact Or.inr (Or.inr rfl)
  have none (p : Entry δ → Bool) (zero : p Entry.zero = false) :
      slots.countP p = t.slots.countP p := by
    rw [List.countP_append, List.countP_replicate, zero]
    exact Nat.add_zero _
  refine ⟨?_, ?_, ?_, ?_, ?_, ?_, inv.told⟩
  · change Distinct Entry.claimed Entry.key (slots.set i new)
    refine Distinct.claim ?_ ?_ i
    · refine inv.distinct.of_kept fun j a there live => ?_
      rcases append_replicate_cases there with before | rfl
      · exact ⟨a, before, live, rfl⟩
      · cases live
    · intro a member live
      rcases back a member with before | rfl
      · exact missing a before
      · cases live
  · have moved := countP_set_add Entry.claimed here new
    have total := inv.count
    have taken : new.claimed = true := claimed_iff.mpr named
    have same := none Entry.claimed rfl
    change slots.countP Entry.claimed = _ at same
    rw [taken] at moved
    change used + 1 = (slots.set i new).countP Entry.claimed
    change (slots.set i new).countP Entry.claimed + _ = slots.countP Entry.claimed + 1 at moved
    omega
  · intro x member zero
    rcases kept x member with before | rfl | rfl
    · exact inv.idle x before zero
    · exact ⟨rfl, rfl⟩
    · exact absurd zero named
  · intro x member d waits
    rcases kept x member with before | rfl | rfl
    · exact inv.waiting x before d waits
    · cases waits
    · cases waits
  · intro x member live
    rcases kept x member with before | rfl | rfl
    · exact inv.fresh x before live
    · cases live
    · cases live
  · intro h' addr' d
    have moved := countP_set_add (Entry.waits h' addr' d) here new
    have before := inv.flow h' addr' d
    have idle : new.waits h' addr' d = false := by simp [Entry.waits, new, Entry.zero]
    have same := none (Entry.waits h' addr' d) (by simp [Entry.waits, Entry.zero])
    rw [idle] at moved
    change _ + (slots.set i new).countP _ ≤ _
    change (slots.set i new).countP _ + _ = slots.countP _ + 0 at moved
    omega

theorem Inv.slot (named : addr ≠ 0) :
    Inv (arpSlot t h addr).2 trace ∧ ∀ i, (arpSlot t h addr).1 = some i →
      ∃ e, (arpSlot t h addr).2.slots[i]? = some e ∧ e.h = h ∧ e.addr = addr := by
  have taken (used : Nat) {added i : Nat} {old : Entry δ} (grow : List (Option Nat))
      (here : (t.slots ++ List.replicate added Entry.zero)[i]? = some old)
      (count : used + old.claimed.toNat = t.used)
      (missing : ∀ e ∈ t.slots, e.key ≠ (h, addr)) :
      let t' := Arp.claim (t.slots ++ List.replicate added Entry.zero) used i h addr grow
      Inv t' trace ∧ ∀ j, some i = some j →
        ∃ e, t'.slots[j]? = some e ∧ e.h = h ∧ e.addr = addr := by
    refine ⟨inv.claim grow named here count missing, ?_⟩
    rintro j ⟨⟩
    exact ⟨_, set_here here _, rfl, rfl⟩
  unfold arpSlot
  cases known : arpFind t h addr with
  | some i =>
      obtain ⟨_, e, there, sameH, sameAddr⟩ := arpFind_some known
      refine ⟨inv, ?_⟩
      rintro j ⟨⟩
      exact ⟨e, there, sameH, sameAddr⟩
  | none =>
      have missing := arpFind_none known named
      cases idle : t.slots.findIdx? fun e => e.addr == 0 with
      | some i =>
          obtain ⟨inside, zero, _⟩ := List.findIdx?_eq_some_iff_getElem.mp idle
          have unclaimed : t.slots[i].claimed = false := by simpa [Entry.claimed] using zero
          have here : (t.slots ++ List.replicate 0 Entry.zero)[i]? = some t.slots[i] := by
            simp [inside]
          have result := taken t.used t.grow here (by rw [unclaimed]; rfl) missing
          rw [List.replicate_zero, List.append_nil] at result
          exact result
      | none =>
          cases t.grow.headD none with
          | some more =>
              have here : (t.slots ++ List.replicate (more + 1) Entry.zero)[t.slots.length]? =
                  some Entry.zero := by
                rw [List.getElem?_append_right (Nat.le_refl _), Nat.sub_self]
                rfl
              exact taken t.used t.grow.tail here rfl missing
          | none =>
              cases least : oldest 0 t.slots with
              | none =>
                  refine ⟨⟨inv.distinct, inv.count, inv.idle, inv.waiting, inv.fresh,
                    inv.flow, inv.told⟩, ?_⟩
                  rintro j ⟨⟩
              | some found =>
                  obtain ⟨i, at_⟩ := found
                  obtain ⟨_, old, there⟩ := oldest_some least
                  have member := List.mem_of_getElem? there
                  have claimed : old.claimed = true := by
                    have busy := List.findIdx?_eq_none_iff.mp idle old member
                    simpa [Entry.claimed] using busy
                  -- Every slot is claimed, so there is one to take off the count.
                  have positive : 0 < t.slots.countP Entry.claimed :=
                    List.countP_pos_iff.mpr ⟨old, member, claimed⟩
                  have total := inv.count
                  have here : (t.slots ++ List.replicate 0 Entry.zero)[i]? = some old := by
                    simpa using there
                  have result := taken (t.used - 1) t.grow.tail here
                    (by rw [claimed]; change t.used - 1 + 1 = t.used; omega) missing
                  rw [List.replicate_zero, List.append_nil] at result
                  exact result

theorem Inv.put {x : Entry δ} (here : t.slots[i]? = some e)
    (named : e.addr ≠ 0) (key : x.key = e.key)
    (waiting : ∀ d, x.pend = some d → .queued e.h e.addr d ∈ trace ++ more)
    (flow : ∀ h addr d, more.countP (Event.isSent h addr d) + (x.waits h addr d).toNat ≤
      more.countP (Event.isQueued h addr d) + (e.waits h addr d).toNat)
    (fresh : x.state = .live → Latest (trace ++ more) e.h e.addr x.mac x.at_)
    (learns : ∀ h addr mac expiry, .learned h addr mac expiry ∈ more → (h, addr) = e.key)
    (told : Along Arp.append Told trace more) : Inv (put t i x) (trace ++ more) := by
  have keys := Prod.mk.inj key
  have slot {j : Nat} {y : Entry δ} (there : (t.slots.set i x)[j]? = some y) :
      y = x ∨ (y ∈ t.slots ∧ t.slots[j]? = some y ∧ j ≠ i) := by
    rcases set_cases there with ⟨_, rfl⟩ | ⟨other, before⟩
    · exact Or.inl rfl
    · exact Or.inr ⟨List.mem_of_getElem? before, before, other⟩
  refine ⟨?_, ?_, ?_, ?_, ?_, ?_, ?_⟩
  · refine inv.distinct.of_kept fun j a there live => ?_
    rcases set_cases there with ⟨rfl, rfl⟩ | ⟨_, before⟩
    · exact ⟨e, here, claimed_iff.mpr named, key.symm⟩
    · exact ⟨a, before, live, rfl⟩
  · have moved := countP_set_add Entry.claimed here x
    have same : x.claimed = e.claimed := by rw [Entry.claimed, keys.2]; rfl
    rw [same] at moved
    exact inv.count.trans (Nat.add_right_cancel moved).symm
  · intro y member zero
    rcases List.mem_or_eq_of_mem_set member with before | rfl
    · exact inv.idle y before zero
    · exact absurd (keys.2.symm.trans zero) named
  · intro y member d waits
    rcases List.mem_or_eq_of_mem_set member with before | rfl
    · exact List.mem_append_left _ (inv.waiting y before d waits)
    · rw [keys.1, keys.2]
      exact waiting d waits
  · intro y member live
    obtain ⟨j, there⟩ := List.mem_iff_getElem?.mp member
    rcases slot there with rfl | ⟨before, at_, other⟩
    · rw [keys.1, keys.2]
      exact fresh live
    · have claimed : y.claimed = true := claimed_iff.mpr fun zero => by
        rw [(inv.idle y before zero).1] at live
        cases live
      refine (inv.fresh y before live).append fun ev member mac expiry same => other ?_
      subst same
      exact inv.distinct j i y e at_ here claimed (claimed_iff.mpr named)
        (learns _ _ _ _ member)
  · intro h addr d
    have moved := countP_set_add (Entry.waits h addr d) here x
    have before := inv.flow h addr d
    have now := flow h addr d
    rw [List.countP_append, List.countP_append]
    change _ + (t.slots.set i x).countP _ ≤ _
    omega
  · refine Along.append.mpr ⟨inv.told, ?_⟩
    rw [foldl_append, List.nil_append]
    exact told

theorem Inv.of_grow (grow : List (Option Nat)) : Inv { t with grow := grow } trace :=
  ⟨inv.distinct, inv.count, inv.idle, inv.waiting, inv.fresh, inv.flow, inv.told⟩

theorem Inv.slot_cases (named : addr ≠ 0) :
    (∃ t', arpSlot t h addr = (none, t') ∧ Inv t' trace) ∨
      ∃ i e t', arpSlot t h addr = (some i, t') ∧ Inv t' trace ∧ t'.slots[i]? = some e ∧
        e.h = h ∧ e.addr = addr := by
  obtain ⟨kept, found⟩ := inv.slot (h := h) named
  cases slot : arpSlot t h addr with
  | mk place t' =>
      rw [slot] at kept found
      cases place with
      | none => exact Or.inl ⟨t', rfl, kept⟩
      | some i =>
          obtain ⟨e, there, sameH, sameAddr⟩ := found i rfl
          exact Or.inr ⟨i, e, t', rfl, kept, there, sameH, sameAddr⟩

theorem Inv.quiet : Inv t (trace ++ []) := by
  rwa [List.append_nil]

theorem Inv.happen {ev : Event δ} (told : Told trace ev)
    (sent : ∀ h addr d, ev.isSent h addr d = false)
    (queued : ∀ h addr d, ev.isQueued h addr d = false)
    (learns : ∀ h addr mac expiry, ev ≠ .learned h addr mac expiry) :
    Inv t (trace ++ [ev]) := by
  refine ⟨inv.distinct, inv.count, inv.idle, ?_, ?_, ?_, ?_⟩
  · exact fun e member d waits => List.mem_append_left _ (inv.waiting e member d waits)
  · intro e member live
    refine (inv.fresh e member live).append fun ev' there mac expiry => ?_
    rw [List.mem_singleton.mp there]
    exact learns _ _ mac expiry
  · intro h addr d
    have before := inv.flow h addr d
    rw [List.countP_append, List.countP_append, List.countP_singleton, List.countP_singleton,
      sent, queued]
    exact before
  · refine Along.append.mpr ⟨inv.told, ?_⟩
    rw [foldl_append, List.nil_append]
    exact ⟨told, trivial⟩

theorem Inv.emit (h : Int) (op : UInt16) (dmac tha : Bytes)
    (tpa : UInt32) : Inv t (trace ++ [Event.arp h op dmac tha tpa]) := by
  refine inv.happen trivial (fun _ _ _ => rfl) (fun _ _ _ => rfl) ?_
  rintro _ _ _ _ ⟨⟩

theorem Inv.turn {x : Entry δ} (here : t.slots[i]? = some e)
    (named : e.addr ≠ 0) (key : x.key = e.key) (pend : x.pend = e.pend)
    (down : x.state ≠ .live) : Inv (Arp.put t i x) trace := by
  have keys := Prod.mk.inj key
  suffices Inv (Arp.put t i x) (trace ++ []) by rwa [List.append_nil] at this
  refine inv.put here named key ?_ ?_ (fun live => absurd live down) ?_ trivial
  · intro d waiting
    rw [pend] at waiting
    exact List.mem_append_left _ (inv.waiting e (List.mem_of_getElem? here) d waiting)
  · intro h addr d
    rw [Entry.waits, Entry.waits, keys.1, keys.2, pend]
    exact Nat.le_refl _
  · intro h addr mac expiry member
    cases member

theorem Inv.lookup (now : UInt64) (h : Int) (addr : UInt32) (wanted : Bool) :
    Inv (arpLookup t now h addr wanted).1 (trace ++ (arpLookup t now h addr wanted).2) := by
  unfold arpLookup
  cases known : arpFind t h addr with
  | none => exact inv.quiet
  | some i =>
      obtain ⟨named, e, there, sameH, sameAddr⟩ := arpFind_some known
      simp only [Option.bind_some, there, Option.map_some]
      split
      · exact inv.quiet
      · case isFalse ready =>
          have live := not_not.mp (not_or.mp ready).1
          split
          · have stale := inv.turn there (x := { e with state := .free }) (by rwa [sameAddr])
              rfl rfl fun live => by cases live
            exact stale.quiet
          · case isFalse young =>
              have latest := inv.fresh e (List.mem_of_getElem? there) live
              rw [sameH, sameAddr] at latest
              refine inv.happen ⟨e.at_, latest, UInt64.not_le.mp young⟩ ?_ ?_ ?_
              · exact fun _ _ _ => rfl
              · exact fun _ _ _ => rfl
              · rintro _ _ _ _ ⟨⟩

theorem Inv.reply (there : t.slots[i]? = some e) (named : e.addr ≠ 0)
    (mac : Bytes) (expiry : UInt64) :
    Inv (Arp.put t i { e with
        state := .live, tries := 0, at_ := expiry, mac := mac, pend := none })
      (trace ++ Event.learned e.h e.addr mac expiry ::
        (e.pend.map fun d => Event.sent e.h e.addr mac d).toList) := by
  have latest : Latest (trace ++ [Event.learned e.h e.addr mac expiry]) e.h e.addr mac expiry :=
    ⟨trace, [], rfl, fun ev member => by cases member⟩
  cases pend : e.pend with
  | none =>
      refine inv.put there named rfl ?_ ?_ (fun _ => latest) ?_ ⟨trivial, trivial⟩
      · intro d waits
        cases waits
      · intro h addr d
        simp [Event.isSent, Event.isQueued, Entry.waits]
      · intro h addr mac' expiry' member
        cases List.mem_singleton.mp member
        rfl
  | some d =>
      refine inv.put there named rfl ?_ ?_ ?_ ?_ ⟨trivial, ?_, trivial⟩
      · intro d waits
        cases waits
      · intro h addr d'
        have out : (Event.sent e.h e.addr mac d).isSent h addr d' = e.waits h addr d' := by
          rw [Entry.waits, pend]
          rfl
        change List.countP _ [_, _] + _ ≤ List.countP _ [_, _] + _
        rw [List.countP_cons, List.countP_singleton, out]
        cases e.waits h addr d' <;> simp [Event.isSent, Event.isQueued, Entry.waits]
      · intro _
        change Latest (trace ++ ([Event.learned e.h e.addr mac expiry] ++ [_])) _ _ _ _
        rw [← List.append_assoc]
        refine latest.append fun ev member mac' expiry' same => ?_
        rw [same] at member
        cases List.mem_singleton.mp member
      · intro h addr mac' expiry' member
        rcases List.mem_cons.mp member with same | later
        · cases same
          rfl
        · cases List.mem_singleton.mp later
      · obtain ⟨first, later, same⟩ := List.append_of_mem
          (inv.waiting e (List.mem_of_getElem? there) d pend)
        refine ⟨first, later ++ [Event.learned e.h e.addr mac expiry], ?_, expiry, ?_⟩
        · rw [Arp.append, same]
          simp
        · exact List.mem_append_right _ (List.mem_singleton.mpr rfl)

theorem Inv.learn (now : UInt64) (h : Int) (addr : UInt32) (mac : Option Bytes) :
    Inv (arpLearn t now h addr mac).1 (trace ++ (arpLearn t now h addr mac).2) := by
  unfold arpLearn
  cases mac with
  | none => exact inv.quiet
  | some mac =>
      dsimp only
      split
      · exact inv.quiet
      · case isFalse ready =>
          have named := (not_or.mp (not_or.mp ready).2).1
          rcases inv.slot_cases (h := h) named with
            ⟨t', slot, kept⟩ | ⟨i, e, t', slot, kept, there, rfl, rfl⟩
          · rw [slot]
            exact kept.quiet
          · rw [slot]
            simp only [Option.bind_some, there, Option.map_some]
            exact kept.reply there named mac (now + ttlUs)

theorem Inv.ask (now : UInt64) (h : Int) (addr : UInt32) :
    Inv (arpAsk t now h addr).1 (trace ++ (arpAsk t now h addr).2) := by
  unfold arpAsk
  split
  · exact inv.quiet
  · case isFalse ready =>
      have named := (not_or.mp (not_or.mp ready).2).1
      rcases inv.slot_cases (h := h) named with
        ⟨t', slot, kept⟩ | ⟨i, e, t', slot, kept, there, rfl, rfl⟩
      · rw [slot]
        exact kept.quiet
      · rw [slot]
        simp only [Option.bind_some, there, Option.map_some]
        split
        · exact kept.quiet
        · have asked := kept.turn there named (x := { e with
            state := .asking, tries := e.tries + 1, at_ := now + retryUs }) rfl rfl
            fun live => by cases live
          exact asked.emit _ _ _ _ _

end Inv

/-- A queue call whose address is zero finds no slot that it could take. -/
def Fits (size : δ → Nat) (t : Table δ) : Call δ → Prop
  | .queue h addr (some d) =>
      addr = 0 → Accepts size h d → t.slots = [] ∧ t.grow.headD none = none
  | _ => True

theorem Inv.queue (inv : Inv t trace) {size : δ → Nat} {pkt : Option δ}
    (fits : Fits size t (.queue h addr pkt)) :
    Inv (arpQueue size t h addr pkt).1 (trace ++ (arpQueue size t h addr pkt).2) := by
  unfold arpQueue
  cases pkt with
  | none => exact inv.quiet
  | some d =>
      dsimp only
      split
      · exact inv.quiet
      · case isFalse ready =>
          by_cases zero : addr = 0
          · obtain ⟨empty, full⟩ := fits zero (not_not.mp ready)
            have missed : arpSlot t h addr = (none, { t with grow := t.grow.tail }) := by
              rw [arpSlot, arpFind, if_pos zero, empty]
              simp only [List.findIdx?_nil, full, oldest]
            rw [missed]
            exact (inv.of_grow _).quiet
          · rcases inv.slot_cases (h := h) zero with
              ⟨t', slot, kept⟩ | ⟨i, e, t', slot, kept, there, rfl, rfl⟩
            · rw [slot]
              exact kept.quiet
            · rw [slot]
              simp only [Option.bind_some, there, Option.map_some]
              refine kept.put there zero rfl ?_ ?_ ?_ ?_ ⟨trivial, trivial⟩
              · rintro d' ⟨⟩
                exact List.mem_append_right _ (List.mem_singleton.mpr rfl)
              · intro h' addr' d'
                have waits : ({ e with pend := some d } : Entry δ).waits h' addr' d' =
                    (Event.queued e.h e.addr d).isQueued h' addr' d' := rfl
                rw [List.countP_singleton, List.countP_singleton, waits]
                cases (Event.queued e.h e.addr d).isQueued h' addr' d' <;> simp [Event.isSent]
              · intro live
                refine (kept.fresh e (List.mem_of_getElem? there) live).append ?_
                intro ev member mac expiry same
                rw [same] at member
                cases List.mem_singleton.mp member
              · intro h' addr' mac expiry member
                cases List.mem_singleton.mp member

theorem Inv.release (inv : Inv t trace) (there : t.slots[i]? = some e) (named : e.addr ≠ 0) :
    Inv { Arp.put t i Entry.zero with used := t.used - 1 } trace := by
  have kept (x : Entry δ) (member : x ∈ t.slots.set i Entry.zero) :
      x ∈ t.slots ∨ x = Entry.zero := List.mem_or_eq_of_mem_set member
  refine ⟨?_, ?_, ?_, ?_, ?_, ?_, inv.told⟩
  · refine inv.distinct.of_kept fun j a there live => ?_
    rcases set_cases there with ⟨_, rfl⟩ | ⟨_, before⟩
    · cases live
    · exact ⟨a, before, live, rfl⟩
  · have moved := countP_set_add Entry.claimed there Entry.zero
    have total := inv.count
    rw [claimed_iff.mpr named] at moved
    change t.used - 1 = (t.slots.set i Entry.zero).countP Entry.claimed
    change _ + 1 = _ + 0 at moved
    omega
  · intro x member zero
    rcases kept x member with before | rfl
    · exact inv.idle x before zero
    · exact ⟨rfl, rfl⟩
  · intro x member d waits
    rcases kept x member with before | rfl
    · exact inv.waiting x before d waits
    · cases waits
  · intro x member live
    rcases kept x member with before | rfl
    · exact inv.fresh x before live
    · cases live
  · intro h addr d
    have moved := countP_set_add (Entry.waits h addr d) there Entry.zero
    have before := inv.flow h addr d
    have idle : (Entry.zero : Entry δ).waits h addr d = false := by
      simp [Entry.waits, Entry.zero]
    rw [idle] at moved
    change _ + (t.slots.set i Entry.zero).countP _ ≤ _
    change _ + _ = _ + 0 at moved
    omega

theorem Inv.tickSlot (inv : Inv t trace) (now : UInt64) (i : Nat) :
    Inv (tickSlot t now i).1 (trace ++ (tickSlot t now i).2) := by
  unfold Arp.tickSlot
  cases there : t.slots[i]? with
  | none => exact inv.quiet
  | some e =>
      dsimp only
      split
      · exact inv.quiet
      · case isFalse due =>
          have busy := (not_or.mp due).1
          have named : e.addr ≠ 0 := fun zero =>
            busy (inv.idle e (List.mem_of_getElem? there) zero).1
          split
          · have stale := inv.turn there (x := { e with state := .free }) named rfl rfl
              fun live => by cases live
            exact stale.quiet
          · case isFalse asking =>
              split
              · exact (inv.release there named).quiet
              · let again : Entry δ := { e with tries := e.tries + 1, at_ := now + retryUs }
                have down : again.state ≠ .live := asking
                have key : again.key = e.key := by
                  change (e.h, e.addr) = (e.h, e.addr)
                  rfl
                exact (inv.turn there named key rfl down).emit _ _ _ _ _

theorem Inv.tick (inv : Inv t trace) (now : UInt64) :
    Inv (arpTick t now).1 (trace ++ (arpTick t now).2) := by
  unfold arpTick
  generalize List.range t.slots.length = turns
  suffices ∀ (t : Table δ) (out : List (Event δ)), Inv t (trace ++ out) →
      let (t', out') := turns.foldl (fun (t, out) i =>
        let (t, more) := Arp.tickSlot t now i
        (t, out ++ more)) (t, out)
      Inv t' (trace ++ out') from this t [] inv.quiet
  induction turns with
  | nil => exact fun t out kept => kept
  | cons i rest ih =>
      intro t out kept
      have turned := kept.tickSlot now i
      rw [List.append_assoc] at turned
      exact ih _ _ turned

theorem Inv.input (inv : Inv t trace) (links : Link.Links) (now : UInt64) (h : Int)
    (frame : Option Bytes) :
    Inv (arpInput links t now h frame).1 (trace ++ (arpInput links t now h frame).2) := by
  unfold arpInput
  cases frame with
  | none => exact inv.quiet
  | some frame =>
      dsimp only
      split
      · exact inv.quiet
      · split
        · exact inv.quiet
        · split
          · exact inv.quiet
          · have learned := inv.learn now h (beU32 (frame.drop 28))
              (some ((frame.drop 22).take 6))
            split
            · exact learned
            · split
              · exact learned
              · rw [← List.append_assoc]
                exact learned.emit _ _ _ _ _

theorem Inv.step {size : δ → Nat} {w : World δ} {call : Call δ}
    (inv : Inv w.table w.trace) (fits : Fits size w.table call) :
    Inv (step size w call).table (step size w call).trace := by
  cases call with
  | lookup now h addr wanted => exact inv.lookup now h addr wanted
  | learn now h addr mac => exact inv.learn now h addr mac
  | ask now h addr => exact inv.ask now h addr
  | queue h addr pkt => exact inv.queue fits
  | tick now => exact inv.tick now
  | tickSlot now i => exact inv.tickSlot now i
  | input links now h frame => exact inv.input links now h frame

theorem Inv.kept {w : World δ} (inv : Inv w.table w.trace) : Kept w where
  distinct := inv.distinct
  count := inv.count
  once := fun h addr d => Nat.le_trans (Nat.le_add_right _ _) (inv.flow h addr d)
  told := by
    intro seen ev rest same
    have told := inv.told
    rw [same] at told
    have behind := (Along.append.mp told).2
    rw [foldl_append, List.nil_append] at behind
    exact behind.1

/-- Any calls in any order, at any readings of the clock and with growths that succeed
and fail: as long as no call queues a datagram for the address zero, the table and its
past are in order. -/
theorem neighbours_kept (size : δ → Nat) (grow : List (Option Nat)) (calls : List (Call δ))
    (fits : Along (step size) (fun w call => Fits size w.table call) ⟨boot grow, []⟩ calls) :
    Kept (calls.foldl (step size) ⟨boot grow, []⟩) := by
  have start : Inv (boot grow) ([] : List (Event δ)) := by
    refine ⟨?_, rfl, ?_, ?_, ?_, ?_, trivial⟩
    · intro i j a b there
      cases there
    · intro e member
      cases member
    · intro e member
      cases member
    · intro e member
      cases member
    · exact fun _ _ _ => Nat.le_refl 0
  have keeps (w : World δ) (call : Call δ) (inv : Inv w.table w.trace)
      (fits : Fits size w.table call) : Inv (step size w call).table (step size w call).trace :=
    inv.step fits
  exact (Along.invariant keeps start fits).kept

end Counts

def queueThenReply : List (Call Bytes) :=
  [.queue 0 0x0a000002 (some [1]), .ask 0 0 0x0a000002,
    .learn 7 0 0x0a000002 (some [2, 0, 0, 0, 0, 2]), .lookup 8 0 0x0a000002 true]

theorem neighbours_kept_reply :
    let w := queueThenReply.foldl (step List.length) ⟨boot [some 7], []⟩
    Kept w ∧ .sent 0 0x0a000002 [2, 0, 0, 0, 0, 2] [1] ∈ w.trace ∧
      .found 8 0 0x0a000002 [2, 0, 0, 0, 0, 2] ∈ w.trace := by
  refine ⟨neighbours_kept List.length [some 7] queueThenReply ?_, by decide, by decide⟩
  exact ⟨fun zero => absurd zero (by decide), trivial, trivial, trivial, trivial⟩

/-- A datagram that is queued for the address zero is counted, but its slot is not
claimed. -/
theorem neighbours_kept_fails :
    ¬ Kept ([Call.queue 0 0 (some [1])].foldl (step List.length)
      ⟨boot [some 7], ([] : List (Event Bytes))⟩) := by
  intro kept
  exact absurd kept.count (by decide)

end Metal.Net.Ip.Arp
