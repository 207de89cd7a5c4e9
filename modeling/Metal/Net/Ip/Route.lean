import Metal.Lib.Run
import Metal.Lib.Slots

namespace Metal.Net.Ip.Link

open Metal.Lib

/-! `net/ip/__link__` and the calls over it: the route table and the table of the
interfaces that its routes leave by. -/

structure Rt where
  used : Bool
  dst : UInt32
  mask : UInt32
  gw : UInt32
  h : Int

def Rt.zero : Rt := ⟨false, 0, 0, 0, 0⟩

structure L2 where
  h : Int
  addr : UInt32
  mask : UInt32

/-- The tables of the card. `grow` says how the next growths of a table go: `none` when
the knob or the arena refuses, or how many slots past the first are added. -/
structure Links where
  arena : Bool
  rt : List Rt
  rtUsed : Nat
  l2 : List L2
  l2Cap : Nat
  cur : Int
  pending : UInt32
  pendingMask : UInt32
  grow : List (Option Nat)

def boot (grow : List (Option Nat)) : Links := ⟨false, [], 0, [], 0, -1, 0, 0, grow⟩

def mask24 : UInt32 := 0xffffff00

def bits (n : Nat) : Nat := if n = 0 then 0 else n % 2 + bits (n / 2)

def maskBits (mask : UInt32) : Nat := bits mask.toNat

def Rt.keyed (dst mask : UInt32) (r : Rt) : Bool :=
  r.used && r.dst == dst && r.mask == mask

def rtDelH (s : Links) (h : Int) : Links :=
  let gone (r : Rt) := r.used && r.h == h
  { s with
    rt := s.rt.map fun r => if gone r then { r with used := false } else r
    rtUsed := s.rtUsed - s.rt.countP gone }

def rtDel (s : Links) (dst mask : UInt32) : Links :=
  let gone := Rt.keyed dst mask
  { s with
    rt := s.rt.map fun r => if gone r then { r with used := false } else r
    rtUsed := s.rtUsed - s.rt.countP gone }

/-- One pass over the table finds the route, or else the first free slot. -/
def rtUpsert (s : Links) (dst mask gw : UInt32) (h : Int) : Links :=
  match s.rt.findIdx? (Rt.keyed dst mask) with
  | some i => { s with rt := s.rt.modify i fun r => { r with gw := gw, h := h } }
  | none =>
      match s.rt.findIdx? fun r => !r.used with
      | some slot =>
          { s with rtUsed := s.rtUsed + 1, rt := s.rt.set slot ⟨true, dst, mask, gw, h⟩ }
      | none =>
          match s.grow.headD none with
          | none => { s with grow := s.grow.tail }
          | some more =>
              { s with
                grow := s.grow.tail
                rtUsed := s.rtUsed + 1
                rt := (s.rt ++ List.replicate (more + 1) Rt.zero).set s.rt.length
                  ⟨true, dst, mask, gw, h⟩ }

/-- The loop of `rt_match`, with the best route so far and the default route. -/
def rtScan (dst : UInt32) : List Rt → Nat → Option Rt → Option Rt → Option Rt
  | [], _, hit, dflt => hit.orElse fun _ => dflt
  | r :: rest, best, hit, dflt =>
      if ¬ r.used then rtScan dst rest best hit dflt
      else if r.mask = 0 then rtScan dst rest best hit (some r)
      else if dst &&& r.mask ≠ r.dst &&& r.mask then rtScan dst rest best hit dflt
      else if hit = none ∨ best ≤ maskBits r.mask then
        rtScan dst rest (maskBits r.mask) (some r) dflt
      else rtScan dst rest best hit dflt

def rtMatch (rt : List Rt) (dst : UInt32) : Option Rt := rtScan dst rt 0 none none

def l2Has (s : Links) (h : Int) : Bool := s.l2.any fun l => l.h == h

def l2AddrOf (s : Links) (h : Int) : UInt32 :=
  ((s.l2.find? fun l => l.h == h).map L2.addr).getD 0

def l2AddrOurs (s : Links) (dst : UInt32) : Bool :=
  dst != 0 && (s.l2.any (fun l => l.addr == dst) || (s.pending != 0 && dst == s.pending))

def l2Clear (s : Links) : Links :=
  { s with
    l2 := [], l2Cap := 0, cur := -1, pending := 0, pendingMask := 0, rt := [], rtUsed := 0 }

/-- `pm_ip_if_up_mask`, less the ARP announcement that follows. -/
def ifUpMask (s : Links) (h : Int) (addr mask : UInt32) : Links × Int :=
  if ¬ s.arena ∨ addr = 0 ∨ mask = 0 ∨ ¬ l2Has s h then (s, -1)
  else
    let i := s.l2.findIdx fun l => l.h == h
    let s := { s with l2 := s.l2.modify i fun l => { l with addr := addr, mask := mask } }
    let s := rtUpsert s (addr &&& mask) mask 0 h
    if s.cur < 0 ∨ s.cur = h then (rtUpsert { s with cur := h } 0 0 0 h, 0)
    else (s, 0)

def l2ApplyPending (s : Links) : Links :=
  if s.pending = 0 ∨ s.cur < 0 then s
  else
    let mask := if s.pendingMask ≠ 0 then s.pendingMask else mask24
    { (ifUpMask s s.cur s.pending mask).1 with pending := 0, pendingMask := 0 }

def routeAdd (s : Links) (dst mask gw : UInt32) (h : Int) : Links × Int :=
  if ¬ s.arena ∨ ¬ l2Has s h then (s, -1)
  else (rtUpsert s (dst &&& mask) mask gw h, 0)

def routeDel (s : Links) (dst mask : UInt32) : Links × Int :=
  if ¬ s.arena then (s, -1) else (rtDel s (dst &&& mask) mask, 0)

/-- The first interface, or `-1`. -/
def firstL2 (s : Links) : Int := (s.l2.head?.map L2.h).getD (-1)

def gwSet (s : Links) (gw : UInt32) : Links × Int :=
  let h := if s.cur < 0 then firstL2 s else s.cur
  if ¬ s.arena ∨ h < 0 then (s, -1) else (rtUpsert s 0 0 gw h, 0)

def gw (s : Links) : UInt32 :=
  ((s.rt.find? fun r => r.used && r.mask == 0).map Rt.gw).getD 0

abbrev Devices := Int → Int

def l2Attach (dtId : Devices) (s : Links) (h : Int) : Links × Int :=
  if dtId h < 0 then (s, -1)
  else if l2Has s h then (l2ApplyPending { s with cur := h }, 0)
  else if s.l2.length ≠ s.l2Cap then
    (l2ApplyPending { s with l2 := s.l2 ++ [⟨h, 0, 0⟩], cur := h }, 0)
  else
    match s.grow.headD none with
    | none => ({ s with grow := s.grow.tail }, -1)
    | some more =>
        (l2ApplyPending { s with
          grow := s.grow.tail
          l2Cap := s.l2Cap + more + 1
          l2 := s.l2 ++ [⟨h, 0, 0⟩]
          cur := h }, 0)

/-- `pm_metal_net_ip_if_up_mask` -/
def netIfUpMask (dtId : Devices) (s : Links) (h : Int) (addr mask : UInt32) : Links × Int :=
  let (s, rc) := l2Attach dtId s h
  if rc = 0 then ifUpMask s h addr mask else (s, -1)

def firstNetdev (dtId : Devices) : Int :=
  (((List.range 32).find? fun (i : Nat) => 0 ≤ dtId i).map Int.ofNat).getD (-1)

/-- `pm_metal_net_ip_if_up` -/
def netIfUp (dtId : Devices) (s : Links) (addr : UInt32) : Links × Int :=
  if ¬ s.arena ∨ addr = 0 then (s, -1)
  else if 0 ≤ s.cur then ifUpMask s s.cur addr mask24
  else if s.l2 ≠ [] then ifUpMask s (firstL2 s) addr mask24
  else
    let h := firstNetdev dtId
    if 0 ≤ h then netIfUpMask dtId s h addr mask24
    else ({ s with pending := addr, pendingMask := mask24 }, 0)

def l2Detach (s : Links) (h : Int) : Links × Int :=
  let old := gw s
  if ¬ l2Has s h then (s, -1)
  else
    let s := { s with l2 := s.l2.eraseP fun l => l.h == h }
    let s := rtDelH s h
    if s.cur = h then
      let s := { s with cur := (s.l2.getLast?.map L2.h).getD (-1) }
      if 0 ≤ s.cur then (rtUpsert s 0 0 old s.cur, 0) else (s, 0)
    else (s, 0)

inductive Op
  | init
  | deinit
  | routeAdd (dst mask gw : UInt32) (h : Int)
  | routeDel (dst mask : UInt32)
  | gwSet (gw : UInt32)
  | ifUp (dtId : Devices) (addr : UInt32)
  | ifUpMask (dtId : Devices) (h : Int) (addr mask : UInt32)
  | l2Attach (dtId : Devices) (h : Int)
  | l2Detach (h : Int)

def exec (s : Links) : Op → Links × Int
  | .init => ({ l2Clear s with arena := true }, 0)
  | .deinit => ({ l2Clear s with arena := false }, 0)
  | .routeAdd dst mask gw h => routeAdd s dst mask gw h
  | .routeDel dst mask => routeDel s dst mask
  | .gwSet gw => gwSet s gw
  | .ifUp dtId addr => netIfUp dtId s addr
  | .ifUpMask dtId h addr mask => netIfUpMask dtId s h addr mask
  | .l2Attach dtId h => l2Attach dtId s h
  | .l2Detach h => l2Detach s h

def step (s : Links) (op : Op) : Links := (exec s op).1

def Rt.key (r : Rt) : UInt32 × UInt32 := (r.dst, r.mask)

def Attached (s : Links) (h : Int) : Prop := ∃ l ∈ s.l2, l.h = h

structure Sound (s : Links) : Prop where
  unique : Distinct Rt.used Rt.key s.rt
  count : s.rtUsed = s.rt.countP Rt.used
  attached : ∀ r ∈ s.rt, r.used = true → Attached s r.h
  cur : 0 ≤ s.cur → Attached s s.cur

theorem keyed_iff {dst mask : UInt32} {r : Rt} :
    Rt.keyed dst mask r = true ↔ r.used = true ∧ r.key = (dst, mask) := by
  simp [Rt.keyed, Rt.key, and_assoc]

variable {s : Links}

theorem l2Has_iff {h : Int} : l2Has s h = true ↔ Attached s h := by
  simp [l2Has, Attached]

theorem rtUpsert_cases (s : Links) (dst mask gw : UInt32) (h : Int) :
    (∃ grow, rtUpsert s dst mask gw h = { s with grow := grow }) ∨
    (∃ i old, s.rt[i]? = some old ∧ Rt.keyed dst mask old = true ∧
      rtUpsert s dst mask gw h =
        { s with rt := s.rt.set i { old with gw := gw, h := h } }) ∨
    (∃ slot more free grow, (s.rt ++ List.replicate more Rt.zero)[slot]? = some free ∧
      free.used = false ∧ (∀ x ∈ s.rt, x.used = true → x.key ≠ (dst, mask)) ∧
      rtUpsert s dst mask gw h =
        { s with
          grow := grow
          rtUsed := s.rtUsed + 1
          rt := (s.rt ++ List.replicate more Rt.zero).set slot
            ⟨true, dst, mask, gw, h⟩ }) := by
  unfold rtUpsert
  cases found : s.rt.findIdx? (Rt.keyed dst mask) with
  | some i =>
      obtain ⟨inside, here, _⟩ := List.findIdx?_eq_some_iff_getElem.mp found
      have there := List.getElem?_eq_getElem inside
      refine .inr (.inl ⟨i, s.rt[i], there, here, ?_⟩)
      exact congrArg (fun rt => { s with rt := rt }) (modify_eq_set_of there _)
  | none =>
      have fresh : ∀ x ∈ s.rt, x.used = true → x.key ≠ (dst, mask) := fun x member used same =>
        absurd (keyed_iff.mpr ⟨used, same⟩)
          (Bool.not_eq_true _ ▸ List.findIdx?_eq_none_iff.mp found x member)
      cases free : s.rt.findIdx? fun r => !r.used with
      | some slot =>
          obtain ⟨inside, here, _⟩ := List.findIdx?_eq_some_iff_getElem.mp free
          refine .inr (.inr ⟨slot, 0, s.rt[slot], s.grow, ?_, by simpa using here, fresh, ?_⟩)
          · simp [inside]
          · simp
      | none =>
          cases s.grow.headD none with
          | none => exact .inl ⟨_, rfl⟩
          | some more =>
              refine .inr (.inr ⟨s.rt.length, more + 1, Rt.zero, s.grow.tail, ?_, rfl, fresh,
                rfl⟩)
              rw [List.getElem?_append_right (Nat.le_refl _), Nat.sub_self]
              rfl

theorem rtUpsert_l2 (s : Links) (dst mask gw : UInt32) (h : Int) :
    (rtUpsert s dst mask gw h).l2 = s.l2 := by
  rcases rtUpsert_cases s dst mask gw h with
    ⟨_, same⟩ | ⟨_, _, _, _, same⟩ | ⟨_, _, _, _, _, _, _, same⟩ <;> rw [same]

theorem Sound.attach {s' : Links} (sound : Sound s) (rt : s'.rt = s.rt)
    (used : s'.rtUsed = s.rtUsed) (more : ∀ h, Attached s h → Attached s' h)
    (cur : 0 ≤ s'.cur → Attached s' s'.cur) : Sound s' where
  unique := by rw [rt]; exact sound.unique
  count := by rw [rt, used]; exact sound.count
  attached := by
    rw [rt]
    exact fun r member live => more r.h (sound.attached r member live)
  cur := cur

theorem Sound.upsert (sound : Sound s) {h : Int} (attached : Attached s h) (dst mask gw : UInt32) :
    Sound (rtUpsert s dst mask gw h) := by
  rcases rtUpsert_cases s dst mask gw h with
    ⟨grow, same⟩ | ⟨i, old, here, keyed, same⟩ | ⟨slot, more, free, grow, here, idle, fresh, same⟩
  · rw [same]
    exact sound.attach rfl rfl (fun _ => id) sound.cur
  · obtain ⟨used, key⟩ := keyed_iff.mp keyed
    rw [same]
    refine ⟨?_, ?_, ?_, sound.cur⟩
    · refine sound.unique.of_kept fun j a there live => ?_
      rcases set_cases there with ⟨rfl, rfl⟩ | ⟨_, before⟩
      · exact ⟨old, here, used, rfl⟩
      · exact ⟨a, before, live, rfl⟩
    · have count := countP_set_add Rt.used here { old with gw := gw, h := h }
      have total := sound.count
      change s.rtUsed = (s.rt.set i { old with gw := gw, h := h }).countP Rt.used
      change _ + old.used.toNat = _ + old.used.toNat at count
      omega
    · intro r member live
      rcases List.mem_or_eq_of_mem_set member with before | rfl
      · exact sound.attached r before live
      · exact attached
  · rw [same]
    have wider : Distinct Rt.used Rt.key (s.rt ++ List.replicate more Rt.zero) := by
      refine sound.unique.of_kept fun j a there live => ?_
      rcases append_replicate_cases there with before | rfl
      · exact ⟨a, before, live, rfl⟩
      · cases live
    refine ⟨wider.claim ?_ slot, ?_, ?_, sound.cur⟩
    · intro a member live
      rcases List.mem_append.mp member with before | added
      · exact fresh a before live
      · rw [List.eq_of_mem_replicate added] at live
        cases live
    · have count := countP_set_add Rt.used here ⟨true, dst, mask, gw, h⟩
      have total := sound.count
      have none : (List.replicate more Rt.zero).countP Rt.used = 0 := by
        simp [List.countP_replicate, Rt.zero]
      rw [List.countP_append, none, idle] at count
      change s.rtUsed + 1 = List.countP Rt.used (List.set _ slot _)
      change _ + 0 = _ + 1 at count
      omega
    · intro r member live
      rcases List.mem_or_eq_of_mem_set member with before | rfl
      · rcases List.mem_append.mp before with old | added
        · exact sound.attached r old live
        · rw [List.eq_of_mem_replicate added] at live
          cases live
      · exact attached

theorem forget_sound (unique : Distinct Rt.used Rt.key s.rt)
    (count : s.rtUsed = s.rt.countP Rt.used) (gone : Rt → Bool)
    (live : ∀ r, gone r = true → r.used = true) :
    let rt := s.rt.map fun r => if gone r then { r with used := false } else r
    Distinct Rt.used Rt.key rt ∧ s.rtUsed - s.rt.countP gone = rt.countP Rt.used ∧
      ∀ r ∈ rt, r.used = true → r ∈ s.rt ∧ gone r = false := by
  have kept (r x : Rt) (same : (if gone r then { r with used := false } else r) = x)
      (used : x.used = true) : r = x ∧ gone r = false := by
    cases left : gone r with
    | true =>
        rw [left, if_pos rfl] at same
        rw [← same] at used
        cases used
    | false =>
        rw [left] at same
        exact ⟨same, rfl⟩
  refine ⟨?_, ?_, ?_⟩
  · refine unique.of_kept fun i a there used => ?_
    rw [List.getElem?_map, Option.map_eq_some_iff] at there
    obtain ⟨r, here, same⟩ := there
    obtain ⟨rfl, _⟩ := kept r a same used
    exact ⟨r, here, used, rfl⟩
  · rw [count]
    generalize s.rt = rt
    induction rt with
    | nil => rfl
    | cons r rest ih =>
        have fewer : rest.countP gone ≤ rest.countP Rt.used :=
          List.countP_mono_left fun x _ => live x
        rw [List.map_cons, List.countP_cons, List.countP_cons, List.countP_cons, ← ih]
        cases left : gone r with
        | true =>
            rw [live r left]
            simp
        | false =>
            simp
            omega
  · intro x member used
    obtain ⟨r, here, same⟩ := List.mem_map.mp member
    obtain ⟨rfl, left⟩ := kept r x same used
    exact ⟨here, left⟩

section Sound

variable (sound : Sound s)
include sound

theorem Sound.rtDel (dst mask : UInt32) : Sound (rtDel s dst mask) := by
  obtain ⟨unique, count, kept⟩ := forget_sound sound.unique sound.count (Rt.keyed dst mask)
    fun r keyed => (keyed_iff.mp keyed).1
  exact ⟨unique, count, fun r member used => sound.attached r (kept r member used).1 used,
    sound.cur⟩

theorem Sound.forget (h next : Int)
    (cur : 0 ≤ next → ∃ l ∈ s.l2.eraseP fun l => l.h == h, l.h = next) :
    Sound { rtDelH { s with l2 := s.l2.eraseP fun l => l.h == h } h with cur := next } := by
  obtain ⟨unique, count, kept⟩ := forget_sound sound.unique sound.count
    (fun r => r.used && r.h == h) fun r gone => (Bool.and_eq_true_iff.mp gone).1
  refine ⟨unique, count, fun r member used => ?_, cur⟩
  obtain ⟨before, stays⟩ := kept r member used
  obtain ⟨l, has, same⟩ := sound.attached r before used
  have other : ¬ (fun l : L2 => l.h == h) l = true := by
    rw [used, Bool.true_and, ← same] at stays
    simp [stays]
  refine ⟨l, ?_, same⟩
  exact (List.mem_eraseP_of_neg (p := fun l : L2 => l.h == h) other).mpr has

theorem Sound.ifUpMask (h : Int) (addr mask : UInt32) :
    Sound (ifUpMask s h addr mask).1 := by
  unfold Link.ifUpMask
  split
  · exact sound
  · case isFalse ready =>
      have attached : Attached s h :=
        l2Has_iff.mp (not_not.mp fun missing => ready (Or.inr (Or.inr (Or.inr missing))))
      let i := s.l2.findIdx fun l => l.h == h
      let up (l : L2) : L2 := { l with addr := addr, mask := mask }
      have same (h' : Int) (had : Attached s h') : Attached { s with l2 := s.l2.modify i up } h' := by
        obtain ⟨l, member, at_⟩ := had
        obtain ⟨j, there⟩ := List.mem_iff_getElem?.mp member
        refine ⟨if i = j then up l else l, List.mem_of_getElem? (i := j) ?_, ?_⟩
        · rw [List.getElem?_modify, there]
          split <;> rfl
        · split <;> exact at_
      have renamed : Sound { s with l2 := s.l2.modify i up } :=
        sound.attach rfl rfl same fun up => same _ (sound.cur up)
      have routed := renamed.upsert (same h attached) (addr &&& mask) mask 0
      have there : Attached (rtUpsert { s with l2 := s.l2.modify i up } (addr &&& mask) mask 0 h)
          h := by
        unfold Attached
        rw [rtUpsert_l2]
        exact same h attached
      dsimp only
      split
      · refine Sound.upsert ?_ (by exact there) 0 0 0
        exact routed.attach rfl rfl (fun _ => id) fun _ => there
      · exact routed

theorem Sound.applyPending : Sound (l2ApplyPending s) := by
  unfold l2ApplyPending
  split
  · exact sound
  · have up := sound.ifUpMask s.cur s.pending
      (if s.pendingMask ≠ 0 then s.pendingMask else mask24)
    exact up.attach rfl rfl (fun _ => id) up.cur

theorem Sound.l2Attach (dtId : Devices) (h : Int) : Sound (l2Attach dtId s h).1 := by
  have added (s' : Links) (rt : s'.rt = s.rt) (used : s'.rtUsed = s.rtUsed)
      (l2 : s'.l2 = s.l2 ++ [⟨h, 0, 0⟩]) (cur : s'.cur = h) : Sound s' := by
    refine sound.attach rt used ?_ ?_
    · rintro h' ⟨l, member, at_⟩
      exact ⟨l, by rw [l2]; exact List.mem_append_left _ member, at_⟩
    · intro _
      rw [cur]
      exact ⟨⟨h, 0, 0⟩, by rw [l2]; exact List.mem_append_right _ (List.mem_singleton.mpr rfl), rfl⟩
  unfold Link.l2Attach
  split
  · exact sound
  · split
    · case isTrue has =>
        refine Sound.applyPending ?_
        exact sound.attach rfl rfl (fun _ => id) fun _ => l2Has_iff.mp has
    · split
      · refine Sound.applyPending ?_
        exact added _ rfl rfl rfl rfl
      · split
        · exact sound.attach rfl rfl (fun _ => id) sound.cur
        · refine Sound.applyPending ?_
          exact added _ rfl rfl rfl rfl

theorem Sound.netIfUpMask (dtId : Devices) (h : Int) (addr mask : UInt32) :
    Sound (netIfUpMask dtId s h addr mask).1 := by
  have attached := sound.l2Attach dtId h
  unfold Link.netIfUpMask
  dsimp only
  split
  · exact attached.ifUpMask h addr mask
  · exact attached

theorem Sound.l2Detach (h : Int) : Sound (l2Detach s h).1 := by
  unfold Link.l2Detach
  dsimp only
  split
  · exact sound
  · split
    · let left := s.l2.eraseP fun l => l.h == h
      have last : 0 ≤ (left.getLast?.map L2.h).getD (-1) →
          ∃ l ∈ left, l.h = (left.getLast?.map L2.h).getD (-1) := by
        intro some
        cases there : left.getLast? with
        | none =>
            rw [there] at some
            exact absurd some (by decide)
        | some l => exact ⟨l, List.mem_of_getLast? there, rfl⟩
      have moved := sound.forget h ((left.getLast?.map L2.h).getD (-1)) last
      split
      · case isTrue up => exact moved.upsert (last up) 0 0 (gw s)
      · exact moved
    · case isFalse other =>
        refine sound.forget h s.cur fun up => ?_
        obtain ⟨l, member, at_⟩ := sound.cur up
        refine ⟨l, (List.mem_eraseP_of_neg (p := fun l : L2 => l.h == h) ?_).mpr member, at_⟩
        change ¬ s.cur = h at other
        rw [at_]
        simpa using other

theorem Sound.gateway :
    0 ≤ (if s.cur < 0 then firstL2 s else s.cur) →
      Attached s (if s.cur < 0 then firstL2 s else s.cur) := by
  intro up
  split at up
  · case isTrue none =>
      rw [if_pos none]
      unfold firstL2 at up ⊢
      cases first : s.l2.head? with
      | none =>
          rw [first] at up
          exact absurd up (by decide)
      | some l => exact ⟨l, List.mem_of_mem_head? first, rfl⟩
  · case isFalse some =>
      rw [if_neg some]
      exact sound.cur up

theorem Sound.step (op : Op) : Sound (step s op) := by
  have cleared (arena : Bool) : Sound { l2Clear s with arena := arena } := by
    refine ⟨?_, rfl, ?_, ?_⟩
    · intro i j a b there
      cases there
    · intro r member
      cases member
    · intro up
      change (0 : Int) ≤ -1 at up
      exact absurd up (by decide)
  cases op with
  | init => exact cleared true
  | deinit => exact cleared false
  | routeAdd dst mask gw h =>
      change Sound (routeAdd s dst mask gw h).1
      unfold routeAdd
      split
      · exact sound
      · case isFalse ready =>
          have attached := l2Has_iff.mp (not_not.mp fun missing => ready (Or.inr missing))
          exact sound.upsert attached _ _ _
  | routeDel dst mask =>
      change Sound (routeDel s dst mask).1
      unfold routeDel
      split
      · exact sound
      · exact sound.rtDel _ _
  | gwSet gw =>
      change Sound (gwSet s gw).1
      have attached := sound.gateway
      unfold gwSet
      generalize (if s.cur < 0 then firstL2 s else s.cur) = h at attached ⊢
      dsimp only
      split
      · exact sound
      · case isFalse ready =>
          exact sound.upsert (attached (Int.not_lt.mp fun down => ready (Or.inr down))) _ _ _
  | ifUp dtId addr =>
      change Sound (netIfUp dtId s addr).1
      unfold netIfUp
      dsimp only
      split
      · exact sound
      · split
        · exact sound.ifUpMask _ _ _
        · split
          · exact sound.ifUpMask _ _ _
          · split
            · exact sound.netIfUpMask dtId _ _ _
            · exact sound.attach rfl rfl (fun _ => id) sound.cur
  | ifUpMask dtId h addr mask => exact sound.netIfUpMask dtId h addr mask
  | l2Attach dtId h => exact sound.l2Attach dtId h
  | l2Detach h => exact sound.l2Detach h

end Sound

def Rt.Matches (dst : UInt32) (r : Rt) : Prop :=
  r.used = true ∧ dst &&& r.mask = r.dst &&& r.mask

/-- The mask of the networks whose prefix has `n` bits. -/
def Prefix (mask : UInt32) (n : Nat) : Prop := n ≤ 32 ∧ mask.toNat = 2 ^ 32 - 2 ^ (32 - n)

/-- The answer of the lookup: a route whose prefix is as long as any, the default route
when nothing else matches, and nothing when nothing at all does. -/
inductive Longest (rt : List Rt) (dst : UInt32) : Option Rt → Prop
  | route (r : Rt) (n : Nat) (member : r ∈ rt) (found : r.Matches dst)
      (length : Prefix r.mask n) (positive : r.mask ≠ 0)
      (most : ∀ x ∈ rt, x.Matches dst → ∀ m, Prefix x.mask m → m ≤ n) :
      Longest rt dst (some r)
  | default (r : Rt) (member : r ∈ rt) (found : r.Matches dst) (wide : r.mask = 0)
      (only : ∀ x ∈ rt, x.Matches dst → x.mask = 0) : Longest rt dst (some r)
  | nothing (missed : ∀ x ∈ rt, ¬ x.Matches dst) : Longest rt dst none

theorem bits_double (n : Nat) : bits (2 * n) = bits n := by
  rcases Nat.eq_zero_or_pos n with rfl | positive
  · rfl
  · rw [bits, if_neg (by omega)]
    have low : 2 * n % 2 = 0 := by omega
    have half : 2 * n / 2 = n := by omega
    rw [low, half, Nat.zero_add]

theorem bits_shift (n k : Nat) : bits (2 ^ k * n) = bits n := by
  induction k with
  | zero => rw [Nat.pow_zero, Nat.one_mul]
  | succ k ih => rw [Nat.pow_succ, Nat.mul_comm (2 ^ k), Nat.mul_assoc, bits_double, ih]

theorem bits_ones (k : Nat) : bits (2 ^ k - 1) = k := by
  induction k with
  | zero => rw [Nat.pow_zero, Nat.sub_self, bits, if_pos rfl]
  | succ k ih =>
      have positive : 0 < 2 ^ k := Nat.two_pow_pos k
      have twice : 2 ^ (k + 1) = 2 * 2 ^ k := by rw [Nat.pow_succ, Nat.mul_comm]
      have low : (2 ^ (k + 1) - 1) % 2 = 1 := by omega
      have half : (2 ^ (k + 1) - 1) / 2 = 2 ^ k - 1 := by omega
      rw [bits, if_neg (by omega), low, half, ih, Nat.add_comm]

theorem Prefix.bits {mask : UInt32} {n : Nat} (length : Prefix mask n) :
    maskBits mask = n := by
  obtain ⟨few, value⟩ := length
  have split : 2 ^ 32 - 2 ^ (32 - n) = 2 ^ (32 - n) * (2 ^ n - 1) := by
    rw [Nat.mul_sub, Nat.mul_one, ← Nat.pow_add, Nat.sub_add_cancel few]
  rw [maskBits, value, split, bits_shift, bits_ones]

structure Seen (dst : UInt32) (seen : List Rt) (best : Nat) (hit dflt : Option Rt) :
    Prop where
  found : ∀ r, hit = some r → r ∈ seen ∧ r.Matches dst ∧ r.mask ≠ 0 ∧ maskBits r.mask = best
  fallback : ∀ r, dflt = some r → r ∈ seen ∧ r.Matches dst ∧ r.mask = 0
  most : ∀ x ∈ seen, x.Matches dst → x.mask ≠ 0 → hit ≠ none ∧ maskBits x.mask ≤ best
  wide : ∀ x ∈ seen, x.Matches dst → x.mask = 0 → dflt ≠ none

theorem Seen.pass {dst : UInt32} {seen : List Rt} {best : Nat} {hit dflt : Option Rt}
    (seen' : Seen dst seen best hit dflt) {r : Rt} (misses : ¬ r.Matches dst ∨
      (r.mask ≠ 0 ∧ hit ≠ none ∧ maskBits r.mask ≤ best)) :
    Seen dst (seen ++ [r]) best hit dflt := by
  refine ⟨?_, ?_, ?_, ?_⟩
  · intro x found
    obtain ⟨member, rest⟩ := seen'.found x found
    exact ⟨List.mem_append_left _ member, rest⟩
  · intro x found
    obtain ⟨member, rest⟩ := seen'.fallback x found
    exact ⟨List.mem_append_left _ member, rest⟩
  · intro x member found narrow
    rcases List.mem_append.mp member with before | here
    · exact seen'.most x before found narrow
    · obtain rfl := List.mem_singleton.mp here
      rcases misses with misses | covered
      · exact absurd found misses
      · exact covered.2
  · intro x member found wide
    rcases List.mem_append.mp member with before | here
    · exact seen'.wide x before found wide
    · obtain rfl := List.mem_singleton.mp here
      rcases misses with misses | covered
      · exact absurd found misses
      · exact absurd wide covered.1

theorem rtScan_spec {dst : UInt32} {seen rest : List Rt} {best : Nat} {hit dflt : Option Rt}
    (sofar : Seen dst seen best hit dflt) :
    ∃ best' hit' dflt', Seen dst (seen ++ rest) best' hit' dflt' ∧
      rtScan dst rest best hit dflt = hit'.orElse fun _ => dflt' := by
  induction rest generalizing seen best hit dflt with
  | nil => exact ⟨best, hit, dflt, by rwa [List.append_nil], rfl⟩
  | cons r rest ih =>
      have shape : seen ++ r :: rest = (seen ++ [r]) ++ rest := by simp
      have old {x : Rt} (member : x ∈ seen) : x ∈ seen ++ [r] := List.mem_append_left _ member
      have new : r ∈ seen ++ [r] := List.mem_append_right _ (List.mem_singleton.mpr rfl)
      rw [shape, rtScan]
      split
      · case isTrue idle => exact ih (sofar.pass (Or.inl fun matched => idle matched.1))
      · case isFalse used =>
          split
          · case isTrue wide =>
              have matched : r.Matches dst :=
                ⟨not_not.mp used, by rw [wide, UInt32.and_zero, UInt32.and_zero]⟩
              refine ih ⟨?_, ?_, ?_, ?_⟩
              · intro x found
                obtain ⟨member, rest⟩ := sofar.found x found
                exact ⟨old member, rest⟩
              · rintro x ⟨⟩
                exact ⟨new, matched, wide⟩
              · intro x member found narrow
                rcases List.mem_append.mp member with before | here
                · exact sofar.most x before found narrow
                · obtain rfl := List.mem_singleton.mp here
                  exact absurd wide narrow
              · intro x _ _ _
                simp
          · case isFalse narrow =>
              split
              · case isTrue outside =>
                  exact ih (sofar.pass (Or.inl fun matched => outside matched.2))
              · case isFalse inside =>
                  have matched : r.Matches dst := ⟨not_not.mp used, not_not.mp inside⟩
                  split
                  · case isTrue longer =>
                      refine ih ⟨?_, ?_, ?_, ?_⟩
                      · rintro x ⟨⟩
                        exact ⟨new, matched, narrow, rfl⟩
                      · intro x found
                        obtain ⟨member, rest⟩ := sofar.fallback x found
                        exact ⟨old member, rest⟩
                      · intro x member found narrow
                        refine ⟨by simp, ?_⟩
                        rcases List.mem_append.mp member with before | here
                        · obtain ⟨some, below⟩ := sofar.most x before found narrow
                          exact Nat.le_trans below (longer.resolve_left some)
                        · exact Nat.le_of_eq (by rw [List.mem_singleton.mp here])
                      · intro x member found wide
                        rcases List.mem_append.mp member with before | here
                        · exact sofar.wide x before found wide
                        · obtain rfl := List.mem_singleton.mp here
                          exact absurd wide narrow
                  · case isFalse shorter =>
                      obtain ⟨some, above⟩ := not_or.mp shorter
                      exact ih (sofar.pass (Or.inr ⟨narrow, some, Nat.le_of_lt (Nat.not_le.mp above)⟩))

/-- With contiguous masks the number of bits is the length of the prefix, so the loop
finds a longest one. -/
theorem rtMatch_longest {rt : List Rt} (contiguous : ∀ r ∈ rt, r.used = true →
    ∃ n, Prefix r.mask n) (dst : UInt32) : Longest rt dst (rtMatch rt dst) := by
  have start : Seen dst [] 0 none none := by
    constructor <;> simp
  obtain ⟨best, hit, dflt, seen, same⟩ := @rtScan_spec dst [] rt 0 none none start
  rw [List.nil_append] at seen
  rw [rtMatch, same]
  cases hit with
  | some r =>
      obtain ⟨member, matched, narrow, length⟩ := seen.found r rfl
      obtain ⟨n, prefixed⟩ := contiguous r member matched.1
      refine .route r n member matched prefixed narrow ?_
      intro x there found m length'
      by_cases wide : x.mask = 0
      · have none : maskBits 0 = 0 := by
          rw [maskBits, UInt32.toNat_zero, bits, if_pos rfl]
        rw [← length'.bits, wide, none]
        exact Nat.zero_le n
      · rw [← length'.bits, ← prefixed.bits, length]
        exact (seen.most x there found wide).2
  | none =>
      have only (x : Rt) (there : x ∈ rt) (found : x.Matches dst) : x.mask = 0 :=
        of_not_not fun narrow => (seen.most x there found narrow).1 rfl
      cases dflt with
      | some r =>
          obtain ⟨member, matched, wide⟩ := seen.fallback r rfl
          exact .default r member matched wide only
      | none =>
          exact .nothing fun x there found => seen.wide x there found (only x there found) rfl

/-- Any calls in any order, with growths that succeed and fail: the used routes have
keys of their own, their number is kept, each leaves by an interface that is there, and
the lookup finds a longest match. -/
theorem routes_kept (grow : List (Option Nat)) (ops : List Op) :
    let s := ops.foldl step (boot grow)
    Distinct Rt.used Rt.key s.rt ∧ s.rtUsed = s.rt.countP Rt.used ∧
      (∀ r ∈ s.rt, r.used = true → Attached s r.h) ∧
      ((∀ r ∈ s.rt, r.used = true → ∃ n, Prefix r.mask n) →
        ∀ dst, Longest s.rt dst (rtMatch s.rt dst)) := by
  have start : Sound (boot grow) := by
    refine ⟨?_, rfl, ?_, ?_⟩
    · intro i j a b there
      cases there
    · intro r member
      cases member
    · intro up
      change (0 : Int) ≤ -1 at up
      exact absurd up (by decide)
  have keeps (s : Links) (op : Op) (sound : Sound s) : Sound (step s op) := sound.step op
  have sound := foldl_invariant keeps start ops
  exact ⟨sound.unique, sound.count, sound.attached, rtMatch_longest⟩

end Metal.Net.Ip.Link
