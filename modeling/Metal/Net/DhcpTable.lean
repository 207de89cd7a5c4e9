import Metal.Net.DhcpOptions

namespace Metal.Net.Dhcp

open Metal.Lib

/-! What the tables hold after any number of `dhcp_up`. -/

def Up.lease (up : Up) : Option Lease :=
  match dhcpLease up.exchange with
  | .ok outcome => outcome.lease
  | .error _ => none

def Up.Applies (up : Up) (lease : Lease) : Prop :=
  up.ifUpMask lease.addrBe (maskOf lease) = true ∧
    (lease.gwBe ≠ 0 → up.gwSet lease.gwBe = true)

instance (up : Up) (lease : Lease) : Decidable (up.Applies lease) :=
  inferInstanceAs (Decidable (_ ∧ _))

/-- The lease of a `dhcp_up` that is 0. -/
def Up.granted (up : Up) : Option Lease :=
  up.lease.filter fun lease => up.Applies lease

def lastLease (past : List Up) (h : Int) : Option Lease :=
  ((past.filter (·.h = h)).filterMap Up.granted).getLast?

def Tells (how : How) : Option Up → Prop
  | none => how = .none
  | some up =>
      match up.lease with
      | none => how = .silent
      | some _ => how ≠ .none ∧ (up.granted.isSome → how = .leased)

structure Sound (past : List Up) (t : Table) : Prop where
  single : (Rows.keys Held.live Held.h t.held).Nodup
  held : ∀ h, held t h = lastLease past h
  asked : ∀ h, Tells (asked t h) (past.filter (·.h = h)).getLast?
  used : t.heldUsed = {h | (Dhcp.held t h).isSome}.ncard

def Up.Grows (up : Up) : Prop := up.growHeld ≠ none ∧ up.growAsk ≠ none

/-- Runs of `dhcp_up` whose steps are all fit for the table before them. -/
inductive Runs (fit : Table → Up → Prop) : List Up → Table → Prop
  | boot : Runs fit [] .boot
  | up {past t t' out} (run : Runs fit past t) (up : Up) (fits : fit t up)
      (done : dhcpUp up t = .ok (t', out)) : Runs fit (past ++ [up]) t'

structure Fit (t : Table) (up : Up) : Prop where
  grows : up.Grows
  applied : ∀ lease, up.lease = some lease → up.Applies lease
  fresh : up.lease ≠ none → held t up.h = none

section Steps

variable {up : Up} {t t' : Table} {out : Option Lease} {lease : Lease}

theorem Up.addressed (leased : up.lease = some lease) : lease.addrBe ≠ 0 := by
  obtain ⟨outcome, taken, leases, -⟩ := dhcpLease_inside up.exchange
  rw [Up.lease, taken] at leased
  obtain ⟨buf, granted, same, -⟩ := leases lease leased
  rw [same]
  exact granted.addressed

theorem dhcpUp_cases (done : dhcpUp up t = .ok (t', out)) :
    up.lease = none ∧ t' = askNote up.growAsk up.h .silent t ∨
      (∃ lease, up.lease = some lease ∧ ¬ up.Applies lease ∧ t' = t) ∨
      ∃ lease, up.lease = some lease ∧ up.Applies lease ∧
        t' = askNote up.growAsk up.h .leased (hold up.growHeld up.h lease t) := by
  obtain ⟨outcome, taken, -⟩ := dhcpLease_inside up.exchange
  have same : up.lease = outcome.lease := by rw [Up.lease, taken]
  rw [dhcpUp, taken] at done
  dsimp only [Except.bind] at done
  rw [same]
  split at done
  · rename_i none_
    cases done
    exact .inl ⟨none_, rfl⟩
  · rename_i lease some_
    split at done
    · rename_i refused
      cases done
      refine .inr (.inl ⟨lease, some_, fun applies => ?_, rfl⟩)
      simp [applies.1] at refused
    split at done
    · rename_i refused
      cases done
      refine .inr (.inl ⟨lease, some_, fun applies => ?_, rfl⟩)
      simp [applies.2 refused.1] at refused
    · rename_i address router
      cases done
      refine .inr (.inr ⟨lease, some_, ⟨by simpa using address, fun some_ => ?_⟩, rfl⟩)
      simpa [some_] using router

theorem dead_replicate {ρ : Type} {live : ρ → Bool} {zero : ρ} (dead : live zero = false)
    (more : Nat) (row : ρ) (member : row ∈ List.replicate more zero) : live row = false := by
  rw [List.eq_of_mem_replicate member]
  exact dead

variable {grow : Option Nat}

theorem asked_askNote (grows : grow ≠ none) {how : How} (some_ : how ≠ .none) (h k : Int) :
    asked (askNote grow h how t) k = if k = h then how else asked t k := by
  obtain ⟨more, rfl⟩ := Option.ne_none_iff_exists'.mp grows
  have living : Ask.live ⟨h, how⟩ = true := decide_eq_true some_
  have found : Rows.find Ask.live Ask.h k (askNote (some more) h how t).ask = _ :=
    Rows.find_put Ask.live Ask.h living (dead_replicate rfl more) k t.ask
  rw [asked, found, asked]
  by_cases same : k = h <;> simp [same]

theorem held_hold (grows : grow ≠ none) (addressed : lease.addrBe ≠ 0) (h k : Int) :
    held (hold grow h lease t) k = if k = h then some lease else held t k := by
  obtain ⟨more, rfl⟩ := Option.ne_none_iff_exists'.mp grows
  have living : Held.live ⟨h, lease⟩ = true := decide_eq_true addressed
  have found : Rows.find Held.live Held.h k (hold (some more) h lease t).held = _ :=
    Rows.find_put Held.live Held.h living (dead_replicate rfl more) k t.held
  rw [held, found, held]
  split <;> rfl

theorem keys_hold (grows : grow ≠ none) (addressed : lease.addrBe ≠ 0) {h : Int}
    (fresh : held t h = none) :
    (Rows.keys Held.live Held.h (hold grow h lease t).held).Perm
        (h :: Rows.keys Held.live Held.h t.held) ∧
      (hold grow h lease t).heldUsed = t.heldUsed + 1 := by
  obtain ⟨more, rfl⟩ := Option.ne_none_iff_exists'.mp grows
  have living : Held.live ⟨h, lease⟩ = true := decide_eq_true addressed
  have absent : h ∉ Rows.keys Held.live Held.h t.held := by
    rw [Rows.mem_keys, show Rows.find Held.live Held.h h t.held = none from
      Option.map_eq_none_iff.mp fresh]
    exact Bool.false_ne_true
  refine ⟨Rows.keys_put Held.live Held.h living
    (dead_replicate rfl more) absent, ?_⟩
  rw [hold]
  dsimp only
  rw [if_pos addressed, if_neg (Option.some_ne_none _), ite_self]

theorem filter_append (past : List Up) (up : Up) (h : Int) :
    (past ++ [up]).filter (·.h = h) =
      past.filter (·.h = h) ++ if up.h = h then [up] else [] := by
  rw [List.filter_append]
  by_cases mine : up.h = h <;> simp [mine]

theorem lastLease_append (past : List Up) (up : Up) (h : Int) :
    lastLease (past ++ [up]) h =
      if h = up.h then up.granted.or (lastLease past h) else lastLease past h := by
  rw [lastLease, filter_append, List.filterMap_append]
  by_cases mine : up.h = h
  · rw [if_pos mine, if_pos mine.symm]
    cases granted : up.granted <;> simp [lastLease, granted]
  · rw [if_neg mine, if_neg (Ne.symm mine)]
    simp [lastLease]

theorem getLast?_append (past : List Up) (up : Up) (h : Int) :
    ((past ++ [up]).filter (·.h = h)).getLast? =
      if h = up.h then some up else (past.filter (·.h = h)).getLast? := by
  rw [filter_append]
  by_cases mine : up.h = h
  · rw [if_pos mine, if_pos mine.symm, List.getLast?_concat]
  · rw [if_neg mine, if_neg (Ne.symm mine), List.append_nil]

theorem held_boot (h : Int) : held .boot h = none :=
  Option.map_eq_none_iff.mpr (Rows.find_dead (dead_replicate rfl 8))

theorem asked_boot (h : Int) : asked .boot h = .none := by
  have none_ : Rows.find Ask.live Ask.h h Table.boot.ask = none :=
    Rows.find_dead (dead_replicate rfl 8)
  rw [asked, none_]

theorem ncard_held (single : (Rows.keys Held.live Held.h t.held).Nodup) :
    {h | (held t h).isSome}.ncard = (Rows.keys Held.live Held.h t.held).length := by
  rw [← Rows.ncard_find single]
  simp only [held, Option.isSome_map]

theorem Sound.boot : Sound [] .boot where
  single := by decide
  held := held_boot
  asked := asked_boot
  used := by
    have single : (Rows.keys Held.live Held.h Table.boot.held).Nodup := by decide
    exact (ncard_held single).symm

theorem Sound.step {past : List Up} (sound : Sound past t) (fits : Fit t up)
    (done : dhcpUp up t = .ok (t', out)) : Sound (past ++ [up]) t' := by
  obtain ⟨silent, rfl⟩ | ⟨lease, leased, refused, -⟩ | ⟨lease, leased, applies, rfl⟩ :=
    dhcpUp_cases done
  · have ungranted : up.granted = none := by simp [Up.granted, silent]
    refine ⟨sound.single, fun h => ?_, fun h => ?_, sound.used⟩
    · rw [lastLease_append, ungranted, Option.none_or, ite_self]
      exact sound.held h
    · rw [asked_askNote fits.grows.2 (by simp), getLast?_append]
      split
      · simp [Tells, silent]
      · exact sound.asked h
  · exact absurd (fits.applied lease leased) refused
  · have granted : up.granted = some lease := by simp [Up.granted, leased, applies]
    have addressed := Up.addressed leased
    have fresh := fits.fresh (by simp [leased])
    obtain ⟨keys, used⟩ := keys_hold fits.grows.1 addressed fresh
    have absent : up.h ∉ Rows.keys Held.live Held.h t.held := by
      rw [Rows.mem_keys, show Rows.find Held.live Held.h up.h t.held = none from
        Option.map_eq_none_iff.mp fresh]
      exact Bool.false_ne_true
    have single := keys.nodup_iff.mpr (List.nodup_cons.mpr ⟨absent, sound.single⟩)
    refine ⟨single, fun h => ?_, fun h => ?_, ?_⟩
    · rw [lastLease_append, granted, Option.some_or]
      refine (held_hold fits.grows.1 addressed up.h h).trans ?_
      rw [sound.held]
    · rw [asked_askNote fits.grows.2 (by simp), getLast?_append]
      split
      · simp [Tells, leased]
      · exact sound.asked h
    · refine Eq.trans ?_ (ncard_held single).symm
      rw [keys.length_eq, List.length_cons, ← ncard_held sound.single, ← sound.used]
      exact used

end Steps

theorem tables_sound {past : List Up} {t : Table} (run : Runs Fit past t) : Sound past t := by
  induction run with
  | boot => exact .boot
  | up _ up fits done sound => exact sound.step fits done

/-- Interface `h` asks the server that grants 10.0.0.5, and everything is taken. -/
def homeUp (h : Int) : Up := ⟨h, home, fun _ _ => true, fun _ => true, some 0, some 0⟩

theorem homeUp_applies (h : Int) (lease : Lease) : (homeUp h).Applies lease :=
  ⟨rfl, fun _ => rfl⟩

theorem homeUp_done : ∃ lease, ∀ h, (homeUp h).lease = some lease ∧ ∀ t,
    dhcpUp (homeUp h) t =
      .ok (askNote (some 0) h .leased (hold (some 0) h lease t), some lease) := by
  obtain ⟨outcome, taken, -, granted⟩ := dhcpLease_inside home
  obtain ⟨lease, some_⟩ := Option.ne_none_iff_exists'.mp (granted _ home_granted)
  refine ⟨lease, fun h => ?_⟩
  have same : dhcpLease (homeUp h).exchange = _ := taken
  refine ⟨?_, fun t => ?_⟩
  · rw [Up.lease, same]
    exact some_
  · rw [dhcpUp, same]
    dsimp only [Except.bind]
    rw [some_]
    simp [homeUp]

theorem tables_sound_home : ∃ t lease, Runs Fit [homeUp 1, homeUp 2] t ∧ t.heldUsed = 2 ∧
    held t 1 = some lease ∧ held t 2 = some lease ∧ Sound [homeUp 1, homeUp 2] t := by
  obtain ⟨lease, done⟩ := homeUp_done
  have addressed := Up.addressed (done 1).1
  have grows : (some 0 : Option Nat) ≠ none := nofun
  let once := askNote (some 0) 1 .leased (hold (some 0) 1 lease .boot)
  have holds (h : Int) : held once h = if h = 1 then some lease else held .boot h :=
    held_hold grows addressed 1 h
  have fresh : held once 2 = none := by rw [holds, held_boot, if_neg (by decide)]
  have first : Runs Fit ([] ++ [homeUp 1]) once :=
    .up .boot (homeUp 1) ⟨⟨nofun, nofun⟩, fun lease _ => homeUp_applies 1 lease,
      fun _ => held_boot 1⟩ ((done 1).2 .boot)
  have run : Runs Fit ([] ++ [homeUp 1] ++ [homeUp 2]) _ :=
    .up first (homeUp 2) ⟨⟨nofun, nofun⟩, fun lease _ => homeUp_applies 2 lease,
      fun _ => fresh⟩ ((done 2).2 once)
  have used : once.heldUsed = 1 := (keys_hold grows addressed (held_boot 1)).2
  have all (h : Int) := held_hold (t := once) grows addressed 2 h
  refine ⟨_, lease, run, ?_, (all 1).trans (by rw [if_neg (by decide), holds, if_pos rfl]),
    (all 2).trans (if_pos rfl), tables_sound run⟩
  exact (keys_hold grows addressed fresh).2.trans (congrArg (· + 1) used)

/-- The same interface asks again: one lease, counted twice. -/
theorem renewal_counted : ∃ t, Runs (fun _ up => up.Grows) [homeUp 1, homeUp 1] t ∧
    t.heldUsed = 2 ∧ (∀ h, (held t h).isSome → h = 1) ∧ ¬ Sound [homeUp 1, homeUp 1] t := by
  obtain ⟨lease, done⟩ := homeUp_done
  have addressed := Up.addressed (done 1).1
  have grows : (homeUp 1).Grows := ⟨nofun, nofun⟩
  let once := askNote (some 0) 1 .leased (hold (some 0) 1 lease .boot)
  let twice := askNote (some 0) 1 .leased (hold (some 0) 1 lease once)
  have run : Runs (fun _ up => up.Grows) (([] ++ [homeUp 1]) ++ [homeUp 1]) twice :=
    .up (.up .boot _ grows ((done 1).2 .boot)) _ grows ((done 1).2 once)
  have used : twice.heldUsed = 2 := by
    have counted : once.heldUsed = 1 := (keys_hold grows.1 addressed (held_boot 1)).2
    have rows : once.held = ⟨1, lease⟩ :: List.replicate 7 .zero := rfl
    change (hold (some 0) 1 lease once).heldUsed = 2
    rw [hold, rows, counted]
    simp [addressed]
  have holds (h : Int) : held twice h = if h = 1 then some lease else none := by
    refine (held_hold grows.1 addressed 1 h).trans ?_
    split
    · rfl
    · rename_i other
      refine (held_hold grows.1 addressed 1 h).trans ?_
      rw [if_neg other, held_boot]
  have one : {h | (held twice h).isSome} = {1} := by
    ext h
    by_cases mine : h = 1 <;> simp [holds, mine]
  refine ⟨twice, run, used, fun h some_ => ?_, fun sound => ?_⟩
  · have mem : h ∈ {h | (held twice h).isSome} := some_
    rw [one] at mem
    exact mem
  · have count := sound.used
    rw [used, one, Set.ncard_singleton] at count
    cases count

end Metal.Net.Dhcp
