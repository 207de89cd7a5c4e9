import Metal.Lib.Threads
import Metal.Drivers.VirtioRx

namespace Metal.Drivers.VirtioRx

open Metal.Lib Function

variable {Core : Type} {qframe : UInt32} {s : State Core}

variable {id : UInt16}

theorem owns_boot {x : Owner Core} (owns : Owns (State.boot Core) x id) :
    ∃ n < fwQsz, x = .place n ∧ id = UInt16.ofNat n := by
  cases x with
  | place n =>
      obtain ⟨_, given⟩ := owns
      dsimp only [State.boot] at given
      split at given
      · exact ⟨n, ‹_›, rfl, (Option.some.inj given).symm⟩
      · cases given
  | device => cases owns
  | entry n =>
      obtain ⟨_, fill, filled, _⟩ := owns
      cases filled
  | core core =>
      obtain ⟨n, fill, _, filled, _⟩ := owns
      cases filled

theorem Inv.boot : Inv qframe (State.boot Core) where
  rxLast := rfl
  usedIdx := rfl
  behind := Nat.le_refl 0
  deliveredOnce := List.nodup_nil
  deliveredAll n := by simp [State.boot, Pc.undelivered]
  deliveredExact := nofun
  oneCore := nofun
  returnedOnce := List.nodup_nil
  returnedAll n := by simp [State.boot, Pc.entry]
  returnedExact := nofun
  availIdx := (Published.Sound.start fwQsz fwQsz).toForward
  written := nofun
  whole torn := absurd rfl torn
  availLast := rfl
  index := .start fwQsz fwQsz
  devNext := rfl
  fetchedLe := Nat.zero_le _
  shownLe := Nat.le_refl _
  shown place below := by
    have below : place < fwQsz := below
    simp [State.boot, below]
  single x y id first second := by
    obtain ⟨n, small, rfl, rfl⟩ := owns_boot first
    obtain ⟨m, small', rfl, same⟩ := owns_boot second
    have bound : fwQsz = 16 := rfl
    have same : n = m := by
      rcases Nat.le_total n m with le | le
      · exact ofNat_near le (by omega) same
      · exact (ofNat_near le (by omega) same.symm).symm
    rw [same]
  heldNodup := List.nodup_nil
  small x id owns := by
    obtain ⟨n, small, _, rfl⟩ := owns_boot owns
    have bound : fwQsz = 16 := rfl
    rw [UInt16.toNat_ofNat', Nat.mod_eq_of_lt (by omega)]
    exact small
  avail place id _ given := by
    obtain ⟨n, small, same, rfl⟩ := owns_boot (x := .place place) ⟨Nat.zero_le _, given⟩
    obtain rfl := Owner.place.inj same
    rw [half_ofNat, Nat.mod_eq_of_lt small]
    rfl
  used n fill _ filled := nomatch filled
  pending := nofun
  bufs n fill _ filled := nomatch filled
  knows _ := trivial
  undelivered := nofun
  unreturned := nofun
  unwritten place below none_ := by
    have below : place < fwQsz := below
    simp [State.boot, below] at none_
  onePlace := nofun
  unplaced place above := by
    have above : ¬ place < fwQsz := Nat.not_lt_of_le above
    simp [State.boot, above]

section

variable (inv : Inv qframe s)
include inv

theorem Inv.look (whole : ¬ s.availIdx.Torn) : Inv qframe (look s) := by
  have placed := inv.placed_le
  have fetched := inv.fetchedLe
  have shown := inv.shownLe
  have index := inv.index.load whole (by omega)
  exact { inv with
    availIdx := index.toForward
    written := fun count member place below => by
      rcases List.mem_append.mp member with old | new
      · exact inv.written count old place below
      · obtain rfl := List.mem_singleton.mp new
        exact inv.shown place below
    index := index
    fetchedLe := by
      rw [VirtioRx.look, Published.known_load]
      exact fetched.trans inv.index.known_le
    knows := fun core => (inv.knows core).later (fun _ _ same => same) (Nat.le_refl _)
      (fun _ _ none_ => ⟨none_, rfl⟩) (fun _ same => same) }

theorem Inv.fetch : Inv qframe (fetch s) := by
  unfold VirtioRx.fetch
  split
  · exact inv
  · rename_i more
    have ahead : s.fetched < s.availIdx.known := by
      refine Nat.lt_of_le_of_ne inv.fetchedLe fun same => more ?_
      rw [inv.devNext, inv.availIdx.last_eq, same]
    obtain ⟨id, given⟩ := Option.ne_none_iff_exists'.mp
      (inv.shown s.fetched (ahead.trans_le inv.index.known_le))
    have read : (s.availRing (s.devNext.toNat % fwQsz)).half = id := by
      rw [inv.devNext, ofNat_mod (by decide), inv.avail s.fetched id (Nat.le_refl _) given,
        half_cells]
    have owned : Owns s (.place s.fetched) id := ⟨Nat.le_refl _, given⟩
    have new : id ∉ s.held := fun already =>
      nomatch inv.single (.place s.fetched) .device id owned already
    rw [read]
    have stays := inv.moves { s with
        devNext := s.devNext + 1
        held := s.held ++ [id]
        fetched := s.fetched + 1 } (.place s.fetched) .device owned fun x id' owns => by
      cases x with
      | place n =>
          obtain ⟨above, given'⟩ := owns
          refine .inr ⟨⟨Nat.le_of_succ_le above, given'⟩, fun same => ?_⟩
          cases same.1
          exact Nat.not_succ_le_self _ above
      | device =>
          rcases List.mem_append.mp owns with old | new
          · exact .inr ⟨old, nofun⟩
          · exact .inl ⟨rfl, List.mem_singleton.mp new⟩
      | entry n => exact .inr ⟨owns, nofun⟩
      | core core => exact .inr ⟨owns, nofun⟩
    exact { inv with
      devNext := by rw [inv.devNext, ofNat_succ]
      fetchedLe := ahead
      single := stays.1
      small := stays.2
      heldNodup := List.nodup_append.mpr ⟨inv.heldNodup, List.nodup_singleton _,
        fun a old b last => by
          obtain rfl := List.mem_singleton.mp last
          exact fun same => new (same ▸ old)⟩
      avail := fun place id above => inv.avail place id (Nat.le_of_succ_le above)
      pending := fun fill pending => by
        obtain ⟨elem, bytes, held⟩ := inv.pending fill pending
        exact ⟨elem, bytes, List.mem_append_left _ held⟩
      knows := fun core => (inv.knows core).later (fun _ _ same => same) (Nat.le_refl _)
        (fun _ _ none_ => ⟨none_, rfl⟩) (fun _ same => same) }

theorem Inv.not_held {n : Nat} {fill : Fill}
    (ahead : s.claimed ≤ n ∨ ∃ core, (s.pc core).undelivered = some n)
    (filled : s.fills[n]? = some fill) : fill.id ∉ s.held := by
  intro held
  have device : Owns s .device fill.id := held
  rcases ahead with above | ⟨core, holds⟩
  · exact nomatch inv.single (.entry n) .device _ ⟨above, fill, filled, rfl⟩ device
  · exact nomatch inv.single (.core core) .device _
      ⟨n, fill, Pc.entry_of_undelivered holds, filled, rfl⟩ device

theorem Inv.fill (id : UInt16) (bytes : Bytes)
    (read : id ∈ s.held → s.pending = none → ∀ core entry, (s.pc core).unread = some entry →
      entry % fwQsz ≠ s.fills.length % fwQsz) : Inv qframe (fill id bytes s) := by
  unfold VirtioRx.fill
  split
  · rename_i given
    obtain ⟨held, idle⟩ := given
    have slot : s.usedIdx.toNat % fwQsz = s.fills.length % fwQsz := by
      rw [inv.usedIdx, ofNat_mod (by decide)]
    have few := inv.unclaimed_lt held
    rw [slot]
    exact { inv with
      used := fun n fill ahead filled => by
        have there : n < s.fills.length := (List.getElem?_eq_some_iff.mp filled).1
        have apart : n % fwQsz ≠ s.fills.length % fwQsz := by
          rcases ahead with above | ⟨core, reads⟩
          · have above : s.claimed ≤ n := above
            intro same
            exact Nat.ne_of_lt there (mod_near (Nat.le_of_lt there) (by omega) same)
          · exact read held idle core n reads
        exact (update_of_ne apart ..).trans (inv.used n fill ahead filled)
      pending := fun fill pending => by
        cases pending
        exact ⟨update_self .., update_self .., held⟩
      bufs := fun n fill ahead filled => by
        have other : fill.id ≠ id := fun same => inv.not_held ahead filled (same ▸ held)
        exact (update_of_ne other ..).trans (inv.bufs n fill ahead filled)
      knows := fun core => (inv.knows core).later (fun _ _ same => same) (Nat.le_refl _)
        (fun _ _ none_ => ⟨none_, rfl⟩) (fun _ same => same) }
  · exact inv

theorem Inv.bump : Inv qframe (bump s) := by
  unfold VirtioRx.bump
  split
  · exact inv
  · rename_i fill pending
    obtain ⟨elem, bytes, held⟩ := inv.pending fill pending
    have kept (n : Nat) (other : Fill) (filled : s.fills[n]? = some other) :
        (s.fills ++ [fill])[n]? = some other := by
      have there := (List.getElem?_eq_some_iff.mp filled).1
      rw [List.getElem?_append_left there, filled]
    have grown (n : Nat) (other : Fill) (filled : (s.fills ++ [fill])[n]? = some other) :
        s.fills[n]? = some other ∨ n = s.fills.length ∧ other = fill := by
      rcases Nat.lt_or_ge n s.fills.length with there | beyond
      · rw [List.getElem?_append_left there] at filled
        exact .inl filled
      · rw [List.getElem?_append_right beyond, List.getElem?_singleton] at filled
        split at filled
        · cases filled
          exact .inr ⟨by omega, rfl⟩
        · cases filled
    have taken (core : Core) (n : Nat) (holds : (s.pc core).entry = some n) :
        n < s.fills.length :=
      Nat.lt_of_lt_of_le ((inv.returnedAll n).mpr (.inr ⟨core, holds⟩)) inv.behind
    have stays := inv.moves { s with
        usedIdx := s.usedIdx + 1
        held := s.held.erase fill.id
        pending := none
        fills := s.fills ++ [fill] } .device (.entry s.fills.length)
      (show Owns s .device fill.id from held) fun x id owns => by
      cases x with
      | place n => exact .inr ⟨owns, nofun⟩
      | device =>
          obtain ⟨apart, member⟩ := inv.heldNodup.mem_erase_iff.mp owns
          exact .inr ⟨member, fun same => apart same.2⟩
      | entry n =>
          obtain ⟨above, other, filled, rfl⟩ := owns
          rcases grown n other filled with old | ⟨rfl, rfl⟩
          · exact .inr ⟨⟨above, other, old, rfl⟩, nofun⟩
          · exact .inl ⟨rfl, rfl⟩
      | core core =>
          obtain ⟨n, other, holds, filled, rfl⟩ := owns
          rcases grown n other filled with old | ⟨rfl, _⟩
          · exact .inr ⟨⟨n, other, holds, old, rfl⟩, nofun⟩
          · exact absurd (taken core _ holds) (Nat.lt_irrefl _)
    exact { inv with
      usedIdx := by rw [inv.usedIdx, List.length_append, List.length_singleton, ofNat_succ]
      behind := by
        rw [List.length_append]
        exact Nat.le_trans inv.behind (Nat.le_add_right ..)
      deliveredExact := fun delivery member => by
        obtain ⟨other, filled, same⟩ := inv.deliveredExact delivery member
        exact ⟨other, kept _ _ filled, same⟩
      returnedExact := fun back member => by
        obtain ⟨other, filled, same⟩ := inv.returnedExact back member
        exact ⟨other, kept _ _ filled, same⟩
      single := stays.1
      small := stays.2
      heldNodup := inv.heldNodup.erase _
      used := fun n other ahead filled => by
        rcases grown n other filled with old | ⟨rfl, rfl⟩
        · exact inv.used n other ahead old
        · exact elem
      pending := nofun
      bufs := fun n other ahead filled => by
        rcases grown n other filled with old | ⟨rfl, rfl⟩
        · exact inv.bufs n other ahead old
        · exact bytes
      knows := fun core => (inv.knows core).later kept (Nat.le_refl _)
        (fun _ _ none_ => ⟨none_, rfl⟩) (fun _ same => same) }

theorem Inv.hidden {core : Core} {place : Nat}
    (writes : (s.pc core).unwritten = some place) :
    s.availIdx.count ≤ place ∧ place < s.placed := by
  obtain ⟨below, none_, _⟩ := (inv.knows core).unwritten writes
  refine ⟨?_, below⟩
  by_contra shown
  exact inv.shown place (Nat.lt_of_not_le shown) none_

theorem Inv.slot_apart {core : Core} {place other : Nat}
    (writes : (s.pc core).unwritten = some place) (above : s.fetched ≤ other)
    (below : other < s.placed) (different : other ≠ place) :
    other % fwQsz ≠ place % fwQsz := by
  have placed := inv.placed_le
  have fetched := inv.fetchedLe.trans inv.index.known_le
  obtain ⟨hidden, under⟩ := inv.hidden writes
  intro same
  rcases Nat.le_total other place with le | le
  · exact different (mod_near le (by omega) same)
  · exact different (mod_near le (by omega) same.symm).symm

theorem Inv.ahead (more : s.usedIdx ≠ s.rxLast) : s.claimed < s.fills.length := by
  refine Nat.lt_of_le_of_ne inv.behind fun same => more ?_
  rw [inv.usedIdx, inv.rxLast, same]

end

variable [DecidableEq Core] {s' : State Core} {core : Core} {pc : Pc}

/-- A core goes on, and stores into no avail entry that anyone counts on. -/
theorem Inv.goes (inv : Inv qframe s) {old : Pc} (at_ : s.pc core = old)
    (entry : pc.entry = old.entry) (undelivered : pc.undelivered = old.undelivered)
    (unwritten : pc.unwritten = old.unwritten)
    (halfway : s.availIdx.Torn → old.halfway = true → pc.halfway = true)
    (unread : ∀ n, pc.unread = some n → old.unread = some n) (ring : Nat → Cells 2)
    (kept : ∀ n, s.fetched ≤ n → n < s.placed → old.unwritten ≠ some n →
      ring (n % fwQsz) = s.availRing (n % fwQsz))
    (knows : Knows { s with availRing := ring } pc)
    (after : s' = { s.goto core pc with availRing := ring }) : Inv qframe s' := by
  subst at_
  have entry := update_same s.pc core pc Pc.entry entry
  have undelivered := update_same s.pc core pc Pc.undelivered undelivered
  have unwritten := update_same s.pc core pc Pc.unwritten unwritten
  have owns := owns_same s s' (by rw [after]; rfl) (by rw [after]; rfl) (by rw [after]; rfl)
    (by rw [after]; rfl) (by rw [after]; rfl) (by rw [after]; exact entry)
  have unread (other : Core) (n : Nat) :
      (update s.pc core pc other).unread = some n → (s.pc other).unread = some n := by
    by_cases here : other = core
    · rw [here, update_self]
      exact unread n
    · rw [update_of_ne here]
      exact id
  have known : ∀ other, Knows s' (update s.pc core pc other) := by
    subst after
    refine update_others (Knows _) (fun other apart => ?_) knows
    refine (inv.knows other).later (fun _ _ same => same) (Nat.le_refl _)
      (fun n writes none_ => ⟨none_, ?_⟩) (fun _ same => same)
    obtain ⟨hidden, below⟩ := inv.hidden writes
    have above := (inv.fetchedLe.trans inv.index.known_le).trans hidden
    exact kept n above below fun mine => apart (inv.onePlace other core n writes mine)
  subst after
  exact { inv with
    deliveredAll := fun n => by
      simp only [State.goto, undelivered]
      exact inv.deliveredAll n
    oneCore := fun one other n => by
      simpa only [State.goto, entry] using inv.oneCore one other n
    returnedAll := fun n => by
      simp only [State.goto, entry]
      exact inv.returnedAll n
    whole := fun torn => exists_still Pc.halfway rfl (halfway torn) (inv.whole torn)
    single := fun x y id owned owned' =>
      inv.single x y id ((owns x id).mp owned) ((owns y id).mp owned')
    small := fun x id owned => inv.small x id ((owns x id).mp owned)
    avail := fun n id above given => by
      refine (kept n above ?_ fun mine => ?_).trans (inv.avail n id above given)
      · by_contra beyond
        exact nomatch (inv.unplaced n (Nat.le_of_not_lt beyond)).symm.trans given
      · exact nomatch ((inv.knows core).unwritten mine).2.1.symm.trans given
    used := fun n fill ahead => inv.used n fill (ahead.imp_right fun ⟨other, reads⟩ =>
      ⟨other, unread other n reads⟩)
    bufs := fun n fill ahead => inv.bufs n fill (ahead.imp_right fun ⟨other, holds⟩ =>
      ⟨other, undelivered other ▸ holds⟩)
    knows := known
    undelivered := fun other n holds => inv.undelivered other n (undelivered other ▸ holds)
    unreturned := fun other n holds => inv.unreturned other n (entry other ▸ holds)
    unwritten := fun place below none_ => by
      simpa only [State.goto, unwritten] using inv.unwritten place below none_
    onePlace := fun one other place => by
      simpa only [State.goto, unwritten] using inv.onePlace one other place }

theorem Inv.goto (inv : Inv qframe s) {old : Pc} (at_ : s.pc core = old)
    (entry : pc.entry = old.entry) (undelivered : pc.undelivered = old.undelivered)
    (unwritten : pc.unwritten = old.unwritten)
    (halfway : s.availIdx.Torn → old.halfway = true → pc.halfway = true)
    (unread : ∀ n, pc.unread = some n → old.unread = some n) (knows : Knows s pc) :
    Inv qframe (s.goto core pc) :=
  inv.goes at_ entry undelivered unwritten halfway unread s.availRing (fun _ _ _ _ => rfl) knows rfl

theorem Inv.claim (inv : Inv qframe s) {uidx last : UInt16}
    (at_ : s.pc core = .claim uidx last) (fresh : s.rxLast = last)
    (ahead : s.claimed < s.fills.length)
    (after : s' = { s with
      pc := update s.pc core (.id s.claimed last)
      rxLast := last + 1
      claimed := s.claimed + 1 }) : Inv qframe s' := by
  have next : s.fills[s.claimed]? = some s.fills[s.claimed] := List.getElem?_eq_getElem ahead
  have count : last = UInt16.ofNat s.claimed := fresh ▸ inv.rxLast
  have undelivered := exists_gains s.pc core (.id s.claimed last)
    Pc.undelivered (by rw [at_]; rfl)
  have entry := exists_gains s.pc core (.id s.claimed last)
    Pc.entry (by rw [at_]; rfl)
  have unwritten := exists_gains s.pc core (.id s.claimed last)
    Pc.unwritten (by rw [at_]; rfl)
  have unread := exists_gains s.pc core (.id s.claimed last)
    Pc.unread (by rw [at_]; rfl)
  have newer (other : Core) : (s.pc other).entry ≠ some s.claimed := fun holds =>
    Nat.lt_irrefl _ ((inv.returnedAll s.claimed).mpr (.inr ⟨other, holds⟩))
  have stays := inv.moves s' (.entry s.claimed) (.core core)
    ⟨Nat.le_refl _, _, next, rfl⟩ (by
      subst after
      intro x id owns
      cases x with
      | place n => exact .inr ⟨owns, nofun⟩
      | device => exact .inr ⟨owns, nofun⟩
      | entry n =>
          obtain ⟨unclaimed, filled⟩ := owns
          refine .inr ⟨⟨Nat.le_of_succ_le unclaimed, filled⟩, fun same => ?_⟩
          cases same.1
          exact absurd unclaimed (Nat.not_succ_le_self _)
      | core other =>
          obtain ⟨n, fill, holds, filled, rfl⟩ := owns
          dsimp only at holds filled
          by_cases here : other = core
          · rw [here, update_self] at holds
            cases holds
            rw [next] at filled
            cases filled
            exact .inl ⟨by rw [here], rfl⟩
          · rw [update_of_ne here] at holds
            exact .inr ⟨⟨n, fill, holds, filled, rfl⟩, nofun⟩)
  subst after
  exact { inv with
    rxLast := by rw [count, ofNat_succ]
    behind := ahead
    deliveredAll := fun n => by
      rw [undelivered, Nat.lt_succ_iff_lt_or_eq, inv.deliveredAll, or_assoc, or_comm (b := n = _)]
      simp [Pc.undelivered, eq_comm]
    oneCore := update_single Pc.entry inv.oneCore fun n here other there => by
      cases here
      exact absurd there (newer other)
    whole := fun torn => exists_still Pc.halfway at_ nofun (inv.whole torn)
    returnedAll := fun n => by
      rw [entry, Nat.lt_succ_iff_lt_or_eq, inv.returnedAll, or_assoc, or_comm (b := n = _)]
      simp [Pc.entry, eq_comm]
    single := stays.1
    small := stays.2
    used := fun n fill unread' => inv.used n fill (by
      rw [unread] at unread'
      rcases unread' with later | ⟨⟨⟩⟩ | older
      · exact .inl (Nat.le_of_succ_le later)
      · exact .inl (Nat.le_refl _)
      · exact .inr older)
    bufs := fun n fill undelivered' => inv.bufs n fill (by
      rw [undelivered] at undelivered'
      rcases undelivered' with later | ⟨⟨⟩⟩ | older
      · exact .inl (Nat.le_of_succ_le later)
      · exact .inl (Nat.le_refl _)
      · exact .inr older)
    knows := update_all (Knows s) inv.knows ⟨count, ahead⟩
    undelivered := update_all (fun pc : Pc => ∀ n, pc.undelivered = some n →
      n ∉ s.delivered.map Delivery.entry) inv.undelivered fun n now => by
      cases now
      exact fun already => Nat.lt_irrefl _ ((inv.deliveredAll _).mpr (.inl already))
    unreturned := update_all (fun pc : Pc => ∀ n, pc.entry = some n →
      n ∉ s.returned.map Return.entry) inv.unreturned fun n now => by
      cases now
      exact fun already => Nat.lt_irrefl _ ((inv.returnedAll _).mpr (.inl already))
    unwritten := fun place below none_ => by
      rw [unwritten]
      exact .inr (inv.unwritten place below none_)
    onePlace := update_single Pc.unwritten inv.onePlace nofun }

variable {entry : Nat}

theorem Inv.deliver (inv : Inv qframe s) {n : UInt16} (at_ : s.pc core = .rxFrom entry id n)
    (after : s' = { s with
      pc := update s.pc core (.tail entry id)
      delivered := s.delivered ++ [⟨entry, rxPayload qframe n (s.buf id)⟩] }) : Inv qframe s' := by
  obtain ⟨fill, filled, rfl, rfl⟩ := at_ ▸ inv.knows core
  have had : (s.pc core).undelivered = some entry := by rw [at_]; rfl
  have holds := Pc.entry_of_undelivered had
  have only (other : Core) (has : (s.pc other).undelivered = some entry) : other = core :=
    inv.oneCore other core entry (Pc.entry_of_undelivered has) holds
  have undelivered := exists_loses s.pc core (.tail entry fill.id)
    Pc.undelivered had only rfl
  have same := update_same s.pc core (.tail entry fill.id) Pc.entry
    (by rw [at_]; rfl)
  have unwritten := update_same s.pc core (.tail entry fill.id)
    Pc.unwritten (by rw [at_]; rfl)
  have unread := update_same s.pc core (.tail entry fill.id)
    Pc.unread (by rw [at_]; rfl)
  have owns := owns_same s s' (by rw [after]) (by rw [after]) (by rw [after])
    (by rw [after]) (by rw [after]) (by rw [after]; exact same)
  subst after
  exact { inv with
    deliveredOnce := by
      rw [List.map_append, List.nodup_append]
      refine ⟨inv.deliveredOnce, by simp, fun n old m new => ?_⟩
      obtain rfl := List.mem_singleton.mp new
      rintro rfl
      exact inv.undelivered core _ had old
    deliveredAll := fun n => by
      rw [undelivered, inv.deliveredAll, List.map_append, List.mem_append]
      by_cases here : n = entry
      · subst here
        have before : ∃ other, (s.pc other).undelivered = some n := ⟨core, had⟩
        simp [before]
      · simp [here]
    deliveredExact := fun delivery member => by
      rcases List.mem_append.mp member with old | new
      · exact inv.deliveredExact delivery old
      · obtain rfl := List.mem_singleton.mp new
        refine ⟨fill, filled, ?_⟩
        rw [inv.bufs entry fill (.inr ⟨core, had⟩) filled]
        rfl
    oneCore := fun one other n => by simpa only [same] using inv.oneCore one other n
    whole := fun torn => exists_still Pc.halfway at_ nofun (inv.whole torn)
    returnedAll := fun n => by
      simp only [same]
      exact inv.returnedAll n
    single := fun x y id owned owned' =>
      inv.single x y id ((owns x id).mp owned) ((owns y id).mp owned')
    small := fun x id owned => inv.small x id ((owns x id).mp owned)
    used := fun n fill ahead => inv.used n fill (ahead.imp_right fun ⟨other, reads⟩ =>
      ⟨other, unread other ▸ reads⟩)
    bufs := fun n fill ahead => inv.bufs n fill
      (ahead.imp_right fun holds => ((undelivered n).mp holds).2)
    knows := update_all (Knows s) inv.knows ⟨fill, filled, rfl⟩
    undelivered := fun other n holds already => by
      obtain ⟨different, holder, held⟩ := (undelivered n).mp ⟨other, holds⟩
      rw [List.map_append, List.mem_append] at already
      rcases already with old | new
      · exact inv.undelivered holder n held old
      · exact different (List.mem_singleton.mp new)
    unreturned := fun other n holds => inv.unreturned other n (same other ▸ holds)
    unwritten := fun place below none_ => by
      simpa only [unwritten] using inv.unwritten place below none_
    onePlace := fun one other place => by
      simpa only [unwritten] using inv.onePlace one other place }

variable {index : UInt16}

section Inv

variable (inv : Inv qframe s)
include inv

theorem Inv.place (at_ : s.pc core = .grab entry id index)
    (fresh : s.availLast = index) (after : s' = { s with
      pc := update s.pc core (.give entry id index s.placed)
      availLast := index + 1
      placed := s.placed + 1 }) : Inv qframe s' := by
  have count : index = UInt16.ofNat s.placed := fresh ▸ inv.availLast
  have knows : ∃ fill, s.fills[entry]? = some fill ∧ fill.id = id := by
    simpa [at_, Knows] using inv.knows core
  have undelivered := update_same s.pc core (.give entry id index s.placed)
    Pc.undelivered (by rw [at_]; rfl)
  have same := update_same s.pc core (.give entry id index s.placed)
    Pc.entry (by rw [at_]; rfl)
  have unread := update_same s.pc core (.give entry id index s.placed)
    Pc.unread (by rw [at_]; rfl)
  have unwritten := exists_gains s.pc core (.give entry id index s.placed)
    Pc.unwritten (by rw [at_]; rfl)
  have newer (other : Core) : (s.pc other).unwritten ≠ some s.placed := fun holds =>
    Nat.lt_irrefl _ (inv.hidden holds).2
  have owns := owns_same s s' (by rw [after]) (by rw [after]) (by rw [after])
    (by rw [after]) (by rw [after]) (by rw [after]; exact same)
  have known : ∀ other, Knows s' (update s.pc core (.give entry id index s.placed)
      other) := by
    refine update_all (Knows s') (fun other => ?_) ?_
    · refine (inv.knows other).later ?_ ?_ ?_ ?_ <;> subst after
      · exact fun _ _ same => same
      · exact Nat.le_succ _
      · exact fun _ _ none_ => ⟨none_, rfl⟩
      · exact fun _ same => same
    · subst after
      exact ⟨knows, count, Nat.lt_succ_self _, inv.unplaced _ (Nat.le_refl _)⟩
  subst after
  exact { inv with
    availLast := by rw [count, ofNat_succ]
    shownLe := Nat.le_succ_of_le inv.shownLe
    deliveredAll := fun n => by
      simp only [undelivered]
      exact inv.deliveredAll n
    oneCore := fun one other n => by simpa only [same] using inv.oneCore one other n
    whole := fun torn => exists_still Pc.halfway at_ nofun (inv.whole torn)
    returnedAll := fun n => by
      simp only [same]
      exact inv.returnedAll n
    single := fun x y id owned owned' =>
      inv.single x y id ((owns x id).mp owned) ((owns y id).mp owned')
    small := fun x id owned => inv.small x id ((owns x id).mp owned)
    used := fun n fill ahead => inv.used n fill (ahead.imp_right (Exists.imp fun other reads =>
      unread other ▸ reads))
    bufs := fun n fill ahead => inv.bufs n fill (ahead.imp_right (Exists.imp fun other holds =>
      undelivered other ▸ holds))
    knows := known
    undelivered := fun other n holds => inv.undelivered other n (undelivered other ▸ holds)
    unreturned := fun other n holds => inv.unreturned other n (same other ▸ holds)
    unwritten := fun place below none_ => by
      rw [unwritten]
      rcases Nat.lt_succ_iff_lt_or_eq.mp below with older | rfl
      · exact .inr (inv.unwritten place older none_)
      · exact .inl rfl
    onePlace := update_single Pc.unwritten inv.onePlace fun n here other there => by
      cases here
      exact absurd there (newer other)
    unplaced := fun place above => inv.unplaced place (Nat.le_of_succ_le above) }

theorem Inv.give {place : Nat} (at_ : s.pc core = .give entry id index place)
    (after : s' = { s with
      pc := update s.pc core (.giveHigh entry id index place)
      availRing := update s.availRing (index.toNat % fwQsz)
        ((s.availRing (index.toNat % fwQsz)).store 0 id.toNat) }) : Inv qframe s' := by
  obtain ⟨filled, rfl, below, none_⟩ :
      (∃ fill, s.fills[entry]? = some fill ∧ fill.id = id) ∧ index = UInt16.ofNat place ∧
        place < s.placed ∧ s.gave place = none := by
    simpa [at_, Knows] using inv.knows core
  rw [ofNat_mod (by decide)] at after
  have writes : (s.pc core).unwritten = some place := by rw [at_]; rfl
  refine inv.goes at_ (rfl : (Pc.giveHigh entry id (.ofNat place) place).entry = _) rfl rfl nofun
    nofun
    (update s.availRing (place % fwQsz)
      ((s.availRing (place % fwQsz)).store 0 id.toNat))
    (fun n above under other => ?_) ?_ after
  · have different : n ≠ place := fun same => other (congrArg some same.symm)
    exact update_of_ne (inv.slot_apart writes above under different) ..
  · refine ⟨filled, rfl, below, none_, ?_⟩
    dsimp only
    rw [update_self]
    exact Cells.Begins.store (k := 0) (Cells.Begins.zero id.toNat _)

theorem Inv.giveHigh {place : Nat}
    (at_ : s.pc core = .giveHigh entry id index place) (after : s' = { s with
      pc := update s.pc core (.publish index place)
      availRing := update s.availRing (index.toNat % fwQsz)
        ((s.availRing (index.toNat % fwQsz)).store 1 id.toNat)
      gave := update s.gave place (some id)
      returned := s.returned ++ [⟨entry, id, place⟩] }) : Inv qframe s' := by
  obtain ⟨⟨fill, filled, rfl⟩, rfl, below, none_, low⟩ :
      (∃ fill, s.fills[entry]? = some fill ∧ fill.id = id) ∧ index = UInt16.ofNat place ∧
        place < s.placed ∧ s.gave place = none ∧
          (s.availRing (place % fwQsz)).Begins id.toNat 1 := by
    simpa [at_, Knows] using inv.knows core
  have word : (s.availRing (place % fwQsz)).store 1 fill.id.toNat = half fill.id :=
    (Cells.Begins.store (k := 1) low).whole
  rw [ofNat_mod (by decide), word] at after
  have had : (s.pc core).entry = some entry := by rw [at_]; rfl
  have writes : (s.pc core).unwritten = some place := by rw [at_]; rfl
  have undelivered := update_same s.pc core (.publish (.ofNat place) place)
    Pc.undelivered (by rw [at_]; rfl)
  have unread := update_same s.pc core (.publish (.ofNat place) place)
    Pc.unread (by rw [at_]; rfl)
  have entries := exists_loses s.pc core (.publish (.ofNat place) place)
    Pc.entry had (fun other has => inv.oneCore other core entry has had) rfl
  have unwritten := exists_loses s.pc core (.publish (.ofNat place) place)
    Pc.unwritten writes (fun other has => inv.onePlace other core place has writes) rfl
  have hidden := (inv.hidden writes).1
  have gave (other : Nat) (different : other ≠ place) :
      update s.gave place (some fill.id) other = s.gave other :=
    update_of_ne different ..
  have stays := inv.moves s' (.core core) (.place place)
    ⟨entry, fill, had, filled, rfl⟩ (by
      subst after
      intro x id owns
      cases x with
      | place n =>
          obtain ⟨above, given⟩ := owns
          dsimp only at above given
          by_cases here : n = place
          · subst here
            rw [update_self] at given
            exact .inl ⟨rfl, (Option.some.inj given).symm⟩
          · rw [gave n here] at given
            exact .inr ⟨⟨above, given⟩, nofun⟩
      | device => exact .inr ⟨owns, nofun⟩
      | entry n => exact .inr ⟨owns, nofun⟩
      | core other =>
          obtain ⟨n, other_, holds, filled', rfl⟩ := owns
          dsimp only at holds filled'
          by_cases here : other = core
          · rw [here, update_self] at holds
            cases holds
          · rw [update_of_ne here] at holds
            refine .inr ⟨⟨n, other_, holds, filled', rfl⟩, fun same => here ?_⟩
            exact Owner.core.inj same.1)
  have known : ∀ other, Knows s' (update s.pc core (.publish (.ofNat place) place)
      other) := by
    refine update_others (Knows s') (fun other apart => ?_) ?_
    · refine (inv.knows other).later ?_ ?_ (fun n opens none_ => ?_) (fun n given => ?_) <;>
        subst after
      · exact fun _ _ same => same
      · exact Nat.le_refl _
      · have different : n ≠ place := fun here =>
          apart (inv.onePlace other core place (here ▸ opens) writes)
        obtain ⟨shown, under⟩ := inv.hidden opens
        have above := (inv.fetchedLe.trans inv.index.known_le).trans shown
        exact ⟨(gave n different).trans none_,
          update_of_ne (inv.slot_apart writes above under different) ..⟩
      · by_cases here : n = place
        · rw [here]
          simp
        · exact fun nothing => given ((gave n here).symm.trans nothing)
    · subst after
      exact ⟨rfl, below, by simp⟩
  have shown (other : Nat) (under : other < s.availIdx.count) :
      update s.gave place (some fill.id) other ≠ none := by
    rw [gave other (by omega)]
    exact inv.shown other under
  have open_ (other : Nat) (under : other < s.placed)
      (none' : update s.gave place (some fill.id) other = none) :
      other ≠ place ∧ s.gave other = none := by
    by_cases here : other = place
    · rw [here, update_self] at none'
      cases none'
    · exact ⟨here, gave other here ▸ none'⟩
  have avail (other : Nat) (id : UInt16) (above : s.fetched ≤ other)
      (given : update s.gave place (some fill.id) other = some id) :
      update s.availRing (place % fwQsz) (half fill.id) (other % fwQsz) = half id := by
    by_cases here : other = place
    · subst here
      rw [update_self] at given ⊢
      exact congrArg half (Option.some.inj given)
    · rw [gave other here] at given
      have under : other < s.placed := by
        by_contra beyond
        exact nomatch (inv.unplaced other (Nat.le_of_not_lt beyond)).symm.trans given
      rw [update_of_ne (inv.slot_apart writes above under here)]
      exact inv.avail other id above given
  subst after
  exact { inv with
    deliveredAll := fun n => by
      simp only [undelivered]
      exact inv.deliveredAll n
    oneCore := update_single Pc.entry inv.oneCore nofun
    returnedOnce := by
      rw [List.map_append, List.nodup_append]
      refine ⟨inv.returnedOnce, by simp, fun n old m new => ?_⟩
      obtain rfl := List.mem_singleton.mp new
      rintro rfl
      exact inv.unreturned core _ had old
    whole := fun torn => exists_still Pc.halfway at_ nofun (inv.whole torn)
    returnedAll := fun n => by
      rw [entries, inv.returnedAll, List.map_append, List.mem_append]
      by_cases here : n = entry
      · subst here
        have before : ∃ other, (s.pc other).entry = some n := ⟨core, had⟩
        simp [before]
      · simp [here]
    returnedExact := fun back member => by
      rcases List.mem_append.mp member with old | new
      · exact inv.returnedExact back old
      · obtain rfl := List.mem_singleton.mp new
        exact ⟨fill, filled, rfl⟩
    written := fun count member other under =>
      shown other (under.trans_le (inv.index.le count member))
    shown := shown
    single := stays.1
    small := stays.2
    avail := avail
    used := fun n fill ahead => inv.used n fill (ahead.imp_right fun ⟨other, reads⟩ =>
      ⟨other, unread other ▸ reads⟩)
    bufs := fun n fill ahead => inv.bufs n fill (ahead.imp_right fun ⟨other, holds⟩ =>
      ⟨other, undelivered other ▸ holds⟩)
    knows := known
    undelivered := fun other n holds => inv.undelivered other n (undelivered other ▸ holds)
    unreturned := fun other n holds already => by
      obtain ⟨different, holder, held⟩ := (entries n).mp ⟨other, holds⟩
      rw [List.map_append, List.mem_append] at already
      rcases already with old | new
      · exact inv.unreturned holder n held old
      · exact different (List.mem_singleton.mp new)
    unwritten := fun other under none' => by
      obtain ⟨apart, none'⟩ := open_ other under none'
      exact (unwritten other).mpr ⟨apart, inv.unwritten other under none'⟩
    onePlace := update_single Pc.unwritten inv.onePlace nofun
    unplaced := fun other above =>
      (gave other (Nat.ne_of_gt (Nat.lt_of_lt_of_le below above))).trans
        (inv.unplaced other above) }

theorem Inv.publish {place : Nat} (at_ : s.pc core = .publish index place)
    (forward : s.availIdx.count ≤ place + 1)
    (inOrder : ∀ other n, (s.pc other).unwritten = some n → place < n) (after : s' = { s with
      pc := update s.pc core (.publishHigh index)
      availIdx := s.availIdx.storeLow (index + 1) (place + 1) }) : Inv qframe s' := by
  obtain ⟨rfl, below, given⟩ :
      index = UInt16.ofNat place ∧ place < s.placed ∧ s.gave place ≠ none := by
    simpa [at_, Knows] using inv.knows core
  have moved : Inv qframe (s.goto core (.publishHigh (.ofNat place))) :=
    inv.goto at_ rfl rfl rfl nofun nofun trivial
  have index := inv.index.storeLow forward
  rw [ofNat_succ] at index
  subst after
  exact { moved with
    availIdx := index.toForward
    index := index
    whole := fun _ => ⟨core, congrArg Pc.halfway (update_self core _ s.pc)⟩
    fetchedLe := inv.fetchedLe
    shownLe := below
    shown := fun other under nothing => by
      have under : other ≤ place := Nat.le_of_lt_succ under
      obtain ⟨writer, writes⟩ :=
        inv.unwritten other (Nat.lt_of_le_of_lt under below) nothing
      exact Nat.not_le_of_lt (inOrder writer other writes) under }

theorem Inv.publishHigh (at_ : s.pc core = .publishHigh index)
    (fits : s.availIdx.Fits (index + 1)) (after : s' = { s with
      pc := update s.pc core .reload
      availIdx := s.availIdx.storeHigh (index + 1) }) : Inv qframe s' := by
  have sound := inv.index.storeHigh (index + 1)
  have stored : Inv qframe { s with availIdx := s.availIdx.storeHigh (index + 1) } :=
    { inv with
      availIdx := sound.toForward
      index := sound
      whole := fun torn => absurd torn fits.whole
      knows := fun other => (inv.knows other).later (fun _ _ same => same) (Nat.le_refl _)
        (fun _ _ none_ => ⟨none_, rfl⟩) (fun _ same => same) }
  subst after
  exact stored.goto at_ rfl rfl rfl (fun torn => absurd torn fits.whole) nofun trivial

theorem Inv.runCore (core : Core) (spurious : Bool)
    (keeps : Keeps s (.run core spurious)) : Inv qframe (runCore qframe core spurious s) := by
  have knows := inv.knows core
  unfold VirtioRx.runCore
  unfold Keeps at keeps
  cases at_ : s.pc core with
  | away | frontier low => exact inv.goto at_ rfl rfl rfl nofun nofun trivial
  | check uidx =>
      dsimp only
      split
      · exact inv.goto at_ rfl rfl rfl nofun nofun trivial
      · exact inv.goto at_ rfl rfl rfl nofun nofun trivial
  | claim uidx last =>
      dsimp only
      split
      · rename_i taken
        simp only [at_] at keeps
        have more := keeps taken.1 (by simpa using taken.2)
        exact inv.claim at_ taken.1 (inv.ahead (taken.1 ▸ more)) rfl
      · exact inv.goto at_ rfl rfl rfl nofun nofun trivial
  | id entry last =>
      obtain ⟨rfl, there⟩ := at_ ▸ knows
      have filled := List.getElem?_eq_getElem there
      have elem := inv.used entry _ (.inr ⟨core, by rw [at_]; rfl⟩) filled
      refine inv.goto at_ rfl rfl rfl nofun (fun _ => id) ⟨rfl, _, filled, ?_⟩
      rw [ofNat_mod (by decide), elem]
      rfl
  | idHigh entry last low =>
      obtain ⟨rfl, fill, filled, rfl⟩ := at_ ▸ knows
      have elem := inv.used entry fill (.inr ⟨core, by rw [at_]; rfl⟩) filled
      refine inv.goto at_ rfl rfl rfl nofun (fun _ => id) ⟨rfl, fill, filled, ?_⟩
      rw [ofNat_mod (by decide), elem, Fill.elem, pair_bytes, half_cells]
  | len entry last id =>
      obtain ⟨rfl, fill, filled, same⟩ := at_ ▸ knows
      have elem := inv.used entry fill (.inr ⟨core, by rw [at_]; rfl⟩) filled
      refine inv.goto at_ rfl rfl rfl nofun (fun _ same => same) ⟨rfl, fill, filled, same, ?_⟩
      rw [ofNat_mod (by decide), elem]
  | lenHigh entry last id low =>
      obtain ⟨rfl, fill, filled, same, rfl⟩ := at_ ▸ knows
      have elem := inv.used entry fill (.inr ⟨core, by rw [at_]; rfl⟩) filled
      refine inv.goto at_ rfl rfl rfl nofun nofun ⟨fill, filled, same, ?_⟩
      rw [ofNat_mod (by decide), elem, pair_bytes, half_cells]
  | rxFrom entry id n => exact inv.deliver at_ rfl
  | tail entry id =>
      rw [at_] at knows
      exact inv.goto at_ rfl rfl rfl nofun nofun knows
  | grab entry id index =>
      rw [at_] at knows
      dsimp only
      split
      · rename_i taken
        exact inv.place at_ taken.1 rfl
      · exact inv.goto at_ rfl rfl rfl nofun nofun knows
  | give entry id index place => exact inv.give at_ rfl
  | giveHigh entry id index place => exact inv.giveHigh at_ rfl
  | publish index place =>
      simp only [at_] at keeps
      exact inv.publish at_ keeps.1 keeps.2 rfl
  | publishHigh index =>
      simp only [at_] at keeps
      exact inv.publishHigh at_ keeps rfl
  | reload => exact inv.goto at_ rfl rfl rfl nofun nofun trivial

theorem Inv.step (act : Act Core) (keeps : Keeps s act) :
    Inv qframe (step qframe s act) := by
  cases act with
  | run core spurious => exact inv.runCore core spurious keeps
  | look => exact inv.look keeps
  | fetch => exact inv.fetch
  | fill id bytes => exact inv.fill id bytes keeps
  | bump => exact inv.bump

end Inv

/-- However the cores and the device take turns. -/
theorem rx_exact_of_keeps (qframe : UInt32) (acts : List (Act Core))
    (along : Along (step qframe) Keeps (State.boot Core) acts) :
    Exact qframe (acts.foldl (VirtioRx.step qframe) (State.boot Core)) := by
  have inv := Along.invariant (fun s act (inv : Inv qframe s) keeps => inv.step act keeps)
    Inv.boot along
  exact inv.toExact

def turns (core : Fin 2) (count : Nat) : List (Act (Fin 2)) :=
  List.replicate count (.run core false)

def oneFrame : List (Act (Fin 2)) :=
  [Act.look, .fetch, .fill 0 (List.replicate 20 7), .bump] ++ turns 0 15 ++ [Act.look, .fetch]

theorem rx_exact_of_keeps_oneFrame :
    Exact 1514 (oneFrame.foldl (VirtioRx.step 1514) (State.boot (Fin 2))) := by
  refine rx_exact_of_keeps 1514 oneFrame ?_
  refine ⟨fun torn => torn rfl, trivial, ?_, trivial, trivial, trivial, trivial, ?_, trivial, trivial,
    trivial, trivial, trivial, trivial, trivial, trivial, trivial, ?_, rfl,
    fun torn => torn rfl, trivial, trivial⟩
  · intro _ _ core entry unread
    cases unread
  · exact fun _ _ => by decide
  · exact ⟨by decide, Fin.forall_fin_two.mpr ⟨by rintro _ ⟨⟩, by rintro _ ⟨⟩⟩⟩

def stale : List (Act (Fin 2)) :=
  [Act.look, .fetch, .fetch, .fill 0 (List.replicate 20 7), .bump] ++ turns 1 2 ++
    [Act.fill 1 (List.replicate 20 8), .bump] ++ turns 0 19 ++ turns 1 2

/-- Core 0 claimed a place in the avail ring before core 1 and writes it after. -/
def overtaken : List (Act (Fin 2)) :=
  [Act.look, .fetch, .fetch, .fill 0 (List.replicate 20 7), .bump,
    .fill 1 (List.replicate 20 8), .bump] ++
    turns 0 4 ++ turns 1 4 ++ turns 0 7 ++ turns 1 11 ++ [Act.look] ++ turns 0 4 ++ [Act.look]

/-- The state `s` of one core that is away after `n` frames, in the fields that its next
frame depends on. -/
def rested (n : UInt16) (count : Nat) (s : State Unit) : State Unit :=
  { s with
    rxLast := n
    availLast := n + 16
    availIdx := { s.availIdx with word := half (n + 16), count := count }
    availRing := cells 2
    usedIdx := n
    devNext := n
    held := []
    pending := none
    pc _ := .away
    placed := count }

/-- One frame, of which the core does `count` accesses. -/
def frame (n : UInt16) (count : Nat) : List (Act Unit) :=
  [Act.look, .fetch, .fill (.ofNat (n.toNat % fwQsz)) (List.replicate 20 7), .bump] ++
    List.replicate count (Act.run () false)

theorem rested_frame (n : UInt16) (count : Nat) (s : State Unit) :
    ∃ s', (frame n 18).foldl (VirtioRx.step 1514) (rested n count s) =
      rested (n + 1) (count + 1) s' := by
  have more : n + 1 - n = 1 := by rw [UInt16.add_comm, UInt16.add_sub_cancel]
  have slot : (n + 16).toNat % fwQsz = n.toNat % fwQsz := by
    have size : fwQsz = 16 := rfl
    rw [UInt16.toNat_add, size]
    simp
  have next : n + 16 + 1 = n + 1 + 16 := by
    rw [UInt16.add_assoc, UInt16.add_comm 16, ← UInt16.add_assoc]
  have id (value : Nat) : cells 2 (value % 65536) = cells 2 value := cells_mod 2 value
  obtain ⟨s', after⟩ :
      ∃ s', (frame n 18).foldl (VirtioRx.step 1514) (rested n count s) = s' := ⟨_, rfl⟩
  refine ⟨s', after.trans ?_⟩
  simp [frame, List.replicate, VirtioRx.step, VirtioRx.look, Published.load, VirtioRx.fetch,
    Published.last, VirtioRx.fill, VirtioRx.bump, VirtioRx.runCore, State.goto, cells_half, more,
    pair_bytes, rested, Fill.elem, slot, -UInt16.toNat_add,
    update_eq_const_of_subsingleton, store_both, id] at after
  subst after
  simp [rested, next, Published.storeLow, Published.storeHigh, -UInt16.toNat_add, store_both,
    half]
  rfl

def frames (n : Nat) : List (Act Unit) :=
  (List.range n).flatMap fun k => frame (.ofNat k) 18

theorem rested_frames (n : Nat) :
    ∃ s, (frames n).foldl (VirtioRx.step 1514) (State.boot Unit) =
      rested (.ofNat n) (fwQsz + n) s := by
  induction n with
  | zero => exact ⟨State.boot Unit, rfl⟩
  | succ n ih =>
      obtain ⟨s, before⟩ := ih
      obtain ⟨s', after⟩ := rested_frame (.ofNat n) (fwQsz + n) s
      refine ⟨s', ?_⟩
      rw [frames, List.range_succ, List.flatMap_append, List.flatMap_singleton, List.foldl_append,
        ← frames, before, after, ofNat_succ, Nat.add_assoc]

/-- Between the two stores of the index. -/
theorem torn_frame (n : UInt16) (count : Nat) (s : State Unit)
    (carries : half (n + 16) 1 ≠ cells 2 (count + 1) 1) :
    ((frame n 14).foldl (VirtioRx.step 1514) (rested n count s)).availIdx.Torn := by
  have more : n + 1 - n = 1 := by rw [UInt16.add_comm, UInt16.add_sub_cancel]
  simpa [frame, List.replicate, VirtioRx.step, VirtioRx.look, Published.load, VirtioRx.fetch,
    Published.last, VirtioRx.fill, VirtioRx.bump, VirtioRx.runCore, State.goto, cells_half, more,
    pair_bytes, rested, Fill.elem, -UInt16.toNat_add, update_eq_const_of_subsingleton,
    Published.storeLow, Published.Torn, Cells.store] using carries

/-- The device looks while the 256th count is half stored. -/
def torn : List (Act Unit) := frames 239 ++ frame 239 14 ++ [Act.look]

theorem rx_exact_fails :
    ¬ Exact 1514 (stale.foldl (VirtioRx.step 1514) (State.boot (Fin 2))) ∧
      ¬ Exact 1514 (overtaken.foldl (VirtioRx.step 1514) (State.boot (Fin 2))) ∧
      ¬ Exact 1514 (torn.foldl (VirtioRx.step 1514) (State.boot Unit)) := by
  refine ⟨fun exact_ => ?_, fun exact_ => ?_, fun exact_ => ?_⟩
  · have passed : ¬ (stale.foldl (VirtioRx.step 1514) (State.boot (Fin 2))).claimed ≤
        (stale.foldl (VirtioRx.step 1514) (State.boot (Fin 2))).fills.length := by
      decide +kernel
    exact passed exact_.behind
  · have back : ¬ (0 :: (overtaken.foldl (VirtioRx.step 1514)
        (State.boot (Fin 2))).availIdx.counts).IsChain fun a b => a ≤ b ∧ b ≤ a + fwQsz := by
      decide +kernel
    exact back exact_.availIdx.forward
  · obtain ⟨s, before⟩ := rested_frames 239
    rw [torn, List.foldl_append, List.foldl_append, before] at exact_
    exact (torn_frame 239 255 s (by decide)).load exact_.availIdx

end Metal.Drivers.VirtioRx
