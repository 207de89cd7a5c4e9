import Metal.Lib.Threads
import Metal.Drivers.VirtioTx

namespace Metal.Drivers.VirtioTx

open Metal.Lib Function

variable {Core : Type} {qframe : UInt32} {s s' : State Core}

/-! ### What the invariant says of one core -/

variable {place : Nat}

theorem Pc.place_of_unwritten {pc : Pc} (writes : pc.unwritten = some place) :
    pc.place = some place := by
  cases pc with
  | store stage frame aidx place => exact writes
  | _ => cases writes

theorem halfway_of_unwritten {pc : Pc} (writes : pc.unwritten = some place) :
    pc.halfway = false := by
  cases pc with
  | store stage frame aidx place => rfl
  | _ => cases writes

theorem Inv.place_lt (inv : Inv qframe s) {core : Core} (claimed : (s.pc core).place = some place) :
    place < s.frames.length := by
  have knows := inv.knows core
  cases at_ : s.pc core with
  | store stage frame aidx mine =>
      rw [at_] at claimed knows
      cases claimed
      exact (List.getElem?_eq_some_iff.mp knows.2.1).1
  | publish frame aidx mine | publishHigh frame aidx mine | notify frame mine =>
      rw [at_] at claimed knows
      cases claimed
      exact (List.getElem?_eq_some_iff.mp knows.2).1
  | _ =>
      rw [at_] at claimed
      cases claimed

theorem Inv.not_returned (inv : Inv qframe s) {core : Core}
    (writes : (s.pc core).unwritten = some place) : place ∉ s.returned := by
  intro back
  have fetched := inv.returnedLt place back
  have hidden := inv.hidden core place writes
  have := inv.fetchedLe.trans inv.index.known_le
  omega

theorem Inv.slot_apart (inv : Inv qframe s) {core : Core} {other : Nat}
    (writes : (s.pc core).unwritten = some place) (claimed : other < s.frames.length)
    (out : other ∉ s.returned) (different : other ≠ place) : other % fwQsz ≠ place % fwQsz := by
  intro same
  have mine := inv.place_lt (Pc.place_of_unwritten writes)
  rcases Nat.lt_or_gt_of_ne different with older | newer
  · exact out (inv.reused other place older mine same)
  · exact inv.not_returned writes (inv.reused place other newer claimed same.symm)

theorem Knows.later {pc : Pc} (knows : Knows qframe s pc)
    (frames : ∀ (n : Nat) frame, s.frames[n]? = some frame → s'.frames[n]? = some frame)
    (shown : s.availIdx.count ≤ s'.availIdx.count)
    (slots : ∀ place, pc.unwritten = some place →
      s'.slots (place % fwQsz) = s.slots (place % fwQsz)) : Knows qframe s' pc := by
  cases pc with
  | store stage frame aidx place =>
      obtain ⟨count, filled, fits, done⟩ := knows
      refine ⟨count, frames _ _ filled, fits, ?_⟩
      rw [slots place rfl]
      exact done
  | publish frame aidx place => exact ⟨knows.1, frames _ _ knows.2⟩
  | publishHigh frame aidx place =>
      exact ⟨Nat.lt_of_lt_of_le knows.1 shown, frames _ _ knows.2⟩
  | notify frame place => exact ⟨Nat.lt_of_lt_of_le knows.1 shown, frames _ _ knows.2⟩
  | _ => exact knows

theorem Ready.congr (ready : Ready s place) (frames : s'.frames[place]? = s.frames[place]?)
    (slots : s'.slots (place % fwQsz) = s.slots (place % fwQsz)) : Ready s' place := by
  rw [Ready, frames, slots]
  exact ready

theorem Inv.boot : Inv qframe (State.boot Core qframe) where
  apart := nofun
  ready := nofun
  seen := rfl
  sent := nofun
  sentOnce := List.nodup_nil
  availIdx := (Published.Sound.start fwQsz 0).toForward
  whole torn := absurd rfl torn
  availLast := rfl
  index := .start fwQsz 0
  devNext := rfl
  fetchedLe := Nat.le_refl 0
  shownLe := Nat.le_refl 0
  reused := nofun
  returnedLt := nofun
  heldLt := nofun
  sizes _ := List.length_replicate
  written := nofun
  hidden := nofun
  knows _ := trivial
  onePlace := nofun
  unanswered := nofun
  answered := nofun

/-- The sixteenth place before one that is claimed was given back. -/
theorem Inv.near (inv : Inv qframe s) : s.frames.length ≤ s.fetched + fwQsz := by
  by_contra far
  have size : fwQsz = 16 := rfl
  have back := inv.reused (s.frames.length - 1 - fwQsz) (s.frames.length - 1) (by omega)
    (by omega) (by rw [size]; omega)
  have fetched := inv.returnedLt _ back
  omega

theorem Inv.look (inv : Inv qframe s) (whole : ¬ s.availIdx.Torn) : Inv qframe (look s) := by
  have near := inv.near
  have fetched := inv.fetchedLe
  have shown := inv.shownLe
  have index := inv.index.load whole (by omega)
  exact { inv with
    availIdx := index.toForward
    index := index
    fetchedLe := by
      rw [VirtioTx.look, Published.known_load]
      exact fetched.trans inv.index.known_le
    knows := fun core => (inv.knows core).later (fun _ _ same => same) (Nat.le_refl _)
      (fun _ _ => rfl) }

theorem Inv.fetch (inv : Inv qframe s) : Inv qframe (fetch s) := by
  unfold VirtioTx.fetch
  split
  · exact inv
  · rename_i more
    have ahead : s.fetched < s.availIdx.known := by
      refine Nat.lt_of_le_of_ne inv.fetchedLe fun same => more ?_
      rw [inv.devNext, inv.availIdx.last_eq, same]
    have shown := ahead.trans_le inv.index.known_le
    have out : s.fetched ∉ s.returned := fun back =>
      Nat.lt_irrefl _ (inv.returnedLt _ back)
    obtain ⟨avail, chain⟩ := inv.ready s.fetched shown out
    have index : s.devNext.toNat % fwQsz = s.fetched % fwQsz := by
      rw [inv.devNext, ofNat_mod (by decide)]
    have slot : (s.slots (s.devNext.toNat % fwQsz)).avail.half.toNat = s.fetched % fwQsz := by
      have small := Nat.mod_lt s.fetched (show fwQsz > 0 by decide)
      have bound : fwQsz = 16 := rfl
      rw [index, avail, UInt16.toNat_ofNat', Nat.mod_eq_of_lt (by omega)]
    exact { inv with
      devNext := by rw [inv.devNext, ofNat_succ]
      fetchedLe := ahead
      seen := by
        dsimp only
        rw [slot, inv.seen, List.take_add_one, List.map_append]
        rw [Option.map_eq_some_iff] at chain
        obtain ⟨frame, filled, same⟩ := chain
        rw [filled, ← same]
        rfl
      returnedLt := fun place back => Nat.lt_succ_of_lt (inv.returnedLt place back)
      heldLt := fun taken member => by
        rcases List.mem_append.mp member with old | new
        · exact Nat.lt_succ_of_lt (inv.heldLt taken old)
        · obtain rfl := List.mem_singleton.mp new
          exact Nat.lt_succ_self _
      knows := fun core => (inv.knows core).later (fun _ _ same => same) (Nat.le_refl _)
        (fun _ _ => rfl) }

theorem Inv.giveBack (inv : Inv qframe s) (taken : Taken) : Inv qframe (giveBack taken s) := by
  unfold VirtioTx.giveBack
  split
  · rename_i held
    have still (place : Nat) (back : place ∈ s.returned) :
        place ∈ s.returned ++ [taken.place] := List.mem_append_left _ back
    have before (place : Nat) (out : place ∉ s.returned ++ [taken.place]) :
        place ∉ s.returned := fun back => out (still place back)
    exact { inv with
      apart := fun core place writes other shown same =>
        still other (inv.apart core place writes other shown same)
      ready := fun place shown out => inv.ready place shown (before place out)
      reused := fun older newer less claimed same =>
        still older (inv.reused older newer less claimed same)
      returnedLt := fun place back => by
        rcases List.mem_append.mp back with old | new
        · exact inv.returnedLt place old
        · obtain rfl := List.mem_singleton.mp new
          exact inv.heldLt taken held
      heldLt := fun other member => inv.heldLt other (List.mem_of_mem_erase member)
      written := fun place claimed out => inv.written place claimed (before place out)
      knows := fun core => (inv.knows core).later (fun _ _ same => same) (Nat.le_refl _)
        (fun _ _ => rfl) }
  · exact inv

theorem Inv.reaped (inv : Inv qframe s) (used : UInt16) :
    Inv qframe { s with txLast := used } :=
  { inv with
    knows := fun core => (inv.knows core).later (fun _ _ same => same) (Nat.le_refl _)
      (fun _ _ => rfl) }

variable [DecidableEq Core] {core : Core} {pc old : Pc}

theorem Inv.goto (inv : Inv qframe s) (at_ : s.pc core = old) (place : pc.place = old.place)
    (unwritten : pc.unwritten = old.unwritten)
    (halfway : s.availIdx.Torn → old.halfway = true → pc.halfway = true) (knows : Knows qframe s pc) :
    Inv qframe (s.goto core pc) := by
  subst at_
  have place := update_same s.pc core pc Pc.place place
  have unwritten := update_same s.pc core pc Pc.unwritten unwritten
  exact { inv with
    apart := fun other place writes => inv.apart other place (unwritten other ▸ writes)
    whole := fun torn => exists_still Pc.halfway rfl (halfway torn) (inv.whole torn)
    written := fun place claimed out => (inv.written place claimed out).imp
      (fun ⟨other, writes⟩ => ⟨other, (unwritten other).trans writes⟩) (fun ready => ready)
    hidden := fun other place writes => inv.hidden other place (unwritten other ▸ writes)
    knows := update_all (Knows qframe s) inv.knows knows
    onePlace := fun one other n => by
      simpa only [State.goto, place] using inv.onePlace one other n
    unanswered := fun other n holds => inv.unanswered other n (place other ▸ holds) }

theorem Inv.answer (inv : Inv qframe s) (at_ : s.pc core = old)
    (unwritten : old.unwritten = none) (halfway : old.halfway = false) (call : Call)
    (place : call.place = old.place)
    (sent : call.result = 0 → ∃ place, call.place = some place ∧ place < s.availIdx.count ∧
      s.frames[place]? = some call.frame) : Inv qframe (s.answer core call) := by
  subst at_
  have unwritten := update_same s.pc core .away Pc.unwritten unwritten.symm
  have places : (s.calls ++ [call]).filterMap Call.place =
      s.calls.filterMap Call.place ++ call.place.toList := by
    rw [List.filterMap_append]
    cases same : call.place <;> simp [same]
  have answers (n : Nat) (member : n ∈ (s.calls ++ [call]).filterMap Call.place) :
      n ∈ s.calls.filterMap Call.place ∨ (s.pc core).place = some n := by
    rw [places, List.mem_append, Option.mem_toList] at member
    exact member.imp_right fun mine => place.symm.trans mine
  exact { inv with
    apart := fun other n writes => inv.apart other n (unwritten other ▸ writes)
    sent := fun other member => by
      rcases List.mem_append.mp member with before | new
      · exact inv.sent other before
      · obtain rfl := List.mem_singleton.mp new
        exact sent
    sentOnce := by
      dsimp only [State.answer]
      rw [places, List.nodup_append]
      refine ⟨inv.sentOnce, ?_, fun n before m mine => ?_⟩
      · cases call.place with
        | none => exact List.nodup_nil
        | some n => exact List.nodup_singleton n
      · rintro rfl
        exact inv.unanswered core n (place.symm.trans (Option.mem_toList.mp mine)) before
    whole := fun torn => exists_still Pc.halfway rfl
      (fun half => nomatch halfway.symm.trans half) (inv.whole torn)
    written := fun n claimed out => (inv.written n claimed out).imp
      (fun ⟨other, writes⟩ => ⟨other, (unwritten other).trans writes⟩) (fun ready => ready)
    hidden := fun other n writes => inv.hidden other n (unwritten other ▸ writes)
    knows := update_all (Knows qframe s) inv.knows trivial
    onePlace := update_single Pc.place inv.onePlace nofun
    unanswered := fun other n holds already => by
      by_cases here : other = core
      · simp [State.answer, here, Pc.place] at holds
      · have holds : (s.pc other).place = some n := by
          simpa [State.answer, update_of_ne here] using holds
        rcases answers n already with before | mine
        · exact inv.unanswered other n holds before
        · exact here (inv.onePlace other core n holds mine)
    answered := fun n already => by
      rcases answers n already with before | mine
      · exact inv.answered n before
      · exact inv.place_lt mine }

variable {aidx : UInt16}

theorem Inv.claim (inv : Inv qframe s) {frame : Frame} (at_ : s.pc core = .claim frame aidx)
    (fresh : s.availLast = aidx)
    (free : ∀ place < s.frames.length, place % fwQsz = aidx.toNat % fwQsz →
      place ∈ s.returned) (after : s' = { s with
      pc := update s.pc core (.store .header frame aidx s.frames.length)
      availLast := aidx + 1
      frames := s.frames ++ [frame] }) : Inv qframe s' := by
  have count : aidx = UInt16.ofNat s.frames.length := fresh ▸ inv.availLast
  have fits : frame.bytes.length ≤ qframe.toNat := by
    have knows := inv.knows core
    rw [at_] at knows
    exact knows
  have free (place : Nat) (claimed : place < s.frames.length)
      (same : place % fwQsz = s.frames.length % fwQsz) : place ∈ s.returned := by
    refine free place claimed ?_
    rw [count, ofNat_mod (by decide), same]
  have unwritten := exists_gains s.pc core (.store .header frame aidx s.frames.length)
    Pc.unwritten (by rw [at_]; rfl)
  have kept (n : Nat) (claimed : n < s.frames.length) :
      (s.frames ++ [frame])[n]? = s.frames[n]? := List.getElem?_append_left claimed
  have keptSome (n : Nat) (other : Frame) (filled : s.frames[n]? = some other) :
      (s.frames ++ [frame])[n]? = some other :=
    (kept n (List.getElem?_eq_some_iff.mp filled).1).trans filled
  have ready (place : Nat) (claimed : place < s.frames.length) (ready : Ready s place) :
      Ready s' place := by
    subst after
    exact ready.congr (kept place claimed) rfl
  have known : ∀ other, Knows qframe s' (update s.pc core
      (.store .header frame aidx s.frames.length) other) := by
    subst after
    refine update_all (Knows qframe _) (fun other => ?_) ?_
    · exact (inv.knows other).later keptSome (Nat.le_refl _) (fun _ _ => rfl)
    · exact ⟨count, List.getElem?_concat_length, fits, trivial⟩
  subst after
  exact { inv with
    apart := update_all (fun pc : Pc => ∀ place, pc.unwritten = some place →
        ∀ other < s.availIdx.count, other % fwQsz = place % fwQsz → other ∈ s.returned)
      inv.apart fun place writes other shown same => by
        cases writes
        exact free other (Nat.lt_of_lt_of_le shown inv.shownLe) same
    ready := fun place shown out =>
      ready place (Nat.lt_of_lt_of_le shown inv.shownLe) (inv.ready place shown out)
    seen := by
      dsimp only
      rw [List.take_append_of_le_length ((inv.fetchedLe.trans inv.index.known_le).trans inv.shownLe)]
      exact inv.seen
    sent := fun call member zero => by
      obtain ⟨place, claimed, shown, filled⟩ := inv.sent call member zero
      exact ⟨place, claimed, shown, keptSome _ _ filled⟩
    availLast := by rw [List.length_append, List.length_singleton, ofNat_succ, count]
    shownLe := by
      rw [List.length_append]
      exact Nat.le_trans inv.shownLe (Nat.le_add_right ..)
    reused := fun older newer less claimed same => by
      rw [List.length_append, List.length_singleton] at claimed
      rcases Nat.lt_succ_iff_lt_or_eq.mp claimed with before | rfl
      · exact inv.reused older newer less before same
      · exact free older less same
    whole := fun torn => exists_still Pc.halfway at_ nofun (inv.whole torn)
    written := fun place claimed out => by
      rw [List.length_append, List.length_singleton] at claimed
      rw [unwritten]
      rcases Nat.lt_succ_iff_lt_or_eq.mp claimed with before | rfl
      · exact (inv.written place before out).imp .inr (ready place before)
      · exact .inl (.inl rfl)
    hidden := update_all (fun pc : Pc => ∀ place, pc.unwritten = some place →
        s.availIdx.count ≤ place) inv.hidden fun place writes => by
      cases writes
      exact inv.shownLe
    knows := known
    onePlace := update_single Pc.place inv.onePlace fun place mine other holds => by
      cases mine
      exact absurd (inv.place_lt holds) (Nat.lt_irrefl _)
    unanswered := update_all (fun pc : Pc => ∀ place, pc.place = some place →
        place ∉ s.calls.filterMap Call.place) inv.unanswered fun place mine already => by
      cases mine
      exact Nat.lt_irrefl _ (inv.answered _ already)
    answered := fun place already => by
      rw [List.length_append]
      exact Nat.lt_of_lt_of_le (inv.answered place already) (Nat.le_add_right ..) }

variable {slot : Slot}

theorem Inv.write (inv : Inv qframe s) (writes : (s.pc core).unwritten = some place)
    (claimed : pc.place = some place) (after : s' = { s with
      pc := update s.pc core pc
      slots := update s.slots (place % fwQsz) slot })
    (goes : pc.unwritten = some place ∨ pc.unwritten = none ∧ Ready s' place)
    (size : slot.buf.length = vnetHdr + qframe.toNat) (knows : Knows qframe s' pc) :
    Inv qframe s' := by
  have mine := Pc.place_of_unwritten writes
  have same (n : Nat) (has : pc.unwritten = some n) : n = place := by
    rcases goes with still | ⟨done, _⟩
    · exact Option.some.inj (has.symm.trans still)
    · rw [done] at has
      cases has
  have kept (other : Nat) (claimed : other < s.frames.length) (out : other ∉ s.returned)
      (different : other ≠ place) :
      update s.slots (place % fwQsz) slot (other % fwQsz) =
        s.slots (other % fwQsz) :=
    update_of_ne (inv.slot_apart writes claimed out different) ..
  have ready (other : Nat) (claimed : other < s.frames.length) (out : other ∉ s.returned)
      (different : other ≠ place) (ready : Ready s other) : Ready s' other := by
    subst after
    exact ready.congr rfl (kept other claimed out different)
  have known : ∀ other, Knows qframe s' (update s.pc core pc other) := by
    refine update_others (Knows qframe s') (fun other apart => ?_) knows
    subst after
    refine (inv.knows other).later (fun _ _ same => same) (Nat.le_refl _) fun n has => ?_
    have holds := Pc.place_of_unwritten has
    refine kept n (inv.place_lt holds) (inv.not_returned has) fun here => apart ?_
    exact inv.onePlace other core n holds (here ▸ mine)
  subst after
  exact { inv with
    apart := update_all (fun pc : Pc => ∀ place, pc.unwritten = some place →
        ∀ other < s.availIdx.count, other % fwQsz = place % fwQsz → other ∈ s.returned)
      inv.apart fun n has => by
        rw [same n has]
        exact inv.apart core place writes
    ready := fun other shown out => by
      have different : other ≠ place := fun here =>
        Nat.not_le_of_lt shown (here ▸ inv.hidden core place writes)
      exact ready other (Nat.lt_of_lt_of_le shown inv.shownLe) out different
        (inv.ready other shown out)
    sizes := fun n => by
      by_cases here : n = place % fwQsz
      · simp [here, size]
      · simp [update_of_ne here, inv.sizes n]
    whole := fun torn => exists_still Pc.halfway rfl
      (fun half => nomatch (halfway_of_unwritten writes).symm.trans half) (inv.whole torn)
    written := fun n claimed out => by
      by_cases here : n = place
      · subst here
        exact goes.imp (fun still => ⟨core, by simp [still]⟩) And.right
      · refine (inv.written n claimed out).imp (fun ⟨other, has⟩ => ⟨other, ?_⟩)
          (ready n claimed out here)
        have apart : other ≠ core := by
          rintro rfl
          exact here (Option.some.inj (has.symm.trans writes))
        simp [update_of_ne apart, has]
    hidden := update_all (fun pc : Pc => ∀ place, pc.unwritten = some place →
        s.availIdx.count ≤ place) inv.hidden fun n has => by
      rw [same n has]
      exact inv.hidden core place writes
    knows := known
    onePlace := update_single Pc.place inv.onePlace fun n has other holds => by
      rw [claimed] at has
      cases has
      exact inv.onePlace other core place holds mine
    unanswered := update_all (fun pc : Pc => ∀ place, pc.place = some place →
        place ∉ s.calls.filterMap Call.place) inv.unanswered fun n has => by
      rw [claimed] at has
      cases has
      exact inv.unanswered core place mine }

theorem Inv.publish (inv : Inv qframe s) {frame : Frame}
    (at_ : s.pc core = .publish frame aidx place) (forward : s.availIdx.count ≤ place + 1)
    (inOrder : ∀ other n, (s.pc other).unwritten = some n → place < n) (after : s' = { s with
      pc := update s.pc core (.publishHigh frame aidx place)
      availIdx := s.availIdx.storeLow (aidx + 1) (place + 1) }) : Inv qframe s' := by
  obtain ⟨rfl, filled⟩ : aidx = UInt16.ofNat place ∧ s.frames[place]? = some frame := by
    simpa [at_, Knows] using inv.knows core
  have claimed : place < s.frames.length := (List.getElem?_eq_some_iff.mp filled).1
  have unwritten := update_same s.pc core (.publishHigh frame (.ofNat place) place)
    Pc.unwritten (by rw [at_]; rfl)
  have places := update_same s.pc core (.publishHigh frame (.ofNat place) place) Pc.place
    (by rw [at_]; rfl)
  have index := inv.index.storeLow forward
  rw [ofNat_succ] at index
  have known : ∀ other, Knows qframe s'
      (update s.pc core (.publishHigh frame (.ofNat place) place) other) := by
    subst after
    refine update_all (Knows qframe _) (fun other => ?_) ⟨Nat.lt_succ_self _, filled⟩
    exact (inv.knows other).later (fun _ _ same => same) forward (fun _ _ => rfl)
  have ready (n : Nat) (shown : n ≤ place) (out : n ∉ s.returned) : Ready s' n := by
    rcases inv.written n (Nat.lt_of_le_of_lt shown claimed) out with ⟨writer, writes⟩ | ready
    · exact absurd shown (Nat.not_le_of_lt (inOrder writer n writes))
    · subst after
      exact ready
  subst after
  exact { inv with
    apart := fun other n writes k shown same => by
      have writes := (unwritten other).symm.trans writes
      refine inv.reused k n ?_ (inv.place_lt (Pc.place_of_unwritten writes)) same
      exact Nat.lt_of_le_of_lt (Nat.le_of_lt_succ shown) (inOrder other n writes)
    ready := fun n shown out => ready n (Nat.le_of_lt_succ shown) out
    sent := fun call member zero => by
      obtain ⟨n, mine, shown, sent⟩ := inv.sent call member zero
      exact ⟨n, mine, Nat.lt_of_lt_of_le shown forward, sent⟩
    availIdx := index.toForward
    index := index
    whole := fun _ => ⟨core, congrArg Pc.halfway (update_self core _ s.pc)⟩
    fetchedLe := inv.fetchedLe
    shownLe := claimed
    written := fun n claimed out => (inv.written n claimed out).imp
      (fun ⟨other, writes⟩ => ⟨other, (unwritten other).trans writes⟩) (fun ready => ready)
    hidden := fun other n writes =>
      inOrder other n ((unwritten other).symm.trans writes)
    knows := known
    onePlace := fun one other n => by simpa only [places] using inv.onePlace one other n
    unanswered := fun other n holds =>
      inv.unanswered other n ((places other).symm.trans holds) }

theorem Inv.publishHigh (inv : Inv qframe s) {frame : Frame}
    (at_ : s.pc core = .publishHigh frame aidx place) (fits : s.availIdx.Fits (aidx + 1))
    (after : s' = { s with
      pc := update s.pc core (.notify frame place)
      availIdx := s.availIdx.storeHigh (aidx + 1) }) : Inv qframe s' := by
  have knows := inv.knows core
  rw [at_] at knows
  have sound := inv.index.storeHigh (aidx + 1)
  have stored : Inv qframe { s with availIdx := s.availIdx.storeHigh (aidx + 1) } :=
    { inv with
      availIdx := sound.toForward
      index := sound
      whole := fun torn => absurd torn fits.whole
      knows := fun other => (inv.knows other).later (fun _ _ same => same) (Nat.le_refl _)
        (fun _ _ => rfl) }
  subst after
  exact stored.goto at_ rfl rfl (fun torn => absurd torn fits.whole) knows

theorem done_body (frame : Frame) (id : UInt16) (slot : Slot) :
    Stage.body.Done frame id (Stage.header.store frame id slot) := by
  have wrote := take_writeAt (List.replicate vnetHdr 0) (Nat.zero_le slot.buf.length)
  rw [List.length_replicate, Nat.zero_add] at wrote
  exact wrote

theorem done_len {frame : Frame} (id : UInt16) (done : Stage.body.Done frame id slot)
    (room : vnetHdr ≤ slot.buf.length) :
    (Stage.len 0).Done frame id (Stage.body.store frame id slot) := by
  have wrote := take_writeAt frame.bytes room
  rw [show slot.buf.take vnetHdr = List.replicate vnetHdr 0 from done] at wrote
  exact ⟨wrote, .zero _ _⟩

theorem done_flags {frame : Frame} {id : UInt16}
    (done : slot.buf.take (vnetHdr + frame.bytes.length) = frame.chain.bytes)
    (begins : slot.len.Begins (vnetHdr + frame.bytes.length) 4) :
    (Stage.flags 0).Done frame id slot := by
  have small := frame.small
  have header : vnetHdr = 12 := rfl
  refine ⟨?_, .zero _ _⟩
  rw [begins.whole, nat_cells, Nat.mod_eq_of_lt (by omega), done]

theorem done_avail {frame : Frame} {id : UInt16}
    (done : slot.buf.take slot.len.nat = frame.chain.bytes) (begins : slot.flags.Begins 0 2) :
    (Stage.avail 0).Done frame id slot := by
  refine ⟨?_, .zero _ _⟩
  rw [Slot.chain, done, begins.whole, cells_half]
  rfl

theorem Stage.length_store {frame : Frame} (id : UInt16) {stage : Stage}
    (room : vnetHdr + frame.bytes.length ≤ slot.buf.length) :
    (stage.store frame id slot).buf.length = slot.buf.length := by
  cases stage with
  | header =>
      refine length_writeAt ?_
      rw [List.length_replicate]
      omega
  | body => exact length_writeAt room
  | _ => rfl

theorem Inv.store (inv : Inv qframe s) {stage : Stage} {frame : Frame}
    (at_ : s.pc core = .store stage frame aidx place) (after : s' = { s with
      pc := update s.pc core (stage.next frame aidx place)
      slots := update s.slots (aidx.toNat % fwQsz)
        (stage.store frame (UInt16.ofNat (aidx.toNat % fwQsz))
          (s.slots (aidx.toNat % fwQsz))) }) : Inv qframe s' := by
  obtain ⟨rfl, filled, fits, done⟩ : aidx = UInt16.ofNat place ∧
      s.frames[place]? = some frame ∧ frame.bytes.length ≤ qframe.toNat ∧
      stage.Done frame (UInt16.ofNat (place % fwQsz)) (s.slots (place % fwQsz)) := by
    simpa [at_, Knows] using inv.knows core
  rw [ofNat_mod (by decide)] at after
  have writes : (s.pc core).unwritten = some place := by rw [at_]; rfl
  have size := inv.sizes (place % fwQsz)
  have room : vnetHdr + frame.bytes.length ≤ (s.slots (place % fwQsz)).buf.length := by
    omega
  have size : (stage.store frame (UInt16.ofNat (place % fwQsz))
      (s.slots (place % fwQsz))).buf.length = vnetHdr + qframe.toNat :=
    (Stage.length_store _ room).trans size
  have slot : s'.slots (place % fwQsz) = stage.store frame (UInt16.ofNat (place % fwQsz))
      (s.slots (place % fwQsz)) := by
    rw [after]
    exact update_self ..
  have frames : s'.frames = s.frames := by rw [after]
  have knows (next : Stage) (done : next.Done frame (UInt16.ofNat (place % fwQsz))
      (stage.store frame (UInt16.ofNat (place % fwQsz)) (s.slots (place % fwQsz)))) :
      Knows qframe s' (.store next frame (UInt16.ofNat place) place) :=
    ⟨rfl, frames ▸ filled, fits, slot ▸ done⟩
  cases stage with
  | header =>
      exact inv.write writes rfl after (.inl rfl) size (knows .body (done_body ..))
  | body =>
      exact inv.write writes rfl after (.inl rfl) size
        (knows (.len 0) (done_len _ done (by omega)))
  | len k =>
      obtain ⟨taken, begins⟩ := done
      have begins := begins.store
      by_cases more : k.val + 1 < 4
      · rw [Stage.next, dif_pos more] at after
        exact inv.write writes rfl after (.inl rfl) size (knows (.len _) ⟨taken, begins⟩)
      · have last : k.val + 1 = 4 := by omega
        rw [last] at begins
        rw [Stage.next, dif_neg more] at after
        exact inv.write writes rfl after (.inl rfl) size
          (knows (.flags 0) (done_flags taken begins))
  | flags k =>
      obtain ⟨taken, begins⟩ := done
      have begins := begins.store
      by_cases more : k.val + 1 < 2
      · rw [Stage.next, dif_pos more] at after
        exact inv.write writes rfl after (.inl rfl) size (knows (.flags _) ⟨taken, begins⟩)
      · have last : k.val + 1 = 2 := by omega
        rw [last] at begins
        rw [Stage.next, dif_neg more] at after
        exact inv.write writes rfl after (.inl rfl) size
          (knows (.avail 0) (done_avail taken begins))
  | avail k =>
      obtain ⟨chain, begins⟩ := done
      have begins := begins.store
      by_cases more : k.val + 1 < 2
      · rw [Stage.next, dif_pos more] at after
        exact inv.write writes rfl after (.inl rfl) size (knows (.avail _) ⟨chain, begins⟩)
      · have last : k.val + 1 = 2 := by omega
        rw [Stage.next, dif_neg more] at after
        have ready : Ready s' place := by
          rw [Ready, slot, frames, filled]
          refine ⟨?_, congrArg some chain.symm⟩
          rw [last] at begins
          exact (congrArg Cells.half begins.whole).trans (half_cells _)
        exact inv.write writes rfl after (.inr ⟨rfl, ready⟩) size ⟨rfl, frames ▸ filled⟩

theorem Inv.call (inv : Inv qframe s) (core : Core) (frame : Frame) :
    Inv qframe (call qframe core frame s) := by
  unfold VirtioTx.call
  split
  · rename_i away
    split
    · exact inv.answer away rfl rfl _ rfl nofun
    · rename_i taken
      refine inv.goto away rfl rfl nofun ?_
      have small := frame.small
      have whole : frame.len.toUInt32.toNat = frame.bytes.length := by
        rw [Frame.len, UInt16.toNat_toUInt32, UInt16.toNat_ofNat', Nat.mod_eq_of_lt small]
      have fits : ¬ frame.len.toUInt32 > qframe := fun beyond => taken (.inr beyond)
      rw [gt_iff_lt, UInt32.lt_iff_toNat_lt, whole] at fits
      exact Nat.le_of_not_lt fits
  · exact inv

theorem Inv.runCore (inv : Inv qframe s) (core : Core) (spurious : Bool)
    (keeps : Keeps s (.run core spurious)) : Inv qframe (runCore core spurious s) := by
  have knows := inv.knows core
  unfold VirtioTx.runCore
  unfold Keeps at keeps
  cases at_ : s.pc core with
  | away => exact inv
  | load frame spins | reap frame spins aidx | reapHigh frame spins aidx low =>
      rw [at_] at knows
      exact inv.goto at_ rfl rfl nofun knows
  | reaped frame spins aidx used =>
      rw [at_] at knows
      have there : Inv qframe (s.goto core (.check frame spins aidx)) :=
        inv.goto at_ rfl rfl nofun knows
      exact there.reaped used
  | check frame spins aidx =>
      rw [at_] at knows
      dsimp only
      split
      · exact inv.goto at_ rfl rfl nofun knows
      · split
        · exact inv.answer at_ rfl rfl _ rfl nofun
        · exact inv.goto at_ rfl rfl nofun knows
  | claim frame aidx =>
      dsimp only
      split
      · rename_i taken
        simp only [at_] at keeps
        exact inv.claim at_ taken.1 (keeps taken.1 (by simpa using taken.2)) rfl
      · rw [at_] at knows
        exact inv.goto at_ rfl rfl nofun knows
  | store stage frame aidx place => exact inv.store at_ rfl
  | publish frame aidx place =>
      simp only [at_] at keeps
      exact inv.publish at_ keeps.1 keeps.2 rfl
  | publishHigh frame aidx place =>
      simp only [at_] at keeps
      exact inv.publishHigh at_ keeps rfl
  | notify frame place =>
      rw [at_] at knows
      exact inv.answer at_ rfl rfl _ rfl fun _ => ⟨place, rfl, knows⟩

theorem Inv.step (inv : Inv qframe s) (act : Act Core) (keeps : Keeps s act) :
    Inv qframe (step qframe s act) := by
  cases act with
  | call core frame => exact inv.call core frame
  | run core spurious => exact inv.runCore core spurious keeps
  | look => exact inv.look keeps
  | fetch => exact inv.fetch
  | giveBack taken => exact inv.giveBack taken

/-- However the cores and the device take turns. -/
theorem exclusive_of_keeps (qframe : UInt32) (acts : List (Act Core))
    (along : Along (step qframe) Keeps (State.boot Core qframe) acts) :
    Exclusive (acts.foldl (VirtioTx.step qframe) (State.boot Core qframe)) := by
  have inv := Along.invariant (fun s act (inv : Inv qframe s) keeps => inv.step act keeps)
    Inv.boot along
  exact inv.toExclusive

def turns (core : Fin 2) (count : Nat) : List (Act (Fin 2)) :=
  List.replicate count (.run core false)

def letter (byte : UInt8) : Frame := ⟨[byte], by simp⟩

/-- Six accesses up to the claim, ten stores, the two of the index and the return. -/
def send (core : Fin 2) (byte : UInt8) : List (Act (Fin 2)) :=
  .call core (letter byte) :: turns core 19

def oneFrame : List (Act (Fin 2)) := send 0 7 ++ [Act.look, .fetch]

theorem exclusive_of_keeps_send :
    Exclusive (oneFrame.foldl (VirtioTx.step 1514) (State.boot (Fin 2) 1514)) := by
  refine exclusive_of_keeps 1514 oneFrame ?_
  refine ⟨trivial, trivial, trivial, trivial, trivial, trivial, ?_, trivial, trivial, trivial,
    trivial, trivial, trivial, trivial, trivial, trivial, trivial, ?_, rfl, trivial,
    fun torn => torn rfl, trivial, trivial⟩
  · exact fun _ _ place claimed => absurd claimed (Nat.not_lt_zero place)
  · exact ⟨by decide, Fin.forall_fin_two.mpr ⟨nofun, nofun⟩⟩

/-- Sixteen frames are out, and the device gives the last one back first. -/
def outOfOrder : List (Act (Fin 2)) :=
  ((List.range 16).map fun n => send 0 (UInt8.ofNat n)).flatten ++ [Act.look] ++
    List.replicate 16 Act.fetch ++ [Act.giveBack ⟨15, 15⟩, .call 1 (letter 99)] ++ turns 1 6

def overtaken : List (Act (Fin 2)) :=
  Act.call 0 (letter 1) :: turns 0 6 ++ send 1 2 ++ [Act.look] ++ turns 0 12 ++ [Act.look]

/-- The state `s` of one core that is away after `n` frames, in the fields that its next
frame depends on. -/
def rested (n : UInt16) (count : Nat) (s : State Unit) : State Unit :=
  { s with
    availLast := n
    availIdx := { s.availIdx with word := half n, count := count }
    usedIdx := n
    devNext := n
    held := []
    pc _ := .away
    frames := List.replicate count (letter 7)
    fetched := count }

/-- One frame up to `count` accesses of the core. -/
def frame (count : Nat) : List (Act Unit) :=
  .call () (letter 7) :: List.replicate count (.run () false)

def back (n : Nat) : List (Act Unit) :=
  [.look, .fetch, .giveBack ⟨n, .ofNat ((UInt16.ofNat n).toNat % fwQsz)⟩]

theorem rested_frame (n : Nat) (s : State Unit) :
    ∃ s', (frame 19 ++ back n).foldl (VirtioTx.step 1514) (rested (.ofNat n) n s) =
      rested (.ofNat n + 1) (n + 1) s' := by
  have room : (0 : UInt16) < .ofNat fwQsz := by decide
  have len : (letter 7).len = 1 := rfl
  have id (value : Nat) : cells 2 (value % 65536) = cells 2 value := cells_mod 2 value
  obtain ⟨s', after⟩ : ∃ s', (frame 19 ++ back n).foldl (VirtioTx.step 1514)
      (rested (.ofNat n) n s) = s' := ⟨_, rfl⟩
  refine ⟨s', after.trans ?_⟩
  simp [frame, back, List.replicate, VirtioTx.step, VirtioTx.call, VirtioTx.look,
    Published.load, VirtioTx.fetch, Published.last, VirtioTx.giveBack, VirtioTx.runCore,
    State.goto, State.answer, Stage.next, Stage.store, cells_half, pair_bytes, store_both,
    Published.store_whole, rested, len, room, id,
    update_eq_const_of_subsingleton] at after
  subst after
  simp [rested, List.replicate_succ']
  rfl

def sends (n : Nat) : List (Act Unit) :=
  (List.range n).flatMap fun k => frame 19 ++ back k

theorem rested_sends (n : Nat) :
    ∃ s, (sends n).foldl (VirtioTx.step 1514) (State.boot Unit 1514) =
      rested (.ofNat n) n s := by
  induction n with
  | zero => exact ⟨State.boot Unit 1514, rfl⟩
  | succ n ih =>
      obtain ⟨s, before⟩ := ih
      obtain ⟨s', after⟩ := rested_frame n s
      refine ⟨s', ?_⟩
      rw [sends, List.range_succ, List.flatMap_append, List.flatMap_singleton,
        List.foldl_append, ← sends, before, after, ofNat_succ]

/-- Between the two stores of the index. -/
theorem torn_frame (n : UInt16) (count : Nat) (s : State Unit)
    (carries : half n 1 ≠ cells 2 (count + 1) 1) :
    ((frame 17).foldl (VirtioTx.step 1514) (rested n count s)).availIdx.Torn := by
  have room : (0 : UInt16) < .ofNat fwQsz := by decide
  have len : (letter 7).len = 1 := rfl
  simpa [frame, List.replicate, VirtioTx.step, VirtioTx.call, VirtioTx.runCore, State.goto,
    Stage.next, Stage.store, pair_bytes, rested, len, room, Published.storeLow, Published.Torn,
    Cells.store, update_eq_const_of_subsingleton] using carries

/-- The device looks while the 256th count is half stored. -/
def torn : List (Act Unit) := sends 255 ++ frame 17 ++ [Act.look]

theorem exclusive_fails :
    ¬ Exclusive (outOfOrder.foldl (VirtioTx.step 1514) (State.boot (Fin 2) 1514)) ∧
      ¬ Exclusive (overtaken.foldl (VirtioTx.step 1514) (State.boot (Fin 2) 1514)) ∧
      ¬ Exclusive (torn.foldl (VirtioTx.step 1514) (State.boot Unit 1514)) := by
  refine ⟨fun exclusive => ?_, fun exclusive => ?_, fun exclusive => ?_⟩
  · have writes : ((outOfOrder.foldl (VirtioTx.step 1514)
        (State.boot (Fin 2) 1514)).pc 1).unwritten = some 16 := by
      decide +kernel
    have shown : 0 < (outOfOrder.foldl (VirtioTx.step 1514)
        (State.boot (Fin 2) 1514)).availIdx.count := by
      decide +kernel
    have out : 0 ∉ (outOfOrder.foldl (VirtioTx.step 1514)
        (State.boot (Fin 2) 1514)).returned := by
      decide +kernel
    exact out (exclusive.apart 1 16 writes 0 shown rfl)
  · have back : ¬ (0 :: (overtaken.foldl (VirtioTx.step 1514)
        (State.boot (Fin 2) 1514)).availIdx.counts).IsChain fun a b =>
          a ≤ b ∧ b ≤ a + fwQsz := by
      decide +kernel
    exact back exclusive.availIdx.forward
  · obtain ⟨s, before⟩ := rested_sends 255
    rw [torn, List.foldl_append, List.foldl_append, before] at exclusive
    exact (torn_frame 255 255 s (by decide)).load exclusive.availIdx

end Metal.Drivers.VirtioTx
