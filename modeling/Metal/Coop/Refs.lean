import Metal.Coop.Fifo

namespace Metal.Coop

open Metal.Lib Function

/-! Who holds the refs of a task.  A ref belongs to a ring slot, to a timer, to
the FIFO, or to a runner between two of these; `extra` counts those that belong
to the FIFO and those that nobody will drop. -/

variable {N : Nat} {setup : Setup N}

/-! The ref word: a count below the dead bit. -/

def refCount (word : RefWord) : Nat := (word &&& taskRefMask).toNat

def refDead (word : RefWord) : Bool := word &&& taskDeadBit ≠ 0

theorem refCount_eq (word : RefWord) : refCount word = word.toNat % 2 ^ 31 := by
  rw [refCount, BitVec.toNat_and]
  exact Nat.and_two_pow_sub_one_eq_mod word.toNat 31

theorem refDead_eq (word : RefWord) :
    refDead word = decide (2 ^ 31 ≤ word.toNat) := by
  have top : taskDeadBit = BitVec.twoPow 32 31 := by decide
  have high : word.getLsbD 31 = decide (2 ^ 31 ≤ word.toNat) := by
    rw [show 31 = 32 - 1 from rfl, ← BitVec.msb_eq_decide,
      BitVec.msb_eq_getLsbD_last]
  rw [refDead, top, BitVec.and_twoPow, ← high]
  cases word.getLsbD 31 <;> decide

variable {word : RefWord}

theorem refCount_add (small : refCount word + 1 < 2 ^ 31) :
    refCount (word + 1) = refCount word + 1 := by
  rw [refCount_eq] at small ⊢
  rw [refCount_eq, BitVec.toNat_add]
  change (word.toNat + 1) % 2 ^ 32 % 2 ^ 31 = _
  omega

theorem refCount_sub (held : 0 < refCount word) : refCount (word - 1) + 1 = refCount word := by
  have bound := word.isLt
  rw [refCount_eq] at held ⊢
  rw [refCount_eq, BitVec.toNat_sub]
  change (2 ^ 32 - 1 + word.toNat) % 2 ^ 32 % 2 ^ 31 + 1 = _
  omega

theorem refDead_sub (held : 0 < refCount word) : refDead (word - 1) = refDead word := by
  have bound := word.isLt
  rw [refCount_eq] at held
  rw [refDead_eq, refDead_eq, BitVec.toNat_sub]
  change decide (_ ≤ (2 ^ 32 - 1 + word.toNat) % 2 ^ 32) = _
  congr 1
  apply propext
  omega

@[simp] theorem refCount_or (word : RefWord) :
    refCount (word ||| taskDeadBit) = refCount word := by
  have apart : taskDeadBit &&& taskRefMask = 0 := by decide
  rw [refCount, BitVec.and_or_distrib_right, apart]
  exact congrArg BitVec.toNat BitVec.or_zero

@[simp] theorem refDead_or (word : RefWord) :
    refDead (word ||| taskDeadBit) = true := by
  have least := @Nat.right_le_or word.toNat taskDeadBit.toNat
  rw [← BitVec.toNat_or] at least
  rw [refDead_eq, decide_eq_true_iff]
  exact least

theorem lastRef_eq (was : RefWord) :
    lastRef was = decide (refCount was = 1 ∧ refDead was = true) := by
  have count : was &&& taskRefMask = 1#32 ↔ refCount was = 1 :=
    BitVec.toNat_inj.symm
  simp [lastRef, refDead, count]

theorem unheld_eq (prev : RefWord) :
    unheld prev = decide (refCount prev = 0 ∧ refDead prev = false) := by
  have count : prev &&& taskRefMask = 0#32 ↔ refCount prev = 0 :=
    BitVec.toNat_inj.symm
  simp [unheld, refDead, count]

def slotOf (t : TaskPtr) (word : Word) : Nat :=
  (decide (word ≠ ringStEmpty ∧ wordTask word = t)).toNat

/-- The ring slots, READY or CLAIMED, that hold `t`. -/
def Memory.slots (n : Nat) (m : Memory N) (t : TaskPtr) : Nat :=
  tally (Finset.range n) (slotOf t) m.inbox.slot

def armed (t : TaskPtr) (timers : List Timer) : Nat :=
  timers.countP fun tm => tm.task == t

def Section.owns (t : TaskPtr) (entry : Section) : Bool :=
  entry.owned == some t

def extraAfter : (o : Op) → o.Ret → (TaskPtr → Nat) → TaskPtr → Nat
  | .park _ holder, claimed, extra =>
      if claimed = some true then extra
      else update extra holder (extra holder + 1)
  | .handOver _, woken, extra =>
      match woken with
      | none => extra
      | some wake => update extra wake (extra wake - 1)
  | .mark (.leak t), _, extra => update extra t (extra t + 1)
  | _, _, extra => extra

def wokenBy : (o : Op) → o.Ret → Option TaskPtr
  | .handOver _, woken => woken
  | _, _ => none

def fits : Op → World N → Bool
  | .addRef t, w => refCount (w.mem.tasks t).ringRefs + 1 < 2 ^ 31
  | _, _ => true

structure Counted (n : Nat) (extra : TaskPtr → Nat) (w : World N) : Prop where
  counts : ∀ t, refCount (w.mem.tasks t).ringRefs =
    w.mem.slots n t + armed t w.mem.timers + extra t +
      w.tally (Section.owns t)
  unborn : ∀ t, (w.mem.tasks t).born = false → (w.mem.tasks t).ringRefs = 0

theorem blind_owns (t : TaskPtr) : Blind (Section.owns t) :=
  ⟨fun _ _ _ => rfl, fun _ _ _ => rfl, fun _ _ _ => rfl⟩

theorem kind_of_owns (t : TaskPtr) (entry : Section)
    (owns : entry.owns t = true) : entry.kind = .word :=
  Section.kind_of_owned (by simpa [Section.owns] using owns)

theorem armed_timerInsert (t : TaskPtr) (tm : Timer) (timers : List Timer) :
    armed t (timerInsert tm timers) =
      armed t timers + (if tm.task = t then 1 else 0) := by
  induction timers with
  | nil => simp [timerInsert, armed, List.countP_cons]
  | cons first rest ih =>
      unfold armed at ih ⊢
      simp only [timerInsert]
      split
      · simp only [List.countP_cons, ih]
        omega
      · simp [List.countP_cons]

section Kept

variable {n : Nat} {r : Fin N} {o : Op} {choice : Choice} {w : World N}
  {answer : o.Ret} {m' : Memory N} {extra : TaskPtr → Nat}

theorem popTimer_fired {now : Nat} {t : TaskPtr}
    (result : memExec r (.popTimer now) choice w.mem = some (some t, m')) :
    ∃ tm rest, w.mem.timers = tm :: rest ∧ tm.task = t := by
  simp only [memExec] at result
  split at result
  · cases result
  · rename_i tm rest timers
    split at result
    · cases result
      exact ⟨tm, rest, timers, rfl⟩
    · cases result

theorem slots_update {idx : Nat} (inside : idx < n) (t : TaskPtr)
    (slot : Nat → Word) (word : Word) :
    tally (Finset.range n) (slotOf t) (update slot idx word) +
        slotOf t (slot idx) =
      tally (Finset.range n) (slotOf t) slot + slotOf t word :=
  tally_update (Finset.mem_range.mpr inside) (slotOf t) slot word

@[simp] theorem slotOf_empty (t : TaskPtr) : slotOf t ringStEmpty = 0 := by
  simp [slotOf]

theorem slotOf_taskWord (t t' : TaskPtr) :
    slotOf t (taskWord t') = if t' = t then 1 else 0 := by
  have stored : taskWord t' ≠ ringStEmpty := by
    apply ne_empty_of_ready
    rw [taskWord, ringSt_ringPack _ (by decide) (by decide)]
  simp [slotOf, stored, Bool.toNat, Bool.cond_decide]

theorem slotOf_of_claimed {word : Word} (t : TaskPtr)
    (claimed : ringSt word = ringStClaimed) :
    slotOf t word = if wordTask word = t then 1 else 0 := by
  have stored : word ≠ ringStEmpty := by
    intro empty
    rw [empty] at claimed
    exact absurd claimed (by decide)
  by_cases same : wordTask word = t <;> simp [slotOf, stored, same]

theorem slotOf_claimedWord {word : Word} (t : TaskPtr)
    (ready : ringSt word = ringStReady) :
    slotOf t (claimedWord word) = slotOf t word := by
  rw [slotOf_of_claimed t (ringSt_claimedWord word), wordTask_claimedWord]
  by_cases same : wordTask word = t <;>
    simp [slotOf, ne_empty_of_ready ready, same]

theorem extra_add (extra : TaskPtr → Nat) (t t' : TaskPtr) :
    update extra t' (extra t' + 1) t =
      extra t + if t' = t then 1 else 0 := by
  by_cases same : t' = t
  · subst same
    simp
  · simp [same, Ne.symm same]

theorem extra_sub {extra : TaskPtr → Nat} {t' : TaskPtr}
    (positive : 0 < extra t') (t : TaskPtr) :
    update extra t' (extra t' - 1) t + (if t' = t then 1 else 0) =
      extra t := by
  by_cases same : t' = t
  · subst same
    simp
    omega
  · simp [same, Ne.symm same]

theorem counts_ring {o : RingOp} {answer : o.Ret} (counted : Counted n extra w)
    (based : Based w) (pre : preOp n (.ring o) (w.context r))
    (result : memExec r (.ring o) choice w.mem = some (answer, m'))
    (t : TaskPtr) :
    refCount (m'.tasks t).ringRefs =
      m'.slots n t + armed t m'.timers + extra t +
        (note r (.ring o) answer w m').tally (Section.owns t) := by
  have counts := counted.counts t
  have balance := tally_note (blind_owns t) r (.ring o) answer w m' pre
  rw [(memExec_follows result).refs t, (memExec_follows result).timers,
    Memory.slots, (memExec_follows result).slot]
  rw [Memory.slots] at counts
  cases o with
  | casSlot idx expected desired =>
      cases answer with
      | false =>
          simp [popped, pops, popsRing, pushed, pushedRing] at balance
          rw [balance]
          exact counts
      | true =>
          have was := casSlot_stored result
          obtain ⟨inside, outcome⟩ := pre
          have moved := slots_update inside t w.mem.inbox.slot desired
          rw [was] at moved
          rcases outcome with ⟨rfl, t', rest, rfl, context⟩ | ⟨ready, rfl⟩
          · rw [slotOf_empty, slotOf_taskWord] at moved
            simp [popped, pops, popsRing, pushed, pushedRing, context,
              Section.owns, Section.owned, List.countP_cons] at balance
            simp only [refsAfter, timersAfter, slotAfter, if_true]
            omega
          · rw [slotOf_claimedWord t ready] at moved
            simp [popped, pops, popsRing, pushed, pushedRing,
              ne_empty_of_ready ready, Section.owns, Section.owned] at balance
            simp only [refsAfter, timersAfter, slotAfter, if_true]
            omega
  | clearSlot idx =>
      obtain ⟨inside, t', rest, context⟩ := pre
      have member : .claim idx t' ∈ w.context r := by simp [context]
      have claimed := based.claimed r idx t' member
      have busy := based.claim_busy member
      have moved := slots_update inside t w.mem.inbox.slot ringStEmpty
      rw [slotOf_empty, slotOf_of_claimed t busy, claimed] at moved
      simp [popped, pops, popsRing, pushed, pushedRing, context, Section.owns,
        Section.owned, List.countP_cons] at balance
      simp only [refsAfter, timersAfter, slotAfter]
      omega
  | _ =>
      simp [popped, pops, popsRing, pushed, pushedRing] at balance
      rw [balance]
      exact counts

section Shared

variable (room : fits o w = true)
  (backed : ∀ wake, wokenBy o answer = some wake → 0 < extra wake)
  (counted : Counted n extra w)
  (based : Based w)
  (pre : preOp n o (w.context r))
include room backed counted based pre

theorem counts_kept (result : memExec r o choice w.mem = some (answer, m')) (t : TaskPtr) :
    refCount (m'.tasks t).ringRefs =
      m'.slots n t + armed t m'.timers + extraAfter o answer extra t +
        (note r o answer w m').tally (Section.owns t) := by
  have counts := counted.counts t
  have balance := tally_note (blind_owns t) r o answer w m' pre
  have follows := memExec_follows result
  have quiet : (o.popKind == some .word) = false →
      (o.pushKind == some .word) = false →
      (note r o answer w m').tally (Section.owns t) =
        w.tally (Section.owns t) := fun pop push =>
    tally_quiet (blind_owns t) (kind_of_owns t) r answer w m' pre
      (ne_of_beq_false pop) (ne_of_beq_false push)
  rw [follows.refs t, follows.timers, Memory.slots, follows.slot]
  rw [Memory.slots] at counts
  cases o with
  | ring o =>
      have after := counts_ring counted based pre result t
      rwa [(memExec_follows result).refs t, (memExec_follows result).timers,
        Memory.slots, (memExec_follows result).slot] at after
  | addRef t' =>
      have small : refCount (w.mem.tasks t').ringRefs + 1 < 2 ^ 31 := by
        simpa [fits] using room
      simp [popped, pops, pushed, Section.owns, Section.owned,
        List.countP_cons] at balance
      simp only [refsAfter, timersAfter, slotAfter, extraAfter]
      by_cases same : t = t'
      · subst same
        rw [if_pos rfl, refCount_add small]
        rw [if_pos rfl] at balance
        omega
      · rw [if_neg same]
        rw [if_neg (Ne.symm same)] at balance
        omega
  | subRef t' =>
      obtain ⟨entry, rest, context, owned, _⟩ := pre
      have free : (if lastRef answer then [Section.free t'] else []).countP
          (Section.owns t) = 0 := by
        split <;> rfl
      simp only [popped, pops, pushed, context, if_true, free, Section.owns,
        owned, List.take_succ_cons, List.take_zero, List.countP_cons,
        List.countP_nil, beq_iff_eq, Option.some.injEq] at balance
      simp only [refsAfter, timersAfter, slotAfter, extraAfter]
      by_cases same : t = t'
      · subst same
        have drop := @refCount_sub (w.mem.tasks t).ringRefs
        rw [if_pos rfl]
        rw [if_pos rfl] at balance
        change (note r (.subRef t) answer w m').tally (Section.owns t) + _ =
          w.tally (Section.owns t) + _ at balance
        omega
      · rw [if_neg same]
        rw [if_neg (Ne.symm same)] at balance
        change (note r (.subRef t') answer w m').tally (Section.owns t) + _ =
          w.tally (Section.owns t) + _ at balance
        omega
  | orDead t' =>
      rw [quiet rfl rfl]
      simp only [refsAfter]
      split
      · rw [refCount_or]
        exact counts
      · exact counts
  | allocTask c =>
      rw [quiet rfl rfl]
      simp only [refsAfter]
      split
      · rename_i fresh
        subst fresh
        rw [counted.unborn t (alloc_unborn result)] at counts
        exact counts
      · exact counts
  | insertTimer tm =>
      obtain ⟨rest, context⟩ := pre
      simp [popped, pops, pushed, context, Section.owns, Section.owned,
        List.countP_cons] at balance
      simp only [refsAfter, timersAfter, slotAfter, extraAfter,
        armed_timerInsert]
      omega
  | popTimer now =>
      cases answer with
      | none =>
          simp [popped, pops, pushed] at balance
          rw [balance]
          exact counts
      | some t' =>
          obtain ⟨tm, rest, timers, named⟩ := popTimer_fired result
          simp [popped, pops, pushed, Section.owns, Section.owned,
            List.countP_cons] at balance
          rw [timers] at counts ⊢
          simp only [armed, List.countP_cons, named, beq_iff_eq] at counts
          simp only [refsAfter, timersAfter, slotAfter, extraAfter, armed,
            Option.isSome_some, if_true, List.tail_cons]
          omega
  | park t' holder =>
      obtain ⟨c, hand, rest, context, _⟩ := pre
      simp [popped, pops, pushed, context, Section.owns, Section.owned,
        List.countP_cons] at balance
      simp only [refsAfter, timersAfter, slotAfter, extraAfter]
      rcases answer with _ | _ | _
      · have added := extra_add extra t holder
        simp at balance ⊢
        omega
      · have added := extra_add extra t holder
        simp at balance ⊢
        omega
      · simp [Section.owns, Section.owned] at balance ⊢
        omega
  | handOver t' =>
      cases answer with
      | none =>
          simp [popped, pops, pushed] at balance
          rw [balance]
          exact counts
      | some wake =>
          have positive := backed wake rfl
          simp [popped, pops, pushed, Section.owns, Section.owned,
            List.countP_cons] at balance
          have removed := extra_sub positive t
          simp only [refsAfter, timersAfter, slotAfter, extraAfter]
          omega
  | mark m => cases m with
    | leak t' =>
        obtain ⟨hand, rest, context⟩ := pre
        simp [popped, pops, popsMark, pushed, pushedMark, context,
          Section.owns, Section.owned, List.countP_cons] at balance
        have added := extra_add extra t t'
        simp only [refsAfter, timersAfter, slotAfter, extraAfter]
        omega
    | _ =>
        rw [quiet rfl rfl]
        exact counts
  | _ =>
      rw [quiet rfl rfl]
      exact counts

theorem counted_kept (touched : ∀ t, o.block = some t → (w.mem.tasks t).born = true)
    (result : memExec r o choice w.mem = some (answer, m')) :
    Counted n (extraAfter o answer extra) (note r o answer w m') := by
  refine ⟨counts_kept room backed counted based pre result, ?_⟩
  intro t unborn
  change (m'.tasks t).born = false at unborn
  change (m'.tasks t).ringRefs = 0
  have before : (w.mem.tasks t).born = false := by
    by_contra born
    rw [memExec_born result (by simpa using born)] at unborn
    cases unborn
  have other : o.block ≠ some t := by
    intro block
    rw [touched t block] at before
    cases before
  rw [(memExec_follows result).refs t, counted.unborn t before]
  cases o with
  | addRef t' | subRef t' | orDead t' =>
      simp only [refsAfter]
      rw [if_neg]
      rintro rfl
      exact other rfl
  | allocTask c =>
      simp only [refsAfter]
      split <;> rfl
  | _ => rfl

end Shared

theorem start_counted (setup : Setup N) (n : Nat) :
    Counted n (fun _ => 0) setup.start.state := by
  refine ⟨fun t => ?_, fun _ _ => rfl⟩
  have slots : setup.start.state.mem.slots n t = 0 :=
    tally_eq_zero fun _ _ => slotOf_empty t
  rw [slots, tally_start]
  change refCount 0 = 0 + 0 + 0 + 0
  decide

end Kept

/-! Outside of the functions that hold a ref in hand, the count is the number
of slots, timers and FIFO entries. -/

def Balanced (n : Nat) (w : World N) : Prop :=
  ∃ l, Path w.mem.next w.mem.waitersHead l none ∧
    ∀ t, w.tally (Section.owns t) = 0 →
      refCount (w.mem.tasks t).ringRefs =
        w.mem.slots n t + armed t w.mem.timers + l.count t

/-- `drain_one` does not keep the ref of a word it failed to put back. -/
def unleaked : Op → Bool
  | .mark (.leak _) => false
  | _ => true

section Kept

variable {n : Nat} {r : Fin N} {o : Op} {choice : Choice} {w : World N}
  {answer : o.Ret} {m' : Memory N} {l : List TaskPtr}

theorem extra_park {t holder : TaskPtr} {answer : Option Bool}
    (waiters : Waiters w l)
    (result : memExec r (.park t holder) choice w.mem = some (answer, m')) :
    extraAfter (.park t holder) answer l.count =
      (if answer = none then l ++ [holder] else l).count := by
  by_cases free : w.mem.owner = none
  · obtain ⟨_, rfl, _⟩ := waiters.queue.claim free result
    rfl
  · have parked : answer = none := by
      simp only [memExec, free, if_false] at result
      cases result
      rfl
    subst parked
    funext t'
    simp only [extraAfter, reduceCtorEq, if_false, if_true]
    rw [extra_add, List.count_append, List.count_singleton]
    simp

theorem extra_handOver {t : TaskPtr} {answer : Option TaskPtr}
    (head : answer = l.head?) :
    extraAfter (.handOver t) answer l.count = l.tail.count := by
  cases l with
  | nil =>
      cases head
      rfl
  | cons wake rest =>
      cases head
      funext t'
      have removed := @extra_sub (wake :: rest).count wake (by simp) t'
      have split := List.count_cons (a := t') (b := wake) (l := rest)
      simp only [beq_iff_eq] at split
      simp only [extraAfter, List.head?_cons, List.tail_cons]
      omega

theorem balance_kept (room : fits o w = true) (once : ParksOnce o w)
    (kept : unleaked o = true) (waiters : Waiters w l)
    (counted : Counted n l.count w) (based : Based w)
    (pre : preOp n o (w.context r))
    (touched : ∀ t, o.block = some t → (w.mem.tasks t).born = true)
    (result : memExec r o choice w.mem = some (answer, m')) :
    ∃ l', Waiters (note r o answer w m') l' ∧
      Counted n l'.count (note r o answer w m') := by
  have after := fun backed =>
    counted_kept room backed counted based pre touched result
  have unwoken : wokenBy o answer = none →
      Counted n (extraAfter o answer l.count) (note r o answer w m') :=
    fun none => after (by simp [none])
  cases o with
  | park t holder =>
      refine ⟨_, waiters_park once (touched holder rfl) result waiters, ?_⟩
      rw [← extra_park waiters result]
      exact unwoken rfl
  | handOver t =>
      obtain ⟨waiters', head⟩ := waiters_handOver result waiters
      refine ⟨_, waiters', ?_⟩
      rw [← extra_handOver head]
      apply after
      intro wake woken
      have queued : wake ∈ l := List.mem_of_mem_head? (head.symm.trans woken)
      exact List.count_pos_iff.mpr queued
  | mark m => cases m with
    | leak t => cases kept
    | _ => exact ⟨l, waiters_other rfl result waiters, unwoken rfl⟩
  | _ => exact ⟨l, waiters_other rfl result waiters, unwoken rfl⟩

end Kept

/-- The ref counts balance in every run in which no count overflows, no task is
parked while it is on the FIFO and `drain_one` can put its own task back. -/
theorem balanced_of_unleaked {config : setup.machine.Config}
    (reach : Machine.Reach (M := setup.machine)
      (fun _ o w => fits o w = true ∧ ParksOnce o w ∧ unleaked o = true)
      setup.start config) :
    Balanced setup.n config.state := by
  obtain ⟨⟨l, waiters, counted⟩, _⟩ := Setup.invariant
    (fun w => ∃ l, Waiters w l ∧ Counted setup.n l.count w)
    ⟨[], start_waiters setup, start_counted setup setup.n⟩
    (fun r o choice w answer m' allowed based pre touched result kept => by
      obtain ⟨l, waiters, counted⟩ := kept
      exact balance_kept allowed.1 allowed.2.1 allowed.2.2 waiters counted based
        pre touched result) reach
  refine ⟨l, waiters.queue.shaped.path, fun t idle => ?_⟩
  have counts := counted.counts t
  rw [idle] at counts
  exact counts

theorem balanced_of_unleaked_waiting :
    ∃ config, Machine.Reach (M := pair.machine)
      (fun _ o w => fits o w = true ∧ ParksOnce o w ∧ unleaked o = true)
      pair.start config ∧
      config.state.waiting 2 = true ∧ Balanced pair.n config.state := by
  obtain ⟨config, reach, waiting⟩ := Machine.exists_reach (M := pair.machine)
    (fun _ o w => fits o w = true ∧ ParksOnce o w ∧ unleaked o = true)
    (fun _ o w => fits o w && parksOnEmpty o w && unleaked o)
    (fun _ _ _ ok => by
      simp only [Bool.and_eq_true] at ok
      exact ⟨ok.1.1, parksOnce_of_empty ok.1.2, ok.2⟩)
    pair.start parksSecond (fun config => config.state.waiting 2)
    (by decide +kernel)
  exact ⟨config, reach, waiting, balanced_of_unleaked reach⟩

/-- A step of task 1 posts its own task, retires it and yields: the nested
`drain_one` claims the slot and cannot put it back. -/
def leaksOwn : Schedule :=
  wakes 0 ++ creates 0 5 1 ++ pass 0 ++ solo 0 29 ++ call 0 (.postTask 1) ++
  solo 0 12 ++ call 0 (.taskRetire 1) ++ solo 0 6 ++ call 0 .yield ++
  solo 0 1 ++ returns 0 .pending ++ [(0, Choice.tick 0)] ++ solo 0 11 ++
  (List.replicate 8 (solo 0 2 ++ returns 0 .pending)).flatten ++ solo 0 1 ++
  returns 0 .finished ++ solo 0 9

theorem balance_fails :
    ¬∀ config, Machine.Reach (M := pair.machine)
      (fun r o w => callersOk r o w = true) pair.start config →
        Balanced pair.n config.state := by
  intro claim
  obtain ⟨config, reach, pinned⟩ := exists_called leaksOwn
    (fun config => decide (
      config.state.tally (Section.owns 1) = 0 ∧
      refCount (config.state.mem.tasks 1).ringRefs = 1 ∧
      config.state.mem.slots pair.n 1 = 0 ∧ config.state.mem.timers = [] ∧
      config.state.mem.waitersHead = none)) (by decide +kernel)
  obtain ⟨idle, one, slots, timers, head⟩ := of_decide_eq_true pinned
  obtain ⟨l, path, balanced⟩ := claim config reach
  have counts := balanced 1 idle
  rw [one, slots, timers] at counts
  rw [head] at path
  cases l with
  | nil => simp [armed] at counts
  | cons first rest => cases path.1

end Metal.Coop
