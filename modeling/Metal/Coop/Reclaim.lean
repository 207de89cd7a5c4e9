import Metal.Coop.Refs

namespace Metal.Coop

open Metal.Lib

/-! Task reclamation: who passes a block to `task_free`, and when. -/

variable {N : Nat} {setup : Setup N}

/-- Nothing refers to the block of `t`: no ring slot, READY or CLAIMED, no
runner that holds a claimed word or another ref, no timer and no FIFO entry. -/
structure Unreferenced (n : Nat) (w : World N) (t : TaskPtr) : Prop where
  slots : w.mem.slots n t = 0
  hands : ∀ r, ∀ entry ∈ w.context r, entry.owned ≠ some t
  timers : ∀ tm ∈ w.mem.timers, tm.task ≠ t
  queue : ¬w.mem.Linked t

def ReclaimSafe (n : Nat) (w : World N) : Prop :=
  ∀ t, (w.mem.tasks t).frees ≤ 1 ∧
    (0 < (w.mem.tasks t).frees → Unreferenced n w t)

def released (word : RefWord) : Bool := refDead word && refCount word == 0

def unreleased : Op → World N → Bool
  | .addRef t, w => !released (w.mem.tasks t).ringRefs
  | _, _ => true

variable {word : RefWord}

theorem released_add (small : refCount word + 1 < 2 ^ 31) : released (word + 1) = false := by
  rw [released, refCount_add small]
  simp

theorem released_of_held (held : 0 < refCount word) : released word = false := by
  simp [released, Nat.ne_of_gt held]

theorem released_sub (held : 0 < refCount word) : released (word - 1) = lastRef word := by
  have drop := refCount_sub held
  have same : (refCount (word - 1) == 0) = decide (refCount word = 1) := by
    by_cases last : refCount word = 1
    · have none : refCount (word - 1) = 0 := by omega
      rw [none, last]
      rfl
    · have some : refCount (word - 1) ≠ 0 := by omega
      rw [beq_eq_false_iff_ne.mpr some, decide_eq_false last]
  rw [released, refDead_sub held, same, lastRef_eq, Bool.and_comm]
  simp

theorem released_or (word : RefWord) :
    (released (word ||| taskDeadBit)).toNat =
      (released word).toNat + (unheld word).toNat := by
  rw [released, refDead_or, refCount_or, released, unheld_eq]
  cases refDead word <;> by_cases none : refCount word = 0 <;> simp [none]

def Section.isFree (t : TaskPtr) : Section → Bool
  | .free t' => t' == t
  | _ => false

theorem blind_isFree (t : TaskPtr) : Blind (Section.isFree t) :=
  ⟨fun _ _ _ => rfl, fun _ _ _ => rfl, fun _ _ _ => rfl⟩

theorem kind_of_isFree (t : TaskPtr) (entry : Section)
    (isFree : entry.isFree t = true) : entry.kind = .free := by
  cases entry <;> first | rfl | cases isFree

def FreedOnce (w : World N) : Prop :=
  ∀ t, (w.mem.tasks t).frees + w.tally (Section.isFree t) =
    (released (w.mem.tasks t).ringRefs).toNat

/-- The tasks on the FIFO are paid for; the one that links to itself will be
popped twice. -/
structure Backed (extra : TaskPtr → Nat) (l : List TaskPtr)
    (stop : Option TaskPtr) : Prop where
  once : ∀ t ∈ l, 1 ≤ extra t
  twice : ∀ t, stop = some t → 2 ≤ extra t

section Kept

variable {n : Nat} {r : Fin N} {o : Op} {choice : Choice} {w : World N}
  {answer : o.Ret} {m' : Memory N} {extra : TaskPtr → Nat} {l : List TaskPtr}
  {stop : Option TaskPtr}

theorem freedOnce_kept (room : fits o w = true) (live : unreleased o w = true)
    (counted : Counted n extra w) (pre : preOp n o (w.context r))
    (result : memExec r o choice w.mem = some (answer, m'))
    (freed : FreedOnce w) : FreedOnce (note r o answer w m') := by
  intro t
  have before := freed t
  have balance := tally_note (blind_isFree t) r o answer w m' pre
  have follows := memExec_follows result
  have quiet : (o.popKind == some .free) = false →
      (o.pushKind == some .free) = false →
      (note r o answer w m').tally (Section.isFree t) =
        w.tally (Section.isFree t) := fun pop push =>
    tally_quiet (blind_isFree t) (kind_of_isFree t) r answer w m' pre
      (ne_of_beq_false pop) (ne_of_beq_false push)
  change (m'.tasks t).frees + _ = (released (m'.tasks t).ringRefs).toNat
  rw [follows.frees t, follows.refs t]
  cases o with
  | addRef t' =>
      rw [quiet rfl rfl]
      simp only [freesAfter, refsAfter]
      by_cases same : t = t'
      · subst same
        have live : released (w.mem.tasks t).ringRefs = false := by
          simpa [unreleased] using live
        have small : refCount (w.mem.tasks t).ringRefs + 1 < 2 ^ 31 := by
          simpa [fits] using room
        rw [if_pos rfl, released_add small, before, live]
      · rw [if_neg same, before]
  | subRef t' =>
      obtain ⟨entry, rest, context, owned, _⟩ := pre
      have word : entry.isFree t = false := by
        cases entry with
        | free => cases owned
        | _ => rfl
      have was : answer = (w.mem.tasks t').ringRefs := by
        cases result
        rfl
      simp only [popped, pops, pushed, context, if_true, word,
        List.take_succ_cons, List.take_zero, List.countP_cons, List.countP_nil]
        at balance
      simp only [freesAfter, refsAfter]
      by_cases same : t = t'
      · subst same
        have member : entry ∈ w.context r := by
          rw [context]
          exact List.mem_cons_self
        have held : 0 < refCount (w.mem.tasks t).ringRefs := by
          have positive := tally_pos_of_mem (p := Section.owns t) member
            (by simp [Section.owns, owned])
          have counts := counted.counts t
          omega
        rw [released_of_held held] at before
        rw [if_pos rfl, released_sub held, ← was]
        cases last : lastRef answer <;>
          simp [last, Section.isFree] at balance before ⊢ <;> omega
      · rw [if_neg same, ← before]
        cases last : lastRef answer <;>
          simp [last, Section.isFree, Ne.symm same] at balance ⊢ <;> omega
  | orDead t' =>
      have was : answer = (w.mem.tasks t').ringRefs := by
        cases result
        rfl
      simp only [popped, pops, pushed] at balance
      simp only [freesAfter, refsAfter]
      by_cases same : t = t'
      · subst same
        rw [if_pos rfl, released_or, ← was]
        rw [← was] at before
        cases last : unheld answer <;>
          simp [last, Section.isFree] at balance ⊢ <;> omega
      · rw [if_neg same, ← before]
        cases last : unheld answer <;>
          simp [last, Section.isFree, Ne.symm same] at balance ⊢ <;> omega
  | taskFree t' =>
      obtain ⟨rest, context⟩ := pre
      simp [popped, pops, pushed, context, Section.isFree, List.countP_cons]
        at balance
      simp only [freesAfter, refsAfter]
      by_cases same : t = t'
      · subst same
        simp at balance ⊢
        omega
      · simp [same, Ne.symm same] at balance ⊢
        omega
  | allocTask c =>
      rw [quiet rfl rfl]
      simp only [freesAfter, refsAfter]
      split
      · rename_i fresh
        subst fresh
        have none : released 0 = false := by decide
        rw [counted.unborn t (alloc_unborn result), none] at before
        rw [none]
        change _ = 0 at before
        change _ = 0
        omega
      · exact before
  | ring o =>
      cases o <;> rw [quiet rfl rfl] <;> exact before
  | mark m =>
      cases m <;> rw [quiet rfl rfl] <;> exact before
  | _ =>
      rw [quiet rfl rfl]
      exact before

theorem backed_park {t holder : TaskPtr} {answer : Option Bool}
    (queue : Queue w.mem l stop) (backed : Backed extra l stop)
    (born : (w.mem.tasks holder).born = true)
    (result : memExec r (.park t holder) choice w.mem = some (answer, m')) :
    ∃ l' stop', Queue m' l' stop' ∧
      Backed (extraAfter (.park t holder) answer extra) l' stop' := by
  by_cases free : w.mem.owner = none
  · obtain ⟨rfl, rfl, queue'⟩ := queue.claim free result
    exact ⟨[], none, queue', nofun, nofun⟩
  · obtain ⟨rfl, l', stop', queue', members, _, loop⟩ :=
      queue.park free born result
    refine ⟨l', stop', queue', ?_, ?_⟩
    · intro t' member
      have added := extra_add extra t' holder
      simp only [extraAfter, reduceCtorEq, if_false, added]
      rcases members t' member with rfl | old
      · simp
      · have paid := backed.once t' old
        omega
    · intro t' looped
      have added := extra_add extra t' holder
      obtain ⟨same, member⟩ := loop (by simp [looped])
      obtain rfl : t' = holder := Option.some.inj (looped.symm.trans same)
      have paid := backed.once t' member
      simp only [extraAfter, reduceCtorEq, if_false, added]
      simp
      omega

theorem backed_handOver {t : TaskPtr} {answer : Option TaskPtr}
    (queue : Queue w.mem l stop) (backed : Backed extra l stop)
    (result : memExec r (.handOver t) choice w.mem = some (answer, m')) :
    (∀ wake, answer = some wake → 0 < extra wake) ∧
      ∃ l' stop', Queue m' l' stop' ∧
        Backed (extraAfter (.handOver t) answer extra) l' stop' := by
  cases answer with
  | none =>
      obtain ⟨rfl, queue'⟩ := queue.handOver_none result
      exact ⟨nofun, [], none, queue', nofun, nofun⟩
  | some wake =>
      obtain ⟨rest, rfl, l', stop', queue', members, _, loop⟩ :=
        queue.handOver_some result
      have paid := backed.once wake List.mem_cons_self
      have off := (List.nodup_cons.mp queue.shaped.nodup).1
      refine ⟨?_, l', stop', queue', ?_, ?_⟩
      · rintro _ ⟨⟩
        exact paid
      · intro t' member
        simp only [extraAfter]
        rcases members t' member with old | ⟨rfl, looped⟩
        · have other : t' ≠ wake := by
            rintro rfl
            exact off old
          rw [Function.update_of_ne other]
          exact backed.once t' (List.mem_cons_of_mem _ old)
        · have again := backed.twice _ looped
          rw [Function.update_self]
          omega
      · intro t' looped
        obtain ⟨same, distinct⟩ := loop (by simp [looped])
        have other : t' ≠ wake := by
          rintro rfl
          exact distinct (same.symm.trans looped)
        simp only [extraAfter]
        rw [Function.update_of_ne other]
        exact backed.twice t' (same.symm.trans looped)

theorem Backed.mono {extra' : TaskPtr → Nat} (backed : Backed extra l stop)
    (more : ∀ t, extra t ≤ extra' t) : Backed extra' l stop where
  once t member := (backed.once t member).trans (more t)
  twice t looped := (backed.twice t looped).trans (more t)

/-- What holds of the refs and the FIFO as long as no ref is taken of a released
task. -/
structure Reclaims (n : Nat) (w : World N) : Prop where
  freed : FreedOnce w
  backed : ∃ extra l stop, Counted n extra w ∧ Queue w.mem l stop ∧
    Backed extra l stop

theorem reclaims_kept (room : fits o w = true) (live : unreleased o w = true)
    (based : Based w) (pre : preOp n o (w.context r))
    (touched : ∀ t, o.block = some t → (w.mem.tasks t).born = true)
    (result : memExec r o choice w.mem = some (answer, m'))
    (reclaims : Reclaims n w) : Reclaims n (note r o answer w m') := by
  obtain ⟨freed, extra, l, stop, counted, queue, backed⟩ := reclaims
  refine ⟨freedOnce_kept room live counted pre result freed, ?_⟩
  refine ⟨extraAfter o answer extra, ?_⟩
  have after := fun woken =>
    counted_kept room woken counted based pre touched result
  have unwoken : wokenBy o answer = none →
      Counted n (extraAfter o answer extra) (note r o answer w m') :=
    fun none => after (by simp [none])
  have other : o.queues = false → (∀ t, extra t ≤ extraAfter o answer extra t) →
      Queue m' l stop ∧ Backed (extraAfter o answer extra) l stop :=
    fun quiet more => ⟨queue.other result quiet, backed.mono more⟩
  cases o with
  | park t holder =>
      obtain ⟨l', stop', kept⟩ :=
        backed_park queue backed (touched holder rfl) result
      exact ⟨l', stop', unwoken rfl, kept⟩
  | handOver t =>
      obtain ⟨woken, l', stop', kept⟩ := backed_handOver queue backed result
      exact ⟨l', stop', after woken, kept⟩
  | mark m => cases m with
    | leak t =>
        refine ⟨l, stop, unwoken rfl, other rfl fun t' => ?_⟩
        have added := extra_add extra t' t
        simp only [extraAfter]
        omega
    | _ => exact ⟨l, stop, unwoken rfl, other rfl fun _ => Nat.le_refl _⟩
  | _ => exact ⟨l, stop, unwoken rfl, other rfl fun _ => Nat.le_refl _⟩

theorem start_reclaims (setup : Setup N) : Reclaims n setup.start.state := by
  refine ⟨fun t => ?_, fun _ => 0, [], none, start_counted setup n,
    (start_waiters setup).queue, nofun, nofun⟩
  rw [tally_start]
  change 0 + 0 = (released 0).toNat
  decide

theorem Reclaims.safe (reclaims : Reclaims n w) : ReclaimSafe n w := by
  obtain ⟨freed, extra, l, stop, counted, queue, backed⟩ := reclaims
  intro t
  have once := freed t
  have bound := Bool.toNat_le (released (w.mem.tasks t).ringRefs)
  refine ⟨by omega, fun gone => ?_⟩
  have emptied : released (w.mem.tasks t).ringRefs = true := by
    by_contra live
    rw [Bool.eq_false_of_not_eq_true live, Bool.toNat_false] at once
    omega
  have none : refCount (w.mem.tasks t).ringRefs = 0 := by
    simp [released] at emptied
    exact emptied.2
  have counts := counted.counts t
  rw [none] at counts
  refine ⟨by omega, ?_, ?_, ?_⟩
  · intro r entry member owned
    have positive := tally_pos_of_mem (p := Section.owns t) member
      (by simp [Section.owns, owned])
    omega
  · intro tm member named
    have positive : 0 < armed t w.mem.timers :=
      List.countP_pos_iff.mpr ⟨tm, member, by simp [named]⟩
    omega
  · intro linked
    have paid := backed.once t ((queue.linked_iff t).mp linked)
    omega

end Kept

/-- Reclamation is safe in every run in which no ref is taken of a task that
was released, and no count overflows. -/
theorem reclaimSafe_of_unreleased {config : setup.machine.Config}
    (reach : Machine.Reach (M := setup.machine)
      (fun _ o w => fits o w = true ∧ unreleased o w = true)
      setup.start config) :
    ReclaimSafe setup.n config.state := by
  obtain ⟨reclaims, _⟩ := Setup.invariant (Reclaims setup.n)
    (start_reclaims setup)
    (fun r o choice w answer m' allowed based pre touched result kept =>
      reclaims_kept allowed.1 allowed.2 based pre touched result kept) reach
  exact reclaims.safe

/-- Runner 0 retires task 1 while its ring slot is READY; runner 1 claims the
slot and drops the last ref. -/
def freesRetired : Schedule :=
  wakes 0 ++ creates 0 5 1 ++ call 0 (.taskRetire 1) ++ solo 0 8 ++ wakes 1 ++
  pass 1 ++ solo 1 16

theorem reclaimSafe_of_unreleased_freed :
    ∃ config, Machine.Reach (M := pair.machine)
      (fun _ o w => fits o w = true ∧ unreleased o w = true) pair.start config ∧
      (config.state.mem.tasks 1).frees = 1 ∧
      ReclaimSafe pair.n config.state := by
  obtain ⟨config, reach, freed⟩ := Machine.exists_reach (M := pair.machine)
    (fun _ o w => fits o w = true ∧ unreleased o w = true)
    (fun _ o w => fits o w && unreleased o w)
    (fun _ _ _ ok => by simpa using ok) pair.start freesRetired
    (fun config => (config.state.mem.tasks 1).frees == 1) (by decide +kernel)
  exact ⟨config, reach, by simpa using freed, reclaimSafe_of_unreleased reach⟩

/-- Runner 1 posts task 1 and has seen that it is not dead; runner 0 reclaims
the task, which has no ref left. -/
def postsReclaimed : Schedule :=
  wakes 0 ++ creates 0 5 1 ++ pass 0 ++ solo 0 29 ++ returns 0 .finished ++
  solo 0 14 ++ wakes 1 ++ call 1 (.postTask 1) ++ solo 1 3 ++
  call 0 (.taskReclaim 1) ++ solo 0 11

theorem reclaim_fails :
    ¬∀ config, Machine.Reach (M := pair.machine)
      (fun r o w => callersOk r o w = true) pair.start config →
        ReclaimSafe pair.n config.state := by
  intro claim
  obtain ⟨config, reach, freed⟩ := exists_called (postsReclaimed ++ solo 1 9)
    (fun config => (config.state.mem.tasks 1).frees == 2) (by decide +kernel)
  have twice : (config.state.mem.tasks 1).frees = 2 := by simpa using freed
  have once := (claim config reach 1).1
  omega

end Metal.Coop
