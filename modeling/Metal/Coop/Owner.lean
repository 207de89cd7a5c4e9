import Metal.Coop.Exclusion
import Metal.Coop.Wakeup

namespace Metal.Coop

open Metal.Lib

/-! The owner of the VM mutex. -/

variable {N : Nat} {setup : Setup N}

def Memory.Live (m : Memory N) (t : TaskPtr) : Prop :=
  m.terminal t = false ∧ (m.tasks t).dead = false

def Hand.isFresh : Hand → Bool
  | .fresh => true
  | _ => false

/-- `t` is on its way to the `mutex_release` that follows its step: a runner is
inside the step, or `t` has a ring slot or a word that will be stepped. -/
def World.Releases (n : Nat) (w : World N) (t : TaskPtr) : Prop :=
  (∃ r, w.InVm r t) ∨ 0 < w.mem.slots n t ∨
    ∃ r, (w.context r).any (Section.word Hand.isFresh t) = true

def NeverStuck (n : Nat) (w : World N) : Prop :=
  ∀ t, w.mem.owner = some t → w.mem.Live t ∧ w.Releases n t

/-- `t` owns the mutex or waits for it. -/
def Memory.Concerns (m : Memory N) (t : TaskPtr) : Prop :=
  m.owner = some t ∨ m.Linked t

/-- The mutex is only taken by, and only waited for by, live tasks, and a task
stays live as long as it owns the mutex or waits for it. -/
def keepsLive : Op → World N → Prop
  | .casOwner _ holder, w => w.mem.owner = none → w.mem.Live holder
  | .park _ holder, w => w.mem.Live holder
  | .swapDead t, w | .clearRoot t _, w => ¬w.mem.Concerns t
  | .coro (.storeStatus c st), w | .frame _ (.storeStatus c st), w =>
      st.terminal = true →
        ∀ t, (w.mem.tasks t).root = some c → ¬w.mem.Concerns t
  | _, _ => True

/-- The owner's word is not given up, and it is not spent on a leaf outside the
VM. -/
def keepsOwner (r : Fin N) : Op → World N → Prop
  | .mark (.drop t), w | .mark (.refused t), w | .mark (.leak t), w =>
      w.mem.owner ≠ some t
  | .stepLeaf t, w =>
      w.mem.owner = some t → w.InVm r t ∨
        (w.context r).any (Section.word Hand.isFresh t) = false
  | _, _ => True

section Kept

variable {n : Nat} {r : Fin N} {o : Op} {choice : Choice} {w : World N}
  {answer : o.Ret} {m' : Memory N} {t : TaskPtr} {l : List TaskPtr}
  {stop : Option TaskPtr}

theorem Memory.Live.root {m : Memory N} (live : m.Live t) :
    ∃ c, (m.tasks t).root = some c ∧ (m.coros c).status.terminal = false := by
  have running := live.1
  unfold Memory.terminal at running
  split at running
  · cases running
  · rename_i c root
    exact ⟨c, root, running⟩

theorem live_kept (based : Based w) (kept : keepsLive o w)
    (result : memExec r o choice w.mem = some (answer, m'))
    (concerned : w.mem.Concerns t) (live : w.mem.Live t) : m'.Live t := by
  have follows := memExec_follows result
  obtain ⟨c, root, running⟩ := live.root
  have born := based.rootBorn t (by simp [root])
  have rootAfter : (m'.tasks t).root = some c := by
    rw [follows.root t, root]
    cases o with
    | allocTask c' =>
        simp only [Metal.Coop.rootAfter]
        rw [if_neg]
        rintro rfl
        rw [alloc_unborn result] at born
        cases born
    | clearRoot t' outside =>
        simp only [Metal.Coop.rootAfter]
        rw [if_neg]
        rintro rfl
        exact kept concerned
    | _ => rfl
  refine ⟨?_, ?_⟩
  · unfold Memory.terminal
    rw [rootAfter]
    change (m'.coros c).status.terminal = false
    rw [follows.status c]
    cases o with
    | coro access | frame t' access => cases access with
      | storeStatus c' st =>
          simp only [statusAfter]
          split
          · rename_i same
            subst same
            by_contra ended
            exact kept (by simpa using ended) t root concerned
          · exact running
      | _ => exact running
    | _ => exact running
  · rw [follows.dead t, live.2]
    cases o with
    | allocTask c' =>
        simp only [deadAfter]
        split <;> rfl
    | swapDead t' =>
        simp only [deadAfter]
        rw [if_neg]
        rintro rfl
        exact kept concerned
    | _ => rfl

theorem FifoOnly.live_iff {m : Memory N} (only : FifoOnly m m') :
    m'.Live t ↔ m.Live t := by
  have root := congrArg Task.root (only.core t)
  have dead := congrArg Task.dead (only.core t)
  simp only [Task.core] at root dead
  unfold Memory.Live Memory.terminal
  rw [root, dead, only.coros]

theorem run_kept {context : Context} (pre : preOp n o context)
    (outside : ∀ t', o ≠ .handOver t') (inside : .run t true ∈ context) :
    .run t true ∈ track o answer context := by
  cases o with
  | ring o => cases o with
    | casSlot idx expected desired =>
        cases answer with
        | false => exact inside
        | true =>
            rcases pre.2 with ⟨rfl, t', rest, rfl, rfl⟩ | ⟨ready, _⟩
            · simp [Context.mem_run_serve]
              simpa using inside
            · simp [ne_empty_of_ready ready, inside]
    | clearSlot idx =>
        obtain ⟨_, t', rest, rfl⟩ := pre
        simpa using inside
    | _ => exact inside
  | addRef t' => exact List.mem_cons_of_mem _ inside
  | subRef t' =>
      obtain ⟨entry, rest, rfl, owned, _⟩ := pre
      have below : .run t true ∈ rest := by
        rcases List.mem_cons.mp inside with rfl | below
        · cases owned
        · exact below
      simp only [track]
      split
      · exact List.mem_cons_of_mem _ below
      · exact below
  | orDead t' | clearRoot t' isOutside | casRunning t' =>
      simp only [track]
      split
      · exact List.mem_cons_of_mem _ inside
      · exact inside
  | taskFree t' | clearRunning t' | insertTimer tm =>
      obtain ⟨rest, rfl⟩ := pre
      simpa using inside
  | enterTask t' =>
      cases answer with
      | none => exact Context.mem_run_serve.mpr inside
      | some c => exact List.mem_cons_of_mem _ inside
  | frame t' access => cases access with
    | loadStatus c =>
        simp only [track]
        split
        · exact Context.mem_run_serve.mpr inside
        · exact inside
    | _ => exact inside
  | popTimer now =>
      cases answer with
      | none => exact inside
      | some t' => exact List.mem_cons_of_mem _ inside
  | ownerIs t' holder =>
      obtain ⟨rest, rfl⟩ := pre
      cases answer with
      | false => simpa using Context.mem_run_tries.mpr inside
      | true =>
          simp at inside ⊢
          exact .inr inside
  | casOwner t' holder =>
      obtain ⟨rest, rfl⟩ := pre
      cases answer with
      | false => exact inside
      | true =>
          simp at inside ⊢
          exact .inr inside
  | park t' holder =>
      obtain ⟨c, hand, rest, rfl, _⟩ := pre
      rcases answer with _ | _ | _
      · simp [Context.mem_run_serve]
        simpa using inside
      · simp at inside ⊢
        exact .inr inside
      · simp at inside ⊢
        exact .inr inside
  | handOver t' => exact absurd rfl (outside t')
  | stepLeaf t' => exact Context.mem_run_serve.mpr inside
  | mark m => cases m with
    | enterPost t' => exact List.mem_cons_of_mem _ inside
    | leavePost t' | retired t' =>
        obtain ⟨rest, rfl⟩ := pre
        simpa using inside
    | leaveTask t' | leak t' =>
        obtain ⟨_, rest, rfl⟩ := pre
        simpa using inside
    | drop t' | refused t' => exact Context.mem_run_serve.mpr inside
    | unlocked t' =>
        obtain ⟨rest, rfl⟩ := pre
        simp at inside ⊢
        exact .inr inside
    | _ => exact inside
  | _ => exact inside

theorem fresh_park {t' holder : TaskPtr} {context : Context}
    (pre : preOp n (.park t' holder) context) :
    (track (.park t' holder) none context).any (Section.word Hand.isFresh t) =
      context.any (Section.word Hand.isFresh t) := by
  obtain ⟨c, hand, rest, rfl, tried, settled⟩ := pre
  simp [Context.serve_drive t' hand settled, Section.word, Hand.isFresh]

theorem served_releases (based : Based w) (kept : keepsOwner r o w)
    (pre : preOp n o (w.context r))
    (result : memExec r o choice w.mem = some (answer, m'))
    (owner : w.mem.owner = some t) (live : w.mem.Live t)
    (held : (w.context r).any (Section.word Hand.isFresh t) = true)
    (served : servedBy o answer = some t)
    (inVm : w.InVm r t → (note r o answer w m').Releases n t)
    (fresh : (track o answer (w.context r)).any
      (Section.word Hand.isFresh t) = true →
      (note r o answer w m').Releases n t) :
    (note r o answer w m').Releases n t := by
  have running := live.1
  cases o with
  | ring o => cases o with
    | casSlot idx expected desired =>
        simp only [servedBy] at served
        split at served
        · rename_i stored
          obtain ⟨rfl, rfl⟩ := stored
          cases served
          exact .inr (.inl (slots_pushed pre result))
        · cases served
    | _ => cases served
  | enterTask t' =>
      cases answer with
      | none =>
          cases served
          rw [terminal_of_entered result] at running
          cases running
      | some c => cases served
  | frame t' access => cases access with
    | loadStatus c =>
        simp only [servedBy] at served
        split at served
        · rename_i ended
          cases served
          rw [terminal_of_ended based pre result ended] at running
          cases running
        · cases served
    | _ => cases served
  | park t' holder =>
      cases answer with
      | some claimed => cases served
      | none =>
          apply fresh
          rw [fresh_park pre]
          exact held
  | stepLeaf t' =>
      cases served
      rcases kept owner with inside | stale
      · exact inVm inside
      · rw [stale] at held
        cases held
  | mark m => cases m with
    | drop t' | refused t' | leak t' =>
        cases served
        exact absurd owner kept
    | _ => cases served
  | _ => cases served

theorem releases_kept (based : Based w) (own : ownLeaf o = true)
    (kept : keepsOwner r o w) (pre : preOp n o (w.context r))
    (result : memExec r o choice w.mem = some (answer, m'))
    (outside : ∀ t', o ≠ .handOver t') (owner : w.mem.owner = some t)
    (live : w.mem.Live t) (releases : w.Releases n t) :
    (note r o answer w m').Releases n t := by
  have inVm : w.InVm r t → (note r o answer w m').Releases n t := by
    intro inside
    refine .inl ⟨r, ?_⟩
    simp only [World.InVm, note, Function.update_self]
    exact run_kept pre outside inside
  have fresh : (track o answer (w.context r)).any
      (Section.word Hand.isFresh t) = true →
      (note r o answer w m').Releases n t := by
    intro held
    refine .inr (.inr ⟨r, ?_⟩)
    simpa only [note, Function.update_self] using held
  rcases releases with ⟨r', inside⟩ | slot | ⟨r', held⟩
  · by_cases same : r' = r
    · subst same
      exact inVm inside
    · refine .inl ⟨r', ?_⟩
      simpa only [World.InVm, note, Function.update_of_ne same] using inside
  · rcases slots_kept based pre result slot with slot | driven
    · exact .inr (.inl slot)
    · apply fresh
      exact List.any_eq_true.mpr ⟨_, driven, by simp [Section.word, Hand.isFresh]⟩
  · by_cases same : r' = r
    · subst same
      have tried : triedBy o answer ≠ some t := by
        intro tried
        cases o with
        | ownerIs t' holder =>
            cases answer with
            | true => cases tried
            | false =>
                cases tried
                obtain rfl : t = holder := by simpa [ownLeaf] using own
                simp [memExec, owner] at result
        | _ => cases tried
      by_cases served : servedBy o answer = some t
      · exact served_releases based kept pre result owner live held served inVm
          fresh
      · exact fresh (word_track rfl pre served (.inl tried) held)
    · refine .inr (.inr ⟨r', ?_⟩)
      simpa only [note, Function.update_of_ne same] using held

/-- What holds of the mutex as long as its tasks stay live and the owner's word
is kept. -/
structure Guarded (n : Nat) (w : World N) : Prop where
  queue : ∃ l stop, Queue w.mem l stop ∧ ∀ t ∈ l, w.mem.Live t
  owner : NeverStuck n w

theorem queueLive_kept (based : Based w) (live : keepsLive o w)
    (touched : ∀ t, o.block = some t → (w.mem.tasks t).born = true)
    (result : memExec r o choice w.mem = some (answer, m'))
    (queue : Queue w.mem l stop) (alive : ∀ t ∈ l, w.mem.Live t) :
    ∃ l' stop', Queue m' l' stop' ∧ ∀ t ∈ l', m'.Live t := by
  have stays : ∀ t ∈ l, m'.Live t := fun t member =>
    live_kept based live result (.inr ((queue.linked_iff t).mpr member))
      (alive t member)
  cases o with
  | park t' holder =>
      by_cases free : w.mem.owner = none
      · obtain ⟨_, _, queue'⟩ := queue.claim free result
        exact ⟨[], none, queue', nofun⟩
      · obtain ⟨_, l', stop', queue', members, _⟩ :=
          queue.park free (touched holder rfl) result
        refine ⟨l', stop', queue', fun t member => ?_⟩
        rcases members t member with rfl | old
        · exact (park_fifoOnly result).live_iff.mpr live
        · exact stays t old
  | handOver t' =>
      cases answer with
      | none =>
          obtain ⟨_, queue'⟩ := queue.handOver_none result
          exact ⟨[], none, queue', nofun⟩
      | some wake =>
          obtain ⟨rest, rfl, l', stop', queue', members, _⟩ :=
            queue.handOver_some result
          refine ⟨l', stop', queue', fun t member => stays t ?_⟩
          rcases members t member with old | ⟨rfl, _⟩
          · exact List.mem_cons_of_mem _ old
          · exact List.mem_cons_self
  | _ => exact ⟨l, stop, queue.other result rfl, stays⟩

section Based

variable (based : Based w)
  (own : ownLeaf o = true)
  (live : keepsLive o w)
  (kept : keepsOwner r o w)
  (pre : preOp n o (w.context r))
include based own live kept pre

theorem neverStuck_kept (result : memExec r o choice w.mem = some (answer, m'))
    (queue : Queue w.mem l stop) (alive : ∀ t ∈ l, w.mem.Live t)
    (unstuck : NeverStuck n w) : NeverStuck n (note r o answer w m') := by
  intro t owner
  change m'.owner = some t at owner
  have same : (∀ t', o ≠ .handOver t') → w.mem.owner = some t →
      m'.Live t ∧ (note r o answer w m').Releases n t := by
    intro outside before
    obtain ⟨alive, releases⟩ := unstuck t before
    exact ⟨live_kept based live result (.inl before) alive,
      releases_kept based own kept pre result outside before alive releases⟩
  have entered : .run t true ∈ track o answer (w.context r) →
      (note r o answer w m').Releases n t := by
    intro inside
    refine .inl ⟨r, ?_⟩
    simpa only [World.InVm, note, Function.update_self] using inside
  rw [(memExec_follows result).owner] at owner
  cases o with
  | casOwner t' holder =>
      cases answer with
      | false => exact same (by rintro _ ⟨⟩) owner
      | true =>
          obtain rfl : t' = holder := by simpa [ownLeaf] using own
          obtain rfl : t' = t := by simpa [ownerAfter] using owner
          obtain ⟨rest, context⟩ := pre
          have free := casOwner_won result
          refine ⟨?_, entered (by simp [context])⟩
          simp only [memExec, free, if_true] at result
          cases result
          exact live free
  | park t' holder =>
      cases answer with
      | none => exact same (by rintro _ ⟨⟩) owner
      | some claimed =>
          obtain rfl : t' = holder := by simpa [ownLeaf] using own
          obtain rfl : t' = t := by simpa [ownerAfter] using owner
          obtain ⟨c, hand, rest, context, _⟩ := pre
          refine ⟨(park_fifoOnly result).live_iff.mpr live, entered ?_⟩
          cases claimed <;> simp [context]
  | handOver t' =>
      obtain rfl : answer = some t := owner
      obtain ⟨rest, rfl, _⟩ := queue.handOver_some result
      refine ⟨(handOver_fifoOnly result).live_iff.mpr
        (alive t List.mem_cons_self), ?_⟩
      refine .inr (.inr ⟨r, ?_⟩)
      simp [note, Section.word, Hand.isFresh]
  | _ => exact same (by rintro _ ⟨⟩) owner

theorem guarded_kept (touched : ∀ t, o.block = some t → (w.mem.tasks t).born = true)
    (result : memExec r o choice w.mem = some (answer, m'))
    (guarded : Guarded n w) : Guarded n (note r o answer w m') := by
  obtain ⟨⟨l, stop, queue, alive⟩, unstuck⟩ := guarded
  exact ⟨queueLive_kept based live touched result queue alive,
    neverStuck_kept based own live kept pre result queue alive unstuck⟩

end Based

end Kept

theorem start_guarded (setup : Setup N) : Guarded setup.n setup.start.state :=
  ⟨⟨[], none, (start_waiters setup).queue, nofun⟩, nofun⟩

/-- The VM mutex is never stuck in every run in which its owner and its waiters
stay live, the leaves a runner steps are its own task's, and the owner's word is
neither given up nor spent outside the VM. -/
theorem neverStuck_of_keepsLive {config : setup.machine.Config}
    (reach : Machine.Reach (M := setup.machine)
      (fun r o w => ownLeaf o = true ∧ keepsLive o w ∧ keepsOwner r o w)
      setup.start config) :
    NeverStuck setup.n config.state := by
  obtain ⟨guarded, _⟩ := Setup.invariant (Guarded setup.n)
    (start_guarded setup)
    (fun r o choice w answer m' allowed based pre touched result guarded =>
      guarded_kept based allowed.1 allowed.2.1 allowed.2.2 pre touched result
        guarded) reach
  exact guarded.owner

/-- A decidable condition that is enough for a run with nothing ended and no
word given up. -/
def undisturbed (r : Fin N) : Op → World N → Bool
  | .casOwner _ holder, w | .park _ holder, w =>
      !w.mem.terminal holder && !(w.mem.tasks holder).dead
  | .swapDead _, _ | .clearRoot _ _, _ => false
  | .coro (.storeStatus _ st), _ | .frame _ (.storeStatus _ st), _ =>
      !st.terminal
  | .mark (.drop _), _ | .mark (.refused _), _ | .mark (.leak _), _ => false
  | .stepLeaf t, w => w.InVm r t
  | _, _ => true

theorem keepsLive_of_undisturbed {r : Fin N} {o : Op} {w : World N}
    (calm : undisturbed r o w = true) : keepsLive o w ∧ keepsOwner r o w := by
  cases o with
  | casOwner t holder =>
      refine ⟨fun _ => ?_, trivial⟩
      simpa [undisturbed, Memory.Live] using calm
  | park t holder =>
      refine ⟨?_, trivial⟩
      simpa [undisturbed, Memory.Live, keepsLive] using calm
  | swapDead t | clearRoot t outside => cases calm
  | coro access | frame t access => cases access with
    | storeStatus c st =>
        refine ⟨fun ended => ?_, trivial⟩
        simp [undisturbed, ended] at calm
    | _ => exact ⟨trivial, trivial⟩
  | stepLeaf t => exact ⟨trivial, fun _ => .inl (of_decide_eq_true calm)⟩
  | mark m => cases m with
    | drop t | refused t | leak t => cases calm
    | _ => exact ⟨trivial, trivial⟩
  | _ => exact ⟨trivial, trivial⟩

def handsOver : Schedule := parksSecond ++ returns 0 .pending ++ solo 0 3

theorem neverStuck_of_keepsLive_handed :
    ∃ config, Machine.Reach (M := pair.machine)
      (fun r o w => ownLeaf o = true ∧ keepsLive o w ∧ keepsOwner r o w)
      pair.start config ∧
      config.state.mem.owner = some 2 ∧ NeverStuck pair.n config.state := by
  obtain ⟨config, reach, owner⟩ := Machine.exists_reach (M := pair.machine)
    (fun r o w => ownLeaf o = true ∧ keepsLive o w ∧ keepsOwner r o w)
    (fun r o w => ownLeaf o && undisturbed r o w)
    (fun _ _ _ ok => by
      simp only [Bool.and_eq_true] at ok
      exact ⟨ok.1, keepsLive_of_undisturbed ok.2⟩)
    pair.start handsOver (fun config => config.state.mem.owner == some 2)
    (by decide +kernel)
  exact ⟨config, reach, by simpa using owner, neverStuck_of_keepsLive reach⟩

/-- Task 2 is parked on the FIFO; the step of task 1 retires it and then hands
the mutex over to it. -/
def handsOverRetired : Schedule :=
  wakes 0 ++ setsVmOnly 0 5 ++ setsVmOnly 0 6 ++ creates 0 5 1 ++
  creates 0 6 2 ++ pass 0 ++ solo 0 35 ++ wakes 1 ++ pass 1 ++ solo 1 45 ++
  call 0 (.taskRetire 2) ++ solo 0 8 ++ returns 0 .pending ++ solo 0 20

theorem owner_fails :
    ¬∀ config, Machine.Reach (M := pair.machine)
      (fun r o w => callersOk r o w = true) pair.start config →
        NeverStuck pair.n config.state := by
  intro claim
  obtain ⟨config, reach, stuck⟩ := exists_called handsOverRetired
    (fun config => config.state.mem.owner == some 2 &&
      config.state.mem.terminal 2) (by decide +kernel)
  simp only [Bool.and_eq_true, beq_iff_eq] at stuck
  obtain ⟨owner, ended⟩ := stuck
  obtain ⟨⟨running, _⟩, _⟩ := claim config reach 2 owner
  rw [ended] at running
  cases running

end Metal.Coop
