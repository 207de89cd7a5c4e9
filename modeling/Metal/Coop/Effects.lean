import Metal.Coop.History

namespace Metal.Coop

open Metal.Lib

/-! Which operations can change which part of the memory. -/

variable {N : Nat}

def Task.core (task : Task) : Task := { task with mutexNext := none }

structure FifoOnly (m m' : Memory N) : Prop where
  core : ∀ t, (m'.tasks t).core = (m.tasks t).core
  inbox : m'.inbox = m.inbox
  coros : m'.coros = m.coros
  timers : m'.timers = m.timers
  vmLockReady : m'.vmLockReady = m.vmLockReady

namespace FifoOnly

theorem refl (m : Memory N) : FifoOnly m m :=
  ⟨fun _ => rfl, rfl, rfl, rfl, rfl⟩

theorem trans {m₁ m₂ m₃ : Memory N} (first : FifoOnly m₁ m₂)
    (second : FifoOnly m₂ m₃) : FifoOnly m₁ m₃ where
  core t := (second.core t).trans (first.core t)
  inbox := second.inbox.trans first.inbox
  coros := second.coros.trans first.coros
  timers := second.timers.trans first.timers
  vmLockReady := second.vmLockReady.trans first.vmLockReady

theorem setNext (m : Memory N) (t : TaskPtr) (next : Option TaskPtr) :
    FifoOnly m (m.setNext t next) := by
  refine ⟨fun t' => ?_, rfl, rfl, rfl, rfl⟩
  by_cases same : t' = t
  · subst same
    simp [Memory.setNext, Memory.setTask, Task.core]
  · simp [Memory.setNext, Memory.setTask, Function.update_of_ne same]

theorem setMutex (m : Memory N) (owner head tail : Option TaskPtr) :
    FifoOnly m { m with owner := owner, waitersHead := head, waitersTail := tail } :=
  ⟨fun _ => rfl, rfl, rfl, rfl, rfl⟩

end FifoOnly

theorem append_fifoOnly (m : Memory N) (t : TaskPtr) :
    FifoOnly m (m.append t) := by
  have cleared := FifoOnly.setNext m t none
  unfold Memory.append
  dsimp only
  split
  · rename_i last _
    have linked := cleared.trans (FifoOnly.setNext _ last (some t))
    exact linked.trans (FifoOnly.setMutex _ _ _ (some t))
  · exact cleared.trans (FifoOnly.setMutex _ _ (some t) (some t))

variable {t : TaskPtr}

theorem unlink_fifoOnly {m m' : Memory N} {wasQueued : Bool}
    (unlinked : m.unlink t = some (wasQueued, m')) : FifoOnly m m' := by
  unfold Memory.unlink at unlinked
  split at unlinked
  · cases unlinked
  · cases unlinked
    exact FifoOnly.setNext m t none
  · rename_i prev found _
    cases unlinked
    refine FifoOnly.trans ?_ (FifoOnly.setNext _ t none)
    cases prev with
    | none =>
        dsimp only
        split
        · exact ⟨fun _ => rfl, rfl, rfl, rfl, rfl⟩
        · exact ⟨fun _ => rfl, rfl, rfl, rfl, rfl⟩
    | some before =>
        have hooked := FifoOnly.setNext m before (m.tasks t).mutexNext
        dsimp only
        split
        · exact hooked.trans ⟨fun _ => rfl, rfl, rfl, rfl, rfl⟩
        · exact hooked

theorem popWaiter_fifoOnly (m : Memory N) : FifoOnly m m.popWaiter.2 := by
  unfold Memory.popWaiter
  split
  · exact FifoOnly.refl m
  · rename_i wake _
    refine FifoOnly.trans ?_ (FifoOnly.setNext _ wake none)
    dsimp only
    split
    · exact ⟨fun _ => rfl, rfl, rfl, rfl, rfl⟩
    · exact ⟨fun _ => rfl, rfl, rfl, rfl, rfl⟩

section Exec

variable {r : Fin N} {choice : Choice} {m m' : Memory N}

theorem park_fifoOnly {holder : TaskPtr} {answer : Option Bool}
    (result : memExec r (.park t holder) choice m = some (answer, m')) : FifoOnly m m' := by
  have queued := append_fifoOnly m holder
  simp only [memExec] at result
  split at result
  · split at result
    · cases result
    · rename_i unlinked
      cases result
      have claimed : FifoOnly m { m.append holder with owner := some holder } :=
        queued.trans (FifoOnly.setMutex _ _ _ _)
      exact claimed.trans (unlink_fifoOnly unlinked)
  · cases result
    exact queued

theorem handOver_fifoOnly {answer : Option TaskPtr}
    (result : memExec r (.handOver t) choice m = some (answer, m')) : FifoOnly m m' := by
  simp only [memExec] at result
  cases result
  exact (popWaiter_fifoOnly m).trans (FifoOnly.setMutex _ _ _ _)

end Exec

/-- What an operation does to the block of `t`, its FIFO link apart. -/
def taskAfter : (o : Op) → o.Ret → TaskPtr → Task → Task
  | .swapDead t', _, t, task =>
      if t = t' then { task with dead := true } else task
  | .addRef t', _, t, task =>
      if t = t' then { task with ringRefs := task.ringRefs + 1 } else task
  | .subRef t', _, t, task =>
      if t = t' then { task with ringRefs := task.ringRefs - 1 } else task
  | .orDead t', _, t, task =>
      if t = t' then { task with ringRefs := task.ringRefs ||| taskDeadBit }
      else task
  | .taskFree t', _, t, task =>
      if t = t' then { task with frees := task.frees + 1 } else task
  | .allocTask c, answer, t, task =>
      if answer = some t then Task.fresh c else task
  | .clearRoot t' _, _, t, task =>
      if t = t' then { task with root := none } else task
  | .storeOnCStack t' value, _, t, task =>
      if t = t' then { task with onCStack := value } else task
  | .casRunning t', won, t, task =>
      if won = true ∧ t = t' then { task with running := true } else task
  | .clearRunning t', _, t, task =>
      if t = t' then { task with running := false } else task
  | _, _, _, task => task

def slotAfter : (o : Op) → o.Ret → (Nat → Word) → Nat → Word
  | .ring (.casSlot idx _ desired), stored, slot =>
      if stored then Function.update slot idx desired else slot
  | .ring (.clearSlot idx), _, slot => Function.update slot idx ringStEmpty
  | _, _, slot => slot

def timersAfter : (o : Op) → o.Ret → List Timer → List Timer
  | .insertTimer tm, _, timers => timerInsert tm timers
  | .popTimer _, fired, timers =>
      if Option.isSome fired then timers.tail else timers
  | _, _, timers => timers

def statusAfter : Op → CoroPtr → Status → Status
  | .coro (.storeStatus c' st), c, status => if c = c' then st else status
  | .frame _ (.storeStatus c' st), c, status => if c = c' then st else status
  | _, _, status => status

def ownerAfter : (o : Op) → o.Ret → Option TaskPtr → Option TaskPtr
  | .casOwner _ holder, won, owner => if won then some holder else owner
  | .park _ holder, claimed, owner =>
      if Option.isSome claimed then some holder else owner
  | .handOver _, woken, _ => woken
  | _, _, owner => owner

def Op.queues : Op → Bool
  | .park _ _ | .handOver _ => true
  | _ => false

attribute [grind =] memExec taskAfter slotAfter timersAfter statusAfter ownerAfter

structure Follows (o : Op) (answer : o.Ret) (m m' : Memory N) : Prop where
  core : ∀ t, (m'.tasks t).core = (taskAfter o answer t (m.tasks t)).core
  slot : m'.inbox.slot = slotAfter o answer m.inbox.slot
  timers : m'.timers = timersAfter o answer m.timers
  status : ∀ c, (m'.coros c).status = statusAfter o c (m.coros c).status
  owner : m'.owner = ownerAfter o answer m.owner
  vmLockReady : m'.vmLockReady = m.vmLockReady
  next : o.queues = false → ∀ t,
    (m'.tasks t).mutexNext = (taskAfter o answer t (m.tasks t)).mutexNext
  head : o.queues = false → m'.waitersHead = m.waitersHead
  tail : o.queues = false → m'.waitersTail = m.waitersTail

section Exec

variable {r : Fin N} {choice : Choice} {m m' : Memory N} {o : Op}
  {answer : o.Ret}

theorem setTask_tasks (m : Memory N) (t t' : TaskPtr) (f : Task → Task) :
    (m.setTask t f).tasks t' = if t' = t then f (m.tasks t') else m.tasks t' := by
  by_cases same : t' = t
  · subst same
    simp [Memory.setTask]
  · simp [Memory.setTask, same]

theorem setCoro_status (m : Memory N) (c c' : CoroPtr) (f : Coro → Coro) :
    ((m.setCoro c f).coros c').status =
      if c' = c then (f (m.coros c')).status else (m.coros c').status := by
  by_cases same : c' = c
  · subst same
    simp [Memory.setCoro]
  · simp [Memory.setCoro, same]

theorem setTask_follows (t : TaskPtr) (f : Task → Task)
    (task : ∀ t' task, taskAfter o answer t' task =
      if t' = t then f task else task)
    (slot : ∀ slot, slotAfter o answer slot = slot)
    (timers : ∀ timers, timersAfter o answer timers = timers)
    (status : ∀ c status, statusAfter o c status = status)
    (owner : ∀ owner, ownerAfter o answer owner = owner) :
    Follows o answer m (m.setTask t f) := by
  refine ⟨?_, ?_, ?_, ?_, ?_, rfl, ?_, fun _ => rfl, fun _ => rfl⟩
  · intro t'
    rw [setTask_tasks, task]
  · rw [slot]
    rfl
  · rw [timers]
    rfl
  · intro c
    rw [status]
    rfl
  · rw [owner]
    rfl
  · intro _ t'
    rw [setTask_tasks, task]

theorem coro_follows {o : CoroOp} {answer : o.Ret}
    (result : some (coroExec o m) = some (answer, m')) :
    Follows (.coro o) answer m m' := by
  cases o with
  | storeStatus c st =>
      cases result
      refine ⟨fun _ => rfl, rfl, rfl, fun c' => ?_, rfl, rfl, fun _ _ => rfl,
        fun _ => rfl, fun _ => rfl⟩
      simp [setCoro_status, statusAfter]
  | _ =>
      cases result
      refine ⟨fun _ => rfl, rfl, rfl, fun c' => ?_, rfl, rfl, fun _ _ => rfl,
        fun _ => rfl, fun _ => rfl⟩
      first
        | rfl
        | simp [setCoro_status, statusAfter]

theorem ringExec_slot (o : RingOp) (box : Inbox) :
    (ringExec o box).2.slot =
      slotAfter (.ring o) (ringExec o box).1 box.slot := by
  obtain ⟨n, head, tail, count, slot⟩ := box
  cases o with
  | casSlot idx expected desired =>
      simp only [ringExec]
      split <;> rfl
  | _ => rfl

theorem ring_follows {o : RingOp} {answer : o.Ret}
    (result : memExec r (.ring o) choice m = some (answer, m')) :
    Follows (.ring o) answer m m' := by
  obtain ⟨rfl, rfl⟩ := Prod.mk.inj (Option.some.inj result)
  exact ⟨fun _ => rfl, ringExec_slot o m.inbox, rfl, fun _ => rfl, rfl, rfl,
    fun _ _ => rfl, fun _ => rfl, fun _ => rfl⟩

theorem append_owner (m : Memory N) (t : TaskPtr) :
    (m.append t).owner = m.owner := by
  unfold Memory.append
  dsimp only
  split <;> rfl

theorem unlink_owner {wasQueued : Bool} (unlinked : m.unlink t = some (wasQueued, m')) :
    m'.owner = m.owner := by
  unfold Memory.unlink at unlinked
  split at unlinked
  · cases unlinked
  · cases unlinked
    rfl
  · rename_i prev found _
    cases unlinked
    cases prev <;> by_cases last : m.waitersTail = some t <;>
      simp [Memory.setNext, Memory.setTask, last]

theorem park_follows {holder : TaskPtr} {answer : Option Bool}
    (result : memExec r (.park t holder) choice m = some (answer, m')) :
    Follows (.park t holder) answer m m' := by
  have only := park_fifoOnly result
  refine ⟨only.core, congrArg Inbox.slot only.inbox, only.timers, ?_, ?_,
    only.vmLockReady, nofun, nofun, nofun⟩
  · intro c
    rw [only.coros]
    rfl
  · simp only [memExec] at result
    split at result
    · split at result
      · cases result
      · rename_i unlinked
        cases result
        exact unlink_owner unlinked
    · cases result
      exact append_owner m holder

theorem handOver_follows {answer : Option TaskPtr}
    (result : memExec r (.handOver t) choice m = some (answer, m')) :
    Follows (.handOver t) answer m m' := by
  have only := handOver_fifoOnly result
  refine ⟨only.core, congrArg Inbox.slot only.inbox, only.timers, ?_, ?_,
    only.vmLockReady, nofun, nofun, nofun⟩
  · intro c
    rw [only.coros]
    rfl
  · cases result
    rfl

theorem memExec_follows (result : memExec r o choice m = some (answer, m')) :
    Follows o answer m m' := by
  cases o with
  | park t holder => exact park_follows result
  | handOver t => exact handOver_follows result
  | coro o => exact coro_follows result
  | frame t o =>
      obtain ⟨core, slot, timers, status, owner, ready, next, head, tail⟩ :=
        coro_follows result
      refine ⟨core, slot, timers, ?_, owner, ready, next, head, tail⟩
      cases o <;> exact status
  | ring o => exact ring_follows result
  | swapDead t | addRef t | subRef t | orDead t | taskFree t | clearRoot t outside
  | storeOnCStack t value | clearRunning t =>
      cases result
      exact setTask_follows t _ (fun _ _ => rfl) (fun _ => rfl) (fun _ => rfl)
        (fun _ _ => rfl) fun _ => rfl
  | casRunning t =>
      simp only [memExec] at result
      split at result <;> cases result
      · exact ⟨fun _ => rfl, rfl, rfl, fun _ => rfl, rfl, rfl, fun _ _ => rfl,
          fun _ => rfl, fun _ => rfl⟩
      · exact setTask_follows t _ (fun _ _ => by simp [taskAfter])
          (fun _ => rfl) (fun _ => rfl) (fun _ _ => rfl) fun _ => rfl
  | allocTask c =>
      simp only [memExec] at result
      split at result
      · split at result
        · cases result
        · rename_i block _
          cases result
          refine setTask_follows block _ (fun t' _ => ?_) (fun _ => rfl)
            (fun _ => rfl) (fun _ _ => rfl) fun _ => rfl
          simp [taskAfter, eq_comm]
      · cases result
        exact ⟨fun _ => rfl, rfl, rfl, fun _ => rfl, rfl, rfl, fun _ _ => rfl,
          fun _ => rfl, fun _ => rfl⟩
  | popTimer now =>
      simp only [memExec] at result
      split at result
      · cases result
        exact ⟨fun _ => rfl, rfl, rfl, fun _ => rfl, rfl, rfl, fun _ _ => rfl,
          fun _ => rfl, fun _ => rfl⟩
      · rename_i tm rest timers
        split at result <;> cases result
        · refine ⟨fun _ => rfl, rfl, ?_, fun _ => rfl, rfl, rfl,
            fun _ _ => rfl, fun _ => rfl, fun _ => rfl⟩
          rw [timers]
          rfl
        · exact ⟨fun _ => rfl, rfl, rfl, fun _ => rfl, rfl, rfl,
            fun _ _ => rfl, fun _ => rfl, fun _ => rfl⟩
  | clock | act | idle | lockFifo =>
      simp only [memExec] at result
      split at result <;> cases result
      exact ⟨fun _ => rfl, rfl, rfl, fun _ => rfl, rfl, rfl, fun _ _ => rfl,
        fun _ => rfl, fun _ => rfl⟩
  | allocTimer | casOwner _ _ =>
      simp only [memExec] at result
      split at result <;> cases result <;>
        exact ⟨fun _ => rfl, rfl, rfl, fun _ => rfl, rfl, rfl, fun _ _ => rfl,
          fun _ => rfl, fun _ => rfl⟩
  | crash | fault _ => cases result
  | _ =>
      cases result
      exact ⟨fun _ => rfl, rfl, rfl, fun _ => rfl, rfl, rfl, fun _ _ => rfl,
        fun _ => rfl, fun _ => rfl⟩

end Exec

def rootAfter : (o : Op) → o.Ret → TaskPtr → Option CoroPtr → Option CoroPtr
  | .allocTask c, answer, t, root => if answer = some t then some c else root
  | .clearRoot t' _, _, t, root => if t = t' then none else root
  | _, _, _, root => root

def runningAfter : (o : Op) → o.Ret → TaskPtr → Bool → Bool
  | .allocTask _, answer, t, running =>
      if answer = some t then false else running
  | .casRunning t', won, t, running =>
      if won = true ∧ t = t' then true else running
  | .clearRunning t', _, t, running => if t = t' then false else running
  | _, _, _, running => running

def bornAfter : (o : Op) → o.Ret → TaskPtr → Bool → Bool
  | .allocTask _, answer, t, born => if answer = some t then true else born
  | _, _, _, born => born

def refsAfter : (o : Op) → o.Ret → TaskPtr → RefWord → RefWord
  | .allocTask _, answer, t, refs => if answer = some t then 0 else refs
  | .addRef t', _, t, refs => if t = t' then refs + 1 else refs
  | .subRef t', _, t, refs => if t = t' then refs - 1 else refs
  | .orDead t', _, t, refs => if t = t' then refs ||| taskDeadBit else refs
  | _, _, _, refs => refs

def deadAfter : (o : Op) → o.Ret → TaskPtr → Bool → Bool
  | .allocTask _, answer, t, dead => if answer = some t then false else dead
  | .swapDead t', _, t, dead => if t = t' then true else dead
  | _, _, _, dead => dead

def freesAfter : (o : Op) → o.Ret → TaskPtr → Nat → Nat
  | .allocTask _, answer, t, frees => if answer = some t then 0 else frees
  | .taskFree t', _, t, frees => if t = t' then frees + 1 else frees
  | _, _, _, frees => frees

attribute [grind =] rootAfter runningAfter bornAfter refsAfter deadAfter freesAfter

section Exec

variable {r : Fin N} {choice : Choice} {m m' : Memory N} {o : Op}
  {answer : o.Ret}

section Fields

variable (follows : Follows o answer m m') (t : TaskPtr)

include follows

theorem Follows.root : (m'.tasks t).root = rootAfter o answer t (m.tasks t).root := by
  refine (congrArg Task.root (follows.core t)).trans ?_
  cases o <;> simp only [Task.core, taskAfter, rootAfter] <;> split <;> rfl

theorem Follows.running :
    (m'.tasks t).running = runningAfter o answer t (m.tasks t).running := by
  refine (congrArg Task.running (follows.core t)).trans ?_
  cases o <;> simp only [Task.core, taskAfter, runningAfter] <;> split <;> rfl

theorem Follows.born : (m'.tasks t).born = bornAfter o answer t (m.tasks t).born := by
  refine (congrArg Task.born (follows.core t)).trans ?_
  cases o <;> simp only [Task.core, taskAfter, bornAfter] <;> split <;> rfl

theorem Follows.refs :
    (m'.tasks t).ringRefs = refsAfter o answer t (m.tasks t).ringRefs := by
  refine (congrArg Task.ringRefs (follows.core t)).trans ?_
  cases o <;> simp only [Task.core, taskAfter, refsAfter] <;> split <;> rfl

theorem Follows.dead : (m'.tasks t).dead = deadAfter o answer t (m.tasks t).dead := by
  refine (congrArg Task.dead (follows.core t)).trans ?_
  cases o <;> simp only [Task.core, taskAfter, deadAfter] <;> split <;> rfl

theorem Follows.frees : (m'.tasks t).frees = freesAfter o answer t (m.tasks t).frees := by
  refine (congrArg Task.frees (follows.core t)).trans ?_
  cases o <;> simp only [Task.core, taskAfter, freesAfter] <;> split <;> rfl

end Fields

theorem memExec_born (result : memExec r o choice m = some (answer, m'))
    (born : (m.tasks t).born = true) : (m'.tasks t).born = true := by
  rw [(memExec_follows result).born t]
  cases o with
  | allocTask c =>
      simp only [bornAfter]
      split
      · rfl
      · exact born
  | _ => exact born

/-! What an answer says about the memory it was read from. -/

theorem alloc_unborn {c : CoroPtr}
    (result : memExec r (.allocTask c) choice m = some (some t, m')) :
    (m.tasks t).born = false := by
  simp only [memExec] at result
  split at result
  · split at result
    · cases result
    · rename_i free
      cases result
      simpa using (not_or.mp free).2
  · cases result

theorem casRunning_won (result : memExec r (.casRunning t) choice m = some (true, m')) :
    (m.tasks t).running = false := by
  simp only [memExec] at result
  split at result
  · cases result
  · rename_i free
    simpa using free

theorem casSlot_stored {idx : Nat} {expected desired : Word}
    (result : memExec r (.ring (.casSlot idx expected desired)) choice m =
      some (true, m')) :
    m.inbox.slot idx = expected := by
  simp only [memExec, ringExec] at result
  split at result
  · rename_i same
    exact same
  · cases result

end Exec

end Metal.Coop
