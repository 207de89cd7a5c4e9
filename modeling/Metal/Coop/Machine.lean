import Metal.Coop.State

namespace Metal.Coop

open Metal.Lib

/-! The operations a runner performs on shared memory, one at a time.  The
accesses made under `fifo_lock` or `s_timer_lock` up to the next access that
other runners can see are one operation. -/

inductive CoroOp
  | loadStatus (c : CoroPtr)
  | storeStatus (c : CoroPtr) (st : Status)
  | loadAwaiting (c : CoroPtr)
  | storeAwaiting (c : CoroPtr) (child : Option CoroPtr)
  | loadWaiter (c : CoroPtr)
  | storeWaiter (c : CoroPtr) (parent : CoroPtr)
  | loadTask (c : CoroPtr)
  | storeTask (c : CoroPtr) (t : Option TaskPtr)
  | loadStep (c : CoroPtr)
  | loadVmOnly (c : CoroPtr)
  | storeVmOnly (c : CoroPtr)
  | loadAutoFree (c : CoroPtr)
  | storeAutoFree (c : CoroPtr)

@[reducible] def CoroOp.Ret : CoroOp → Type
  | .loadStatus _ => Status
  | .loadAwaiting _ => Option CoroPtr
  | .loadWaiter _ => Option CoroPtr
  | .loadTask _ => Option TaskPtr
  | .loadStep _ => Bool
  | .loadVmOnly _ => Bool
  | .loadAutoFree _ => Bool
  | .storeStatus _ _ => Unit
  | .storeAwaiting _ _ => Unit
  | .storeWaiter _ _ => Unit
  | .storeTask _ _ => Unit
  | .storeVmOnly _ => Unit
  | .storeAutoFree _ => Unit

/-- Calls a coroutine body, the network pump or the main program may make. -/
inductive Api
  | postTask (t : TaskPtr)
  | sleepUs (self : CoroPtr) (us : Nat)
  | yieldPark (self : CoroPtr)
  | await (self child : CoroPtr)
  | createTask (c : CoroPtr)
  | taskReclaim (t : TaskPtr)
  | taskDetach (t : TaskPtr)
  | taskRetire (t : TaskPtr)
  | runUntil (waiter : CoroPtr)
  | poll
  | yield
  | setVmOnly (c : CoroPtr)
  | setAutoFree (c : CoroPtr)
  | setStatus (c : CoroPtr) (st : Status)

inductive Act
  | api (a : Api)
  | ret (st : Status)

inductive Mark
  /-- Code outside the card hands `t` to post, sleep, yield-park, reclaim,
  detach or retire. -/
  | enter (t : TaskPtr)
  | enterPost (t : TaskPtr)
  | leavePost (t : TaskPtr)
  | leaveTask (t : TaskPtr)
  /-- A claimed word is given up although its task was not found terminal: a C
  frame owns the task, or its leaf has no step function. -/
  | drop (t : TaskPtr)
  /-- `drain_one` keeps the claimed ref after a refused re-push. -/
  | leak (t : TaskPtr)
  /-- A push on behalf of a claimed or handed-over word was refused. -/
  | refused (t : TaskPtr)
  /-- `step_task` goes on although `try_acquire` returned an error. -/
  | unlocked (t : TaskPtr)
  | retired (t : TaskPtr)

inductive Op
  | ring (o : RingOp)
  | loadDead (t : TaskPtr)
  | swapDead (t : TaskPtr)
  | addRef (t : TaskPtr)
  | subRef (t : TaskPtr)
  | orDead (t : TaskPtr)
  | taskFree (t : TaskPtr)
  | memFree (t : TaskPtr)
  | freeFrame (c : CoroPtr)
  | allocTask (c : CoroPtr)
  | loadRoot (t : TaskPtr)
  | enterTask (t : TaskPtr)
  /-- `outside` when `task_retire` clears the root of a task other than the one
  its runner is stepping. -/
  | clearRoot (t : TaskPtr) (outside : Bool)
  | loadOnCStack (t : TaskPtr)
  | storeOnCStack (t : TaskPtr) (value : Bool)
  | casRunning (t : TaskPtr)
  | clearRunning (t : TaskPtr)
  | loadRunning (t : TaskPtr)
  | coro (o : CoroOp)
  /-- An access of `step_task` to a frame it reached from `t`'s root. -/
  | frame (t : TaskPtr) (o : CoroOp)
  | clock
  | allocTimer
  | insertTimer (tm : Timer)
  | popTimer (now : Nat)
  | timerHead
  /-- The mutex accesses of `step_task` on `t`, whose leaf belongs to
  `holder`. -/
  | ownerIs (t holder : TaskPtr)
  | casOwner (t holder : TaskPtr)
  | lockFifo
  | unlockFifo
  | park (t holder : TaskPtr)
  | handOver (t : TaskPtr)
  | loadCurrent
  | storeCurrent (t : Option TaskPtr)
  | loadWorker
  | loadVmCapable
  | loadVmLockReady
  | addBusy
  | subBusy
  | loadBusy
  | stepLeaf (t : TaskPtr)
  | act
  | idle
  /-- `task_is_terminal` found the root cleared between its two reads. -/
  | crash
  /-- `step_task` found the root of `t`, or a waiter, cleared between a test
  and the access behind it. -/
  | fault (t : TaskPtr)
  | mark (m : Mark)

@[reducible] def Op.Ret : Op → Type
  | .ring o => o.Ret
  | .loadDead _ => Bool
  | .swapDead _ => Unit
  | .addRef _ => Unit
  | .subRef _ => RefWord
  | .orDead _ => RefWord
  | .taskFree _ => Unit
  | .memFree _ => Unit
  | .freeFrame _ => Unit
  | .allocTask _ => Option TaskPtr
  | .loadRoot _ => Option CoroPtr
  | .enterTask _ => Option CoroPtr
  | .clearRoot _ _ => Unit
  | .loadOnCStack _ => Bool
  | .storeOnCStack _ _ => Unit
  | .casRunning _ => Bool
  | .clearRunning _ => Unit
  | .loadRunning _ => Bool
  | .coro o => o.Ret
  | .frame _ o => o.Ret
  | .clock => Nat
  | .allocTimer => Bool
  | .insertTimer _ => Unit
  | .popTimer _ => Option TaskPtr
  | .timerHead => Option Nat
  | .ownerIs _ _ => Bool
  | .casOwner _ _ => Bool
  | .lockFifo => Unit
  | .unlockFifo => Unit
  | .park _ _ => Option Bool
  | .handOver _ => Option TaskPtr
  | .loadCurrent => Option TaskPtr
  | .storeCurrent _ => Unit
  | .loadWorker => Bool
  | .loadVmCapable => Bool
  | .loadVmLockReady => Bool
  | .addBusy => Unit
  | .subBusy => Unit
  | .loadBusy => Nat
  | .stepLeaf _ => Unit
  | .act => Act
  | .idle => Act
  | .crash => Empty
  | .fault _ => Empty
  | .mark _ => Unit

def Op.block : Op → Option TaskPtr
  | .loadDead t | .swapDead t | .addRef t | .subRef t | .orDead t
  | .taskFree t | .memFree t | .loadRoot t | .enterTask t | .clearRoot t _
  | .loadOnCStack t | .storeOnCStack t _ | .casRunning t | .clearRunning t
  | .loadRunning t | .park _ t => some t
  | _ => none

/-- What the environment decides: clock readings, allocations, and what code
outside the card does. -/
inductive Choice
  | none
  | tick (now : Nat)
  | block (t : TaskPtr)
  | grant
  | act (a : Act)

section Exec

variable {N : Nat}

def coroExec : (o : CoroOp) → Memory N → o.Ret × Memory N
  | .loadStatus c, m => ((m.coros c).status, m)
  | .storeStatus c st, m =>
      ((), m.setCoro c fun coro => { coro with status := st })
  | .loadAwaiting c, m => ((m.coros c).awaiting, m)
  | .storeAwaiting c child, m =>
      ((), m.setCoro c fun coro => { coro with awaiting := child })
  | .loadWaiter c, m => ((m.coros c).waiter, m)
  | .storeWaiter c parent, m =>
      ((), m.setCoro c fun coro => { coro with waiter := some parent })
  | .loadTask c, m => ((m.coros c).task, m)
  | .storeTask c t, m => ((), m.setCoro c fun coro => { coro with task := t })
  | .loadStep c, m => ((m.coros c).step, m)
  | .loadVmOnly c, m => ((m.coros c).vmOnly, m)
  | .storeVmOnly c, m =>
      ((), m.setCoro c fun coro => { coro with vmOnly := true })
  | .loadAutoFree c, m => ((m.coros c).autoFree, m)
  | .storeAutoFree c, m =>
      ((), m.setCoro c fun coro => { coro with autoFree := true })

def Task.fresh (root : CoroPtr) : Task where
  root := some root
  onCStack := false
  running := false
  mutexNext := none
  ringRefs := 0
  dead := false
  born := true
  frees := 0

/-- One operation of runner `r`; `none` when it is blocked or has faulted, or
when the environment's choice does not answer it. -/
def memExec (r : Fin N) :
    (o : Op) → Choice → Memory N → Option (o.Ret × Memory N)
  | .ring o, _, m =>
      let outcome := ringExec o m.inbox
      some (outcome.1, { m with inbox := outcome.2 })
  | .loadDead t, _, m => some ((m.tasks t).dead, m)
  | .swapDead t, _, m =>
      some ((), m.setTask t fun task => { task with dead := true })
  | .addRef t, _, m =>
      some ((), m.setTask t fun task =>
        { task with ringRefs := task.ringRefs + 1 })
  | .subRef t, _, m =>
      some ((m.tasks t).ringRefs, m.setTask t fun task =>
        { task with ringRefs := task.ringRefs - 1 })
  | .orDead t, _, m =>
      some ((m.tasks t).ringRefs, m.setTask t fun task =>
        { task with ringRefs := task.ringRefs ||| taskDeadBit })
  | .taskFree t, _, m =>
      some ((), m.setTask t fun task => { task with frees := task.frees + 1 })
  | .memFree _, _, m => some ((), m)
  | .freeFrame _, _, m => some ((), m)
  | .allocTask c, choice, m =>
      match choice with
      | .block t =>
          if t = 0 ∨ (m.tasks t).born then none
          else some (some t, m.setTask t fun _ => Task.fresh c)
      | _ => some (none, m)
  | .loadRoot t, _, m => some ((m.tasks t).root, m)
  | .enterTask t, _, m => some ((m.tasks t).root, m)
  | .clearRoot t _, _, m =>
      some ((), m.setTask t fun task => { task with root := none })
  | .loadOnCStack t, _, m => some ((m.tasks t).onCStack, m)
  | .storeOnCStack t value, _, m =>
      some ((), m.setTask t fun task => { task with onCStack := value })
  | .casRunning t, _, m =>
      if (m.tasks t).running then some (false, m)
      else some (true, m.setTask t fun task => { task with running := true })
  | .clearRunning t, _, m =>
      some ((), m.setTask t fun task => { task with running := false })
  | .loadRunning t, _, m => some ((m.tasks t).running, m)
  | .coro o, _, m => some (coroExec o m)
  | .frame _ o, _, m => some (coroExec o m)
  | .clock, choice, m =>
      match choice with
      | .tick now => some (now, m)
      | _ => none
  | .allocTimer, choice, m =>
      match choice with
      | .grant => some (true, m)
      | _ => some (false, m)
  | .insertTimer tm, _, m =>
      some ((), { m with timers := timerInsert tm m.timers })
  | .popTimer now, _, m =>
      match m.timers with
      | [] => some (none, m)
      | tm :: rest =>
          if tm.deadlineUs ≤ now then
            some (some tm.task, { m with timers := rest })
          else some (none, m)
  | .timerHead, _, m => some (m.timers.head?.map Timer.deadlineUs, m)
  | .ownerIs _ holder, _, m => some (decide (m.owner = some holder), m)
  | .casOwner _ holder, _, m =>
      if m.owner = none then some (true, { m with owner := some holder })
      else some (false, m)
  | .lockFifo, _, m =>
      if m.fifoLock then none else some ((), { m with fifoLock := true })
  | .unlockFifo, _, m => some ((), { m with fifoLock := false })
  | .park _ holder, _, m =>
      let queued := m.append holder
      if m.owner = none then
        match { queued with owner := some holder }.unlink holder with
        | none => none
        | some (wasQueued, claimed) => some (some wasQueued, claimed)
      else some (none, queued)
  | .handOver _, _, m =>
      let popped := m.popWaiter
      some (popped.1, { popped.2 with owner := popped.1 })
  | .loadCurrent, _, m => some (m.current r, m)
  | .storeCurrent t, _, m =>
      some ((), { m with current := Function.update m.current r t })
  | .loadWorker, _, m => some (m.worker r, m)
  | .loadVmCapable, _, m => some (m.vmCapable r, m)
  | .loadVmLockReady, _, m => some (m.vmLockReady, m)
  | .addBusy, _, m => some ((), { m with busy := (m.busy + 1) % 2 ^ 32 })
  | .subBusy, _, m =>
      some ((), { m with busy := (m.busy + (2 ^ 32 - 1)) % 2 ^ 32 })
  | .loadBusy, _, m => some (m.busy, m)
  | .stepLeaf _, _, m => some ((), m)
  | .act, choice, m =>
      match choice with
      | .act a => some (a, m)
      | _ => none
  | .idle, choice, m =>
      match choice with
      | .act a => some (a, m)
      | _ => none
  | .crash, _, _ => none
  | .fault _, _, _ => none
  | .mark _, _, m => some ((), m)

end Exec

end Metal.Coop
