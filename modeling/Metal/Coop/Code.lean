import Metal.Coop.Machine

namespace Metal.Coop

open Metal.Lib

/-! The card's functions, as programs over the operations of the machine.  A
loop of the source is a procedure that calls itself; code outside the card (a
coroutine's step function, the network pump, the main program) is a procedure
that makes any calls it likes. -/

inductive Proc
  | main
  | user
  | taskOf (c : CoroPtr)
  | leafOf (t : TaskPtr) (leaf : CoroPtr)
  | stepLoop (t : TaskPtr)
  | fireTimers (now : Nat)
  | pollLoop
  | untilLoop (waiter : CoroPtr) (owner : Option TaskPtr) (stallUntil : Nat)

@[reducible] def Proc.Res : Proc → Type
  | .main => Unit
  | .user => Status
  | .taskOf _ => Option TaskPtr
  | .leafOf _ _ => CoroPtr
  | .stepLoop _ => Bool
  | .fireTimers _ => Unit
  | .pollLoop => Unit
  | .untilLoop _ _ _ => Bool

abbrev CoopSig : Signature where
  Op := Op
  Ret := Op.Ret
  Proc := Proc
  Res := Proc.Res

abbrev CoopProgram := Program CoopSig

def perform (o : Op) : CoopProgram o.Ret := .op o .done

def invoke (p : Proc) : CoopProgram p.Res := .call p .done

def ring (program : RingProgram α) : CoopProgram α :=
  program.embed (fun o => perform (.ring o)) fun p => Empty.elim p

def coro (o : CoroOp) : CoopProgram o.Ret := perform (.coro o)

def frame (t : TaskPtr) (o : CoroOp) : CoopProgram o.Ret :=
  perform (.frame t o)

def mark (m : Mark) : CoopProgram Unit := perform (.mark m)

def clock : CoopProgram Nat := perform .clock

def crash : CoopProgram α := .op Op.crash nofun

def fault (t : TaskPtr) : CoopProgram α := .op (Op.fault t) nofun

def taskOf (c : CoroPtr) : CoopProgram (Option TaskPtr) :=
  invoke (.taskOf c)

/-- A coroutine's `step(self)`. -/
def userStep : CoopProgram Status := invoke .user

def pump : CoopProgram Unit := do
  let _ ← userStep
  pure ()

/-! Task reclamation.  The functions below are only called on non-NULL tasks,
so their NULL tests are left out. -/

def taskIsTerminal (t : TaskPtr) : CoopProgram Bool := do
  match ← perform (.loadRoot t) with
  | none => pure true
  | some _ =>
      match ← perform (.loadRoot t) with
      | none => crash
      | some root =>
          let st ← coro (.loadStatus root)
          pure st.terminal

-- The first operation records that the block was passed to `task_free`.
def taskFree (t : TaskPtr) : CoopProgram Unit := do
  perform (.taskFree t)
  match ← perform (.loadRoot t) with
  | none => perform (.memFree t)
  | some root =>
      if ← coro (.loadAutoFree root) then
        perform (.memFree t)
        perform (.freeFrame root)
      else perform (.memFree t)

def lastRef (was : RefWord) : Bool :=
  was &&& taskRefMask = 1 ∧ was &&& taskDeadBit ≠ 0

def taskUnref (t : TaskPtr) : CoopProgram Unit := do
  let was ← perform (.subRef t)
  if lastRef was then taskFree t else pure ()

/-- `hold_task_ref`; true stands for the return value 0. -/
def holdTaskRef (t : TaskPtr) : CoopProgram Bool := do
  if ← perform (.loadDead t) then pure false
  else
    perform (.addRef t)
    if ← perform (.loadDead t) then
      taskUnref t
      pure false
    else pure true

def pushTaskRef (n : Nat) (t : TaskPtr) : CoopProgram Bool := do
  if ← holdTaskRef t then
    if ← ring (ringPush n ringKindTask t) then pure true
    else
      taskUnref t
      pure false
  else pure false

/-- A push whose result the source discards, for a word that is being put
back. -/
def rePush (n : Nat) (t : TaskPtr) : CoopProgram Unit := do
  if ← pushTaskRef n t then pure ()
  else mark (.refused t)

def unheld (prev : RefWord) : Bool :=
  prev &&& taskRefMask = 0 ∧ prev &&& taskDeadBit = 0

def taskMarkDead (t : TaskPtr) : CoopProgram Unit := do
  perform (.swapDead t)
  let prev ← perform (.orDead t)
  if unheld prev then taskFree t else pure ()

def taskReclaim (t : TaskPtr) : CoopProgram Bool := do
  mark (.enter t)
  if ← taskIsTerminal t then
    taskMarkDead t
    pure true
  else pure false

def taskDetach (t : TaskPtr) : CoopProgram Bool := do
  mark (.enter t)
  if ← taskIsTerminal t then
    perform (.clearRoot t false)
    taskMarkDead t
    pure true
  else pure false

def taskRetire (t : TaskPtr) : CoopProgram Bool := do
  mark (.enter t)
  if (← perform .loadCurrent) = some t then
    perform (.clearRoot t false)
    taskMarkDead t
    pure true
  else if ← perform (.loadRunning t) then pure false
  else
    perform (.clearRoot t true)
    taskMarkDead t
    mark (.retired t)
    pure true

def fireTimers : CoopProgram Unit := do
  let now ← clock
  invoke (.fireTimers now)

/-- `mutex_try_acquire` for a leaf that `step_task` reached from `t`. -/
def mutexTryAcquire (t : TaskPtr) (self : CoroPtr) : CoopProgram Status := do
  match ← taskOf self with
  | none => pure .error
  | some holder =>
      if ← perform (.ownerIs t holder) then pure .pending
      else if ← perform (.casOwner t holder) then
        pure .pending
      else
        perform .lockFifo
        if ← holdTaskRef holder then
          match ← perform (.park t holder) with
          | none =>
              perform .unlockFifo
              pure .waiting
          | some wasQueued =>
              perform .unlockFifo
              if wasQueued then
                taskUnref holder
                pure .pending
              else pure .pending
        else
          perform .unlockFifo
          pure .error

def mutexRelease (n : Nat) (t : TaskPtr) : CoopProgram Unit := do
  perform .lockFifo
  match ← perform (.handOver t) with
  | none => perform .unlockFifo
  | some wake =>
      perform .unlockFifo
      rePush n wake
      taskUnref wake

/-- `task->root->status == st`, two reads. -/
def rootStatusIs (t : TaskPtr) (st : Status) : CoopProgram Bool := do
  match ← perform (.loadRoot t) with
  | none => fault t
  | some root =>
      let found ← frame t (.loadStatus root)
      pure (decide (found = st))

/-- `*cur = NULL`, drop `running`, drop `s_busy`. -/
def stepAside (t : TaskPtr) : CoopProgram Unit := do
  perform (.storeCurrent none)
  perform (.clearRunning t)
  perform .subBusy

def handBack (n : Nat) (t : TaskPtr) : CoopProgram Bool := do
  stepAside t
  mark (.leaveTask t)
  rePush n t
  pure false

/-- Claim the interpreter; false when the task was parked and `step_task`
returns.  Any other result lets the step go on. -/
def vmClaim (t : TaskPtr) (leaf : CoroPtr) : CoopProgram Bool := do
  match ← mutexTryAcquire t leaf with
  | .waiting =>
      stepAside t
      mark (.leaveTask t)
      pure false
  | .pending => pure true
  | _ =>
      mark (.unlocked t)
      pure true

/-- The `vm_only` gate of the step loop; false when `step_task` returns. -/
def vmGate (n : Nat) (t : TaskPtr) (leaf : CoroPtr) : CoopProgram Bool := do
  if ← perform .loadVmLockReady then
    if ← perform .loadWorker then
      if ← perform .loadVmCapable then vmClaim t leaf else handBack n t
    else vmClaim t leaf
  else if ← perform .loadWorker then handBack n t
  else pure true

def vmLeave (n : Nat) (t : TaskPtr) (vmHeld : Bool) : CoopProgram Unit := do
  if vmHeld then
    if ← perform .loadVmLockReady then mutexRelease n t
    else pure ()
  else pure ()

/-- What the step loop makes of the status a leaf returned; true when it leaves
by `break`. -/
def leafReturned (t : TaskPtr) (leaf : CoroPtr) (st : Status) :
    CoopProgram Bool := do
  frame t (.storeStatus leaf st)
  match st with
  | .waiting =>
      match ← frame t (.loadAwaiting leaf) with
      | some _ => invoke (.stepLoop t)
      | none => pure true
  | .finished =>
      match ← frame t (.loadWaiter leaf) with
      | some _ =>
          match ← frame t (.loadWaiter leaf) with
          | some parent =>
              frame t (.storeAwaiting parent none)
              invoke (.stepLoop t)
          | none => fault t
      | none => pure true
  | _ => pure true

def runLeaf (n : Nat) (t : TaskPtr) (leaf : CoroPtr) (vmHeld : Bool) :
    CoopProgram Bool := do
  perform (.stepLeaf t)
  let st ← userStep
  vmLeave n t vmHeld
  leafReturned t leaf st

/-- One turn of `for (;;)` in `step_task`. -/
def stepTurn (n : Nat) (t : TaskPtr) : CoopProgram Bool := do
  match ← perform (.loadRoot t) with
  | none => fault t
  | some root =>
      let leaf ← invoke (.leafOf t root)
      if ← frame t (.loadStep leaf) then
        if ← frame t (.loadVmOnly leaf) then
          if ← vmGate n t leaf then runLeaf n t leaf true else pure false
        else runLeaf n t leaf false
      else
        frame t (.storeStatus leaf .error)
        mark (.drop t)
        pure true

/-- The tail of `step_task`: an `auto_free` root that ended is retired. -/
def stepEpilogue (t : TaskPtr) : CoopProgram Unit := do
  match ← perform (.loadRoot t) with
  | none => mark (.leaveTask t)
  | some _ =>
      if ← rootTerminal t then
        match ← perform (.loadRoot t) with
        | none => mark (.leaveTask t)
        | some _ =>
            match ← perform (.loadRoot t) with
            | none => fault t
            | some root =>
                if ← frame t (.loadAutoFree root) then
                  mark (.leaveTask t)
                  taskMarkDead t
                else mark (.leaveTask t)
      else mark (.leaveTask t)
where
  rootTerminal (t : TaskPtr) : CoopProgram Bool := do
    match ← perform (.loadRoot t) with
    | none => fault t
    | some root =>
        let st ← frame t (.loadStatus root)
        pure st.terminal

/-- The terminal test of `step_task`, one read of the root for each status. -/
def rootEnded (t : TaskPtr) : CoopProgram Bool := do
  if ← rootStatusIs t .finished then pure true
  else if ← rootStatusIs t .error then pure true
  else rootStatusIs t .cancelled

/-- `step_task` from the CAS on `running` on. -/
def stepLive (n : Nat) (t : TaskPtr) : CoopProgram Unit := do
  if ← perform (.casRunning t) then
    perform .addBusy
    perform (.storeCurrent (some t))
    if ← invoke (.stepLoop t) then
      stepAside t
      stepEpilogue t
    else pure ()
  else
    mark (.leaveTask t)
    rePush n t

def stepTask (n : Nat) (t : TaskPtr) : CoopProgram Unit := do
  match ← perform (.enterTask t) with
  | none => pure ()
  | some _ =>
      if ← perform (.loadOnCStack t) then
        mark (.drop t)
        mark (.leaveTask t)
      else if ← rootEnded t then mark (.leaveTask t)
      else stepLive n t

/-- What `drain_one` does with a word it claimed.  Its own task is put back
and never stepped here; a refused push keeps the claimed ref. -/
def driveOne (n : Nat) (t : TaskPtr) : CoopProgram Unit := do
  if (← perform .loadCurrent) = some t then
    if ← pushTaskRef n t then taskUnref t
    else mark (.leak t)
  else
    stepTask n t
    taskUnref t

/-- `drain_one`; true stands for the return value 0. -/
def drainOne (n : Nat) : CoopProgram Bool := do
  match ← ring (ringClaim n) with
  | none => pure false
  | some (word, idx) =>
      if ringKind word = ringKindStop then
        ring (ringRelease n idx)
        pure true
      else
        let t := payPtr (ringPay word)
        ring (ringRelease n idx)
        driveOne n t
        pure true

def yieldDrains (n : Nat) : (left : Nat) → CoopProgram Unit
  | 0 => pure ()
  | left + 1 => do
      let _ ← drainOne n
      pump
      yieldDrains n left

def yield (n : Nat) : CoopProgram Unit := do
  pump
  fireTimers
  yieldDrains n 8

def poll : CoopProgram Unit := do
  pump
  fireTimers
  invoke .pollLoop

/-- One turn of `for (;;)` in `poll`. -/
def pollTurn (n : Nat) : CoopProgram Unit := do
  match ← ring (ringClaim n) with
  | none => pure ()
  | some (word, idx) =>
      if ringKind word = ringKindStop then
        ring (ringRelease n idx)
        invoke .pollLoop
      else
        let t := payPtr (ringPay word)
        ring (ringRelease n idx)
        stepTask n t
        taskUnref t
        pump
        fireTimers
        invoke .pollLoop

def stallUs : Nat := 1000000

def deadline (now us : Nat) : Nat := (now + us) % 2 ^ 64

def setOnCStack (owner : Option TaskPtr) (value : Bool) : CoopProgram Unit :=
  match owner with
  | none => pure ()
  | some t => perform (.storeOnCStack t value)

/-- `waiter->status` is DONE, ERROR or CANCELLED, in the order of the reads. -/
def waiterEnded (waiter : CoroPtr) : CoopProgram Bool := do
  if (← coro (.loadStatus waiter)) = Status.finished then pure true
  else if (← coro (.loadStatus waiter)) = Status.error then pure true
  else if (← coro (.loadStatus waiter)) = Status.cancelled then pure true
  else pure false

/-- What `run_until` does with a word it claimed: the word of the task whose C
frame it runs on is discarded. -/
def driveUntil (n : Nat) (owner : Option TaskPtr) (t : TaskPtr) :
    CoopProgram Unit := do
  if owner = some t then
    mark (.drop t)
    taskUnref t
  else
    stepTask n t
    taskUnref t

/-- One turn of the wait loop of `run_until`. -/
def untilTurn (n : Nat) (waiter : CoroPtr) (owner : Option TaskPtr)
    (stallUntil : Nat) : CoopProgram Bool := do
  if ← waiterEnded waiter then
    setOnCStack owner false
    let st ← coro (.loadStatus waiter)
    pure (decide (st = .finished))
  else
    pump
    fireTimers
    match ← ring (ringClaim n) with
    | some (word, idx) =>
        if ringKind word = ringKindStop then
          ring (ringRelease n idx)
          invoke (.untilLoop waiter owner stallUntil)
        else
          let t := payPtr (ringPay word)
          ring (ringRelease n idx)
          let now ← clock
          driveUntil n owner t
          invoke (.untilLoop waiter owner (deadline now stallUs))
    | none =>
        match ← perform .timerHead with
        | none =>
            let busy : Nat ← perform .loadBusy
            let now ← clock
            if busy ≠ 0 then
              invoke (.untilLoop waiter owner (deadline now stallUs))
            else if now ≥ stallUntil then
              setOnCStack owner false
              pure false
            else invoke (.untilLoop waiter owner stallUntil)
        | some _ =>
            let _ ← clock
            let now ← clock
            invoke (.untilLoop waiter owner (deadline now stallUs))

def runUntil (waiter : CoroPtr) : CoopProgram Bool := do
  let owner : Option TaskPtr ←
    perform .loadCurrent
  setOnCStack owner true
  let now ← clock
  invoke (.untilLoop waiter owner (deadline now stallUs))

def postTask (n : Nat) (t : TaskPtr) : CoopProgram Bool := do
  mark (.enter t)
  mark (.enterPost t)
  let posted ← pushTaskRef n t
  mark (.leavePost t)
  pure posted

def sleepUs (self : CoroPtr) (us : Nat) : CoopProgram Status := do
  match ← taskOf self with
  | none => pure .error
  | some t =>
      mark (.enter t)
      if ← perform .allocTimer then
        let now ← clock
        perform (.addRef t)
        perform (.insertTimer ⟨deadline now us, t⟩)
        coro (.storeStatus self .waiting)
        pure .waiting
      else pure .error

def yieldPark (n : Nat) (self : CoroPtr) : CoopProgram Status := do
  match ← taskOf self with
  | none => pure .error
  | some t =>
      mark (.enter t)
      coro (.storeStatus self .waiting)
      if ← pushTaskRef n t then pure .waiting else pure .error

def await (self child : CoroPtr) : CoopProgram Status := do
  if (← coro (.loadAwaiting self)) = none then awaitChild self child
  else if (← coro (.loadAwaiting self)) = some child then
    awaitChild self child
  else pure .error
where
  awaitChild (self child : CoroPtr) : CoopProgram Status := do
    if (← coro (.loadStatus child)) = Status.finished then
      coro (.storeAwaiting self none)
      pure .finished
    else
      coro (.storeAwaiting self (some child))
      coro (.storeWaiter child self)
      adoptChild self child
      coro (.storeStatus self .waiting)
      pure .waiting
  adoptChild (self child : CoroPtr) : CoopProgram Unit := do
    if (← coro (.loadTask child)) = none then
      let t ← taskOf self
      coro (.storeTask child t)
    else pure ()

def createTask (n : Nat) (c : CoroPtr) : CoopProgram (Option TaskPtr) := do
  match ← perform (.allocTask c) with
  | none => pure none
  | some t =>
      coro (.storeTask c (some t))
      if ← pushTaskRef n t then pure (some t)
      else
        coro (.storeTask c none)
        perform (.memFree t)
        pure none

-- A call with a NULL task returns at once.
def runApi (n : Nat) : Api → CoopProgram Unit
  | .postTask t => if t = 0 then pure () else discard (postTask n t)
  | .sleepUs self us => discard (sleepUs self us)
  | .yieldPark self => discard (yieldPark n self)
  | .await self child => discard (await self child)
  | .createTask c => discard (createTask n c)
  | .taskReclaim t => if t = 0 then pure () else discard (taskReclaim t)
  | .taskDetach t => if t = 0 then pure () else discard (taskDetach t)
  | .taskRetire t => if t = 0 then pure () else discard (taskRetire t)
  | .runUntil waiter => discard (runUntil waiter)
  | .poll => poll
  | .yield => yield n
  | .setVmOnly c => coro (.storeVmOnly c)
  | .setAutoFree c => coro (.storeAutoFree c)
  | .setStatus c st => coro (.storeStatus c st)
where
  discard {α : Type} (program : CoopProgram α) : CoopProgram Unit := do
    let _ ← program
    pure ()

/-- One pass of the loop in `runner_entry`. -/
def runnerPass (n : Nat) : CoopProgram Unit := do
  pump
  fireTimers
  if ← drainOne n then pure ()
  else
    match ← perform .timerHead with
    | none => pure ()
    | some _ =>
        let _ ← clock
        pure ()

def mainTurn (n : Nat) : Act → CoopProgram Unit
  | .api a => runApi n a
  | .ret _ => runnerPass n

def body (n : Nat) : (p : Proc) → CoopProgram p.Res
  | .main => do
      let a ← perform .idle
      mainTurn n a
      invoke .main
  | .user => do
      match ← perform .act with
      | .api a =>
          runApi n a
          userStep
      | .ret st => pure st
  | .taskOf c => do
      match ← coro (.loadTask c) with
      | some t => pure (some t)
      | none =>
          match ← coro (.loadWaiter c) with
          | some parent => taskOf parent
          | none => pure none
  | .leafOf t leaf => do
      match ← frame t (.loadAwaiting leaf) with
      | none => pure leaf
      | some child => invoke (.leafOf t child)
  | .stepLoop t => stepTurn n t
  | .fireTimers now => do
      match ← perform (.popTimer now) with
      | none => pure ()
      | some t =>
          let _ ← pushTaskRef n t
          taskUnref t
          let now ← clock
          invoke (.fireTimers now)
  | .pollLoop => pollTurn n
  | .untilLoop waiter owner stallUntil => untilTurn n waiter owner stallUntil

end Metal.Coop
