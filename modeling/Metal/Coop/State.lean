import Metal.Coop.Ring

namespace Metal.Coop

open Metal.Lib

/-! The coop card's memory: coroutine frames, task blocks, timers, the VM
mutex, and the per-runner slots. -/

inductive Status
  | pending
  | waiting
  | finished
  | cancelled
  | error
  deriving DecidableEq, Repr

def Status.terminal : Status → Bool
  | .finished | .cancelled | .error => true
  | .pending | .waiting => false

abbrev CoroPtr := Nat

structure Coro where
  step : Bool
  awaiting : Option CoroPtr
  waiter : Option CoroPtr
  task : Option TaskPtr
  status : Status
  vmOnly : Bool
  autoFree : Bool

abbrev RefWord := BitVec 32

def taskDeadBit : RefWord := 0x80000000
def taskRefMask : RefWord := 0x7fffffff

-- `born` and `frees` stand for the allocator: a pointer names one allocation,
-- and `frees` counts how often the block was passed to `task_free`.
structure Task where
  root : Option CoroPtr
  onCStack : Bool
  running : Bool
  mutexNext : Option TaskPtr
  ringRefs : RefWord
  dead : Bool
  born : Bool
  frees : Nat

structure Timer where
  deadlineUs : Nat
  task : TaskPtr
  deriving DecidableEq

structure Memory (N : Nat) where
  inbox : Inbox
  tasks : TaskPtr → Task
  coros : CoroPtr → Coro
  timers : List Timer
  owner : Option TaskPtr
  waitersHead : Option TaskPtr
  waitersTail : Option TaskPtr
  fifoLock : Bool
  vmLockReady : Bool
  busy : Nat
  current : Fin N → Option TaskPtr
  worker : Fin N → Bool
  vmCapable : Fin N → Bool

namespace Memory

variable {N : Nat}

def setTask (m : Memory N) (t : TaskPtr) (f : Task → Task) : Memory N :=
  { m with tasks := Function.update m.tasks t (f (m.tasks t)) }

def setCoro (m : Memory N) (c : CoroPtr) (f : Coro → Coro) : Memory N :=
  { m with coros := Function.update m.coros c (f (m.coros c)) }

/-- `task_is_terminal`, as a predicate on the state. -/
def terminal (m : Memory N) (t : TaskPtr) : Bool :=
  match (m.tasks t).root with
  | none => true
  | some c => (m.coros c).status.terminal

def setNext (m : Memory N) (t : TaskPtr) (next : Option TaskPtr) : Memory N :=
  m.setTask t fun task => { task with mutexNext := next }

/-- Append `t` at `waiters_tail`. -/
def append (m : Memory N) (t : TaskPtr) : Memory N :=
  let cleared := m.setNext t none
  match cleared.waitersTail with
  | some last => { cleared.setNext last (some t) with waitersTail := some t }
  | none => { cleared with waitersHead := some t, waitersTail := some t }

/-- `while (cur != NULL && cur != task)`.  A walk that has not stopped after
as many steps as there are pointers is going round a cycle. -/
def seek (m : Memory N) (t : TaskPtr) :
    (left : Nat) → (prev cur : Option TaskPtr) →
      Option (Option TaskPtr × Option TaskPtr)
  | 0, _, _ => none
  | left + 1, prev, cur =>
      match cur with
      | none => some (prev, none)
      | some found =>
          if found = t then some (prev, some found)
          else m.seek t left (some found) (m.tasks found).mutexNext

/-- Take `t` off the FIFO after a self-claim; true when it was queued. -/
def unlink (m : Memory N) (t : TaskPtr) : Option (Bool × Memory N) :=
  match m.seek t (2 ^ 48) none m.waitersHead with
  | none => none
  | some (_, none) => some (false, m.setNext t none)
  | some (prev, some _) =>
      let after := (m.tasks t).mutexNext
      let unhooked :=
        match prev with
        | some before => m.setNext before after
        | none => { m with waitersHead := after }
      let shortened :=
        if unhooked.waitersTail = some t then
          { unhooked with waitersTail := prev }
        else unhooked
      some (true, shortened.setNext t none)

def popWaiter (m : Memory N) : Option TaskPtr × Memory N :=
  match m.waitersHead with
  | none => (none, m)
  | some wake =>
      let after := (m.tasks wake).mutexNext
      let popped := { m with waitersHead := after }
      let popped :=
        if after = none then { popped with waitersTail := none } else popped
      (some wake, popped.setNext wake none)

end Memory

/-- `timer_insert`: behind every timer that is not later. -/
def timerInsert (tm : Timer) : List Timer → List Timer
  | [] => [tm]
  | first :: rest =>
      if first.deadlineUs ≤ tm.deadlineUs then first :: timerInsert tm rest
      else tm :: first :: rest

end Metal.Coop
