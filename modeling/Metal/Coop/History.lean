import Metal.Coop.Code

namespace Metal.Coop

open Metal.Lib Function

/-! What each runner is in the middle of, innermost first.  This is history:
it is written beside the memory and no modelled function reads it. -/

/-- What became of a word since a driver took it from the ring, or since
`mutex_release` took it from the FIFO.  It is `tried` once the driver has seen
the VM mutex in other hands, and `served` once it was stepped, stored again,
parked, found terminal or given up. -/
inductive Hand
  | fresh
  | tried
  | served
  deriving DecidableEq

/-- `claim` lasts from the CAS that claims a slot to the store that empties it;
`drive` from there to the driver's `task_unref`; `wake` from the hand-over in
`mutex_release` to its `task_unref`; `ref` while a function holds a ref it has
not stored anywhere; `free` from the operation that decided a free to
`task_free`; `step` from a root test in `step_task` that found a frame to the
last read of the root; `run` while `running` is held, with `vm` from a
`try_acquire` that did not return WAITING to the hand-over; `post` during a
`post_task`; `retire` from the store that clears the root in `task_retire` to
its return. -/
inductive Section
  | claim (idx : Nat) (t : TaskPtr)
  | drive (t : TaskPtr) (hand : Hand)
  | wake (t : TaskPtr) (hand : Hand)
  | ref (t : TaskPtr)
  | free (t : TaskPtr)
  | step (t : TaskPtr) (root : CoroPtr)
  | run (t : TaskPtr) (vm : Bool)
  | post (t : TaskPtr)
  | retire (t : TaskPtr)
  deriving DecidableEq

abbrev Context := List Section

def Section.owned : Section → Option TaskPtr
  | .drive t _ | .wake t _ | .ref t => some t
  | _ => none

def Section.settled : Section → Bool
  | .drive _ hand | .wake _ hand => hand = .served
  | _ => true

namespace Context

/-- Mark the innermost word of `t` that is not served yet as served. -/
def serve (t : TaskPtr) : Context → Context
  | [] => []
  | .drive t' hand :: rest =>
      if t' = t ∧ hand ≠ .served then .drive t .served :: rest
      else .drive t' hand :: serve t rest
  | .wake t' hand :: rest =>
      if t' = t ∧ hand ≠ .served then .wake t .served :: rest
      else .wake t' hand :: serve t rest
  | entry :: rest => entry :: serve t rest

/-- Mark the innermost fresh word of `t` that is being driven as tried. -/
def tries (t : TaskPtr) : Context → Context
  | [] => []
  | .drive t' hand :: rest =>
      if t' = t ∧ hand = .fresh then .drive t .tried :: rest
      else .drive t' hand :: tries t rest
  | entry :: rest => entry :: tries t rest

def setVm (t : TaskPtr) (vm : Bool) : Context → Context
  | .run t' vm' :: rest => .run t' (if t' = t then vm else vm') :: rest
  | context => context

def release : Context → Context
  | .claim _ t :: rest => .drive t .fresh :: rest
  | context => context


end Context

/-- The ring word `push_task_ref` stores. -/
def taskWord (t : TaskPtr) : Word :=
  ringPack ringStReady ringKindTask (ptrPay t)

def wordTask (word : Word) : TaskPtr := payPtr (ringPay word)

def trackRing : (o : RingOp) → o.Ret → Context → Context
  | .casSlot idx expected desired, stored, context =>
      if stored then
        if expected = ringStEmpty then Context.serve (wordTask desired) context.tail
        else .claim idx (wordTask desired) :: context
      else context
  | .clearSlot _, _, context => context.release
  | _, _, context => context

def trackMark : Mark → Context → Context
  | .enterPost t, context => .post t :: context
  | .leavePost _, context => context.tail
  | .leaveTask _, context => context.tail
  | .drop t, context => context.serve t
  | .refused t, context => context.serve t
  | .leak _, context => context.tail
  | .unlocked t, context => context.setVm t true
  | .retired _, context => context.tail
  | _, context => context

def track : (o : Op) → o.Ret → Context → Context
  | .ring o, answer, context => trackRing o answer context
  | .addRef t, _, context => .ref t :: context
  | .subRef t, was, context =>
      if lastRef was then .free t :: context.tail else context.tail
  | .orDead t, prev, context =>
      if unheld prev then .free t :: context else context
  | .taskFree _, _, context => context.tail
  | .enterTask t, root, context =>
      match root with
      | none => context.serve t
      | some c => .step t c :: context
  | .frame t (.loadStatus _), st, context =>
      if Status.terminal st then context.serve t else context
  | .clearRoot t outside, _, context =>
      if outside then .retire t :: context else context
  | .casRunning t, won, context =>
      if won then .run t false :: context else context
  | .clearRunning _, _, context => context.tail
  | .insertTimer _, _, context => context.tail
  | .popTimer _, fired, context =>
      match fired with
      | none => context
      | some t => .ref t :: context
  | .ownerIs t _, same, context =>
      if same then context.setVm t true else context.tries t
  | .casOwner t _, won, context =>
      if won then context.setVm t true else context
  | .park t holder, claimed, context =>
      match claimed with
      | none => Context.serve t context.tail
      | some true => .ref holder :: Context.setVm t true context.tail
      | some false => Context.setVm t true context.tail
  | .handOver t, woken, context =>
      match woken with
      | none => context.setVm t false
      | some wake => .wake wake .fresh :: context.setVm t false
  | .stepLeaf t, _, context => context.serve t
  | .mark m, _, context => trackMark m context
  | _, _, context => context

attribute [grind =] track trackRing trackMark

/-- The memory with its history.  `waiting t` says that a `try_acquire` for `t`
returned WAITING and ownership has not been transferred to `t` since;
`posted t` that `t` was posted, was not terminal since, and no step of its leaf
has started since; `retired t` that a `task_retire` from outside `t`'s own step
has returned 0. -/
structure World (N : Nat) where
  mem : Memory N
  context : Fin N → Context
  waiting : TaskPtr → Bool
  posted : TaskPtr → Bool
  retired : TaskPtr → Bool

def trackWaiting : (o : Op) → o.Ret → (TaskPtr → Bool) → TaskPtr → Bool
  | .ownerIs _ holder, same, waiting =>
      if same then update waiting holder false else waiting
  | .casOwner _ holder, won, waiting =>
      if won then update waiting holder false else waiting
  | .park _ holder, claimed, waiting =>
      update waiting holder (Option.isNone claimed)
  | .handOver _, woken, waiting =>
      match woken with
      | none => waiting
      | some wake => update waiting wake false
  | _, _, waiting => waiting

def postedBy : (o : Op) → o.Ret → Context → Option TaskPtr
  | .ring (.casSlot _ expected desired), stored, context =>
      if stored = true ∧ expected = ringStEmpty ∧
          context.tail.head? = some (.post (wordTask desired)) then
        some (wordTask desired)
      else none
  | _, _, _ => none

def steppedBy : Op → Option TaskPtr
  | .stepLeaf t => some t
  | _ => none

def trackRetired : Op → (TaskPtr → Bool) → TaskPtr → Bool
  | .mark (.retired t), retired => update retired t true
  | _, retired => retired

variable {N : Nat}

def note (r : Fin N) (o : Op) (answer : o.Ret) (w : World N)
    (mem : Memory N) : World N where
  mem := mem
  context := update w.context r (track o answer (w.context r))
  waiting := trackWaiting o answer w.waiting
  posted := fun t =>
    (w.posted t || postedBy o answer (w.context r) = some t) &&
      steppedBy o ≠ some t && !mem.terminal t
  retired := trackRetired o w.retired

/-- An operation with its history.  Touching a block that was never allocated
is a fault. -/
def exec (r : Fin N) (o : Op) (choice : Choice) (w : World N) :
    Option (o.Ret × World N) :=
  if o.block.any (fun t => !(w.mem.tasks t).born) then none
  else
    match memExec r o choice w.mem with
    | none => none
    | some (answer, mem) => some (answer, note r o answer w mem)

/-- What `pm_metal_coop_init` and the seat fix: the ring has `2 ^ 8` to
`2 ^ 20` slots. -/
structure Setup (N : Nat) where
  size : Fin 13
  worker : Fin N → Bool
  vmCapable : Fin N → Bool
  hasStep : CoroPtr → Bool

def Setup.n (setup : Setup N) : Nat := 2 ^ (8 + setup.size.val)

def Task.unborn : Task where
  root := none
  onCStack := false
  running := false
  mutexNext := none
  ringRefs := 0
  dead := false
  born := false
  frees := 0

def Coro.created (hasStep : Bool) : Coro where
  step := hasStep
  awaiting := none
  waiter := none
  task := none
  status := .pending
  vmOnly := false
  autoFree := false

def Setup.memory (setup : Setup N) : Memory N where
  inbox :=
    { n := setup.n, head := 0, tail := 0, count := 0, slot := fun _ => 0 }
  tasks := fun _ => Task.unborn
  coros := fun c => Coro.created (setup.hasStep c)
  timers := []
  owner := none
  waitersHead := none
  waitersTail := none
  fifoLock := false
  vmLockReady := true
  busy := 0
  current := fun _ => none
  worker := setup.worker
  vmCapable := setup.vmCapable

abbrev Setup.machine (setup : Setup N) : Machine CoopSig where
  Thread := Fin N
  State := World N
  Choice := Choice
  exec := exec
  body := body setup.n

def Setup.start (setup : Setup N) : setup.machine.Config where
  state :=
    { mem := setup.memory
      context := fun _ => []
      waiting := fun _ => false
      posted := fun _ => false
      retired := fun _ => false }
  program := fun _ => invoke .main

/-- Code outside the card only hands over tasks that were created and whose
block was not freed. -/
def callersOk : Fin N → Op → World N → Bool
  | _, .mark (.enter t), w =>
      (w.mem.tasks t).born && (w.mem.tasks t).frees == 0
  | _, _, _ => true

end Metal.Coop
