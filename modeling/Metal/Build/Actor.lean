import Metal.Lib.Run
import Metal.Lib.Tally
import Metal.Build.Graph

namespace Metal.Build

open Metal.Lib Function

/-! The compiler actor: a bounded queue of jobs, one serial section, and any
number of runners that submit, step, cancel and release. Each step below is one
stretch under the actor's lock, or one access outside it. -/

def actorDepth : Nat := 16

instance : NeZero actorDepth := ⟨by decide⟩

abbrev Slot := Fin actorDepth

/-- Jobs are numbered in the order in which they are put into the queue. -/
abbrev JobId := Nat

structure Job where
  state : ActorState
  posted : Bool
  cancel : Bool
  released : Bool

def Job.fresh : Job := ⟨.new, false, false, false⟩

/-- Where a runner is: between calls, past `actor_submit`'s first test, past
the test of `actor_job_step` for a terminal job, inside the serial section, or
posting the jobs it found waiting when it left it. -/
inductive ActorPc
  | idle
  | submitting
  | stepping (job : JobId)
  | compiling (job : JobId)
  | waking (jobs : List JobId)
  deriving DecidableEq

def ActorPc.inside : ActorPc → Option JobId
  | .stepping job | .compiling job => some job
  | .idle | .submitting | .waking _ => none

def ActorPc.todo : ActorPc → List JobId
  | .waking jobs => jobs
  | .idle | .submitting | .stepping _ | .compiling _ => []

/-- The actor with its runners. `next` is the number of jobs submitted; `found`
and `reposts` record the jobs that were waiting when the section was freed and
the posts made for them, with whether the job's block had been released by
then. -/
structure Actor (n : Nat) where
  q : Slot → Option JobId
  qHead : Slot
  qTail : Slot
  qCount : Nat
  serialHeld : Bool
  jobs : JobId → Job
  next : Nat
  pc : Fin n → ActorPc
  found : List JobId
  reposts : List (JobId × Bool)

variable {n : Nat}

def Actor.start (n : Nat) : Actor n where
  q _ := none
  qHead := 0
  qTail := 0
  qCount := 0
  serialHeld := false
  jobs _ := .fresh
  next := 0
  pc _ := .idle
  found := []
  reposts := []

def Actor.goto (r : Fin n) (pc : ActorPc) (s : Actor n) : Actor n :=
  { s with pc := update s.pc r pc }

def Actor.setState (job : JobId) (state : ActorState) (s : Actor n) : Actor n :=
  { s with jobs := update s.jobs job { s.jobs job with state } }

def Actor.enqueue (s : Actor n) : Actor n :=
  { s with
    q := update s.q s.qTail (some s.next)
    qTail := s.qTail + 1
    qCount := s.qCount + 1
    jobs := update s.jobs s.next .fresh
    next := s.next + 1 }

/-- Move the entries after `j` down by one, as far as the tail. The loop meets
the tail within one turn of the ring. -/
def compact (tail : Slot) :
    Nat → Slot → (Slot → Option JobId) → Slot → Option JobId
  | 0, _, q => q
  | fuel + 1, j, q =>
      if j = tail then q
      else
        compact tail fuel (j + 1)
          (update (update q j (q (j + 1))) (j + 1) none)

def Actor.dequeue (job : JobId) (s : Actor n) : Actor n :=
  match (List.finRange actorDepth).find? fun i => s.q i = some job with
  | none => s
  | some i =>
      { s with
        q := compact s.qTail actorDepth i s.q
        qTail := s.qTail - 1
        qCount := s.qCount - 1 }

def Actor.waiting (s : Actor n) : List JobId :=
  (List.finRange actorDepth).filterMap fun i =>
    (s.q i).filter fun job => (s.jobs job).state = .waiting

def Actor.parked (s : Actor n) : List JobId :=
  (List.range s.next).filter fun job => (s.jobs job).state = .waiting

def finalState (rc : Status) : ActorState :=
  if rc = .cancelled then .cancelled
  else if rc ≠ .ok then .failed
  else .done

/-- `actor_job_finish`, up to the release of the lock. -/
def Actor.finish (r : Fin n) (job : JobId) (rc : Status) (s : Actor n) :
    Actor n :=
  let wake := s.waiting
  let found := s.found ++ s.parked
  { (s.dequeue job).setState job (finalState rc) with
    serialHeld := false, found }.goto r (.waking wake)

def Actor.post (job : JobId) (served : Bool) (s : Actor n) : Actor n :=
  if (s.jobs job).posted ∨ (s.jobs job).state ≠ .new ∨ ¬ served then s
  else { s with jobs := update s.jobs job { s.jobs job with posted := true } }

def Actor.cancel (job : JobId) (s : Actor n) : Actor n :=
  if (s.jobs job).state.terminal then s
  else { s with jobs := update s.jobs job { s.jobs job with cancel := true } }

/-- `retired` is the ring's answer to the retire of a posted job's task. -/
def Actor.release (job : JobId) (retired : Bool) (s : Actor n) : Actor n :=
  if ¬ (s.jobs job).state.terminal then s
  else if (s.jobs job).posted ∧ ¬ retired then s
  else
    { s with jobs := update s.jobs job { s.jobs job with released := true } }

/-- What a runner does next. A caller names a job it holds; the compile ends
with the code `rc`. -/
inductive ActorCall
  | submit
  | enqueue (served : Bool)
  | post (job : JobId) (served : Bool)
  | step (job : JobId)
  | lock
  | finish (rc : Status)
  | wake
  | cancel (job : JobId)
  | release (job : JobId) (retired : Bool)
  deriving DecidableEq

def Actor.holds (s : Actor n) (job : JobId) : Bool :=
  job < s.next ∧ ¬ (s.jobs job).released

def Actor.act (s : Actor n) : Fin n × ActorCall → Actor n := fun (r, call) =>
  match call, s.pc r with
  | .submit, .idle =>
      if s.qCount ≥ actorDepth then s else s.goto r .submitting
  | .enqueue served, .submitting =>
      if ¬ served ∨ s.qCount ≥ actorDepth then s.goto r .idle
      else s.enqueue.goto r .idle
  | .post job served, .idle => if s.holds job then s.post job served else s
  | .step job, .idle =>
      if s.holds job ∧ ¬ (s.jobs job).state.terminal then
        s.goto r (.stepping job)
      else s
  | .lock, .stepping job =>
      if s.serialHeld then (s.setState job .waiting).goto r .idle
      else
        { s.setState job .running with serialHeld := true }.goto r
          (.compiling job)
  | .finish rc, .compiling job => s.finish r job rc
  | .wake, .waking [] => s.goto r .idle
  | .wake, .waking (job :: rest) =>
      { s with reposts := s.reposts ++ [(job, (s.jobs job).released)] }.goto r
        (.waking rest)
  | .cancel job, .idle => if s.holds job then s.cancel job else s
  | .release job retired, .idle =>
      if s.holds job then s.release job retired else s
  | _, _ => s

/-- The submitted jobs that are not terminal, in the order of submission. -/
def Actor.liveJobs (s : Actor n) : List JobId :=
  (List.range s.next).filter fun job => ¬ (s.jobs job).state.terminal

def Actor.listed (s : Actor n) : List (Option JobId) :=
  (List.range s.qCount).map fun k => s.q (s.qHead + Fin.ofNat actorDepth k)

structure Actor.Exact (s : Actor n) : Prop where
  listed : s.listed = s.liveJobs.map some
  nothingElse : ∀ k : Slot, s.qCount ≤ (k - s.qHead).val → s.q k = none
  count : s.qCount = s.liveJobs.length
  oneRunning : ∀ job job', (s.jobs job).state = .running →
    (s.jobs job').state = .running → job = job'
  serial : s.serialHeld = true ↔ ∃ job, (s.jobs job).state = .running
  reposted : ∀ job, s.found.count job =
    (s.reposts.map Prod.fst).count job +
      ∑ r, ((s.pc r).todo).count job
  unreleased : ∀ post ∈ s.reposts, post.2 = false

/-- The step does not finish a job while the queue is full, does not enter a job
that a runner is inside a step of, and does not release a job that a runner is
about to post. -/
def Actor.KeepsQueue (s : Actor n) : Fin n × ActorCall → Prop
  | (_, .finish _) => s.qCount < actorDepth
  | (_, .step job) => ∀ r, (s.pc r).inside ≠ some job
  | (_, .release job _) => ∀ r, job ∉ (s.pc r).todo
  | _ => True

end Metal.Build
