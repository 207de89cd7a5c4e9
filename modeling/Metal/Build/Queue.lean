import Metal.Build.Actor

namespace Metal.Build

open Metal.Lib Function

/-! Runs of the actor: the queue holds the live jobs in order, the section has
one owner, and every waiting job is posted again. -/

/-- The array holds the list `l` from its first slot on. -/
def Holds (q : Slot → Option JobId) (l : List JobId) : Prop :=
  ∀ k : Slot, q k = l[k.val]?

theorem slot_succ {j : Slot} {m : Nat} (below : j.val < m)
    (fits : m < actorDepth) : (j + 1).val = j.val + 1 := by
  rw [Fin.val_add]
  exact Nat.mod_eq_of_lt (Nat.lt_of_le_of_lt below fits)

/-- The entries from `j` on have yet to be moved down. -/
structure Compacting (l : List JobId) (i : Nat) (j : Slot)
    (q : Slot → Option JobId) : Prop where
  started : i ≤ j.val
  within : j.val ≤ l.length
  moved : ∀ k : Slot, k.val < j.val → q k = (l.eraseIdx i)[k.val]?
  gap : i < j.val → q j = none
  ahead : ∀ k : Slot, j.val < k.val → q k = l[k.val]?

variable {l : List JobId} {q : Slot → Option JobId}

theorem Compacting.step {i : Nat} {j : Slot} (compacting : Compacting l i j q)
    (fits : l.length < actorDepth) (more : j.val < l.length) :
    Compacting l i (j + 1)
      (update (update q j (q (j + 1))) (j + 1) none) := by
  have next := slot_succ more fits
  have apart : j ≠ j + 1 := by
    intro same
    have := congrArg Fin.val same
    omega
  refine ⟨?_, ?_, ?_, ?_, ?_⟩
  · have := compacting.started
    omega
  · omega
  · intro k before
    rw [next] at before
    have other : k ≠ j + 1 := by
      rintro rfl
      omega
    rw [update_of_ne other]
    by_cases here : k = j
    · subst here
      rw [update_self, compacting.ahead (k + 1) (by omega), next,
        List.getElem?_eraseIdx_of_ge compacting.started]
    · rw [update_of_ne here]
      refine compacting.moved k ?_
      have := Fin.val_ne_of_ne here
      omega
  · intro _
    exact update_self ..
  · intro k after
    rw [next] at after
    have other : k ≠ j + 1 := by
      rintro rfl
      omega
    have other' : k ≠ j := by
      rintro rfl
      omega
    rw [update_of_ne other, update_of_ne other']
    exact compacting.ahead k (by omega)

theorem Compacting.finish {i : Nat} {j : Slot} (compacting : Compacting l i j q)
    (below : i < l.length) (last : j.val = l.length) : Holds q (l.eraseIdx i) := by
  have shorter : (l.eraseIdx i).length = l.length - 1 :=
    List.length_eraseIdx_of_lt below
  intro k
  rcases Nat.lt_trichotomy k.val j.val with before | here | after
  · exact compacting.moved k before
  · rw [Fin.ext here, compacting.gap (by omega), List.getElem?_eq_none]
    omega
  · rw [compacting.ahead k after, List.getElem?_eq_none, List.getElem?_eq_none]
    · omega
    · omega

theorem Compacting.compact {i : Nat} (below : i < l.length) (fits : l.length < actorDepth)
    {tail : Slot} (tailHere : tail.val = l.length) {fuel : Nat} {j : Slot}
    (compacting : Compacting l i j q) (enough : l.length ≤ j.val + fuel) :
    Holds (compact tail fuel j q) (l.eraseIdx i) := by
  induction fuel generalizing j q with
  | zero =>
      refine compacting.finish below ?_
      have := compacting.within
      omega
  | succ fuel ih =>
      rw [Build.compact]
      by_cases atTail : j = tail
      · rw [if_pos atTail]
        exact compacting.finish below (atTail ▸ tailHere)
      · rw [if_neg atTail]
        have more : j.val < l.length := by
          have := compacting.within
          have := Fin.val_ne_of_ne atTail
          omega
        refine ih (compacting.step fits more) ?_
        rw [slot_succ more fits]
        omega

theorem Holds.compact {i tail : Slot} (holds : Holds q l) (below : i.val < l.length)
    (fits : l.length < actorDepth) (tailHere : tail.val = l.length) :
    Holds (compact tail actorDepth i q) (l.eraseIdx i.val) := by
  have start : Compacting l i.val i q := by
    refine ⟨le_rfl, below.le, ?_, ?_, ?_⟩
    · intro k before
      rw [holds k, List.getElem?_eraseIdx_of_lt before]
    · intro past
      exact absurd past (Nat.lt_irrefl _)
    · exact fun k _ => holds k
  exact start.compact below fits tailHere (by omega)

variable {n : Nat}

structure Actor.Queued (s : Actor n) : Prop where
  head : s.qHead = 0
  slots : Holds s.q s.liveJobs
  tail : s.qTail = Fin.ofNat actorDepth s.liveJobs.length
  count : s.qCount = s.liveJobs.length
  room : s.liveJobs.length ≤ actorDepth

structure Actor.Owners (s : Actor n) : Prop where
  inside : ∀ r job, (s.pc r).inside = some job →
    job < s.next ∧ (s.jobs job).state.terminal = false
  alone : ∀ r r' job, (s.pc r).inside = some job →
    (s.pc r').inside = some job → r = r'
  running : ∀ job, (s.jobs job).state = .running ↔
    ∃ r, s.pc r = .compiling job
  serial : s.serialHeld = true ↔ ∃ r job, s.pc r = .compiling job
  one : ∀ r r' job job', s.pc r = .compiling job →
    s.pc r' = .compiling job' → r = r'

structure Actor.Blocks (s : Actor n) : Prop where
  unsubmitted : ∀ job, s.next ≤ job → s.jobs job = .fresh
  released : ∀ job, (s.jobs job).released = true →
    (s.jobs job).state.terminal = true

structure Actor.Wakes (s : Actor n) : Prop where
  todo : ∀ r, ∀ job ∈ (s.pc r).todo, (s.jobs job).released = false
  owed : ∀ job, s.found.count job = (s.reposts.map Prod.fst).count job +
    tally Finset.univ (fun pc => pc.todo.count job) s.pc
  clean : ∀ post ∈ s.reposts, post.2 = false

structure Actor.Inv (s : Actor n) : Prop where
  queued : s.Queued
  owners : s.Owners
  blocks : s.Blocks
  wakes : s.Wakes

variable {s : Actor n} {job : JobId}

theorem Actor.mem_liveJobs :
    job ∈ s.liveJobs ↔ job < s.next ∧ (s.jobs job).state.terminal = false := by
  simp [Actor.liveJobs]

theorem Actor.liveJobs_nodup (s : Actor n) : s.liveJobs.Nodup :=
  List.nodup_range.filter _

variable {s' : Actor n}

theorem Actor.liveJobs_congr (next : s'.next = s.next)
    (states : ∀ job, (s'.jobs job).state.terminal =
      (s.jobs job).state.terminal) : s'.liveJobs = s.liveJobs := by
  simp only [Actor.liveJobs, next, states]

theorem Actor.Inv.start : (Actor.start n).Inv := by
  refine ⟨⟨rfl, ?_, rfl, rfl, ?_⟩, ⟨?_, ?_, ?_, ?_, ?_⟩, ⟨?_, ?_⟩, ⟨?_, ?_, ?_⟩⟩
  · intro k
    rfl
  · simp [Actor.start, Actor.liveJobs]
  · simp [Actor.start, ActorPc.inside]
  · simp [Actor.start, ActorPc.inside]
  · simp [Actor.start, Job.fresh]
  · simp [Actor.start]
  · simp [Actor.start]
  · intro job _
    rfl
  · simp [Actor.start, Job.fresh]
  · simp [Actor.start, ActorPc.todo]
  · simp [Actor.start, tally, ActorPc.todo]
  · simp [Actor.start]

theorem Actor.Inv.exact (inv : s.Inv) : s.Exact := by
  have queued := inv.queued
  refine ⟨?_, ?_, queued.count, ?_, ?_, inv.wakes.owed, inv.wakes.clean⟩
  · apply List.ext_getElem?
    intro k
    by_cases below : k < s.liveJobs.length
    · have slot : (Fin.ofNat actorDepth k).val = k :=
        Nat.mod_eq_of_lt (Nat.lt_of_lt_of_le below queued.room)
      simp only [Actor.listed, queued.count, queued.head, List.getElem?_map,
        List.getElem?_range below, Option.map_some]
      rw [Fin.zero_add, queued.slots, slot]
      simp [below]
    · simp [Actor.listed, queued.count, below]
  · intro k beyond
    have same : k - (0 : Slot) = k := by
      apply Fin.ext
      rw [Fin.val_sub, Fin.val_zero, Nat.sub_zero, Nat.add_mod_left]
      exact Nat.mod_eq_of_lt k.isLt
    rw [queued.head, queued.count, same] at beyond
    rw [queued.slots, List.getElem?_eq_none beyond]
  · intro job job' first second
    obtain ⟨r, here⟩ := (inv.owners.running job).mp first
    obtain ⟨r', here'⟩ := (inv.owners.running job').mp second
    obtain rfl := inv.owners.one r r' job job' here here'
    rw [here] at here'
    cases here'
    rfl
  · rw [inv.owners.serial]
    constructor
    · rintro ⟨r, job, here⟩
      exact ⟨job, (inv.owners.running job).mpr ⟨r, here⟩⟩
    · rintro ⟨job, running⟩
      obtain ⟨r, here⟩ := (inv.owners.running job).mp running
      exact ⟨r, job, here⟩

@[simp]
theorem todo_waking (jobs : List JobId) : (ActorPc.waking jobs).todo = jobs :=
  rfl

@[simp]
theorem todo_compiling (job : JobId) : (ActorPc.compiling job).todo = [] :=
  rfl

theorem Actor.Queued.of_eq (queued : s.Queued) (q : s'.q = s.q) (head : s'.qHead = s.qHead)
    (tail : s'.qTail = s.qTail) (count : s'.qCount = s.qCount) (live : s'.liveJobs = s.liveJobs) :
    s'.Queued := by
  constructor
  · rw [head]
    exact queued.head
  · rw [q, live]
    exact queued.slots
  · rw [tail, live]
    exact queued.tail
  · rw [count, live]
    exact queued.count
  · rw [live]
    exact queued.room

variable {r : Fin n}

theorem Actor.Wakes.of_pc (wakes : s.Wakes) {pc : ActorPc} (before : (s.pc r).todo = [])
    (after : pc.todo = []) (pcs : s'.pc = update s.pc r pc)
    (released : ∀ job, (s'.jobs job).released = (s.jobs job).released)
    (found : s'.found = s.found) (reposts : s'.reposts = s.reposts) : s'.Wakes := by
  refine ⟨?_, ?_, ?_⟩
  · intro r' job member
    rw [released]
    rw [pcs] at member
    by_cases here : r' = r
    · rw [here, update_self, after] at member
      cases member
    · rw [update_of_ne here] at member
      exact wakes.todo r' job member
  · intro job
    have moved := tally_update (Finset.mem_univ r)
      (fun pc : ActorPc => pc.todo.count job) s.pc pc
    rw [before, after] at moved
    rw [found, reposts, pcs, wakes.owed job]
    simpa using moved.symm
  · rw [reposts]
    exact wakes.clean

theorem Actor.Owners.of_move (owners : s.Owners) {pc : ActorPc}
    (pcs : s'.pc = update s.pc r pc) (before : ∀ job, s.pc r ≠ .compiling job)
    (after : ∀ job, pc ≠ .compiling job) (next : s.next ≤ s'.next)
    (terminal : ∀ job, (s'.jobs job).state.terminal =
      (s.jobs job).state.terminal) (running : ∀ job, (s'.jobs job).state = .running ↔
      (s.jobs job).state = .running) (serial : s'.serialHeld = s.serialHeld)
    (enters : ∀ job, pc.inside = some job → job < s.next ∧
      (s.jobs job).state.terminal = false ∧
      ∀ r', r' ≠ r → (s.pc r').inside ≠ some job) : s'.Owners := by
  have compiling (r' job) : s'.pc r' = .compiling job ↔
      s.pc r' = .compiling job := by
    rw [pcs]
    by_cases here : r' = r
    · rw [here, update_self]
      exact iff_of_false (after job) (before job)
    · rw [update_of_ne here]
  have insideOf (r' job) (inside : (s'.pc r').inside = some job) :
      (r' = r ∧ pc.inside = some job) ∨
        (r' ≠ r ∧ (s.pc r').inside = some job) := by
    rw [pcs] at inside
    by_cases here : r' = r
    · rw [here, update_self] at inside
      exact .inl ⟨here, inside⟩
    · rw [update_of_ne here] at inside
      exact .inr ⟨here, inside⟩
  refine ⟨?_, ?_, ?_, ?_, ?_⟩
  · intro r' job inside
    rw [terminal]
    rcases insideOf r' job inside with ⟨-, entered⟩ | ⟨-, stayed⟩
    · obtain ⟨submitted, live, -⟩ := enters job entered
      exact ⟨submitted.trans_le next, live⟩
    · obtain ⟨submitted, live⟩ := owners.inside r' job stayed
      exact ⟨submitted.trans_le next, live⟩
  · intro r₁ r₂ job first second
    rcases insideOf r₁ job first with ⟨rfl, entered⟩ | ⟨other₁, stayed₁⟩ <;>
      rcases insideOf r₂ job second with ⟨rfl, entered'⟩ | ⟨other₂, stayed₂⟩
    · rfl
    · exact absurd stayed₂ ((enters job entered).2.2 r₂ other₂)
    · exact absurd stayed₁ ((enters job entered').2.2 r₁ other₁)
    · exact owners.alone r₁ r₂ job stayed₁ stayed₂
  · intro job
    rw [running, owners.running]
    simp only [compiling]
  · rw [serial, owners.serial]
    simp only [compiling]
  · intro r₁ r₂ job job' first second
    exact owners.one r₁ r₂ job job' ((compiling r₁ job).mp first)
      ((compiling r₂ job').mp second)

theorem Actor.Inv.goto (inv : s.Inv) {pc : ActorPc} (before : ∀ job, s.pc r ≠ .compiling job)
    (after : ∀ job, pc ≠ .compiling job) (todoBefore : (s.pc r).todo = [])
    (todoAfter : pc.todo = []) (enters : ∀ job, pc.inside = some job → job < s.next ∧
      (s.jobs job).state.terminal = false ∧
      ∀ r', r' ≠ r → (s.pc r').inside ≠ some job) : (s.goto r pc).Inv where
  queued := inv.queued.of_eq rfl rfl rfl rfl rfl
  owners := inv.owners.of_move rfl before after le_rfl (fun _ => rfl)
    (fun _ => Iff.rfl) rfl enters
  blocks := ⟨inv.blocks.unsubmitted, inv.blocks.released⟩
  wakes := inv.wakes.of_pc todoBefore todoAfter rfl (fun _ => rfl) rfl rfl

/-! Submission puts the job behind the live ones. -/

theorem Actor.Blocks.enqueue_jobs (blocks : s.Blocks) : s.enqueue.jobs = s.jobs :=
  update_eq_self_iff.mpr (blocks.unsubmitted s.next le_rfl).symm

theorem Actor.Blocks.enqueue_liveJobs (blocks : s.Blocks) :
    s.enqueue.liveJobs = s.liveJobs ++ [s.next] := by
  have fresh := blocks.unsubmitted s.next le_rfl
  have next : s.enqueue.next = s.next + 1 := rfl
  simp only [Actor.liveJobs, next, List.range_succ, List.filter_append,
    blocks.enqueue_jobs]
  simp [fresh, Job.fresh, ActorState.terminal]

theorem Actor.Queued.enqueue (queued : s.Queued) (blocks : s.Blocks)
    (room : s.qCount < actorDepth) : s.enqueue.Queued := by
  rw [queued.count] at room
  have live := blocks.enqueue_liveJobs
  have tail : s.qTail.val = s.liveJobs.length := by
    rw [queued.tail]
    exact Nat.mod_eq_of_lt room
  refine ⟨queued.head, ?_, ?_, ?_, ?_⟩
  · intro k
    rw [live]
    by_cases here : k = s.qTail
    · subst here
      rw [tail, List.getElem?_concat_length]
      exact update_self ..
    · have apart := Fin.val_ne_of_ne here
      rw [tail] at apart
      refine (update_of_ne here ..).trans ?_
      rw [queued.slots, List.getElem?_append]
      split
      · rfl
      · rw [List.getElem?_eq_none, List.getElem?_eq_none]
        · simp only [List.length_singleton]
          omega
        · omega
  · rw [live, List.length_append, List.length_singleton]
    change s.qTail + 1 = _
    apply Fin.ext
    rw [Fin.val_add, tail]
    rfl
  · rw [live, List.length_append, List.length_singleton, ← queued.count]
    rfl
  · rw [live, List.length_append, List.length_singleton]
    exact room

theorem Actor.Inv.enqueue (inv : s.Inv) (room : s.qCount < actorDepth)
    (here : s.pc r = .submitting) :
    (s.enqueue.goto r .idle).Inv where
  queued :=
    (inv.queued.enqueue inv.blocks room).of_eq rfl rfl rfl rfl rfl
  owners := by
      have jobs : (s.enqueue.goto r .idle).jobs = s.jobs :=
        inv.blocks.enqueue_jobs
      refine inv.owners.of_move rfl (by simp [here]) (by simp)
        (Nat.le_succ s.next) ?_ ?_ rfl (by simp [ActorPc.inside])
      · intro job
        rw [jobs]
      · intro job
        rw [jobs]
  blocks := by
      have jobs : (s.enqueue.goto r .idle).jobs = s.jobs :=
        inv.blocks.enqueue_jobs
      refine ⟨?_, ?_⟩
      · intro job beyond
        rw [jobs]
        exact inv.blocks.unsubmitted job (Nat.le_of_succ_le beyond)
      · rw [jobs]
        exact inv.blocks.released
  wakes := by
      have jobs : (s.enqueue.goto r .idle).jobs = s.jobs :=
        inv.blocks.enqueue_jobs
      refine inv.wakes.of_pc (by simp [here, ActorPc.todo]) rfl rfl ?_ rfl rfl
      intro job
      rw [jobs]

/-! Marks on a job: whether it was posted, cancelled or released. -/

def Actor.mark (job : JobId) (value : Job) (s : Actor n) : Actor n :=
  { s with jobs := update s.jobs job value }

theorem Actor.mark_state {value : Job} (same : value.state = (s.jobs job).state) (job' : JobId) :
    ((s.mark job value).jobs job').state = (s.jobs job').state := by
  by_cases here : job' = job
  · subst here
    exact (congrArg Job.state (update_self ..)).trans same
  · exact congrArg Job.state (update_of_ne here ..)

theorem Actor.Inv.mark (inv : s.Inv) {value : Job} (submitted : job < s.next)
    (same : value.state = (s.jobs job).state)
    (released : value.released = true → (s.jobs job).released = true ∨
      (s.jobs job).state.terminal = true ∧ ∀ r, job ∉ (s.pc r).todo) : (s.mark job value).Inv := by
  have states := s.mark_state same
  have others {job' : JobId} (other : job' ≠ job) :
      (s.mark job value).jobs job' = s.jobs job' := update_of_ne other ..
  have marked : (s.mark job value).jobs job = value := update_self ..
  refine ⟨?_, ?_, ⟨?_, ?_⟩, ⟨?_, inv.wakes.owed, inv.wakes.clean⟩⟩
  · refine inv.queued.of_eq rfl rfl rfl rfl ?_
    exact Actor.liveJobs_congr rfl fun job' => by rw [states]
  · refine ⟨?_, inv.owners.alone, ?_, inv.owners.serial, inv.owners.one⟩
    · intro r job' inside
      rw [states]
      exact inv.owners.inside r job' inside
    · intro job'
      rw [states]
      exact inv.owners.running job'
  · intro job' beyond
    have other : job' ≠ job := by
      rintro rfl
      exact absurd submitted (Nat.not_lt.mpr beyond)
    rw [others other]
    exact inv.blocks.unsubmitted job' beyond
  · intro job' gone
    rw [states]
    by_cases here : job' = job
    · subst here
      rw [marked] at gone
      rcases released gone with before | ⟨ended, -⟩
      · exact inv.blocks.released job' before
      · exact ended
    · rw [others here] at gone
      exact inv.blocks.released job' gone
  · intro r job' member
    by_cases here : job' = job
    · subst here
      rw [marked, Bool.eq_false_iff]
      intro gone
      rcases released gone with before | ⟨-, unposted⟩
      · rw [inv.wakes.todo r job' member] at before
        cases before
      · exact unposted r member
    · rw [others here]
      exact inv.wakes.todo r job' member

/-! A job takes the section, or waits for it. -/

theorem Actor.setState_self (job : JobId) (state : ActorState) (s : Actor n) :
    (s.setState job state).jobs job = { s.jobs job with state } :=
  update_self ..

theorem Actor.setState_of_ne {job' : JobId} (other : job' ≠ job) (state : ActorState)
    (s : Actor n) : (s.setState job state).jobs job' = s.jobs job' :=
  update_of_ne other ..

theorem Actor.setState_released (job job' : JobId) (state : ActorState)
    (s : Actor n) :
    ((s.setState job state).jobs job').released = (s.jobs job').released := by
  by_cases here : job' = job
  · rw [here, s.setState_self]
  · rw [s.setState_of_ne here]

theorem Actor.setState_terminal (state : ActorState) (live : (s.jobs job).state.terminal = false)
    (stays : state.terminal = false) (job' : JobId) :
    ((s.setState job state).jobs job').state.terminal =
      (s.jobs job').state.terminal := by
  by_cases here : job' = job
  · rw [here, s.setState_self, live, stays]
  · rw [s.setState_of_ne here]

theorem Actor.Blocks.setState (blocks : s.Blocks) (state : ActorState) (submitted : job < s.next)
    (live : (s.jobs job).state.terminal = false) : (s.setState job state).Blocks := by
  refine ⟨?_, ?_⟩
  · intro job' beyond
    rw [s.setState_of_ne]
    · exact blocks.unsubmitted job' beyond
    · rintro rfl
      exact absurd submitted (Nat.not_lt.mpr beyond)
  · intro job' gone
    rw [s.setState_released] at gone
    have ended := blocks.released job' gone
    rw [s.setState_of_ne]
    · exact ended
    · rintro rfl
      rw [live] at ended
      cases ended

theorem Actor.Owners.not_running (owners : s.Owners) (here : s.pc r = .stepping job) :
    (s.jobs job).state ≠ .running := by
  intro running
  obtain ⟨r', there⟩ := (owners.running job).mp running
  have inside : (s.pc r).inside = some job := by rw [here]; rfl
  have inside' : (s.pc r').inside = some job := by rw [there]; rfl
  obtain rfl := owners.alone r r' job inside inside'
  rw [here] at there
  cases there

theorem Actor.Inv.wait (inv : s.Inv) (here : s.pc r = .stepping job) :
    ((s.setState job .waiting).goto r .idle).Inv := by
  obtain ⟨submitted, live⟩ := inv.owners.inside r job (by rw [here]; rfl)
  have terminal := Actor.setState_terminal .waiting live rfl
  have running (job') :
      ((s.setState job .waiting).jobs job').state = .running ↔
        (s.jobs job').state = .running := by
    by_cases same : job' = job
    · subst same
      rw [s.setState_self]
      exact iff_of_false (by simp) (inv.owners.not_running here)
    · rw [s.setState_of_ne same]
  refine ⟨?_, ?_, ?_, ?_⟩
  · exact inv.queued.of_eq rfl rfl rfl rfl
      (Actor.liveJobs_congr rfl terminal)
  · exact inv.owners.of_move rfl (by simp [here]) (by simp) le_rfl terminal
      running rfl (by simp [ActorPc.inside])
  · have blocks := inv.blocks.setState .waiting submitted live
    exact ⟨blocks.unsubmitted, blocks.released⟩
  · exact inv.wakes.of_pc (by simp [here, ActorPc.todo]) rfl rfl
      (fun job' => s.setState_released job job' .waiting) rfl rfl

def Actor.take (r : Fin n) (job : JobId) (s : Actor n) : Actor n :=
  { s.setState job .running with serialHeld := true }.goto r (.compiling job)

theorem Actor.take_pc {r' : Fin n} :
    (s.take r job).pc r' = if r' = r then .compiling job else s.pc r' :=
  update_apply ..

theorem Actor.Owners.take (owners : s.Owners) (here : s.pc r = .stepping job)
    (free : s.serialHeld = false) : (s.take r job).Owners := by
  have insideHere : (s.pc r).inside = some job := by rw [here]; rfl
  obtain ⟨submitted, live⟩ := owners.inside r job insideHere
  have unheld (r' job') : s.pc r' ≠ .compiling job' := by
    intro there
    have held := owners.serial.mpr ⟨r', job', there⟩
    rw [free] at held
    cases held
  have insideOf (r') : ((s.take r job).pc r').inside = (s.pc r').inside := by
    rw [Actor.take_pc]
    split
    next same =>
      rw [same, here]
      rfl
    next => rfl
  have compiling (r' job') : (s.take r job).pc r' = .compiling job' ↔
      r' = r ∧ job' = job := by
    rw [Actor.take_pc]
    split
    next same => simp [same, eq_comm]
    next other => simp [other, unheld]
  refine ⟨?_, ?_, ?_, ?_, ?_⟩
  · intro r' job' inside
    rw [insideOf] at inside
    obtain ⟨submitted', live'⟩ := owners.inside r' job' inside
    exact ⟨submitted', (Actor.setState_terminal .running live rfl job').trans live'⟩
  · intro r₁ r₂ job' first second
    rw [insideOf] at first second
    exact owners.alone r₁ r₂ job' first second
  · intro job'
    simp only [compiling, exists_eq_left]
    change ((s.setState job .running).jobs job').state = _ ↔ _
    by_cases same : job' = job
    · rw [same, s.setState_self]
      simp
    · rw [s.setState_of_ne same, owners.running]
      simp [same, unheld]
  · simp only [compiling]
    exact iff_of_true rfl ⟨r, job, rfl, rfl⟩
  · intro r₁ r₂ job₁ job₂ first second
    rw [((compiling r₁ job₁).mp first).1, ((compiling r₂ job₂).mp second).1]

theorem Actor.Inv.take (inv : s.Inv) (here : s.pc r = .stepping job) (free : s.serialHeld = false) :
    (s.take r job).Inv := by
  obtain ⟨submitted, live⟩ := inv.owners.inside r job (by rw [here]; rfl)
  refine ⟨?_, inv.owners.take here free, ?_, ?_⟩
  · exact inv.queued.of_eq rfl rfl rfl rfl
      (Actor.liveJobs_congr rfl (Actor.setState_terminal .running live rfl))
  · have blocks := inv.blocks.setState .running submitted live
    exact ⟨blocks.unsubmitted, blocks.released⟩
  · exact inv.wakes.of_pc (by simp [here, ActorPc.todo]) rfl rfl
      (fun job' => s.setState_released job job' .running) rfl rfl

/-! The end of a job takes it out of the queue and frees the section. -/

theorem filterMap_finRange {α : Type} {m : Nat} (l : List α) (p : α → Bool)
    (fits : l.length ≤ m) :
    ((List.finRange m).filterMap fun i => (l[i.val]?).filter p) =
      l.filter p := by
  induction l generalizing m with
  | nil => simp
  | cons a rest ih =>
      cases m with
      | zero => cases fits
      | succ m =>
          have tail := ih (Nat.le_of_succ_le_succ fits)
          rw [List.finRange_succ, List.filterMap_cons, List.filterMap_map]
          by_cases keep : p a
          · simp [keep, ← tail, Option.filter]
          · simp [keep, ← tail, Option.filter]

theorem Actor.Queued.waiting_eq (queued : s.Queued) : s.waiting = s.parked := by
  have slots : s.q = fun i : Slot => s.liveJobs[i.val]? := funext queued.slots
  rw [Actor.waiting, slots, filterMap_finRange _ _ queued.room, Actor.liveJobs,
    List.filter_filter, Actor.parked]
  apply List.filter_congr
  intro job _
  by_cases waits : (s.jobs job).state = .waiting
  · simp [waits, ActorState.terminal]
  · simp [waits]

theorem Actor.Queued.dequeue (queued : s.Queued) (room : s.qCount < actorDepth)
    (member : job ∈ s.liveJobs) :
    ∃ q, Holds q (s.liveJobs.erase job) ∧
      s.dequeue job = { s with
        q
        qTail := Fin.ofNat actorDepth (s.liveJobs.erase job).length
        qCount := (s.liveJobs.erase job).length } := by
  rw [queued.count] at room
  obtain ⟨k, below, there⟩ := List.mem_iff_getElem.mp member
  have listed : s.q ⟨k, below.trans room⟩ = some job := by
    rw [queued.slots]
    exact List.getElem?_eq_some_iff.mpr ⟨below, there⟩
  rw [Actor.dequeue]
  split
  next missing =>
    exact absurd listed
      (by simpa using List.find?_eq_none.mp missing _ (List.mem_finRange _))
  next i found =>
    have listedHere : s.liveJobs[i.val]? = some job := by
      rw [← queued.slots]
      simpa using List.find?_some found
    obtain ⟨below', same⟩ := List.getElem?_eq_some_iff.mp listedHere
    have erased : s.liveJobs.erase job = s.liveJobs.eraseIdx i.val := by
      rw [← same]
      exact s.liveJobs_nodup.erase_getElem i.val below'
    have shorter : (s.liveJobs.erase job).length + 1 = s.liveJobs.length :=
      List.length_erase_add_one member
    have tail : s.qTail.val = s.liveJobs.length := by
      rw [queued.tail]
      exact Nat.mod_eq_of_lt room
    refine ⟨compact s.qTail actorDepth i s.q, ?_, ?_⟩
    · rw [erased]
      exact queued.slots.compact below' room tail
    · have tailBack : s.qTail - 1 =
          Fin.ofNat actorDepth (s.liveJobs.erase job).length := by
        rw [queued.tail, ← shorter]
        apply Fin.ext
        rw [Fin.val_sub]
        simp only [Fin.ofNat, Fin.val_one', actorDepth]
        omega
      have countBack : s.qCount - 1 = (s.liveJobs.erase job).length := by
        rw [queued.count]
        omega
      rw [tailBack, countBack]

theorem finalState_terminal (rc : Status) : (finalState rc).terminal = true := by
  unfold finalState
  split
  · rfl
  · split <;> rfl

theorem finalState_ne_running (rc : Status) : finalState rc ≠ .running := by
  intro running
  have ended := finalState_terminal rc
  rw [running] at ended
  cases ended

theorem Actor.dequeue_frame (job : JobId) (s : Actor n) :
    (s.dequeue job).jobs = s.jobs ∧ (s.dequeue job).next = s.next ∧
      (s.dequeue job).pc = s.pc ∧ (s.dequeue job).reposts = s.reposts := by
  rw [Actor.dequeue]
  split <;> exact ⟨rfl, rfl, rfl, rfl⟩

theorem Actor.finish_jobs (r : Fin n) (job : JobId) (rc : Status)
    (s : Actor n) :
    (s.finish r job rc).jobs = (s.setState job (finalState rc)).jobs := by
  obtain ⟨jobs, -, -, -⟩ := s.dequeue_frame job
  simp only [Actor.finish, Actor.goto, Actor.setState, jobs]

theorem Actor.finish_next (r : Fin n) (job : JobId) (rc : Status)
    (s : Actor n) : (s.finish r job rc).next = s.next :=
  (s.dequeue_frame job).2.1

theorem Actor.finish_pc (r r' : Fin n) (job : JobId) (rc : Status)
    (s : Actor n) : (s.finish r job rc).pc r' =
      if r' = r then .waking s.waiting else s.pc r' := by
  obtain ⟨-, -, pc, -⟩ := s.dequeue_frame job
  simp only [Actor.finish, Actor.goto, Actor.setState, pc]
  exact update_apply ..

variable {rc : Status}

theorem Actor.Queued.finish (queued : s.Queued) (room : s.qCount < actorDepth)
    (member : job ∈ s.liveJobs) : (s.finish r job rc).Queued := by
  obtain ⟨q, slots, eq⟩ := queued.dequeue room member
  have live : (s.finish r job rc).liveJobs = s.liveJobs.erase job := by
    rw [s.liveJobs_nodup.erase_eq_filter, Actor.liveJobs, Actor.liveJobs,
      List.filter_filter, s.finish_next, s.finish_jobs]
    apply List.filter_congr
    intro job' _
    by_cases same : job' = job
    · rw [same, s.setState_self]
      simp [finalState_terminal]
    · rw [s.setState_of_ne same]
      simp [same]
  have shorter : (s.liveJobs.erase job).length ≤ s.liveJobs.length :=
    List.length_erase_le
  refine ⟨?_, ?_, ?_, ?_, ?_⟩
  · rw [Actor.finish, eq]
    exact queued.head
  · rw [live, Actor.finish, eq]
    exact slots
  · rw [live, Actor.finish, eq]
    rfl
  · rw [live, Actor.finish, eq]
    rfl
  · rw [live]
    exact shorter.trans queued.room

theorem Actor.Owners.finish (owners : s.Owners) (here : s.pc r = .compiling job) :
    (s.finish r job rc).Owners := by
  have insideHere : (s.pc r).inside = some job := by rw [here]; rfl
  have insideOf (r' job') (inside : ((s.finish r job rc).pc r').inside =
      some job') : r' ≠ r ∧ (s.pc r').inside = some job' := by
    rw [s.finish_pc] at inside
    split at inside
    next => cases inside
    next other => exact ⟨other, inside⟩
  have none (r' job') : (s.finish r job rc).pc r' ≠ .compiling job' := by
    rw [s.finish_pc]
    split
    next => simp
    next other =>
      intro there
      exact other (owners.one r' r job' job there here)
  refine ⟨?_, ?_, ?_, ?_, ?_⟩
  · intro r' job' inside
    obtain ⟨other, stayed⟩ := insideOf r' job' inside
    have apart : job' ≠ job := by
      rintro rfl
      exact other (owners.alone r' r job' stayed insideHere)
    rw [s.finish_next, s.finish_jobs, s.setState_of_ne apart]
    exact owners.inside r' job' stayed
  · intro r₁ r₂ job' first second
    exact owners.alone r₁ r₂ job' (insideOf r₁ job' first).2
      (insideOf r₂ job' second).2
  · intro job'
    simp only [none, exists_false, iff_false]
    rw [s.finish_jobs]
    by_cases same : job' = job
    · rw [same, s.setState_self]
      exact finalState_ne_running rc
    · rw [s.setState_of_ne same]
      intro running
      obtain ⟨r', there⟩ := (owners.running job').mp running
      obtain rfl := owners.one r' r job' job there here
      rw [here] at there
      cases there
      exact same rfl
  · simp only [none, exists_false, iff_false]
    exact Bool.false_ne_true
  · intro r₁ r₂ job₁ job₂ first
    exact absurd first (none r₁ job₁)

theorem Actor.mem_parked : job ∈ s.parked ↔ job < s.next ∧ (s.jobs job).state = .waiting := by
  simp [Actor.parked]

theorem Actor.Wakes.finish (inv : s.Inv) (here : s.pc r = .compiling job) :
    (s.finish r job rc).Wakes := by
  refine ⟨?_, ?_, ?_⟩
  · intro r' job' member
    rw [s.finish_jobs, s.setState_released]
    rw [s.finish_pc] at member
    split at member
    next =>
      rw [inv.queued.waiting_eq] at member
      have waits := (Actor.mem_parked.mp member).2
      rw [Bool.eq_false_iff]
      intro gone
      have ended := inv.blocks.released job' gone
      rw [waits] at ended
      cases ended
    next => exact inv.wakes.todo r' job' member
  · intro job'
    obtain ⟨-, -, -, reposts⟩ := s.dequeue_frame job
    have moved := tally_update (Finset.mem_univ r)
      (fun pc : ActorPc => pc.todo.count job') s.pc (.waking s.waiting)
    have pcs : (s.finish r job rc).pc =
        update s.pc r (.waking s.waiting) := by
      funext r'
      rw [s.finish_pc, update_apply]
    have same : (s.finish r job rc).reposts = s.reposts := reposts
    have found : (s.finish r job rc).found = s.found ++ s.parked := rfl
    rw [here, inv.queued.waiting_eq] at moved
    rw [pcs, same, found, List.count_append, inv.wakes.owed job',
      inv.queued.waiting_eq]
    simp only [todo_waking, todo_compiling, List.count_nil] at moved ⊢
    omega
  · obtain ⟨-, -, -, reposts⟩ := s.dequeue_frame job
    have same : (s.finish r job rc).reposts = s.reposts := reposts
    rw [same]
    exact inv.wakes.clean

theorem Actor.Inv.finish (inv : s.Inv) (room : s.qCount < actorDepth)
    (here : s.pc r = .compiling job) : (s.finish r job rc).Inv := by
  obtain ⟨submitted, live⟩ := inv.owners.inside r job (by rw [here]; rfl)
  have blocks := inv.blocks.setState (finalState rc) submitted live
  refine ⟨?_, inv.owners.finish here, ⟨?_, ?_⟩, .finish inv here⟩
  · exact inv.queued.finish room (Actor.mem_liveJobs.mpr ⟨submitted, live⟩)
  · rw [s.finish_next, s.finish_jobs]
    exact blocks.unsubmitted
  · rw [s.finish_jobs]
    exact blocks.released

/-! The posts of the jobs that were found waiting. -/

theorem Actor.Inv.wake (inv : s.Inv) {rest : List JobId} (here : s.pc r = .waking (job :: rest)) :
    ({ s with reposts := s.reposts ++ [(job, (s.jobs job).released)] }.goto r
      (.waking rest)).Inv := by
  refine ⟨?_, ?_, ⟨inv.blocks.unsubmitted, inv.blocks.released⟩, ?_, ?_, ?_⟩
  · exact inv.queued.of_eq rfl rfl rfl rfl rfl
  · exact inv.owners.of_move rfl (by simp [here]) (by simp) le_rfl
      (fun _ => rfl) (fun _ => Iff.rfl) rfl (by simp [ActorPc.inside])
  · intro r' job' member
    simp only [Actor.goto, update_apply] at member
    split at member
    next same =>
      refine inv.wakes.todo r' job' ?_
      rw [same, here]
      exact List.mem_cons_of_mem job member
    next => exact inv.wakes.todo r' job' member
  · intro job'
    have moved := tally_update (Finset.mem_univ r)
      (fun pc : ActorPc => pc.todo.count job') s.pc (.waking rest)
    simp only [here, todo_waking, List.count_cons] at moved
    simp only [Actor.goto, inv.wakes.owed job', List.map_append, List.map_cons,
      List.map_nil, List.count_append, List.count_singleton]
    omega
  · intro post member
    rcases List.mem_append.mp member with before | now
    · exact inv.wakes.clean post before
    · obtain rfl := List.mem_singleton.mp now
      refine inv.wakes.todo r job ?_
      rw [here]
      exact List.mem_cons_self

theorem Actor.holds_iff : s.holds job = true ↔
    job < s.next ∧ (s.jobs job).released = false := by
  simp [Actor.holds]

theorem Actor.Inv.act (inv : s.Inv) {i : Fin n × ActorCall} (keeps : s.KeepsQueue i) :
    (s.act i).Inv := by
  obtain ⟨r, call⟩ := i
  simp only [Actor.act]
  split
  next here =>
    split
    · exact inv
    · exact inv.goto (by simp [here]) (by simp) (by simp [here, ActorPc.todo])
        rfl (by simp [ActorPc.inside])
  next served here =>
    split
    · exact inv.goto (by simp [here]) (by simp) (by simp [here, ActorPc.todo])
        rfl (by simp [ActorPc.inside])
    next room => exact inv.enqueue (by omega) here
  next job served here =>
    split
    next held =>
      obtain ⟨submitted, kept⟩ := Actor.holds_iff.mp held
      rw [Actor.post]
      split
      · exact inv
      · exact inv.mark submitted rfl .inl
    · exact inv
  next job here =>
    split
    next enters =>
      obtain ⟨submitted, -⟩ := Actor.holds_iff.mp enters.1
      refine inv.goto (by simp [here]) (by simp) (by simp [here, ActorPc.todo])
        rfl ?_
      rintro job' entered
      obtain rfl : job = job' := Option.some.inj entered
      exact ⟨submitted, by simpa using enters.2, fun r' _ => keeps r'⟩
    · exact inv
  next job here =>
    split
    · exact inv.wait here
    next free => exact inv.take here (by simpa using free)
  next rc job here => exact inv.finish keeps here
  next here =>
    exact inv.goto (by simp [here]) (by simp) (by simp [here, ActorPc.todo])
      rfl (by simp [ActorPc.inside])
  next job rest here => exact inv.wake here
  next job here =>
    split
    next held =>
      obtain ⟨submitted, -⟩ := Actor.holds_iff.mp held
      rw [Actor.cancel]
      split
      · exact inv
      · exact inv.mark submitted rfl .inl
    · exact inv
  next job retired here =>
    split
    next held =>
      obtain ⟨submitted, -⟩ := Actor.holds_iff.mp held
      rw [Actor.release]
      split
      · exact inv
      next ended =>
        split
        · exact inv
        · exact inv.mark submitted rfl
            fun _ => .inr ⟨by simpa using ended, keeps⟩
    · exact inv
  next => exact inv

instance (s : Actor n) : ∀ i, Decidable (s.KeepsQueue i)
  | (_, .finish _) => inferInstanceAs (Decidable (s.qCount < actorDepth))
  | (_, .step job) =>
      inferInstanceAs (Decidable (∀ r, (s.pc r).inside ≠ some job))
  | (_, .release job _) =>
      inferInstanceAs (Decidable (∀ r, job ∉ (s.pc r).todo))
  | (_, .submit) | (_, .enqueue _) | (_, .post ..) | (_, .lock) | (_, .wake)
  | (_, .cancel _) => isTrue trivial

def handOver : List (Fin 2 × ActorCall) :=
  [(0, .submit), (0, .enqueue true), (1, .submit), (1, .enqueue true),
   (0, .step 0), (0, .lock), (1, .step 1), (1, .lock), (0, .finish .ok),
   (0, .wake), (0, .wake), (0, .release 0 true), (1, .step 1), (1, .lock)]

end Metal.Build
