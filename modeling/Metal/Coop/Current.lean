import Metal.Coop.Plain
import Metal.Coop.Schedule

namespace Metal.Coop

open Metal.Lib

/-! The current-task slot of one core, over every nesting of steps on that core. -/

variable {N : Nat} {α β : Type}

/-- A call of `step_task` that reaches its CAS on `running` while the core's slot is in use,
that is, from inside a step, finds the flag set. -/
def StepsNoOther (r : Fin N) : Op → Memory N → Prop
  | .casRunning t, m => m.current r = none ∨ (m.tasks t).running = true
  | _, _ => True

def AnyStep : Op → Memory N → Prop := fun _ _ => True

/-- One operation of core `r`, after any moves of the others: they have slots of their own. -/
def coreExec (allows : Op → Memory N → Prop) (r : Fin N) (o : Op) (m : Memory N)
    (answer : o.Ret) (m' : Memory N) : Prop :=
  ∃ seen choice, seen.current r = m.current r ∧ allows o seen ∧
    memExec r o choice seen = some (answer, m')

def innermost : Proc → Option TaskPtr → Option TaskPtr
  | .stepLoop t, _ => some t
  | _, place => place

/-- `pm_metal_coop_current_task`, and each point where code outside the card is running. -/
def Op.readsSlot : Op → Bool
  | .loadCurrent | .act | .idle => true
  | _ => false

def leavesSlot : (p : Proc) → p.Res → Option TaskPtr → Option TaskPtr
  | .stepLoop t, broke, _ => if broke then some t else none
  | _, _, place => place

def slotContract (r : Fin N) : Contract CoopSig (Memory N) (Option TaskPtr) where
  exec := coreExec (StepsNoOther r) r
  enter := innermost
  sees place o m := o.readsSlot = true → m.current r = place
  pre place p m := m.current r = innermost p place
  post place p _ answer m' := m'.current r = leavesSlot p answer place

section Steady

variable {r : Fin N} {place : Option TaskPtr} {n : Nat} {t : TaskPtr}

def Steady (r : Fin N) (program : CoopProgram α) : Prop :=
  ∀ place m, m.current r = place →
    (slotContract r).wp place program m fun _ m' => m'.current r = place

def Op.quiet : Op → Bool
  | .storeCurrent _ => false
  | _ => true

def Proc.quiet : Proc → Bool
  | .stepLoop _ => false
  | _ => true

def Quiet (program : CoopProgram α) : Prop :=
  program.Only (fun o : Op => o.quiet = true) fun p : Proc => p.quiet = true

variable {program : CoopProgram α}

theorem Easy.quiet (easy : Easy program) : Quiet program :=
  Program.Only.mono (fun o fits => by cases o <;> first | rfl | cases fits)
    (fun p fits => by cases p <;> first | rfl | cases fits) easy

theorem Plain.quiet (plain : Plain program) : Quiet program :=
  plain.easy.quiet

theorem coreExec_current {allows : Op → Memory N → Prop} {o : Op} {m m' : Memory N}
    {answer : o.Ret}
    (quiet : o.quiet = true) (ran : coreExec allows r o m answer m') :
    m'.current r = m.current r := by
  obtain ⟨seen, choice, same, _, result⟩ := ran
  rw [memExec_current (fun t store => by simp [store, Op.quiet] at quiet) result, same]

theorem innermost_quiet {p : Proc} (quiet : p.quiet = true) : innermost p place = place := by
  cases p with
  | stepLoop t => cases quiet
  | _ => rfl

theorem leavesSlot_quiet {p : Proc} (quiet : p.quiet = true) (answer : p.Res) :
    leavesSlot p answer place = place := by
  cases p with
  | stepLoop t => cases quiet
  | _ => rfl

theorem Quiet.steady (quiet : Quiet program) : Steady r program := by
  intro place m start
  refine Contract.wp_of_only ?_ ?_ quiet start
  · intro o (m : Memory N) quiet (held : m.current r = place)
    refine ⟨fun _ => held, fun answer m' ran => ?_⟩
    rw [coreExec_current quiet ran, held]
  · intro p (m : Memory N) quiet (held : m.current r = place)
    refine ⟨held.trans (innermost_quiet quiet).symm, fun answer m' gives => ?_⟩
    rw [gives, leavesSlot_quiet quiet]

theorem Plain.keeps (plain : Plain program) {m : Memory N} :
    (slotContract r).wp place program m fun _ m' => m'.current r = m.current r := by
  refine Contract.wp_of_only ?_ (fun _ _ => False.elim) plain rfl
  intro o (m' : Memory N) fits (held : m'.current r = m.current r)
  refine ⟨fun reads => ?_, fun answer m'' ran => ?_⟩
  · cases o with
    | loadCurrent | act | idle => cases fits
    | _ => cases reads
  · have quiet : o.quiet = true := by cases o <;> first | rfl | cases fits
    rw [coreExec_current quiet ran, held]

theorem Steady.bind {f : α → CoopProgram β} (first : Steady r program)
    (rest : ∀ value, Steady r (f value)) : Steady r (program.bind f) := by
  intro place m start
  rw [Contract.wp_bind]
  exact Contract.wp_mono (fun value m' held => rest value place m' held) (first place m start)

end Steady

section Quiet

variable {n : Nat} {t : TaskPtr} {c self child : CoroPtr}

@[simp] theorem quiet_done (value : α) : Quiet (.done value) := .done

@[simp] theorem quiet_op {o : Op} {next : o.Ret → CoopProgram α} :
    Quiet (.op o next) ↔ o.quiet = true ∧ ∀ answer, Quiet (next answer) :=
  ⟨fun | .op fits rest => ⟨fits, rest⟩, fun ⟨fits, rest⟩ => .op fits rest⟩

@[simp] theorem quiet_call {p : Proc} {next : p.Res → CoopProgram α} :
    Quiet (.call p next) ↔ p.quiet = true ∧ ∀ answer, Quiet (next answer) :=
  ⟨fun | .call fits rest => ⟨fits, rest⟩, fun ⟨fits, rest⟩ => .call fits rest⟩

theorem Quiet.bind {program : CoopProgram α} {f : α → CoopProgram β}
    (first : Quiet program) (rest : ∀ value, Quiet (f value)) : Quiet (program.bind f) :=
  Program.Only.bind first rest

theorem quiet_taskDetach : Quiet (taskDetach t) := by
  simp [taskDetach, mark, perform, Op.quiet]
  refine plain_taskIsTerminal.quiet.bind fun ended => ?_
  cases ended with
  | false => exact quiet_done false
  | true =>
      simp [Op.quiet]
      exact plain_taskMarkDead.quiet.bind fun _ => quiet_done true

theorem quiet_taskRetire : Quiet (taskRetire t) := by
  simp [taskRetire, mark, perform, Op.quiet]
  intro current
  split
  · simp [Op.quiet]
    exact plain_taskMarkDead.quiet.bind fun _ => quiet_done true
  · simp [Op.quiet]
    exact plain_taskMarkDead.quiet.bind fun _ => by simp [Op.quiet]

theorem quiet_sleepUs (us : Nat) : Quiet (sleepUs self us) := by
  refine quiet_call.mpr ⟨rfl, fun found => ?_⟩
  cases found with
  | none => exact quiet_done Status.error
  | some t => simp [mark, clock, coro, perform, Op.quiet]

theorem quiet_yieldPark : Quiet (yieldPark n self) := by
  refine quiet_call.mpr ⟨rfl, fun found => ?_⟩
  cases found with
  | none => exact quiet_done Status.error
  | some t =>
      simp [mark, coro, perform, Op.quiet]
      refine plain_pushTaskRef.quiet.bind fun pushed => ?_
      cases pushed <;> exact quiet_done _

theorem quiet_awaitChild : Quiet (await.awaitChild self child) := by
  have adopt : Quiet (await.adoptChild self child) := by
    simp [await.adoptChild, coro, perform, Op.quiet]
    intro owner
    split
    · refine quiet_call.mpr ⟨rfl, fun found => ?_⟩
      simp [Op.quiet]
    · exact quiet_done ()
  simp [await.awaitChild, coro, perform, Op.quiet]
  intro st
  split
  · simp [Op.quiet]
  · simp [Op.quiet]
    exact adopt.bind fun _ => by simp [Op.quiet]

theorem quiet_await : Quiet (await self child) := by
  simp [await, coro, perform, Op.quiet]
  intro awaiting
  split
  · exact quiet_awaitChild
  · simp [Op.quiet]
    intro awaiting
    split
    · exact quiet_awaitChild
    · exact quiet_done Status.error

theorem quiet_createTask : Quiet (createTask n c) := by
  simp [createTask, coro, perform, Op.quiet]
  intro block
  cases block with
  | none => exact quiet_done none
  | some t =>
      simp [Op.quiet]
      refine plain_pushTaskRef.quiet.bind fun pushed => ?_
      cases pushed with
      | false => simp [Op.quiet]
      | true => exact quiet_done (some t)

end Quiet

section Stepping

variable {r : Fin N} {place : Option TaskPtr} {n : Nat} {t : TaskPtr} {m m' : Memory N}

theorem coreExec_store {allows : Op → Memory N → Prop} {value : Option TaskPtr}
    {answer : Unit}
    (ran : coreExec allows r (.storeCurrent value) m answer m') : m'.current r = value := by
  obtain ⟨seen, choice, _, _, result⟩ := ran
  cases result
  simp

theorem coreExec_taken
    (ran : coreExec (StepsNoOther r) r (.casRunning t) m true m') : m.current r = none := by
  obtain ⟨seen, choice, same, alone, result⟩ := ran
  rcases alone with free | running
  · rw [← same, free]
  · simp [memExec, running] at result

theorem slot_stepAside {holds : Unit → Memory N → Prop}
    (after : ∀ m', m'.current r = none → holds () m') :
    (slotContract r).wp place (stepAside t) m holds := by
  refine ⟨nofun, fun _ cleared ran => ?_⟩
  refine ⟨nofun, fun _ free ranFree => ⟨nofun, fun _ idle ranIdle => ?_⟩⟩
  refine after idle ?_
  rw [coreExec_current rfl ranIdle, coreExec_current rfl ranFree, coreExec_store ran]

theorem steady_stepLive : Steady r (stepLive n t) := by
  intro place m start
  refine ⟨by rintro ⟨⟩, fun taken seen ran => ?_⟩
  have still := (coreExec_current rfl ran).trans start
  cases taken with
  | false =>
      have passed : Quiet (mark (.leaveTask t) >>= fun _ => rePush n t) := by
        simp [mark, perform, Op.quiet]
        exact plain_rePush.quiet
      exact passed.steady place seen still
  | true =>
      have free : place = none := start.symm.trans (coreExec_taken ran)
      refine ⟨by rintro ⟨⟩, fun _ busy _ => ⟨by rintro ⟨⟩, fun _ stored ranStore => ?_⟩⟩
      refine ⟨coreExec_store ranStore, fun broke finished leaves => ?_⟩
      cases broke with
      | false => exact leaves.trans free.symm
      | true =>
          refine Contract.wp_bind.mpr (slot_stepAside fun cleared empty => ?_)
          exact plain_stepEpilogue.quiet.steady place cleared (empty.trans free.symm)

theorem steady_stepTask : Steady r (stepTask n t) := by
  have entered : Quiet (perform (.enterTask t)) := by simp [perform, Op.quiet]
  refine entered.steady.bind fun root => ?_
  cases root with
  | none => exact (quiet_done ()).steady
  | some _ =>
      have loaded : Quiet (perform (.loadOnCStack t)) := by simp [perform, Op.quiet]
      refine loaded.steady.bind fun owned => ?_
      cases owned with
      | true => exact Quiet.steady (by simp [mark, perform, Op.quiet])
      | false =>
          refine plain_rootEnded.quiet.steady.bind fun ended => ?_
          cases ended with
          | true => exact Quiet.steady (by simp [mark, perform, Op.quiet])
          | false => exact steady_stepLive

/-- A turn of the step loop of `t`: it goes on in the slot of `t`, or has cleared it. -/
def Looping (r : Fin N) (t : TaskPtr) (program : CoopProgram Bool) : Prop :=
  ∀ m, m.current r = some t →
    (slotContract r).wp (some t) program m fun broke m' =>
      m'.current r = if broke then some t else none

theorem looping_broke : Looping r t (pure true) := fun _ start => start

theorem looping_again : Looping r t (invoke (.stepLoop t)) :=
  fun _ start => ⟨start, fun _ _ leaves => leaves⟩

theorem Quiet.looping {program : CoopProgram β} {f : β → CoopProgram Bool}
    (quiet : Quiet program) (rest : ∀ value, Looping r t (f value)) :
    Looping r t (program.bind f) := by
  intro m start
  rw [Contract.wp_bind]
  exact Contract.wp_mono (fun value m' held => rest value m' held)
    (quiet.steady (some t) m start)

theorem looping_handBack : Looping r t (handBack n t) := by
  intro m _
  have put : ∀ marked : Memory N, marked.current r = none →
      (slotContract r).wp (some t) (rePush n t >>= fun _ => pure false) marked
        fun broke m' => m'.current r = if broke then some t else none := by
    intro marked empty
    exact Contract.wp_bind.mpr
      (Contract.wp_mono (fun _ m' kept => kept.trans empty) plain_rePush.keeps)
  refine Contract.wp_bind.mpr (slot_stepAside fun cleared empty => ?_)
  exact ⟨nofun, fun _ marked ran => put marked ((coreExec_current rfl ran).trans empty)⟩

theorem looping_vmClaim (leaf : CoroPtr) : Looping r t (vmClaim t leaf) := by
  refine easy_mutexTryAcquire.quiet.looping fun st => ?_
  have goesOn : Looping r t (mark (.unlocked t) >>= fun _ => pure true) := by
    refine Quiet.looping ?_ fun _ => looping_broke
    simp [mark, perform, Op.quiet]
  cases st with
  | waiting =>
      intro m _
      refine Contract.wp_bind.mpr (slot_stepAside fun cleared empty => ?_)
      exact ⟨by rintro ⟨⟩, fun _ marked ran => (coreExec_current rfl ran).trans empty⟩
  | pending => exact looping_broke
  | finished => exact goesOn
  | cancelled => exact goesOn
  | error => exact goesOn

theorem looping_vmGate (leaf : CoroPtr) : Looping r t (vmGate n t leaf) := by
  have load (o : Op) (quiet : o.quiet = true) : Quiet (perform o) :=
    quiet_op.mpr ⟨quiet, fun _ => quiet_done _⟩
  refine (load .loadVmLockReady rfl).looping fun ready => ?_
  cases ready with
  | true =>
      refine (load .loadWorker rfl).looping fun worker => ?_
      cases worker with
      | true =>
          refine (load .loadVmCapable rfl).looping fun capable => ?_
          cases capable with
          | true => exact looping_vmClaim leaf
          | false => exact looping_handBack
      | false => exact looping_vmClaim leaf
  | false =>
      refine (load .loadWorker rfl).looping fun worker => ?_
      cases worker with
      | true => exact looping_handBack
      | false => exact looping_broke

theorem looping_leafReturned (leaf : CoroPtr) (st : Status) :
    Looping r t (leafReturned t leaf st) := by
  have access (o : CoroOp) : Quiet (frame t o) :=
    quiet_op.mpr ⟨rfl, fun _ => quiet_done _⟩
  refine (access (.storeStatus leaf st)).looping fun _ => ?_
  cases st with
  | waiting =>
      refine (access (.loadAwaiting leaf)).looping fun awaiting => ?_
      cases awaiting with
      | none => exact looping_broke
      | some child => exact looping_again
  | finished =>
      refine (access (.loadWaiter leaf)).looping fun waiter => ?_
      cases waiter with
      | none => exact looping_broke
      | some _ =>
          refine (access (.loadWaiter leaf)).looping fun waiter => ?_
          cases waiter with
          | none => exact fun _ _ => ⟨nofun, nofun⟩
          | some parent =>
              exact (access (.storeAwaiting parent none)).looping fun _ => looping_again
  | pending | cancelled | error => exact looping_broke

theorem looping_runLeaf (leaf : CoroPtr) (vmHeld : Bool) :
    Looping r t (runLeaf n t leaf vmHeld) := by
  have stepped : Quiet (perform (.stepLeaf t)) := by simp [perform, Op.quiet]
  have returned : Quiet userStep := by simp [userStep, invoke, Proc.quiet]
  refine stepped.looping fun _ => returned.looping fun st => ?_
  exact (plain_vmLeave vmHeld).quiet.looping fun _ => looping_leafReturned leaf st

theorem looping_stepTurn : Looping r t (stepTurn n t) := by
  have access (o : CoroOp) : Quiet (frame t o) :=
    quiet_op.mpr ⟨rfl, fun _ => quiet_done _⟩
  have loaded : Quiet (perform (.loadRoot t)) := by simp [perform, Op.quiet]
  refine loaded.looping fun root => ?_
  cases root with
  | none => exact fun _ _ => ⟨by rintro ⟨⟩, by rintro ⟨⟩⟩
  | some root =>
      have found : Quiet (invoke (.leafOf t root)) := by simp [invoke, Proc.quiet]
      refine found.looping fun leaf => (access (.loadStep leaf)).looping fun step => ?_
      cases step with
      | false =>
          refine (access (.storeStatus leaf .error)).looping fun _ => ?_
          have dropped : Quiet (mark (.drop t)) := by simp [mark, perform, Op.quiet]
          exact dropped.looping fun _ => looping_broke
      | true =>
          refine (access (.loadVmOnly leaf)).looping fun vmOnly => ?_
          cases vmOnly with
          | false => exact looping_runLeaf leaf false
          | true =>
              intro m start
              refine Contract.wp_bind.mpr (Contract.wp_mono (fun entered m' held => ?_)
                (looping_vmGate leaf m start))
              cases entered with
              | false => exact held
              | true => exact looping_runLeaf leaf true m' held

theorem steady_stepsToo : StepsToo n (fun program => Steady r program) where
  easy easy := easy.quiet.steady
  bind first rest := first.bind rest
  step _ := steady_stepTask

theorem steady_discard {program : CoopProgram α} (steady : Steady r program) :
    Steady r (runApi.discard program) :=
  steady.bind fun _ => (quiet_done ()).steady

theorem steady_given {program : CoopProgram α} (quiet : Quiet program) :
    Steady r (if t = 0 then pure () else runApi.discard program) := by
  split
  · exact (quiet_done ()).steady
  · exact steady_discard quiet.steady

theorem steady_runApi (a : Api) : Steady r (runApi n a) := by
  cases a with
  | postTask t => exact steady_given easy_postTask.quiet
  | sleepUs self us => exact steady_discard (quiet_sleepUs us).steady
  | yieldPark self => exact steady_discard quiet_yieldPark.steady
  | await self child => exact steady_discard quiet_await.steady
  | createTask c => exact steady_discard quiet_createTask.steady
  | taskReclaim t => exact steady_given easy_taskReclaim.quiet
  | taskDetach t => exact steady_given quiet_taskDetach
  | taskRetire t => exact steady_given quiet_taskRetire
  | runUntil waiter => exact steady_discard easy_runUntil.quiet.steady
  | poll => exact easy_poll.quiet.steady
  | yield => exact steady_stepsToo.yield
  | setVmOnly c | setAutoFree c
  | setStatus c st => exact Quiet.steady (by simp [runApi, coro, perform, Op.quiet])

theorem slot_verified (r : Fin N) (n : Nat) : (slotContract r).Verified (body n) := by
  intro place p m start
  cases p with
  | main =>
      have idle : Quiet (perform .idle) := by simp [perform, Op.quiet]
      have again : Quiet (invoke .main) := by simp [invoke, Proc.quiet]
      refine (idle.steady.bind fun a => ?_ : Steady r (body n .main)) place m start
      refine Steady.bind ?_ fun _ => again.steady
      cases a with
      | api a => exact steady_runApi a
      | ret st => exact steady_stepsToo.runnerPass
  | user =>
      have acts : Quiet (perform .act) := by simp [perform, Op.quiet]
      refine (acts.steady.bind fun a => ?_ : Steady r (body n .user)) place m start
      cases a with
      | api a =>
          refine (steady_runApi a).bind fun _ => Quiet.steady ?_
          simp [userStep, invoke, Proc.quiet]
      | ret st => exact (quiet_done st).steady
  | taskOf c =>
      exact (easy_taskOfBody.quiet.steady : Steady r (body n (.taskOf c))) place m start
  | leafOf t leaf =>
      exact (easy_leafOfBody.quiet.steady : Steady r (body n (.leafOf t leaf))) place m start
  | stepLoop t => exact looping_stepTurn m start
  | fireTimers now =>
      exact ((easy_fireTimersBody now).quiet.steady : Steady r (body n (.fireTimers now)))
        place m start
  | pollLoop => exact (steady_stepsToo.pollTurn : Steady r (body n .pollLoop)) place m start
  | untilLoop waiter owner stallUntil =>
      exact (steady_stepsToo.untilTurn waiter owner stallUntil : Steady r
        (body n (.untilLoop waiter owner stallUntil))) place m start

end Stepping

/-- Every call of `step_task` on core `r` leaves the slot as it found it, and wherever code
outside the card runs inside one, or asks for the current task, and in every run from a point
where nothing is stepped, the slot holds the task whose step is the innermost one. -/
def SlotIsStack (allows : Op → Memory N → Prop) (r : Fin N) (n : Nat) : Prop :=
  (∀ t m m', Program.Ends (coreExec allows r) (body n) (stepTask n t) m () m' →
    m'.current r = m.current r) ∧
  (∀ t m place (o : Op) m', o.readsSlot = true →
    Program.Visits (coreExec allows r) (body n) innermost (m.current r) (stepTask n t) m
      place o m' → m'.current r = place) ∧
  ∀ m place (o : Op) m', m.current r = none → o.readsSlot = true →
    Program.Visits (coreExec allows r) (body n) innermost none (invoke .main) m place o m' →
      m'.current r = place

theorem slot_is_stack (r : Fin N) (n : Nat) : SlotIsStack (StepsNoOther r) r n := by
  refine ⟨?_, ?_, ?_⟩
  · intro t m m' ends
    exact Contract.holds_of_ends (slot_verified r n) (steady_stepTask (m.current r) m rfl) ends
  · intro t m place o m' reads visits
    exact Contract.sees_of_visits (slot_verified r n) (steady_stepTask (m.current r) m rfl)
      visits reads
  · intro m place o m' empty reads visits
    have whole : Quiet (invoke .main) := by simp [invoke, Proc.quiet]
    exact Contract.sees_of_visits (slot_verified r n) (whole.steady none m empty) visits reads

/-! Runs of core 0 of a pair, the other core at rest. -/

theorem playOp_follows {allows : Op → Memory 2 → Bool} {guard : Op → Memory 2 → Prop}
    (agrees : ∀ o m, allows o m = true → guard o m) (o : Op) (s : Memory 2 × List Choice)
    (answer : o.Ret) (t : Memory 2 × List Choice)
    (played : playOp (fun o _ m => allows o m) o s = some (answer, t)) :
    coreExec guard 0 o s.1 answer t.1 := by
  obtain ⟨allowed, choice, result⟩ := playOp_result played
  exact ⟨s.1, choice, rfl, agrees o s.1 allowed, result⟩

/-- The end of the script, at a point of the step of task 1 where the slot holds `value`. -/
def endsInside (value : Option TaskPtr) (place : Option TaskPtr) (o : Op)
    (s : Memory 2 × List Choice) : Bool :=
  match o with
  | .act => s.2.isEmpty && place == some 1 && s.1.current 0 == value
  | _ => false

theorem inside_of_endsInside {value place : Option TaskPtr} {o : Op}
    {s : Memory 2 × List Choice} (ends : endsInside value place o s = true) :
    o.readsSlot = true ∧ place = some 1 ∧ s.1.current 0 = value := by
  cases o with
  | act =>
      simp only [endsInside, Bool.and_eq_true, beq_iff_eq] at ends
      exact ⟨rfl, ends.1.2, ends.2⟩
  | _ => cases ends

theorem exists_inside {value : Option TaskPtr} {allows : Op → Memory 2 → Bool}
    {guard : Op → Memory 2 → Prop} (agrees : ∀ o m, allows o m = true → guard o m)
    {script : List Choice}
    (played : (Program.play (playOp fun o _ m => allows o m) (body pair.n) innermost
      (endsInside value) 200 none (invoke .main) (pair.memory, script)).any
        Program.Outcome.isStopped = true) :
    ∃ (o : Op) (m : Memory 2), o.readsSlot = true ∧ m.current 0 = value ∧
      Program.Visits (coreExec guard 0) (body pair.n) innermost none (invoke .main) pair.memory
        (some 1) o m := by
  obtain ⟨place, o, s, visits, ends⟩ := Program.visits_of_play (playOp_follows agrees) played
  obtain ⟨reads, rfl, found⟩ := inside_of_endsInside ends
  exact ⟨o, s.1, reads, found, visits⟩

def stepsNoOther : Op → Memory 2 → Bool
  | .casRunning t, m => m.current 0 == none || (m.tasks t).running
  | _, _ => true

theorem stepsNoOther_agrees (o : Op) (m : Memory 2) (allowed : stepsNoOther o m = true) :
    StepsNoOther 0 o m := by
  cases o with
  | casRunning t => simpa [stepsNoOther, StepsNoOther] using allowed
  | _ => trivial

def lonePoll : List Choice :=
  [.act (.api (.createTask 5)), .block 1, .act (.api .poll), .act (.ret .pending), .tick 0,
    .act (.api .poll), .act (.ret .pending), .tick 0]

theorem slot_is_stack_lone :
    ∃ (o : Op) (m : Memory 2), m.current 0 = some 1 ∧
      Program.Visits (coreExec (StepsNoOther 0) 0) (body pair.n) innermost none (invoke .main)
        pair.memory (some 1) o m := by
  have played : (Program.play (playOp fun o _ m => stepsNoOther o m) (body pair.n) innermost
      (endsInside (some 1)) 200 none (invoke .main)
      (pair.memory, lonePoll)).any Program.Outcome.isStopped = true := by decide +kernel
  obtain ⟨o, m, reads, _, visits⟩ := exists_inside stepsNoOther_agrees played
  exact ⟨o, m, (slot_is_stack 0 pair.n).2.2 _ _ _ _ rfl reads visits, visits⟩

/-- Tasks 1 and 2 are created and the main program polls; the step of task 1 polls in its
turn, which steps task 2 to its end. -/
def nestedPoll : List Choice :=
  [.act (.api (.createTask 5)), .block 1, .act (.api (.createTask 6)), .block 2,
    .act (.api .poll), .act (.ret .pending), .tick 0, .act (.api .poll),
    .act (.ret .pending), .tick 0, .act (.ret .finished), .act (.ret .pending), .tick 0]

theorem slot_is_stack_fails : ¬SlotIsStack AnyStep (0 : Fin 2) pair.n := by
  intro claim
  have played : (Program.play (playOp fun _ _ _ => true) (body pair.n) innermost
      (endsInside none) 200 none (invoke .main)
      (pair.memory, nestedPoll)).any Program.Outcome.isStopped = true := by decide +kernel
  obtain ⟨o, m, reads, empty, visits⟩ := exists_inside (fun _ _ _ => trivial) played
  have held := claim.2.2 _ _ _ _ rfl reads visits
  rw [empty] at held
  cases held

end Metal.Coop
