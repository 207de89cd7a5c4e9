import Metal.Coop.Effects
import Metal.Lib.Contracts

namespace Metal.Coop

open Metal.Lib

/-! Kinds of functions, by the operations and calls they come to. -/

variable {N : Nat} {α β : Type}

def CoroOp.loads : CoroOp → Bool
  | .loadStatus _ | .loadAwaiting _ | .loadWaiter _ | .loadTask _ | .loadStep _
  | .loadVmOnly _ | .loadAutoFree _ => true
  | _ => false

def Op.plain : Op → Bool
  | .loadCurrent | .storeCurrent _ | .casRunning _ | .clearRunning _ | .act | .idle | .clock
  | .allocTask _ | .clearRoot _ _ | .insertTimer _ | .popTimer _
  | .frame _ (.loadStep _) => false
  | .coro o | .frame _ o => o.loads
  | _ => true

/-- An operation that neither steps a task nor writes a frame or a root. -/
def Op.easy : Op → Bool
  | .storeCurrent _ | .casRunning _ | .clearRunning _ | .allocTask _ | .clearRoot _ _
  | .frame _ (.loadStep _) => false
  | .coro o | .frame _ o => o.loads
  | _ => true

def Proc.easy : Proc → Bool
  | .stepLoop _ => false
  | _ => true

def Plain (program : CoopProgram α) : Prop :=
  program.Only (fun o : Op => o.plain = true) fun _ => False

def Easy (program : CoopProgram α) : Prop :=
  program.Only (fun o : Op => o.easy = true) fun p : Proc => p.easy = true

theorem easy_of_plain {o : Op} (plain : o.plain = true) : o.easy = true := by
  cases o with
  | coro o => exact plain
  | frame t o => cases o <;> first | rfl | cases plain
  | _ => first | rfl | cases plain

variable {program : CoopProgram α}

theorem Plain.easy (plain : Plain program) : Easy program :=
  Program.Only.mono (fun _ fits => easy_of_plain fits) (fun _ => False.elim) plain

section Exec

variable {r : Fin N} {o : Op} {choice : Choice} {m m' : Memory N} {answer : o.Ret}

theorem append_current (m : Memory N) (t : TaskPtr) : (m.append t).current = m.current := by
  unfold Memory.append
  dsimp only
  split <;> rfl

theorem unlink_current {t : TaskPtr} {wasQueued : Bool}
    (unlinked : m.unlink t = some (wasQueued, m')) : m'.current = m.current := by
  unfold Memory.unlink at unlinked
  split at unlinked
  · cases unlinked
  · cases unlinked
    rfl
  · rename_i prev _ _
    cases unlinked
    cases prev with
    | none | some before =>
        dsimp only
        split <;> rfl

theorem popWaiter_current (m : Memory N) : m.popWaiter.2.current = m.current := by
  unfold Memory.popWaiter
  split
  · rfl
  · dsimp only
    split <;> rfl

theorem memExec_current (quiet : ∀ t, o ≠ .storeCurrent t)
    (result : memExec r o choice m = some (answer, m')) : m'.current = m.current := by
  cases o with
  | storeCurrent t => exact absurd rfl (quiet t)
  | coro o | frame _ o =>
      cases o <;> cases result <;> rfl
  | allocTask c =>
      simp only [memExec] at result
      split at result
      · split at result
        · cases result
        · cases result
          rfl
      · cases result
        rfl
  | popTimer now =>
      simp only [memExec] at result
      split at result
      · cases result
        rfl
      · split at result
        · cases result
          rfl
        · cases result
          rfl
  | park t holder =>
      simp only [memExec] at result
      split at result
      · split at result
        · cases result
        · rename_i unlinked
          cases result
          exact (unlink_current unlinked).trans (append_current m holder)
      · cases result
        exact append_current m holder
  | handOver t =>
      cases result
      exact popWaiter_current m
  | casRunning t | casOwner t holder =>
      simp only [memExec] at result
      split at result
      · cases result
        rfl
      · cases result
        rfl
  | lockFifo =>
      simp only [memExec] at result
      split at result
      · cases result
      · cases result
        rfl
  | clock | allocTimer | act | idle =>
      cases choice <;> cases result <;> rfl
  | crash | fault t => cases result
  | _ =>
      cases result
      rfl

theorem coroExec_loads {o : CoroOp} (loads : o.loads = true) : (coroExec o m).2 = m := by
  cases o with
  | loadStatus c | loadAwaiting c | loadWaiter c | loadTask c | loadStep c | loadVmOnly c
  | loadAutoFree c => rfl
  | _ => cases loads

def Op.writesFrame : Op → Bool
  | .coro o | .frame _ o => !o.loads
  | _ => false

theorem memExec_coros (reads : o.writesFrame = false)
    (result : memExec r o choice m = some (answer, m')) : m'.coros = m.coros := by
  cases o with
  | coro o | frame _ o =>
      have loads : o.loads = true := by simpa [Op.writesFrame] using reads
      have same : m' = (coroExec o m).2 :=
        (congrArg Prod.snd (Option.some.inj result)).symm
      rw [same, coroExec_loads loads]
  | park t holder => exact (park_fifoOnly result).coros
  | handOver t => exact (handOver_fifoOnly result).coros
  | allocTask c =>
      simp only [memExec] at result
      split at result
      · split at result
        · cases result
        · cases result
          rfl
      · cases result
        rfl
  | popTimer now =>
      simp only [memExec] at result
      split at result
      · cases result
        rfl
      · split at result
        · cases result
          rfl
        · cases result
          rfl
  | casRunning t | casOwner t holder =>
      simp only [memExec] at result
      split at result
      · cases result
        rfl
      · cases result
        rfl
  | lockFifo =>
      simp only [memExec] at result
      split at result
      · cases result
      · cases result
        rfl
  | clock | allocTimer | act | idle =>
      cases choice <;> cases result <;> rfl
  | crash | fault t => cases result
  | _ =>
      cases result
      rfl

theorem writesFrame_easy (easy : o.easy = true) : o.writesFrame = false := by
  cases o with
  | coro o =>
      simp only [Op.easy] at easy
      simp [Op.writesFrame, easy]
  | frame t o =>
      cases o with
      | loadStep c => cases easy
      | _ =>
          simp only [Op.easy] at easy
          simp [Op.writesFrame, easy]
  | _ => rfl

end Exec

section Plain

variable {n : Nat} {t : TaskPtr} {c : CoroPtr}

@[simp] theorem plain_done (value : α) : Plain (.done value) := .done

@[simp] theorem plain_op {o : Op} {next : o.Ret → CoopProgram α} :
    Plain (.op o next) ↔ o.plain = true ∧ ∀ answer, Plain (next answer) :=
  ⟨fun | .op fits rest => ⟨fits, rest⟩, fun ⟨fits, rest⟩ => .op fits rest⟩

theorem Plain.bind {f : α → CoopProgram β} (first : Plain program)
    (rest : ∀ value, Plain (f value)) : Plain (program.bind f) :=
  Program.Only.bind first rest

theorem plain_perform {o : Op} (plain : o.plain = true) : Plain (perform o) :=
  plain_op.mpr ⟨plain, fun _ => plain_done _⟩

theorem plain_ring (program : RingProgram α) : Plain (ring program) :=
  Program.Only.embed (fun _ => plain_op.mpr ⟨rfl, fun _ => .done⟩) (fun p => Empty.elim p)
    program

theorem plain_fault : Plain (fault t : CoopProgram α) := .op rfl fun none => nomatch none

theorem plain_taskFree : Plain (taskFree t) := by
  refine .op rfl fun _ => .op rfl fun root => ?_
  cases root with
  | none => exact plain_perform rfl
  | some root =>
      refine .op rfl fun autoFree => ?_
      cases autoFree with
      | true => exact .op rfl fun _ => plain_perform rfl
      | false => exact plain_perform rfl

theorem plain_taskUnref : Plain (taskUnref t) := by
  refine .op rfl fun was => ?_
  show Plain (if lastRef was then taskFree t else pure ())
  split
  · exact plain_taskFree
  · exact plain_done ()

theorem plain_holdTaskRef : Plain (holdTaskRef t) := by
  refine .op rfl fun dead => ?_
  cases dead with
  | true => exact plain_done false
  | false =>
      refine .op rfl fun _ => .op rfl fun died => ?_
      cases died with
      | true => exact plain_taskUnref.bind fun _ => plain_done false
      | false => exact plain_done true

theorem plain_pushTaskRef : Plain (pushTaskRef n t) := by
  refine plain_holdTaskRef.bind fun held => ?_
  cases held with
  | false => exact plain_done false
  | true =>
      refine (plain_ring _).bind fun pushed => ?_
      cases pushed with
      | false => exact plain_taskUnref.bind fun _ => plain_done false
      | true => exact plain_done true

theorem plain_rePush : Plain (rePush n t) := by
  refine plain_pushTaskRef.bind fun pushed => ?_
  cases pushed with
  | false => exact plain_perform rfl
  | true => exact plain_done ()

theorem plain_taskMarkDead : Plain (taskMarkDead t) := by
  refine .op rfl fun _ => .op rfl fun prev => ?_
  show Plain (if unheld prev then taskFree t else pure ())
  split
  · exact plain_taskFree
  · exact plain_done ()

theorem plain_taskIsTerminal : Plain (taskIsTerminal t) := by
  refine .op rfl fun root => ?_
  cases root with
  | none => exact plain_done true
  | some _ =>
      refine .op rfl fun root => ?_
      cases root with
      | none => exact .op rfl fun none => nomatch none
      | some root => exact .op rfl fun st => plain_done st.terminal

theorem plain_mutexRelease : Plain (mutexRelease n t) := by
  refine .op rfl fun _ => .op rfl fun woken => ?_
  cases woken with
  | none => exact plain_perform rfl
  | some wake => exact .op rfl fun _ => plain_rePush.bind fun _ => plain_taskUnref

theorem plain_rootStatusIs (st : Status) : Plain (rootStatusIs t st) := by
  refine .op rfl fun root => ?_
  cases root with
  | none => exact plain_fault
  | some root => exact .op rfl fun found => plain_done (decide (found = st))

theorem plain_rootEnded : Plain (rootEnded t) := by
  refine (plain_rootStatusIs .finished).bind fun finished => ?_
  cases finished with
  | true => exact plain_done true
  | false =>
      refine (plain_rootStatusIs .error).bind fun failed => ?_
      cases failed with
      | true => exact plain_done true
      | false => exact plain_rootStatusIs .cancelled

theorem plain_vmLeave (vmHeld : Bool) : Plain (vmLeave n t vmHeld) := by
  cases vmHeld with
  | false => exact plain_done ()
  | true =>
      refine .op rfl fun ready => ?_
      cases ready with
      | true => exact plain_mutexRelease
      | false => exact plain_done ()

theorem plain_rootTerminal : Plain (stepEpilogue.rootTerminal t) := by
  refine .op rfl fun root => ?_
  cases root with
  | none => exact plain_fault
  | some root => exact .op rfl fun st => plain_done st.terminal

theorem plain_stepEpilogue : Plain (stepEpilogue t) := by
  refine .op rfl fun root => ?_
  cases root with
  | none => exact plain_perform rfl
  | some _ =>
      refine plain_rootTerminal.bind fun ended => ?_
      cases ended with
      | false => exact plain_perform rfl
      | true =>
          refine .op rfl fun root => ?_
          cases root with
          | none => exact plain_perform rfl
          | some _ =>
              refine .op rfl fun root => ?_
              cases root with
              | none => exact plain_fault
              | some root =>
                  refine .op rfl fun autoFree => ?_
                  cases autoFree with
                  | true => exact .op rfl fun _ => plain_taskMarkDead
                  | false => exact plain_perform rfl

theorem plain_setOnCStack (owner : Option TaskPtr) (value : Bool) :
    Plain (setOnCStack owner value) := by
  cases owner with
  | none => exact plain_done ()
  | some t => exact plain_perform rfl

theorem plain_waiterEnded : Plain (waiterEnded c) := by
  refine .op rfl fun st => ?_
  show Plain (if st = .finished then pure true else _)
  split
  · exact plain_done true
  · refine .op rfl fun st => ?_
    show Plain (if st = .error then pure true else _)
    split
    · exact plain_done true
    · refine .op rfl fun st => ?_
      show Plain (if st = .cancelled then pure true else pure false)
      split
      · exact plain_done true
      · exact plain_done false

end Plain

section Easy

variable {n : Nat} {t : TaskPtr} {c self : CoroPtr}

@[simp] theorem easy_done (value : α) : Easy (.done value) := .done

@[simp] theorem easy_op {o : Op} {next : o.Ret → CoopProgram α} :
    Easy (.op o next) ↔ o.easy = true ∧ ∀ answer, Easy (next answer) :=
  ⟨fun | .op fits rest => ⟨fits, rest⟩, fun ⟨fits, rest⟩ => .op fits rest⟩

@[simp] theorem easy_call {p : Proc} {next : p.Res → CoopProgram α} :
    Easy (.call p next) ↔ p.easy = true ∧ ∀ answer, Easy (next answer) :=
  ⟨fun | .call fits rest => ⟨fits, rest⟩, fun ⟨fits, rest⟩ => .call fits rest⟩

theorem Easy.bind {f : α → CoopProgram β} (first : Easy program) (rest : ∀ value, Easy (f value)) :
    Easy (program.bind f) :=
  Program.Only.bind first rest

theorem easy_perform {o : Op} (easy : o.easy = true) : Easy (perform o) :=
  easy_op.mpr ⟨easy, fun _ => easy_done _⟩

theorem easy_invoke {p : Proc} (easy : p.easy = true) : Easy (invoke p) :=
  easy_call.mpr ⟨easy, fun _ => easy_done _⟩

theorem easy_taskReclaim : Easy (taskReclaim t) := by
  refine .op rfl fun _ => plain_taskIsTerminal.easy.bind fun ended => ?_
  cases ended with
  | false => exact easy_done false
  | true => exact plain_taskMarkDead.easy.bind fun _ => easy_done true

theorem easy_fireTimers : Easy fireTimers := .op rfl fun _ => easy_invoke rfl

theorem easy_pump : Easy pump := .call rfl fun _ => easy_done ()

theorem only_mutexTryAcquire :
    (mutexTryAcquire t self).Only (fun o : Op => o.plain = true) (· = Proc.taskOf self) := by
  have within {program : CoopProgram Status} (plain : Plain program) :
      program.Only (fun o : Op => o.plain = true) (· = Proc.taskOf self) :=
    Program.Only.mono (fun _ fits => fits) (fun _ => False.elim) plain
  refine .call rfl fun found => ?_
  cases found with
  | none => exact .done
  | some holder =>
      apply within
      refine .op rfl fun owns => ?_
      cases owns with
      | true => exact Program.Only.done
      | false =>
          refine .op rfl fun swapped => ?_
          cases swapped with
          | true => exact Program.Only.done
          | false =>
              refine .op rfl fun _ => plain_holdTaskRef.bind fun held => ?_
              cases held with
              | false => exact .op rfl fun _ => Program.Only.done
              | true =>
                  refine .op rfl fun parked => ?_
                  rcases parked with _ | wasQueued
                  · exact .op rfl fun _ => Program.Only.done
                  · refine .op rfl fun _ => ?_
                    cases wasQueued with
                    | false => exact Program.Only.done
                    | true => exact plain_taskUnref.bind fun _ => Program.Only.done

theorem easy_mutexTryAcquire : Easy (mutexTryAcquire t self) :=
  Program.Only.mono (fun _ fits => easy_of_plain fits) (fun _ same => by rw [same]; rfl)
    only_mutexTryAcquire

theorem easy_postTask : Easy (postTask n t) :=
  .op rfl fun _ => .op rfl fun _ => plain_pushTaskRef.easy.bind fun posted =>
    .op rfl fun _ => easy_done posted

theorem easy_poll : Easy poll :=
  easy_pump.bind fun _ => easy_fireTimers.bind fun _ => easy_invoke rfl

theorem easy_runUntil : Easy (runUntil c) :=
  .op rfl fun owner => (plain_setOnCStack owner true).easy.bind fun _ =>
    .op rfl fun _ => easy_invoke rfl

theorem easy_taskOfBody : Easy (body n (.taskOf c)) := by
  refine .op rfl fun found => ?_
  cases found with
  | some t => exact easy_done _
  | none =>
      refine .op rfl fun waiter => ?_
      cases waiter with
      | some parent => exact easy_invoke rfl
      | none => exact easy_done _

theorem easy_leafOfBody : Easy (body n (.leafOf t c)) := by
  refine .op rfl fun awaiting => ?_
  cases awaiting with
  | none => exact easy_done c
  | some child => exact easy_invoke rfl

theorem easy_fireTimersBody (now : Nat) : Easy (body n (.fireTimers now)) := by
  refine .op rfl fun popped => ?_
  cases popped with
  | none => exact easy_done ()
  | some t =>
      exact plain_pushTaskRef.easy.bind fun _ => plain_taskUnref.easy.bind fun _ =>
        .op rfl fun _ => easy_invoke rfl

end Easy

/-- A kind of programs with the easy ones and the calls of `step_task` among them. -/
structure StepsToo (n : Nat) (kind : {α : Type} → CoopProgram α → Prop) : Prop where
  easy {α : Type} {program : CoopProgram α} (easy : Easy program) : kind program
  bind {α β : Type} {program : CoopProgram α} {f : α → CoopProgram β}
    (first : kind program) (rest : ∀ value, kind (f value)) : kind (program.bind f)
  step (t : TaskPtr) : kind (stepTask n t)

namespace StepsToo

variable {n : Nat} {kind : {α : Type} → CoopProgram α → Prop} {t : TaskPtr}

section

variable (steps : StepsToo n kind)
include steps

theorem serve : kind (stepTask n t >>= fun _ => taskUnref t) :=
  steps.bind (steps.step t) fun _ => steps.easy plain_taskUnref.easy

theorem driveOne : kind (driveOne n t) := by
  refine steps.bind (steps.easy (easy_perform (o := .loadCurrent) rfl)) fun current => ?_
  split
  · refine steps.easy (plain_pushTaskRef.easy.bind fun pushed => ?_)
    cases pushed with
    | true => exact plain_taskUnref.easy
    | false => exact easy_perform rfl
  · exact steps.serve

theorem drainOne : kind (drainOne n) := by
  refine steps.bind (steps.easy (plain_ring (ringClaim n)).easy) fun claim => ?_
  cases claim with
  | none => exact steps.easy (easy_done false)
  | some claim =>
      obtain ⟨word, idx⟩ := claim
      have released := (plain_ring (ringRelease n idx)).easy
      dsimp only
      split
      · exact steps.easy (released.bind fun _ => easy_done true)
      · exact steps.bind (steps.easy released) fun _ =>
          steps.bind steps.driveOne fun _ => steps.easy (easy_done true)

theorem yieldDrains (left : Nat) : kind (yieldDrains n left) := by
  induction left with
  | zero => exact steps.easy (easy_done ())
  | succ left ih =>
      exact steps.bind steps.drainOne fun _ =>
        steps.bind (steps.easy easy_pump) fun _ => ih

theorem yield : kind (yield n) :=
  steps.bind (steps.easy easy_pump) fun _ =>
    steps.bind (steps.easy easy_fireTimers) fun _ => steps.yieldDrains 8

theorem pollTurn : kind (pollTurn n) := by
  refine steps.bind (steps.easy (plain_ring (ringClaim n)).easy) fun claim => ?_
  cases claim with
  | none => exact steps.easy (easy_done ())
  | some claim =>
      obtain ⟨word, idx⟩ := claim
      have released := (plain_ring (ringRelease n idx)).easy
      dsimp only
      split
      · exact steps.easy (released.bind fun _ => easy_invoke rfl)
      · refine steps.bind (steps.easy released) fun _ => steps.bind (steps.step _) fun _ => ?_
        exact steps.easy (plain_taskUnref.easy.bind fun _ => easy_pump.bind fun _ =>
          easy_fireTimers.bind fun _ => easy_invoke rfl)

theorem driveUntil (owner : Option TaskPtr) : kind (driveUntil n owner t) := by
  unfold Coop.driveUntil
  split
  · refine steps.easy ?_
    exact .op rfl fun _ => plain_taskUnref.easy
  · exact steps.serve

theorem untilTurn (waiter : CoroPtr) (owner : Option TaskPtr)
    (stallUntil : Nat) : kind (untilTurn n waiter owner stallUntil) := by
  have again (stall : Nat) : Easy (invoke (.untilLoop waiter owner stall)) := easy_invoke rfl
  have reading : Easy clock := easy_perform rfl
  refine steps.bind (steps.easy plain_waiterEnded.easy) fun ended => ?_
  cases ended with
  | true =>
      refine steps.easy ((plain_setOnCStack owner false).easy.bind fun _ => ?_)
      exact .op rfl fun st => easy_done (decide (st = .finished))
  | false =>
      refine steps.bind (steps.easy easy_pump) fun _ =>
        steps.bind (steps.easy easy_fireTimers) fun _ => ?_
      refine steps.bind (steps.easy (plain_ring (ringClaim n)).easy) fun claim => ?_
      cases claim with
      | some claim =>
          obtain ⟨word, idx⟩ := claim
          have released := (plain_ring (ringRelease n idx)).easy
          dsimp only
          split
          · exact steps.easy (released.bind fun _ => again stallUntil)
          · refine steps.bind (steps.easy released) fun _ =>
              steps.bind (steps.easy reading) fun now => ?_
            exact steps.bind (steps.driveUntil owner) fun _ => steps.easy (again _)
      | none =>
          refine steps.bind (steps.easy (easy_perform (o := .timerHead) rfl)) fun next => ?_
          refine steps.easy ?_
          cases next with
          | none =>
              refine (easy_perform (o := .loadBusy) rfl).bind fun busy =>
                reading.bind fun now => ?_
              split
              · exact again _
              · split
                · exact (plain_setOnCStack owner false).easy.bind fun _ => easy_done false
                · exact again stallUntil
          | some _ => exact reading.bind fun _ => reading.bind fun now => again _

theorem runnerPass : kind (runnerPass n) := by
  refine steps.bind (steps.easy easy_pump) fun _ =>
    steps.bind (steps.easy easy_fireTimers) fun _ => ?_
  refine steps.bind steps.drainOne fun claimed => ?_
  cases claimed with
  | true => exact steps.easy (easy_done ())
  | false =>
      refine steps.easy ((easy_perform (o := .timerHead) rfl).bind fun next => ?_)
      cases next with
      | none => exact easy_done ()
      | some _ => exact .op rfl fun _ => easy_done ()

end

end StepsToo

end Metal.Coop
