import Metal.Coop.Base
import Metal.Coop.Schedule

namespace Metal.Coop

open Metal.Lib

/-! Mutual exclusion of `vm_only` steps. -/

variable {N : Nat} {setup : Setup N}

/-- Runner `r` is between a `try_acquire` for `t` that did not return WAITING
and the hand-over in the `mutex_release` that follows the step. -/
def World.InVm (w : World N) (r : Fin N) (t : TaskPtr) : Prop :=
  .run t true ∈ w.context r

instance (w : World N) (r : Fin N) (t : TaskPtr) : Decidable (w.InVm r t) :=
  inferInstanceAs (Decidable (_ ∈ _))

/-- Two runners are never inside the VM for different tasks, and the mutex is
only released by the task that owns it. -/
def Exclusive (config : setup.machine.Config) : Prop :=
  (∀ r r' t t', r ≠ r' → config.state.InVm r t → config.state.InVm r' t' →
    t = t') ∧
  ∀ r t next, config.program r = .op (Op.handOver t) next →
    config.state.mem.owner = some t

/-- The leaves a runner steps belong to the task it steps: an awaited child is
not a ring entry of its own. -/
def ownLeaf : Op → Bool
  | .ownerIs t holder | .casOwner t holder | .park t holder => t = holder
  | _ => true

/-- `step_task` does not go on after an error of `try_acquire`. -/
def locked : Op → Bool
  | .mark (.unlocked _) => false
  | _ => true

section Kept

variable {n : Nat} {r : Fin N} {o : Op} {choice : Choice} {w : World N}
  {answer : o.Ret} {m' : Memory N}

namespace Context

theorem mem_run_serve {t t' : TaskPtr} {vm : Bool} {context : Context} :
    .run t vm ∈ context.serve t' ↔ .run t vm ∈ context := by
  induction context with
  | nil => rfl
  | cons entry rest ih =>
      cases entry with
      | drive | wake =>
          simp only [serve]
          split <;> simp [ih]
      | _ => simp [serve, ih]

theorem mem_run_tries {t t' : TaskPtr} {vm : Bool} {context : Context} :
    .run t vm ∈ context.tries t' ↔ .run t vm ∈ context := by
  induction context with
  | nil => rfl
  | cons entry rest ih =>
      cases entry with
      | drive =>
          simp only [tries]
          split <;> simp [ih]
      | _ => simp [tries, ih]

end Context

def entersVm : (o : Op) → o.Ret → Option TaskPtr
  | .ownerIs t _, same => if same then some t else none
  | .casOwner t _, won => if won then some t else none
  | .park t _, claimed => if Option.isSome claimed then some t else none
  | .mark (.unlocked t), _ => some t
  | _, _ => none

variable {t : TaskPtr}

theorem inVm_track (pre : preOp n o (w.context r))
    (inside : .run t true ∈ track o answer (w.context r)) :
    entersVm o answer = some t ∨ .run t true ∈ w.context r := by
  generalize w.context r = context at pre inside
  cases o with
  | ring o => cases o with
    | casSlot idx expected desired =>
        right
        simp only [track, trackRing] at inside
        split at inside
        · split at inside
          · exact List.mem_of_mem_tail (Context.mem_run_serve.mp inside)
          · simpa using inside
        · exact inside
    | clearSlot idx =>
        obtain ⟨_, t', rest, rfl⟩ := pre
        right
        simpa using inside
    | _ => exact .inr inside
  | mark m => cases m with
    | unlocked t' =>
        obtain ⟨rest, rfl⟩ := pre
        simp at inside
        rcases inside with rfl | inside
        · exact .inl rfl
        · exact .inr (List.mem_cons_of_mem _ inside)
    | drop t' | refused t' => exact .inr (Context.mem_run_serve.mp inside)
    | leavePost t' | leaveTask t' | leak t' | retired t' =>
        exact .inr (List.mem_of_mem_tail inside)
    | enterPost t' =>
        right
        simpa using inside
    | _ => exact .inr inside
  | frame t' o => cases o with
    | loadStatus c =>
        right
        simp only [track] at inside
        split at inside
        · exact Context.mem_run_serve.mp inside
        · exact inside
    | _ => exact .inr inside
  | ownerIs t' holder =>
      obtain ⟨rest, rfl⟩ := pre
      cases answer with
      | false =>
          right
          simp [Context.mem_run_tries] at inside
          simpa using inside
      | true =>
          simp at inside
          rcases inside with rfl | inside
          · exact .inl rfl
          · exact .inr (List.mem_cons_of_mem _ inside)
  | casOwner t' holder =>
      obtain ⟨rest, rfl⟩ := pre
      cases answer with
      | false =>
          right
          simpa using inside
      | true =>
          simp at inside
          rcases inside with rfl | inside
          · exact .inl rfl
          · exact .inr (List.mem_cons_of_mem _ inside)
  | park t' holder =>
      obtain ⟨c, hand, rest, rfl, _⟩ := pre
      rcases answer with _ | _ | _
      · right
        simp [Context.mem_run_serve] at inside
        simpa using inside
      · simp at inside
        rcases inside with rfl | inside
        · exact .inl rfl
        · right
          simpa using inside
      · simp at inside
        rcases inside with rfl | inside
        · exact .inl rfl
        · right
          simpa using inside
  | handOver t' =>
      obtain ⟨rest, rfl⟩ := pre
      right
      cases answer with
      | none => 
        simp at inside
        exact List.mem_cons_of_mem _ inside
      | some wake =>
        simp at inside
        exact List.mem_cons_of_mem _ inside
  | stepLeaf t' => exact .inr (Context.mem_run_serve.mp inside)
  | enterTask t' =>
      right
      cases answer with
      | none => exact Context.mem_run_serve.mp inside
      | some c => simpa using inside
  | addRef t' =>
      right
      simpa using inside
  | subRef t' =>
      right
      simp only [track] at inside
      split at inside
      · simp at inside
        exact List.mem_of_mem_tail inside
      · exact List.mem_of_mem_tail inside
  | orDead t' =>
      right
      simp only [track] at inside
      split at inside
      · simpa using inside
      · exact inside
  | taskFree t' | clearRunning t' | insertTimer tm =>
      exact .inr (List.mem_of_mem_tail inside)
  | clearRoot t' outside =>
      right
      cases outside <;> simpa using inside
  | casRunning t' | popTimer now =>
      right
      cases answer <;> simpa using inside
  | _ => exact .inr inside

def VmOwned (w : World N) : Prop :=
  ∀ r t, w.InVm r t → w.mem.owner = some t

theorem entersVm_owner (own : ownLeaf o = true) (lock : locked o = true)
    (result : memExec r o choice w.mem = some (answer, m')) (enters : entersVm o answer = some t) :
    m'.owner = some t := by
  rw [(memExec_follows result).owner]
  cases o with
  | ownerIs t' holder =>
      cases result
      simp only [entersVm] at enters
      split at enters
      · rename_i same
        cases enters
        rw [show t = holder from of_decide_eq_true own]
        simpa [ownerAfter] using same
      · cases enters
  | casOwner t' holder =>
      cases answer with
      | false => cases enters
      | true =>
          cases enters
          rw [show t = holder from of_decide_eq_true own]
          rfl
  | park t' holder =>
      cases answer with
      | none => cases enters
      | some wasQueued =>
          cases enters
          rw [show t = holder from of_decide_eq_true own]
          rfl
  | mark m => cases m with
    | unlocked t' => cases lock
    | _ => cases enters
  | _ => cases enters

theorem casOwner_won {holder : TaskPtr}
    (result : memExec r (.casOwner t holder) choice w.mem = some (true, m')) :
    w.mem.owner = none := by
  simp only [memExec] at result
  split at result
  · rename_i free
    exact free
  · cases result

theorem park_claimed {holder : TaskPtr} {wasQueued : Bool}
    (result : memExec r (.park t holder) choice w.mem =
      some (some wasQueued, m')) : w.mem.owner = none := by
  simp only [memExec] at result
  split at result
  · rename_i free
    exact free
  · cases result

theorem inVm_once (based : Based w) {rest : Context} (top : w.context r = .run t true :: rest)
    {r' : Fin N} (inside : w.InVm r' t) : r' = r ∧ .run t true ∉ rest := by
  have once : w.tally (Section.isRun t) ≤ 1 := by
    rw [based.runs t]
    exact Bool.toNat_le _
  have mine := w.countP_le_tally (Section.isRun t) r
  have here : (w.context r).countP (Section.isRun t) =
      rest.countP (Section.isRun t) + 1 := by
    rw [top]
    simp [Section.isRun]
  constructor
  · by_contra other
    have both := add_le_tally (Finset.mem_univ r') (Finset.mem_univ r) other
      (fun context : Context => context.countP (Section.isRun t)) w.context
    have there : 0 < (w.context r').countP (Section.isRun t) :=
      List.countP_pos_iff.mpr ⟨_, inside, by simp [Section.isRun]⟩
    change _ ≤ w.tally (Section.isRun t) at both
    omega
  · intro again
    have positive : 0 < rest.countP (Section.isRun t) :=
      List.countP_pos_iff.mpr ⟨_, again, by simp [Section.isRun]⟩
    omega

theorem vmOwned_handOver {answer : Option TaskPtr} (based : Based w) (owned : VmOwned w)
    (pre : preOp n (.handOver t) (w.context r)) (r' : Fin N) (t' : TaskPtr) :
    ¬(note r (.handOver t) answer w m').InVm r' t' := by
  obtain ⟨rest, top⟩ := pre
  have mine : w.mem.owner = some t := owned r t (by simp [World.InVm, top])
  intro inside
  have before : w.InVm r' t' := by
    by_cases same : r' = r
    · subst same
      have after : .run t' true ∈ rest := by
        cases answer <;> simpa [World.InVm, note, top] using inside
      simp [World.InVm, top, after]
    · simpa [World.InVm, note, same] using inside
  have same : t' = t :=
    Option.some.inj ((owned r' t' before).symm.trans mine)
  subst same
  obtain ⟨rfl, once⟩ := inVm_once based top before
  cases answer <;> exact once (by simpa [World.InVm, note, top] using inside)

theorem vmOwned_kept (own : ownLeaf o = true) (lock : locked o = true)
    (based : Based w) (pre : preOp n o (w.context r))
    (result : memExec r o choice w.mem = some (answer, m'))
    (owned : VmOwned w) : VmOwned (note r o answer w m') := by
  intro r' t inside
  have cases : entersVm o answer = some t ∨ w.InVm r' t := by
    by_cases same : r' = r
    · subst same
      exact inVm_track pre (by simpa [World.InVm, note] using inside)
    · exact .inr (by simpa [World.InVm, note, same] using inside)
  rcases cases with enters | before
  · exact entersVm_owner own lock result enters
  · have mine := owned r' t before
    change m'.owner = some t
    rw [(memExec_follows result).owner]
    cases o with
    | casOwner t' holder =>
        cases answer with
        | false => exact mine
        | true =>
            rw [casOwner_won result] at mine
            cases mine
    | park t' holder =>
        cases answer with
        | none => exact mine
        | some wasQueued =>
            rw [park_claimed result] at mine
            cases mine
    | handOver t' => exact absurd inside (vmOwned_handOver based owned pre r' t)
    | _ => exact mine

end Kept

/-- The VM mutex excludes in every run in which the leaves a runner steps are
its own task's and no step goes on after an error of `try_acquire`. -/
theorem exclusive_of_locked {config : setup.machine.Config}
    (reach : Machine.Reach (M := setup.machine)
      (fun _ o _ => ownLeaf o = true ∧ locked o = true) setup.start config) :
    Exclusive config := by
  have start : VmOwned setup.start.state := by
    intro r t inside
    cases inside
  obtain ⟨owned, _, obeys⟩ := Setup.invariant VmOwned start
    (fun r o choice w answer m' allowed based pre _ result owned =>
      vmOwned_kept allowed.1 allowed.2 based pre result owned) reach
  refine ⟨?_, ?_⟩
  · intro r r' t t' _ inside inside'
    exact Option.some.inj ((owned r t inside).symm.trans (owned r' t' inside'))
  · intro r t next releasing
    obtain ⟨rest, top⟩ := obeys r _ next releasing
    exact owned r t (by simp [World.InVm, top])

def entersAlone : Schedule :=
  wakes 0 ++ setsVmOnly 0 5 ++ setsVmOnly 0 6 ++ creates 0 5 1 ++
  creates 0 6 2 ++ pass 0 ++ solo 0 35

theorem exclusive_of_locked_entered :
    ∃ config, Machine.Reach (M := pair.machine)
      (fun _ o _ => ownLeaf o = true ∧ locked o = true) pair.start config ∧
      config.state.InVm 0 1 ∧ Exclusive config := by
  obtain ⟨config, reach, inside⟩ := Machine.exists_reach (M := pair.machine)
    (fun _ o _ => ownLeaf o = true ∧ locked o = true)
    (fun _ o _ => ownLeaf o && locked o) (fun _ _ _ ok => by simpa using ok)
    pair.start entersAlone
    (fun config => decide (World.InVm config.state 0 1))
    (by decide +kernel)
  exact ⟨config, reach, of_decide_eq_true inside, exclusive_of_locked reach⟩

/-- Runner 0 steps task 1 inside the VM and retires task 2 from there; runner 1
passed the root test of task 2 before the root was cleared and asks for the VM
after the dead flag was set. -/
def retireInVm : Schedule :=
  entersAlone ++ call 0 (.taskRetire 2) ++ solo 0 3 ++ wakes 1 ++ pass 1 ++
  solo 1 34 ++ solo 0 2 ++ solo 1 5

theorem exclusion_fails :
    ¬∀ config, Machine.Reach (M := pair.machine)
      (fun r o w => callersOk r o w = true ∧ ownLeaf o = true) pair.start
        config → Exclusive config := by
  intro claim
  obtain ⟨config, reach, both⟩ := Machine.exists_reach (M := pair.machine)
    (fun r o w => callersOk r o w = true ∧ ownLeaf o = true)
    (fun r o w => callersOk r o w && ownLeaf o)
    (fun _ _ _ ok => by simpa using ok) pair.start retireInVm
    (fun config =>
      decide (World.InVm config.state 0 1) &&
        decide (World.InVm config.state 1 2))
    (by decide +kernel)
  simp only [Bool.and_eq_true, decide_eq_true_eq] at both
  have same := (claim config reach).1 0 1 1 2 (by decide) both.1 both.2
  exact absurd same (by decide)

end Metal.Coop
