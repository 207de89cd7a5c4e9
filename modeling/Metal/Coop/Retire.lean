import Metal.Coop.Base
import Metal.Coop.Schedule

namespace Metal.Coop

open Metal.Lib

/-! `task_retire` and the frame it hands back to its owner. -/

variable {N : Nat} {setup : Setup N}

/-- The task whose root frame an operation of `step_task` reaches. -/
def Op.stepped : Op → Option TaskPtr
  | .frame t _ | .fault t => some t
  | _ => none

/-- No runner is about to access a frame through the root of a task that was
retired from outside its own step. -/
def RetireSafe (config : setup.machine.Config) : Prop :=
  ∀ r o next t, config.program r = .op o next → o.stepped = some t →
    config.state.retired t = false

def Section.isStep (t : TaskPtr) : Section → Bool
  | .step t' _ => t' == t
  | _ => false

def Section.isRetire (t : TaskPtr) : Section → Bool
  | .retire t' => t' == t
  | _ => false

/-- When `task_retire` clears a root, no runner is between the root test of
`step_task` and its last read of the root. -/
def unstepped : Op → World N → Bool
  | .clearRoot t true, w => w.tally (Section.isStep t) == 0
  | _, _ => true

theorem blind_isStep (t : TaskPtr) : Blind (Section.isStep t) :=
  ⟨fun _ _ _ => rfl, fun _ _ _ => rfl, fun _ _ _ => rfl⟩

theorem blind_isRetire (t : TaskPtr) : Blind (Section.isRetire t) :=
  ⟨fun _ _ _ => rfl, fun _ _ _ => rfl, fun _ _ _ => rfl⟩

theorem kind_of_isStep (t : TaskPtr) (entry : Section)
    (isStep : entry.isStep t = true) : entry.kind = .step := by
  cases entry <;> first | rfl | cases isStep

theorem kind_of_isRetire (t : TaskPtr) (entry : Section)
    (isRetire : entry.isRetire t = true) : entry.kind = .retire := by
  cases entry <;> first | rfl | cases isRetire

/-- The root of `t` is gone for good and nobody is left inside. -/
structure Gone (w : World N) (t : TaskPtr) : Prop where
  born : (w.mem.tasks t).born = true
  cleared : (w.mem.tasks t).root = none
  unstepped : w.tally (Section.isStep t) = 0

def RetireKept (w : World N) : Prop :=
  ∀ t, w.retired t = true ∨ 0 < w.tally (Section.isRetire t) → Gone w t

section Kept

variable {n : Nat} {r : Fin N} {o : Op} {choice : Choice} {w : World N}
  {answer : o.Ret} {m' : Memory N}

theorem gone_kept {t : TaskPtr} (pre : preOp n o (w.context r))
    (result : memExec r o choice w.mem = some (answer, m')) (gone : Gone w t) :
    Gone (note r o answer w m') t := by
  have balance := tally_note (blind_isStep t) r o answer w m' pre
  have none := gone.unstepped
  have quiet : (o.popKind == some .step) = false →
      (o.pushKind == some .step) = false →
      (note r o answer w m').tally (Section.isStep t) = 0 := by
    intro pop push
    rw [← none]
    exact tally_quiet (blind_isStep t) (kind_of_isStep t) r answer w m' pre
      (ne_of_beq_false pop) (ne_of_beq_false push)
  refine ⟨memExec_born result gone.born, ?_, ?_⟩
  · change (m'.tasks t).root = Option.none
    rw [(memExec_follows result).root t]
    cases o with
    | allocTask c =>
        simp only [rootAfter]
        split
        · rename_i fresh
          subst fresh
          have born := gone.born
          rw [alloc_unborn result] at born
          cases born
        · exact gone.cleared
    | clearRoot t' outside =>
        simp only [rootAfter]
        split
        · rfl
        · exact gone.cleared
    | _ => exact gone.cleared
  · cases o with
    | enterTask t' =>
        cases result
        cases root : (w.mem.tasks t').root with
        | none =>
            simp [popped, pops, pushed, root] at balance ⊢
            omega
        | some c =>
            have other : t' ≠ t := by
              rintro rfl
              rw [gone.cleared] at root
              cases root
            simp [popped, pops, pushed, root, Section.isStep, other] at balance ⊢
            omega
    | mark m => cases m with
      | leaveTask t' =>
          simp [popped, pops, popsMark, pushed, pushedMark] at balance
          omega
      | _ => exact quiet rfl rfl
    | ring o => cases o <;> exact quiet rfl rfl
    | _ => exact quiet rfl rfl

theorem retireKept_kept (outside : unstepped o w = true)
    (pre : preOp n o (w.context r))
    (touched : ∀ t, o.block = some t → (w.mem.tasks t).born = true)
    (result : memExec r o choice w.mem = some (answer, m'))
    (kept : RetireKept w) : RetireKept (note r o answer w m') := by
  intro t retired
  have quiet : (o.popKind == some .retire) = false →
      (o.pushKind == some .retire) = false →
      (note r o answer w m').retired t = w.retired t → Gone w t := by
    intro pop push same
    have balance := tally_quiet (blind_isRetire t) (kind_of_isRetire t) r answer
      w m' pre (ne_of_beq_false pop) (ne_of_beq_false push)
    rw [balance, same] at retired
    exact kept t retired
  have balance := tally_note (blind_isRetire t) r o answer w m' pre
  cases o with
  | clearRoot t' isOutside =>
      cases isOutside with
      | false =>
          simp [popped, pops, pushed] at balance
          rw [balance] at retired
          exact gone_kept pre result (kept t retired)
      | true =>
          by_cases same : t = t'
          · subst same
            have none : w.tally (Section.isStep t) = 0 := by
              simpa [unstepped] using outside
            refine ⟨memExec_born result (touched t rfl), ?_, ?_⟩
            · change (m'.tasks t).root = Option.none
              rw [(memExec_follows result).root t]
              simp [rootAfter]
            · rw [tally_quiet (blind_isStep t) (kind_of_isStep t) r answer w m'
                pre (ne_of_beq_false rfl) (ne_of_beq_false rfl)]
              exact none
          · simp [popped, pops, pushed, Section.isRetire, Ne.symm same]
              at balance
            rw [balance] at retired
            exact gone_kept pre result (kept t retired)
  | mark m => cases m with
    | retired t' =>
        obtain ⟨rest, top⟩ := pre
        have before : w.retired t = true ∨ 0 < w.tally (Section.isRetire t) := by
          by_cases same : t = t'
          · subst same
            have member : .retire t ∈ w.context r := by
              rw [top]
              exact List.mem_cons_self
            exact .inr (tally_pos_of_mem member (by simp [Section.isRetire]))
          · simp [popped, pops, popsMark, pushed, pushedMark, top,
              Section.isRetire, Ne.symm same] at balance
            rw [balance] at retired
            simpa [note, trackRetired, same] using retired
        exact gone_kept (n := n) ⟨rest, top⟩ result (kept t before)
    | _ => exact gone_kept pre result (quiet rfl rfl rfl)
  | ring o => cases o <;> exact gone_kept pre result (quiet rfl rfl rfl)
  | _ => exact gone_kept pre result (quiet rfl rfl rfl)

end Kept

/-- A retired frame is safe to free in every run in which `task_retire` only
clears a root that no runner is stepping. -/
theorem retireSafe_of_unstepped {config : setup.machine.Config}
    (reach : Machine.Reach (M := setup.machine)
      (fun _ o w => unstepped o w = true) setup.start config) :
    RetireSafe config := by
  have start : RetireKept setup.start.state := by
    intro t retired
    rw [tally_start] at retired
    rcases retired with retired | positive
    · cases retired
    · exact absurd positive (Nat.lt_irrefl 0)
  obtain ⟨kept, _, obeys⟩ := Setup.invariant RetireKept start
    (fun r o choice w answer m' outside based pre touched result kept =>
      retireKept_kept outside pre touched result kept) reach
  intro r o next t at_op stepped
  have pre := obeys r o next at_op
  have inside : ∃ c, .step t c ∈ config.state.context r := by
    cases o with
    | frame t' access =>
        cases stepped
        cases access with
        | loadStatus c => exact ⟨c, pre⟩
        | _ => exact pre
    | fault t' =>
        cases stepped
        exact pre
    | _ => cases stepped
  obtain ⟨c, member⟩ := inside
  by_contra retired
  have gone := kept t (.inl (by simpa using retired))
  have positive := tally_pos_of_mem (p := Section.isStep t) member
    (by simp [Section.isStep])
  rw [gone.unstepped] at positive
  exact absurd positive (Nat.lt_irrefl 0)

def retiresIdle : Schedule :=
  wakes 0 ++ creates 0 5 1 ++ call 0 (.taskRetire 1) ++ solo 0 8 ++ wakes 1 ++
  pass 1 ++ solo 1 16

theorem retireSafe_of_unstepped_idle :
    ∃ config, Machine.Reach (M := pair.machine)
      (fun _ o w => unstepped o w = true) pair.start config ∧
      config.state.retired 1 = true ∧ RetireSafe config := by
  obtain ⟨config, reach, retired⟩ := Machine.exists_reach (M := pair.machine)
    (fun _ o w => unstepped o w = true) (fun _ o w => unstepped o w)
    (fun _ _ _ ok => ok) pair.start retiresIdle
    (fun config => config.state.retired 1) (by decide +kernel)
  exact ⟨config, reach, retired, retireSafe_of_unstepped reach⟩

/-- The task whose root frame the next operation of runner `r` reaches. -/
def nextStepped (config : setup.machine.Config) (r : Fin N) :
    Option TaskPtr :=
  match config.program r with
  | .op o _ => Op.stepped o
  | _ => none

/-- Runner 1 has read the root of task 1 for its terminal test; `running` is
not taken yet, so runner 0 retires the task. -/
def retiresStepped : Schedule :=
  wakes 0 ++ creates 0 5 1 ++ wakes 1 ++ pass 1 ++ solo 1 13 ++
  call 0 (.taskRetire 1) ++ solo 0 8

theorem retire_fails :
    ¬∀ config, Machine.Reach (M := pair.machine)
      (fun r o w => callersOk r o w = true) pair.start config →
        RetireSafe config := by
  intro claim
  obtain ⟨config, reach, late⟩ := exists_called retiresStepped
    (fun config => config.state.retired 1 &&
      nextStepped config (1 : Fin 2) == some 1) (by decide +kernel)
  simp only [Bool.and_eq_true, beq_iff_eq] at late
  obtain ⟨retired, stepped⟩ := late
  unfold nextStepped at stepped
  split at stepped
  · rename_i o next at_op
    have safe := claim config reach 1 o next 1 at_op stepped
    rw [retired] at safe
    cases safe
  · cases stepped

end Metal.Coop
