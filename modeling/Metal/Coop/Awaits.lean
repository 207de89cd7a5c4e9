import Metal.Lib.Forest
import Metal.Coop.Plain
import Metal.Coop.Schedule

namespace Metal.Coop

open Metal.Lib Function

/-! Chains of coroutines that await one another, driven by `step_task` on one core. -/

variable {N : Nat} {α β : Type}

def Memory.forest (m : Memory N) : Forest CoroPtr TaskPtr where
  ended c := (m.coros c).status.terminal
  awaiting c := (m.coros c).awaiting
  waiter c := (m.coros c).waiter
  root t := (m.tasks t).root

/-- `child` may be awaited by `self`: it has not ended, it is no task's root, and whoever
awaited it before has ended or awaits something else. -/
def Memory.Loose (m : Memory N) (self child : CoroPtr) : Prop :=
  m.forest.ended child = false ∧ ¬m.forest.IsRoot child ∧
    ∀ p, (m.coros child).waiter = some p → p = self ∨ ¬m.forest.Waits p child

def Allowed (m : Memory N) : Api → Prop
  | .await self child =>
      m.forest.ended self = false ∧
        ((m.coros child).status = .finished ∨ m.Loose self child)
  | .sleepUs self _ => m.forest.ended self = false
  | .yieldPark self => m.forest.ended self = false
  | .createTask c =>
      ¬m.forest.IsRoot c ∧ (m.coros c).waiter = none
  | .setStatus c st => st.terminal = m.forest.ended c
  | _ => True

/-- The calls from outside keep to chains, a root is cleared once it has ended, and only the
root of a task fails or is cancelled. -/
def Orderly : (o : Op) → o.Ret → Memory N → Prop
  | .act, .api a, m | .idle, .api a, m => Allowed m a
  | .allocTask _, some t, m => (m.tasks t).running = false
  | .clearRoot t _, _, m => m.terminal t = true
  | .frame t (.storeStatus leaf st), _, m =>
      st = .cancelled ∨ st = .error → (m.tasks t).root = some leaf
  | _, _, _ => True

structure Beside (m m' : Memory N) : Prop where
  coros : m'.coros = m.coros
  root : ∀ t, (m'.tasks t).root = (m.tasks t).root
  running : ∀ t, (m'.tasks t).running = (m.tasks t).running

/-- One operation of core `r`, after other cores moved things of other kinds. -/
def chainExec (allows : (o : Op) → o.Ret → Memory N → Prop) (r : Fin N) (o : Op)
    (m : Memory N) (answer : o.Ret) (m' : Memory N) : Prop :=
  ∃ seen choice, Beside m seen ∧ allows o answer seen ∧
    memExec r o choice seen = some (answer, m')

/-- The operation `o` on a coroutine, in a frame or not. -/
abbrev chainAccess (allows : (o : Op) → o.Ret → Memory N → Prop) (r : Fin N) (o : CoroOp)
    (m : Memory N) (answer : o.Ret) (m' : Memory N) : Prop :=
  chainExec allows r (.coro o) m answer m' ∨ ∃ t, chainExec allows r (.frame t o) m answer m'

/-- A coroutine that is looked at to be stepped has not ended, and no write of a status
revives one that has. -/
def NoneRevived : Op → Memory N → Prop
  | .frame _ (.loadStep leaf), m => m.forest.ended leaf = false
  | .frame _ (.storeStatus c st), m | .coro (.storeStatus c st), m =>
      m.forest.ended c = true → st.terminal = true
  | _, _ => True

structure Moves (own : Option TaskPtr) (m m' : Memory N) : Prop where
  sound : m'.forest.Sound
  ended : ∀ c, m.forest.ended c = true → m'.forest.ended c = true
  kept : ∀ t, own ≠ some t → (m.tasks t).running = true →
    (m'.tasks t).running = true ∧ Forest.Keeps m.forest m'.forest t

def Stepped (m : Memory N) (t : TaskPtr) : Prop :=
  (m.tasks t).running = true ∧
    ∃ root, (m.tasks t).root = some root ∧ m.forest.ended root = false

def chainPre : Proc → Memory N → Prop
  | .stepLoop t, m => m.forest.Sound ∧ Stepped m t
  | _, m => m.forest.Sound

def chainPost : (p : Proc) → Memory N → p.Res → Memory N → Prop
  | .taskOf _, m, _, m' => Beside m m'
  | .leafOf _ leaf, m, found, m' => Beside m m' ∧ (m.coros found).awaiting = none ∧
      Relation.ReflTransGen (fun p c => (m.coros p).awaiting = some c) leaf found
  | .stepLoop t, m, _, m' => Moves (some t) m m'
  | _, m, _, m' => Moves none m m'

def chainContract (r : Fin N) : Contract CoopSig (Memory N) Unit where
  exec := chainExec Orderly r
  enter _ place := place
  sees _ := NoneRevived
  pre _ := chainPre
  post _ := chainPost

/-- The program, from `m'` on, leaves what was moved since `m` within the bounds. -/
abbrev Carries (r : Fin N) (own : Option TaskPtr) (m : Memory N) (program : CoopProgram α)
    (m' : Memory N) : Prop :=
  (chainContract r).wp () program m' fun _ m'' => Moves own m m''

theorem forest_of_same {m m' : Memory N} (coros : m'.coros = m.coros)
    (root : ∀ t, (m'.tasks t).root = (m.tasks t).root) : m'.forest = m.forest := by
  have roots : (fun t => (m'.tasks t).root) = fun t => (m.tasks t).root := funext root
  simp only [Memory.forest, coros, roots]

namespace Beside

variable {m m' m'' : Memory N}

theorem refl (m : Memory N) : Beside m m := ⟨rfl, fun _ => rfl, fun _ => rfl⟩

theorem trans (first : Beside m m') (second : Beside m' m'') : Beside m m'' where
  coros := second.coros.trans first.coros
  root t := (second.root t).trans (first.root t)
  running t := (second.running t).trans (first.running t)

theorem forest (beside : Beside m m') : m'.forest = m.forest :=
  forest_of_same beside.coros beside.root

theorem sound (beside : Beside m m') (sound : m.forest.Sound) : m'.forest.Sound :=
  beside.forest ▸ sound

theorem moves (beside : Beside m m') (sound : m.forest.Sound) (own : Option TaskPtr) :
    Moves own m m' where
  sound := beside.forest ▸ sound
  ended c isOver := by rw [beside.forest, isOver]
  kept t _ running := by
    rw [beside.running t, beside.forest]
    exact ⟨running, .refl _ t⟩

end Beside

namespace Moves

variable {own : Option TaskPtr} {m m' m'' : Memory N} {t : TaskPtr}

theorem trans (first : Moves own m m') (second : Moves own m' m'') : Moves own m m'' where
  sound := second.sound
  ended c isOver := second.ended c (first.ended c isOver)
  kept t other running := by
    obtain ⟨running', keeps⟩ := first.kept t other running
    obtain ⟨running'', keeps'⟩ := second.kept t other running'
    exact ⟨running'', keeps.trans keeps'⟩

theorem widen (moves : Moves none m m') (own : Option TaskPtr) : Moves own m m' where
  sound := moves.sound
  ended := moves.ended
  kept t _ := moves.kept t nofun

theorem close (moves : Moves (some t) m m') (idle : (m.tasks t).running = false) :
    Moves none m m' where
  sound := moves.sound
  ended := moves.ended
  kept t' _ running := by
    refine moves.kept t' ?_ running
    rintro ⟨⟩
    rw [idle] at running
    cases running

end Moves

section Exec

variable {allows : (o : Op) → o.Ret → Memory N → Prop} {r : Fin N} {o : Op} {m m' : Memory N}
  {answer : o.Ret} {t : TaskPtr} {c : CoroPtr}

def Op.aloof : Op → Bool
  | .casRunning _ | .clearRunning _ | .allocTask _ | .clearRoot _ _ => false
  | o => !o.writesFrame

theorem aloof_of_easy (easy : o.easy = true) : o.aloof = true := by
  have reads := writesFrame_easy easy
  cases o with
  | casRunning t | clearRunning t | allocTask c | clearRoot t outside => cases easy
  | _ => simp [Op.aloof, reads]

theorem chainExec_beside (aloof : o.aloof = true) (ran : chainExec allows r o m answer m') :
    Beside m m' := by
  obtain ⟨seen, choice, beside, _, result⟩ := ran
  refine beside.trans ⟨?_, fun t => ?_, fun t => ?_⟩
  · refine memExec_coros ?_ result
    cases o <;> first | rfl | simpa [Op.aloof] using aloof
  · rw [(memExec_follows result).root t]
    cases o <;> first | rfl | cases aloof
  · rw [(memExec_follows result).running t]
    cases o <;> first | rfl | cases aloof

theorem chainExec_access {o : CoroOp} {answer : o.Ret}
    (ran : chainAccess allows r o m answer m') :
    ∃ seen, Beside m seen ∧ answer = (coroExec o seen).1 ∧ m' = (coroExec o seen).2 := by
  rcases ran with ⟨seen, _, beside, _, result⟩ | ⟨_, seen, _, beside, _, result⟩
  · have same := Option.some.inj result
    exact ⟨seen, beside, (congrArg Prod.fst same).symm, (congrArg Prod.snd same).symm⟩
  · have same := Option.some.inj result
    exact ⟨seen, beside, (congrArg Prod.fst same).symm, (congrArg Prod.snd same).symm⟩

theorem chainExec_answer {o : CoroOp} {answer : o.Ret}
    (ran : chainAccess allows r o m answer m') : answer = (coroExec o m).1 := by
  obtain ⟨seen, beside, rfl, _⟩ := chainExec_access ran
  cases o <;> simp [coroExec, beside.coros]

theorem forest_setCoro (m : Memory N) (c : CoroPtr) (f : Coro → Coro) :
    (m.setCoro c f).forest =
      { ended := update m.forest.ended c (f (m.coros c)).status.terminal
        awaiting := update m.forest.awaiting c (f (m.coros c)).awaiting
        waiter := update m.forest.waiter c (f (m.coros c)).waiter
        root := m.forest.root } := by
  simp only [Memory.forest, Memory.setCoro, Forest.mk.injEq, and_true]
  refine ⟨funext fun c' => ?_, funext fun c' => ?_, funext fun c' => ?_⟩ <;>
    by_cases same : c' = c <;> simp [same]

structure Edited (f : Forest CoroPtr TaskPtr) (m m' : Memory N) : Prop where
  forest : m'.forest = f
  running : ∀ t, (m'.tasks t).running = (m.tasks t).running

theorem chainExec_edits {o : CoroOp} {answer : o.Ret} {f : Memory N → Forest CoroPtr TaskPtr}
    (ran : chainAccess allows r o m answer m')
    (edits : ∀ seen : Memory N, seen.coros = m.coros → seen.forest = m.forest →
      (coroExec o seen).2.forest = f m) : Edited (f m) m m' := by
  obtain ⟨seen, beside, _, rfl⟩ := chainExec_access ran
  refine ⟨edits seen beside.coros beside.forest, fun t => ?_⟩
  rw [← beside.running t]
  cases o <;> rfl

theorem Edited.moves {f : Forest CoroPtr TaskPtr} {own : Option TaskPtr}
    (edited : Edited f m m') (sound : f.Sound)
    (ended : ∀ c, m.forest.ended c = true → f.ended c = true)
    (keeps : ∀ t, own ≠ some t → Forest.Keeps m.forest f t) : Moves own m m' where
  sound := edited.forest ▸ sound
  ended c isOver := by rw [edited.forest, ended c isOver]
  kept t other running := by
    rw [edited.running t, edited.forest]
    exact ⟨running, keeps t other⟩

theorem storeStatus_edits {st : Status}
    (ran : chainAccess allows r (.storeStatus c st) m () m') :
    Edited { m.forest with ended := update m.forest.ended c st.terminal } m m' := by
  refine chainExec_edits (f := fun m =>
    { m.forest with ended := update m.forest.ended c st.terminal }) ran ?_
  intro seen coros same
  simp only [coroExec, forest_setCoro, same, coros]
  simp [Memory.forest]

theorem storeAwaiting_edits {child : Option CoroPtr}
    (ran : chainAccess allows r (.storeAwaiting c child) m () m') :
    Edited { m.forest with awaiting := update m.forest.awaiting c child } m m' := by
  refine chainExec_edits (f := fun m =>
    { m.forest with awaiting := update m.forest.awaiting c child }) ran ?_
  intro seen coros same
  simp only [coroExec, forest_setCoro, same, coros]
  simp [Memory.forest]

theorem storeWaiter_edits {parent : CoroPtr}
    (ran : chainExec allows r (.coro (.storeWaiter c parent)) m () m') :
    Edited { m.forest with waiter := update m.forest.waiter c (some parent) }
      m m' := by
  refine chainExec_edits (f := fun m =>
    { m.forest with waiter := update m.forest.waiter c (some parent) }) (.inl ran) ?_
  intro seen coros same
  simp only [coroExec, forest_setCoro, same, coros]
  simp [Memory.forest]

theorem Edited.same_moves (edited : Edited m.forest m m') (sound : m.forest.Sound)
    (own : Option TaskPtr) : Moves own m m' :=
  edited.moves sound (fun _ isOver => isOver) fun t _ => .refl _ t

theorem Edited.trans {f g : Forest CoroPtr TaskPtr} {m'' : Memory N}
    (first : Edited f m m') (second : Edited g m' m'') : Edited g m m'' where
  forest := second.forest
  running t := (second.running t).trans (first.running t)

theorem Beside.edited (beside : Beside m m') : Edited m.forest m m' :=
  ⟨beside.forest, beside.running⟩

theorem storeStatus_same {st : Status} (same : st.terminal = m.forest.ended c)
    (ran : chainAccess allows r (.storeStatus c st) m () m') :
    Edited m.forest m m' := by
  have edited := storeStatus_edits ran
  rwa [same, update_eq_self] at edited

theorem store_same {o : CoroOp} {answer : o.Ret}
    (keeps : ∀ seen : Memory N, (coroExec o seen).2.forest = seen.forest)
    (ran : chainExec allows r (.coro o) m answer m') : Edited m.forest m m' :=
  chainExec_edits (.inl ran) fun seen _ same => (keeps seen).trans same

theorem storeTask_same {task : Option TaskPtr}
    (ran : chainExec allows r (.coro (.storeTask c task)) m () m') : Edited m.forest m m' :=
  store_same (fun seen => by
    simp only [coroExec, forest_setCoro]
    simp [Memory.forest]) ran

theorem allocTask_none (ran : chainExec allows r (.allocTask c) m none m') : Beside m m' := by
  obtain ⟨seen, choice, beside, _, result⟩ := ran
  simp only [memExec] at result
  split at result
  · split at result
    · cases result
    · cases result
  · cases result
    exact beside

theorem allocTask_moves (sound : m.forest.Sound) (loose : ¬m.forest.IsRoot c)
    (free : (m.coros c).waiter = none)
    (ran : chainExec Orderly r (.allocTask c) m (some t) m') : Moves none m m' := by
  obtain ⟨seen, choice, beside, idle, result⟩ := ran
  have unborn : (seen.tasks t).running = false := idle
  have follows := memExec_follows result
  have planted : m'.forest = m.forest.plant t c := by
    have coros : m'.coros = m.coros := (memExec_coros rfl result).trans beside.coros
    simp only [Memory.forest, Forest.plant, coros, Forest.mk.injEq, true_and]
    funext t'
    rw [follows.root t', beside.root t']
    by_cases same : t' = t
    · simp [rootAfter, same]
    · simp [rootAfter, same, Ne.symm same]
  have nobody : ∀ p, ¬m.forest.Waits p c := by
    intro p waits
    have waiter := (sound.waits waits).2.1
    rw [show m.forest.waiter c = none from free] at waiter
    cases waiter
  obtain ⟨sound', keeps⟩ := sound.plant t loose free nobody
  refine ⟨planted ▸ sound', fun d isOver => by rw [planted]; exact isOver, ?_⟩
  intro t' _ running
  have other : t' ≠ t := by
    rintro rfl
    rw [← beside.running t', unborn] at running
    cases running
  refine ⟨?_, planted ▸ keeps t' other⟩
  rw [follows.running t', beside.running t']
  simpa [runningAfter, Ne.symm other] using running

theorem clearRoot_moves {outside : Bool} (sound : m.forest.Sound)
    (ran : chainExec Orderly r (.clearRoot t outside) m () m') : Moves none m m' := by
  obtain ⟨seen, choice, beside, isOver, result⟩ := ran
  have isOver : seen.terminal t = true := isOver
  have follows := memExec_follows result
  have cleared : m'.forest = m.forest.uproot t := by
    have coros : m'.coros = m.coros := (memExec_coros rfl result).trans beside.coros
    simp only [Memory.forest, Forest.uproot, coros, Forest.mk.injEq, true_and]
    funext t'
    rw [follows.root t', beside.root t']
    by_cases same : t' = t
    · simp [rootAfter, same]
    · simp [rootAfter, same]
  have ends : ∀ top, m.forest.root t = some top → m.forest.ended top = true := by
    intro top root
    have seenRoot : (seen.tasks t).root = some top := (beside.root t).trans root
    rw [Memory.terminal, seenRoot, beside.coros] at isOver
    exact isOver
  obtain ⟨sound', keeps⟩ := sound.uproot ends
  refine ⟨cleared ▸ sound', fun d ended => by rw [cleared]; exact ended, ?_⟩
  intro t' _ running
  refine ⟨?_, cleared ▸ keeps t'⟩
  rw [follows.running t', beside.running t']
  exact running

theorem casRunning_lost (ran : chainExec allows r (.casRunning t) m false m') :
    Beside m m' := by
  obtain ⟨seen, choice, beside, _, result⟩ := ran
  simp only [memExec] at result
  split at result
  · cases result
    exact beside
  · cases result

theorem casRunning_taken (ran : chainExec allows r (.casRunning t) m true m') :
    (m.tasks t).running = false ∧ (m'.tasks t).running = true ∧ m'.forest = m.forest ∧
      ∀ t', (m.tasks t').running = true → (m'.tasks t').running = true := by
  obtain ⟨seen, choice, beside, _, result⟩ := ran
  have follows := memExec_follows result
  have free := casRunning_won result
  have coros : m'.coros = m.coros := (memExec_coros rfl result).trans beside.coros
  refine ⟨(beside.running t).symm.trans free, ?_, ?_, fun t' running => ?_⟩
  · simp [follows.running t, runningAfter]
  · exact forest_of_same coros fun t' => (follows.root t').trans (beside.root t')
  · rw [follows.running t', beside.running t', running]
    simp only [runningAfter]
    split <;> rfl

theorem clearRunning_moves (sound : m.forest.Sound)
    (ran : chainExec allows r (.clearRunning t) m () m') : Moves (some t) m m' := by
  obtain ⟨seen, choice, beside, _, result⟩ := ran
  have follows := memExec_follows result
  have coros : m'.coros = m.coros := (memExec_coros rfl result).trans beside.coros
  have same : m'.forest = m.forest :=
    forest_of_same coros fun t' => (follows.root t').trans (beside.root t')
  refine ⟨same ▸ sound, fun d isOver => by rw [same]; exact isOver, fun t' other running => ?_⟩
  refine ⟨?_, same ▸ .refl _ t'⟩
  have apart : t' ≠ t := fun equal => other (congrArg some equal.symm)
  rw [follows.running t', beside.running t', running]
  simp [runningAfter, apart]

end Exec

section Rules

variable {r : Fin N} {n : Nat} {m : Memory N} {t : TaskPtr} {c : CoroPtr}

def Safe (r : Fin N) (program : CoopProgram α) : Prop :=
  ∀ m, m.forest.Sound → Carries r none m program m

def Still (r : Fin N) (program : CoopProgram α) : Prop :=
  ∀ m, m.forest.Sound → (chainContract r).wp () program m fun _ m' => Beside m m'

theorem noneRevived_of_easy {o : Op} (easy : o.easy = true) : NoneRevived o m := by
  cases o with
  | coro o =>
      cases o with
      | storeStatus c st => cases easy
      | _ => trivial
  | frame t o =>
      cases o with
      | storeStatus c st | loadStep c => cases easy
      | _ => trivial
  | _ => trivial

theorem moves_of_easyCall {p : Proc} (easy : p.easy = true) (sound : m.forest.Sound)
    {answer : p.Res} {m' : Memory N} (gives : chainPost p m answer m') : Moves none m m' := by
  cases p with
  | taskOf c => exact Beside.moves gives sound none
  | leafOf t leaf => exact gives.1.moves sound none
  | stepLoop t => cases easy
  | _ => exact gives

variable {program : CoopProgram α}

theorem Easy.safe (easy : Easy program) : Safe r program := by
  intro m sound
  refine Contract.wp_of_only ?_ ?_ easy ((Beside.refl m).moves sound none)
  · intro o (m' : Memory N) fits (moved : Moves none m m')
    refine ⟨noneRevived_of_easy fits, fun answer m'' ran => ?_⟩
    exact moved.trans ((chainExec_beside (aloof_of_easy fits) ran).moves moved.sound none)
  · intro p (m' : Memory N) fits (moved : Moves none m m')
    refine ⟨?_, fun answer m'' gives => moved.trans (moves_of_easyCall fits moved.sound gives)⟩
    cases p with
    | stepLoop t => cases fits
    | _ => exact moved.sound

theorem still_of_only (only : program.Only (fun o : Op => o.plain = true) (· = Proc.taskOf c)) :
    Still r program := by
  intro m sound
  refine Contract.wp_of_only ?_ ?_ only (Beside.refl m)
  · intro o (m' : Memory N) fits (beside : Beside m m')
    refine ⟨noneRevived_of_easy (easy_of_plain fits), fun answer m'' ran => ?_⟩
    exact beside.trans (chainExec_beside (aloof_of_easy (easy_of_plain fits)) ran)
  · rintro _ (m' : Memory N) rfl (beside : Beside m m')
    have still : m'.forest.Sound := beside.forest ▸ sound
    exact ⟨still, fun answer m'' gives => beside.trans gives⟩

theorem Plain.still (plain : Plain program) : Still r program :=
  still_of_only (c := 0)
    (Program.Only.mono (fun _ fits => fits) (fun _ => False.elim) plain)

variable {f : α → CoopProgram β}

theorem Safe.wp_then (first : Carries r none m program m)
    (rest : ∀ value, Safe r (f value)) :
    Carries r none m (program >>= f) m :=
  Contract.wp_bind.mpr (Contract.wp_mono (fun value m' moved =>
    Contract.wp_mono (fun _ _ later => moved.trans later) (rest value m' moved.sound)) first)

theorem Safe.bind (first : Safe r program) (rest : ∀ value, Safe r (f value)) :
    Safe r (program.bind f) :=
  fun m sound => Safe.wp_then (first m sound) rest

theorem Still.wp_bind {holds : β → Memory N → Prop} (still : Still r program)
    (sound : m.forest.Sound)
    (rest : ∀ value m', Beside m m' → (chainContract r).wp () (f value) m' holds) :
    (chainContract r).wp () (program.bind f) m holds :=
  Contract.wp_bind.mpr (Contract.wp_mono rest (still m sound))

theorem wp_aloof {o : Op} {next : o.Ret → CoopProgram β} {holds : β → Memory N → Prop}
    (aloof : o.aloof = true) (sees : NoneRevived o m)
    (rest : ∀ answer m', Beside m m' → chainExec Orderly r o m answer m' →
      (chainContract r).wp () (next answer) m' holds) :
    (chainContract r).wp () (.op o next) m holds :=
  ⟨sees, fun answer m' ran => rest answer m' (chainExec_beside aloof ran) ran⟩

end Rules

section Calls

variable {r : Fin N} {n : Nat} {m : Memory N} {t : TaskPtr} {c self child : CoroPtr}

theorem Beside.allowed {m' : Memory N} (beside : Beside m m') {a : Api}
    (allowed : Allowed m a) : Allowed m' a := by
  have forest := beside.forest
  have coros := beside.coros
  cases a with
  | await self child =>
      simp only [Allowed, Memory.Loose, forest, coros] at allowed ⊢
      exact allowed
  | sleepUs self us | yieldPark self =>
      simp only [Allowed, forest] at allowed ⊢
      exact allowed
  | createTask c =>
      simp only [Allowed, forest, coros] at allowed ⊢
      exact allowed
  | setStatus c st =>
      simp only [Allowed, forest] at allowed ⊢
      exact allowed
  | _ => trivial

theorem wp_storeWaiting {next : Unit → CoopProgram α} {holds : α → Memory N → Prop}
    (live : m.forest.ended self = false)
    (rest : ∀ m', Edited m.forest m m' → (chainContract r).wp () (next ()) m' holds) :
    (chainContract r).wp () (.op (Op.coro (.storeStatus self .waiting)) next) m holds := by
  refine ⟨fun isOver => ?_, fun _ m' ran => rest m' (storeStatus_same ?_ (.inl ran))⟩
  · rw [live] at isOver
    cases isOver
  · rw [live]
    rfl

theorem safe_taskDetach : Safe r (taskDetach t) := by
  have entered : Easy (mark (.enter t)) := easy_perform rfl
  refine entered.safe.bind fun _ => plain_taskIsTerminal.easy.safe.bind fun ended => ?_
  cases ended with
  | false => exact (easy_done false).safe
  | true =>
      have cleared : Safe r (perform (.clearRoot t false)) := fun m sound =>
        ⟨trivial, fun _ m' ran => clearRoot_moves sound ran⟩
      exact cleared.bind fun _ => plain_taskMarkDead.easy.safe.bind fun _ =>
        (easy_done true).safe

theorem safe_taskRetire : Safe r (taskRetire t) := by
  have entered : Easy (mark (.enter t)) := easy_perform rfl
  have loaded : Easy (perform .loadCurrent) := easy_perform rfl
  have cleared (outside : Bool) : Safe r (perform (.clearRoot t outside)) := fun m sound =>
    ⟨trivial, fun _ m' ran => clearRoot_moves sound ran⟩
  refine entered.safe.bind fun _ => loaded.safe.bind fun current => ?_
  split
  · exact (cleared false).bind fun _ => plain_taskMarkDead.easy.safe.bind fun _ =>
      (easy_done true).safe
  · have running : Easy (perform (.loadRunning t)) := easy_perform rfl
    refine running.safe.bind fun busy => ?_
    cases busy with
    | true => exact (easy_done false).safe
    | false =>
        have retired : Easy (mark (.retired t)) := easy_perform rfl
        exact (cleared true).bind fun _ => plain_taskMarkDead.easy.safe.bind fun _ =>
          retired.safe.bind fun _ => (easy_done true).safe

section

variable (sound : m.forest.Sound)
include sound

theorem chain_sleepUs (us : Nat) (live : m.forest.ended self = false) :
    Carries r none m (sleepUs self us) m := by
  refine ⟨sound, fun found m₁ (beside : Beside m m₁) => ?_⟩
  cases found with
  | none => exact beside.moves sound none
  | some t =>
      refine wp_aloof rfl trivial fun _ m₂ beside₂ _ => ?_
      refine wp_aloof rfl trivial fun granted m₃ beside₃ _ => ?_
      have still := (beside.trans beside₂).trans beside₃
      cases granted with
      | false => exact still.moves sound none
      | true =>
          refine wp_aloof rfl trivial fun now m₄ beside₄ _ => ?_
          refine wp_aloof rfl trivial fun _ m₅ beside₅ _ => ?_
          refine wp_aloof rfl trivial fun _ m₆ beside₆ _ => ?_
          have still := ((still.trans beside₄).trans beside₅).trans beside₆
          refine wp_storeWaiting (still.forest ▸ live) fun m₇ edited => ?_
          exact (still.moves sound none).trans (edited.same_moves (still.forest ▸ sound) none)

theorem chain_yieldPark (live : m.forest.ended self = false) :
    Carries r none m (yieldPark n self) m := by
  refine ⟨sound, fun found m₁ (beside : Beside m m₁) => ?_⟩
  cases found with
  | none => exact beside.moves sound none
  | some t =>
      refine wp_aloof rfl trivial fun _ m₂ beside₂ _ => ?_
      have still := beside.trans beside₂
      have sound₂ : m₂.forest.Sound := still.forest ▸ sound
      refine wp_storeWaiting (still.forest ▸ live) fun m₃ edited => ?_
      have moved := (still.moves sound none).trans (edited.same_moves sound₂ none)
      have parked : Safe r (pushTaskRef n t >>= fun pushed =>
          if pushed then pure Status.waiting else pure .error) := by
        refine plain_pushTaskRef.easy.safe.bind fun pushed => ?_
        cases pushed <;> exact (easy_done _).safe
      exact Contract.wp_mono (fun _ m₄ later => moved.trans later) (parked m₃ moved.sound)

theorem chain_adoptChild : (chainContract r).wp () (await.adoptChild self child) m
      fun _ m' => Edited m.forest m m' := by
  refine wp_aloof rfl trivial fun owner m₁ beside _ => ?_
  simp only [Program.bind_done]
  split
  · have sound₁ : m₁.forest.Sound := beside.forest ▸ sound
    refine ⟨sound₁, fun found m₂ (beside₂ : Beside m₁ m₂) => ?_⟩
    refine ⟨trivial, fun _ m₃ ran => ?_⟩
    have still := beside.trans beside₂
    exact still.edited.trans (still.forest ▸ storeTask_same ran)
  · exact beside.edited

theorem chain_awaitChild (allowed : Allowed m (.await self child))
    (idle : (m.coros self).awaiting = none ∨ (m.coros self).awaiting = some child) :
    Carries r none m (await.awaitChild self child) m := by
  obtain ⟨live, awaitable⟩ := allowed
  refine wp_aloof rfl trivial fun st m₁ beside loaded => ?_
  obtain rfl : st = (m.coros child).status := chainExec_answer (.inl loaded)
  have sound₁ : m₁.forest.Sound := beside.forest ▸ sound
  simp only [Program.bind_done]
  split
  · rename_i finished
    -- a live coroutine does not await one that is done
    have free : (m.coros self).awaiting = none := by
      rcases idle with free | awaits
      · exact free
      · have waits : m.forest.Waits self child := ⟨live, awaits⟩
        have childLive := (sound.waits waits).1
        simp [Memory.forest, finished, Status.terminal] at childLive
    refine ⟨trivial, fun _ m₂ ran => ?_⟩
    have edited := storeAwaiting_edits (.inl ran)
    have same : m₁.forest.awaiting self = none := beside.forest ▸ free
    rw [← same, update_eq_self] at edited
    exact (beside.moves sound none).trans (edited.same_moves sound₁ none)
  · rename_i unfinished
    obtain ⟨childLive, notRoot, alone⟩ := awaitable.resolve_left unfinished
    refine ⟨trivial, fun _ m₂ ranAwaiting => ⟨trivial, fun _ m₃ ranWaiter => ?_⟩⟩
    have linked : Edited (m.forest.link self child) m m₃ := by
      have first := storeAwaiting_edits (.inl ranAwaiting)
      have second := storeWaiter_edits ranWaiter
      rw [first.forest, beside.forest] at second
      exact (beside.edited.trans first).trans second
    obtain ⟨linkedSound, keeps⟩ := sound.link childLive notRoot
      (fun p waits => (alone p (sound.waits waits).2.1).resolve_right (not_not_intro waits)) idle
    have moved : Moves none m m₃ :=
      linked.moves linkedSound (fun _ isOver => isOver) fun t _ => keeps t
    simp only [Program.bind_done]
    refine Contract.wp_bind.mpr (Contract.wp_mono (fun _ m₄ edited => ?_)
      (chain_adoptChild moved.sound))
    have same : m₄.forest = m.forest.link self child := edited.forest.trans linked.forest
    have live₄ : m₄.forest.ended self = false := by
      rw [same]
      exact live
    refine wp_storeWaiting live₄ fun m₅ edited₅ => ?_
    have still := edited.trans (edited.forest ▸ edited₅)
    exact moved.trans (still.same_moves moved.sound none)

theorem chain_await (allowed : Allowed m (.await self child)) :
    Carries r none m (await self child) m := by
  refine wp_aloof rfl trivial fun first m₁ beside loaded => ?_
  obtain rfl : first = (m.coros self).awaiting := chainExec_answer (.inl loaded)
  have sound₁ : m₁.forest.Sound := beside.forest ▸ sound
  have goesOn (m' : Memory N) (beside' : Beside m m')
      (idle : (m.coros self).awaiting = none ∨ (m.coros self).awaiting = some child) :
      Carries r none m (await.awaitChild self child) m' := by
    have idle' : (m'.coros self).awaiting = none ∨ (m'.coros self).awaiting = some child := by
      rw [beside'.coros]
      exact idle
    exact Contract.wp_mono (fun _ m'' moved => (beside'.moves sound none).trans moved)
      (chain_awaitChild (beside'.forest ▸ sound) (beside'.allowed allowed) idle')
  simp only [Program.bind_done]
  split
  · rename_i free
    exact goesOn m₁ beside (.inl free)
  · refine wp_aloof rfl trivial fun second m₂ beside₂ reloaded => ?_
    obtain rfl : second = (m₁.coros self).awaiting := chainExec_answer (.inl reloaded)
    simp only [Program.bind_done]
    split
    · rename_i same
      rw [beside.coros] at same
      exact goesOn m₂ (beside.trans beside₂) (.inr same)
    · exact (beside.trans beside₂).moves sound none

theorem chain_createTask (allowed : Allowed m (.createTask c)) :
    Carries r none m (createTask n c) m := by
  have stored (task : Option TaskPtr) : Safe r (coro (.storeTask c task)) := fun m sound =>
    ⟨trivial, fun _ m' ran => (storeTask_same ran).same_moves sound none⟩
  refine ⟨trivial, fun block m₁ ran => ?_⟩
  cases block with
  | none => exact (allocTask_none ran).moves sound none
  | some t =>
      have moved := allocTask_moves sound allowed.1 allowed.2 ran
      have rest : Safe r (coro (.storeTask c (some t)) >>= fun _ =>
          pushTaskRef n t >>= fun pushed =>
            if pushed then pure (some t)
            else do
              coro (.storeTask c none)
              perform (.memFree t)
              pure none) := by
        refine (stored (some t)).bind fun _ => plain_pushTaskRef.easy.safe.bind fun pushed => ?_
        cases pushed with
        | true => exact (easy_done (some t)).safe
        | false =>
            have freed : Easy (perform (.memFree t)) := easy_perform rfl
            exact (stored none).bind fun _ => freed.safe.bind fun _ => (easy_done none).safe
      exact Contract.wp_mono (fun _ m₂ later => moved.trans later) (rest m₁ moved.sound)

end

end Calls

section Stepping

variable {r : Fin N} {n : Nat} {m : Memory N} {t : TaskPtr} {leaf : CoroPtr}

theorem loadRoot_answer {allows : (o : Op) → o.Ret → Memory N → Prop} {root : Option CoroPtr}
    {m' : Memory N} (ran : chainExec allows r (.loadRoot t) m root m') :
    root = (m.tasks t).root := by
  obtain ⟨seen, _, beside, _, result⟩ := ran
  cases result
  exact beside.root t

theorem chain_rootStatusIs (st : Status) :
    (chainContract r).wp () (rootStatusIs t st) m fun found m' => Beside m m' ∧
      ∃ root, (m.tasks t).root = some root ∧ found = decide ((m.coros root).status = st) := by
  refine wp_aloof rfl trivial fun loaded m₁ beside ran => ?_
  obtain rfl := loadRoot_answer ran
  simp only [Program.bind_done]
  cases root : (m.tasks t).root with
  | none => exact ⟨trivial, nofun⟩
  | some top =>
      refine wp_aloof rfl trivial fun status m₂ beside₂ ran₂ => ?_
      obtain rfl : status = (m₁.coros top).status := chainExec_answer (.inr ⟨t, ran₂⟩)
      exact ⟨beside.trans beside₂, top, rfl, by rw [beside.coros]⟩

theorem chain_rootEnded :
    (chainContract r).wp () (rootEnded t) m fun ended m' => Beside m m' ∧
      (ended = false → ∃ root, (m.tasks t).root = some root ∧
        m.forest.ended root = false) := by
  refine Contract.wp_bind.mpr (Contract.wp_mono ?_ (chain_rootStatusIs .finished))
  rintro found m₁ ⟨beside, root, rooted, rfl⟩
  split
  · exact ⟨beside, nofun⟩
  · rename_i notDone
    refine Contract.wp_bind.mpr (Contract.wp_mono ?_ (chain_rootStatusIs .error))
    rintro found m₂ ⟨beside₂, root₂, rooted₂, rfl⟩
    split
    · exact ⟨beside.trans beside₂, nofun⟩
    · rename_i notError
      refine Contract.wp_mono ?_ (chain_rootStatusIs .cancelled)
      rintro found m₃ ⟨beside₃, root₃, rooted₃, rfl⟩
      have still := beside.trans beside₂
      refine ⟨still.trans beside₃, fun notCancelled => ⟨root, rooted, ?_⟩⟩
      obtain rfl : root₂ = root := by
        rw [beside.root t, rooted] at rooted₂
        exact (Option.some.inj rooted₂).symm
      obtain rfl : root₃ = root₂ := by
        rw [still.root t, rooted] at rooted₃
        exact (Option.some.inj rooted₃).symm
      rw [beside.coros] at notError
      rw [still.coros] at notCancelled
      simp only [decide_eq_true_eq, decide_eq_false_iff_not] at notDone notError notCancelled
      simp only [Memory.forest]
      cases status : (m.coros root₃).status with
      | pending => rfl
      | waiting => rfl
      | finished => exact absurd status notDone
      | cancelled => exact absurd status notCancelled
      | error => exact absurd status notError

theorem chain_stepAside (sound : m.forest.Sound) :
    Carries r (some t) m (stepAside t) m := by
  refine wp_aloof rfl trivial fun _ m₁ beside _ => ⟨trivial, fun _ m₂ ran => ?_⟩
  have moved := (beside.moves sound (some t)).trans
    (clearRunning_moves (beside.forest ▸ sound) ran)
  exact wp_aloof rfl trivial fun _ m₃ beside₃ _ => moved.trans (beside₃.moves moved.sound _)

variable {program : CoopProgram α}

theorem Safe.after {m' : Memory N} (safe : Safe r program) (moved : Moves (some t) m m') :
    Carries r (some t) m program m' :=
  Contract.wp_mono (fun _ _ later => moved.trans (later.widen _)) (safe m' moved.sound)

theorem chain_handBack (sound : m.forest.Sound) :
    (chainContract r).wp () (handBack n t) m
      fun entered m' => entered = false ∧ Moves (some t) m m' := by
  have put {m' : Memory N} (moved : Moves (some t) m m') :
      (chainContract r).wp () (rePush n t >>= fun _ => pure false) m'
        fun entered m'' => entered = false ∧ Moves (some t) m m'' :=
    Contract.wp_bind.mpr (Contract.wp_mono (fun _ _ later => ⟨rfl, later⟩)
      (plain_rePush.easy.safe.after moved))
  refine Contract.wp_bind.mpr (Contract.wp_mono (fun _ m₁ moved => ?_) (chain_stepAside sound))
  exact wp_aloof rfl trivial fun _ m₂ beside _ =>
    put (moved.trans (beside.moves moved.sound _))

/-- The gate of the step loop: either `t` goes on, or it was put aside. -/
def Passes (t : TaskPtr) (m : Memory N) (entered : Bool) (m' : Memory N) : Prop :=
  (entered = true ∧ Beside m m') ∨ (entered = false ∧ Moves (some t) m m')

theorem chain_vmClaim (sound : m.forest.Sound) :
    (chainContract r).wp () (vmClaim t leaf) m (Passes t m) := by
  have tried : Still r (mutexTryAcquire t leaf) := still_of_only only_mutexTryAcquire
  refine tried.wp_bind sound fun st m₁ beside => ?_
  have goesOn : (chainContract r).wp () (mark (.unlocked t) >>= fun _ => pure true) m₁
      (Passes t m) :=
    wp_aloof rfl trivial fun _ m₂ beside₂ _ => .inl ⟨rfl, beside.trans beside₂⟩
  cases st with
  | waiting =>
      refine Contract.wp_bind.mpr (Contract.wp_mono (fun _ m₂ moved => ?_)
        (chain_stepAside (beside.forest ▸ sound)))
      refine wp_aloof rfl trivial fun _ m₃ beside₃ _ => .inr ⟨rfl, ?_⟩
      exact ((beside.moves sound _).trans moved).trans (beside₃.moves moved.sound _)
  | pending => exact .inl ⟨rfl, beside⟩
  | finished => exact goesOn
  | cancelled => exact goesOn
  | error => exact goesOn

theorem chain_vmGate (sound : m.forest.Sound) :
    (chainContract r).wp () (vmGate n t leaf) m (Passes t m) := by
  have claim {m' : Memory N} (beside : Beside m m') :
      (chainContract r).wp () (vmClaim t leaf) m' (Passes t m) := by
    refine Contract.wp_mono (fun entered m'' passes => ?_) (chain_vmClaim (beside.forest ▸ sound))
    rcases passes with ⟨entered, later⟩ | ⟨entered, later⟩
    · exact .inl ⟨entered, beside.trans later⟩
    · exact .inr ⟨entered, (beside.moves sound _).trans later⟩
  have back {m' : Memory N} (beside : Beside m m') :
      (chainContract r).wp () (handBack n t) m' (Passes t m) := by
    refine Contract.wp_mono (fun entered m'' put => ?_) (chain_handBack (beside.forest ▸ sound))
    exact .inr ⟨put.1, (beside.moves sound _).trans put.2⟩
  refine wp_aloof rfl trivial fun ready m₁ beside _ => ?_
  cases ready with
  | true =>
      refine wp_aloof rfl trivial fun worker m₂ beside₂ _ => ?_
      have still := beside.trans beside₂
      cases worker with
      | true =>
          refine wp_aloof rfl trivial fun capable m₃ beside₃ _ => ?_
          cases capable with
          | true => exact claim (still.trans beside₃)
          | false => exact back (still.trans beside₃)
      | false => exact claim still
  | false =>
      refine wp_aloof rfl trivial fun worker m₂ beside₂ _ => ?_
      cases worker with
      | true => exact back (beside.trans beside₂)
      | false => exact .inl ⟨rfl, beside.trans beside₂⟩

theorem wp_again {m' : Memory N} (moved : Moves (some t) m m') (stepped : Stepped m' t) :
    Carries r (some t) m (invoke (.stepLoop t)) m' :=
  ⟨⟨moved.sound, stepped⟩, fun _ _ later => moved.trans later⟩

theorem Stepped.edited {m' : Memory N} (stepped : Stepped m t)
    (edited : Edited m.forest m m') : Stepped m' t := by
  obtain ⟨running, root, rooted, live⟩ := stepped
  refine ⟨(edited.running t).trans running, root, ?_, by rw [edited.forest, live]⟩
  exact (congrFun (congrArg Forest.root edited.forest) t).trans rooted

section Sound

variable (sound : m.forest.Sound)
include sound

theorem finish_moves {m' : Memory N}
    (chain : m.forest.OnChain t leaf) (nobody : ∀ p, ¬m.forest.Waits p leaf)
    (edited : Edited (m.forest.finish leaf) m m') : Moves (some t) m m' := by
  obtain ⟨finished, keeps⟩ := sound.finish chain nobody
  refine edited.moves finished (fun c isOver => ?_) fun t' other =>
    keeps t' fun same => other (congrArg some same.symm)
  by_cases same : c = leaf
  · simp [Forest.finish, same]
  · simpa [Forest.finish, same] using isOver

theorem fail_moves {m' : Memory N} {st : Status}
    (chain : m.forest.OnChain t leaf) (failed : st = .cancelled ∨ st = .error)
    (ran : chainExec Orderly r (.frame t (.storeStatus leaf st)) m () m') :
    Moves (some t) m m' := by
  have isOver : st.terminal = true := by
    rcases failed with rfl | rfl
    · rfl
    · rfl
  have edited := storeStatus_edits (.inr ⟨t, ran⟩)
  rw [isOver] at edited
  obtain ⟨seen, _, beside, root, _⟩ := ran
  have rooted : m.forest.root t = some leaf := (beside.root t).symm.trans (root failed)
  exact finish_moves sound chain (fun _ => sound.not_waits ⟨t, rooted⟩) edited

theorem resume_moves {m' : Memory N} {parent : CoroPtr}
    (chain : m.forest.OnChain t leaf) (waiter : m.forest.waiter leaf = some parent)
    (stepped : Stepped m t) (edited : Edited ((m.forest.finish leaf).release parent) m m') :
    Moves (some t) m m' ∧ Stepped m' t := by
  obtain ⟨running, top, rooted, live⟩ := stepped
  obtain ⟨resumed, keeps⟩ := sound.resume chain waiter
  have below : top ≠ leaf := by
    rintro rfl
    rw [sound.tops ⟨t, rooted⟩] at waiter
    cases waiter
  refine ⟨edited.moves resumed (fun c isOver => ?_) fun t' other =>
    keeps t' fun same => other (congrArg some same.symm), ?_⟩
  · by_cases same : c = leaf
    · simp [Forest.release, Forest.finish, same]
    · simpa [Forest.release, Forest.finish, same] using isOver
  · refine ⟨(edited.running t).trans running, top, ?_, ?_⟩
    · exact (congrFun (congrArg Forest.root edited.forest) t).trans rooted
    · rw [edited.forest]
      simpa [Forest.release, Forest.finish, below] using live

theorem chain_leafReturned (running : (m.tasks t).running = true)
    (chain : m.forest.OnChain t leaf) (st : Status) :
    Carries r (some t) m (leafReturned t leaf st) m := by
  have live := sound.live chain
  have stepped : Stepped m t := by
    obtain ⟨top, root, topLive, _⟩ := chain
    exact ⟨running, top, root, topLive⟩
  refine ⟨fun isOver => ?_, fun _ m₁ ran => ?_⟩
  · rw [live] at isOver
    cases isOver
  have goesOn (same : st.terminal = m.forest.ended leaf) : Edited m.forest m m₁ :=
    storeStatus_same same (.inr ⟨t, ran⟩)
  have ends (isOver : st.terminal = true) : Edited (m.forest.finish leaf) m m₁ := by
    have edited := storeStatus_edits (.inr ⟨t, ran⟩)
    rwa [isOver] at edited
  cases st with
  | pending => exact (goesOn live.symm).same_moves sound _
  | waiting =>
      have same := goesOn live.symm
      have moved := same.same_moves sound (some t)
      refine wp_aloof rfl trivial fun awaiting m₂ beside _ => ?_
      have later := moved.trans (beside.moves moved.sound _)
      cases awaiting with
      | none => exact later
      | some child =>
          exact wp_again later ((stepped.edited same).edited beside.edited)
  | finished =>
      have finished := ends rfl
      refine wp_aloof rfl trivial fun waiter m₂ beside loaded => ?_
      have found : waiter = m.forest.waiter leaf := by
        have answer : waiter = (m₁.coros leaf).waiter := chainExec_answer (.inr ⟨t, loaded⟩)
        rw [answer]
        exact congrFun (congrArg Forest.waiter finished.forest) leaf
      cases waiter with
      | none =>
          have nobody : ∀ p, ¬m.forest.Waits p leaf := by
            intro p waits
            rw [(sound.waits waits).2.1] at found
            cases found
          have moved := finish_moves sound chain nobody finished
          exact moved.trans (beside.moves moved.sound _)
      | some parent =>
          refine wp_aloof rfl trivial fun waiter m₃ beside₃ reloaded => ?_
          have again : waiter = some parent := by
            have answer : waiter = (m₂.coros leaf).waiter :=
              chainExec_answer (.inr ⟨t, reloaded⟩)
            rw [answer, beside.coros, found]
            exact congrFun (congrArg Forest.waiter finished.forest) leaf
          subst again
          refine ⟨trivial, fun _ m₄ ranRelease => ?_⟩
          have released : Edited ((m.forest.finish leaf).release parent) m m₄ := by
            have edited := storeAwaiting_edits (.inr ⟨t, ranRelease⟩)
            rw [beside₃.forest, beside.forest, finished.forest] at edited
            exact ((finished.trans beside.edited).trans beside₃.edited).trans edited
          obtain ⟨moved, stepped⟩ := resume_moves sound chain found.symm stepped released
          exact wp_again moved stepped
  | cancelled => exact fail_moves sound chain (.inl rfl) ran
  | error => exact fail_moves sound chain (.inr rfl) ran

theorem chain_runLeaf (running : (m.tasks t).running = true)
    (chain : m.forest.OnChain t leaf) (vmHeld : Bool) :
    Carries r (some t) m (runLeaf n t leaf vmHeld) m := by
  refine wp_aloof rfl trivial fun _ m₁ beside _ => ?_
  refine ⟨beside.sound sound, fun st m₂ (moved : Moves none m₁ m₂) => ?_⟩
  have entered := (beside.moves sound none).trans moved
  refine (plain_vmLeave vmHeld).still.wp_bind moved.sound fun _ m₃ beside₃ => ?_
  have moved₃ := entered.trans (beside₃.moves moved.sound none)
  obtain ⟨running₃, keeps⟩ := moved₃.kept t nofun running
  exact Contract.wp_mono (fun _ m₄ later => (moved₃.widen _).trans later)
    (chain_leafReturned moved₃.sound running₃ (keeps leaf chain) st)

theorem chain_stepTurn (stepped : Stepped m t) : Carries r (some t) m (stepTurn n t) m := by
  obtain ⟨running, top, rooted, topLive⟩ := stepped
  refine wp_aloof rfl trivial fun loaded m₁ beside ran => ?_
  obtain rfl : loaded = some top := (loadRoot_answer ran).trans rooted
  refine ⟨beside.sound sound, fun leaf m₂ ⟨beside₂, _, path⟩ => ?_⟩
  have still := beside.trans beside₂
  have chain : m.forest.OnChain t leaf := by
    rw [beside.coros] at path
    exact sound.reached rooted topLive path
  have live₂ : m₂.forest.ended leaf = false := by
    rw [still.forest]
    exact sound.live chain
  refine wp_aloof rfl live₂ fun hasStep m₃ beside₃ _ => ?_
  have still₃ := still.trans beside₃
  cases hasStep with
  | false =>
      refine ⟨fun isOver => ?_, fun _ m₄ ran => ?_⟩
      · rw [beside₃.forest, live₂] at isOver
        cases isOver
      · have failed := fail_moves (still₃.sound sound) (still₃.forest ▸ chain) (.inr rfl) ran
        have moved := (still₃.moves sound _).trans failed
        exact wp_aloof rfl trivial fun _ m₅ beside₅ _ =>
          moved.trans (beside₅.moves moved.sound _)
  | true =>
      refine wp_aloof rfl trivial fun vmOnly m₄ beside₄ _ => ?_
      have still₄ := still₃.trans beside₄
      have run {m' : Memory N} (beside : Beside m m') (vmHeld : Bool) :
          Carries r (some t) m (runLeaf n t leaf vmHeld) m' :=
        Contract.wp_mono (fun _ _ later => (beside.moves sound _).trans later)
          (chain_runLeaf (beside.sound sound) ((beside.running t).trans running)
            (beside.forest ▸ chain) vmHeld)
      have gated : Carries r (some t) m (vmGate n t leaf >>= fun entered =>
          if entered then runLeaf n t leaf true else pure false) m₄ := by
        refine Contract.wp_bind.mpr (Contract.wp_mono (fun entered m₅ passes => ?_)
          (chain_vmGate (still₄.sound sound)))
        rcases passes with ⟨rfl, beside₅⟩ | ⟨rfl, moved⟩
        · exact run (still₄.trans beside₅) true
        · exact (still₄.moves sound _).trans moved
      cases vmOnly with
      | false => exact run still₄ false
      | true => exact gated

end Sound

theorem chain_stepLive (root : ∃ top, (m.tasks t).root = some top ∧ m.forest.ended top = false)
    (sound : m.forest.Sound) :
    Carries r none m (stepLive n t) m := by
  refine ⟨trivial, fun taken m₁ ran => ?_⟩
  cases taken with
  | false =>
      have still := casRunning_lost ran
      have passed : Easy (mark (.leaveTask t) >>= fun _ => rePush n t) :=
        (easy_perform rfl).bind fun _ => plain_rePush.easy
      exact Contract.wp_mono (fun _ _ later => (still.moves sound none).trans later)
        (passed.safe m₁ (still.sound sound))
  | true =>
      obtain ⟨idle, running, same, others⟩ := casRunning_taken ran
      have moved : Moves (some t) m m₁ := by
        refine ⟨same ▸ sound, fun c isOver => by rw [same, isOver], fun t' _ busy => ?_⟩
        exact ⟨others t' busy, same ▸ .refl _ t'⟩
      have stepped : Stepped m₁ t := by
        obtain ⟨top, rooted, live⟩ := root
        refine ⟨running, top, ?_, by rw [same, live]⟩
        exact (congrFun (congrArg Forest.root same) t).trans rooted
      refine Contract.wp_mono (fun _ _ later => Moves.close later idle) ?_
      refine wp_aloof rfl trivial fun _ m₂ beside₂ _ => ?_
      refine wp_aloof rfl trivial fun _ m₃ beside₃ _ => ?_
      have still := beside₂.trans beside₃
      have moved₃ := moved.trans (still.moves moved.sound _)
      refine ⟨⟨moved₃.sound, stepped.edited still.edited⟩, fun broke m₄ later => ?_⟩
      have moved₄ := moved₃.trans later
      cases broke with
      | false => exact moved₄
      | true =>
          have leaves : Carries r (some t) m (stepAside t >>= fun _ => stepEpilogue t) m₄ := by
            refine Contract.wp_bind.mpr (Contract.wp_mono (fun _ m₅ aside => ?_)
              (chain_stepAside moved₄.sound))
            exact plain_stepEpilogue.easy.safe.after (moved₄.trans aside)
          exact leaves

theorem safe_stepTask : Safe r (stepTask n t) := by
  intro m sound
  refine wp_aloof rfl trivial fun entered m₁ beside _ => ?_
  cases entered with
  | none => exact beside.moves sound none
  | some _ =>
      refine wp_aloof rfl trivial fun owned m₂ beside₂ _ => ?_
      have still := beside.trans beside₂
      have left {m' : Memory N} (beside : Beside m m') :
          Carries r none m (mark (.leaveTask t)) m' :=
        wp_aloof rfl trivial fun _ m'' later _ => (beside.trans later).moves sound none
      cases owned with
      | true => exact wp_aloof rfl trivial fun _ m₃ beside₃ _ => left (still.trans beside₃)
      | false =>
          have stepped : Carries r none m (rootEnded t >>= fun ended =>
              if ended then mark (.leaveTask t) else stepLive n t) m₂ := by
            refine Contract.wp_bind.mpr (Contract.wp_mono ?_ chain_rootEnded)
            rintro ended m₃ ⟨beside₃, root⟩
            have still₃ := still.trans beside₃
            cases ended with
            | true => exact left still₃
            | false =>
                refine Contract.wp_mono (fun _ _ later => (still₃.moves sound none).trans later)
                  (chain_stepLive ?_ (still₃.sound sound))
                obtain ⟨top, rooted, live⟩ := root rfl
                rw [still.forest] at live
                refine ⟨top, ((beside₃.root t).trans rooted), ?_⟩
                rw [still₃.forest, live]
          exact stepped

theorem safe_stepsToo : StepsToo n (fun program => Safe r program) where
  easy easy := easy.safe
  bind first rest := first.bind rest
  step _ := safe_stepTask

theorem chain_discard (safe : Carries r none m program m) :
    Carries r none m (runApi.discard program) m :=
  Contract.wp_bind.mpr safe

theorem safe_given (safe : Safe r program) :
    Safe r (if t = 0 then pure () else runApi.discard program) := by
  split
  · exact (easy_done ()).safe
  · exact fun m sound => chain_discard (safe m sound)

theorem chain_runApi (sound : m.forest.Sound) (a : Api) (allowed : Allowed m a) :
    Carries r none m (runApi n a) m := by
  cases a with
  | postTask t => exact safe_given easy_postTask.safe m sound
  | sleepUs self us => exact chain_discard (chain_sleepUs sound us allowed)
  | yieldPark self => exact chain_discard (chain_yieldPark sound allowed)
  | await self child => exact chain_discard (chain_await sound allowed)
  | createTask c => exact chain_discard (chain_createTask sound allowed)
  | taskReclaim t => exact safe_given easy_taskReclaim.safe m sound
  | taskDetach t => exact safe_given safe_taskDetach m sound
  | taskRetire t => exact safe_given safe_taskRetire m sound
  | runUntil waiter => exact chain_discard (easy_runUntil.safe m sound)
  | poll => exact easy_poll.safe m sound
  | yield => exact safe_stepsToo.yield m sound
  | setVmOnly c =>
      refine ⟨trivial, fun _ m' (ran : chainExec Orderly r _ m _ m') => ?_⟩
      exact (store_same (o := .storeVmOnly c) (fun seen => by
        simp only [coroExec, forest_setCoro]
        simp [Memory.forest]) ran).same_moves sound none
  | setAutoFree c =>
      refine ⟨trivial, fun _ m' (ran : chainExec Orderly r _ m _ m') => ?_⟩
      exact (store_same (o := .storeAutoFree c) (fun seen => by
        simp only [coroExec, forest_setCoro]
        simp [Memory.forest]) ran).same_moves sound none
  | setStatus c st =>
      have same : st.terminal = m.forest.ended c := allowed
      refine ⟨fun isOver => same.trans isOver, fun _ m' ran => ?_⟩
      exact (storeStatus_same same (.inl ran)).same_moves sound none

theorem act_allowed {a : Api} {m' : Memory N}
    (ran : chainExec Orderly r .act m (.api a) m') : Allowed m' a := by
  obtain ⟨seen, choice, _, allowed, result⟩ := ran
  cases choice <;> cases result
  exact allowed

theorem idle_allowed {a : Api} {m' : Memory N}
    (ran : chainExec Orderly r .idle m (.api a) m') : Allowed m' a := by
  obtain ⟨seen, choice, _, allowed, result⟩ := ran
  cases choice <;> cases result
  exact allowed

theorem chains_verified (r : Fin N) (n : Nat) : (chainContract r).Verified (body n) := by
  rintro ⟨⟩ p m pre
  cases p with
  | main =>
      have again : Safe r (invoke .main) := (easy_invoke rfl).safe
      refine wp_aloof rfl trivial fun a m₁ beside ran => ?_
      have sound₁ := beside.sound pre
      have turn : Carries r none m₁ (mainTurn n a) m₁ := by
        cases a with
        | api a => exact chain_runApi sound₁ a (idle_allowed ran)
        | ret st => exact safe_stepsToo.runnerPass m₁ sound₁
      have whole := Safe.wp_then turn fun _ => again
      exact Contract.wp_mono (fun _ _ later => (beside.moves pre none).trans later) whole
  | user =>
      have again : Safe r userStep := (easy_invoke rfl).safe
      refine wp_aloof rfl trivial fun a m₁ beside ran => ?_
      have sound₁ := beside.sound pre
      cases a with
      | api a =>
          have whole := Safe.wp_then (chain_runApi (n := n) sound₁ a (act_allowed ran))
            fun _ => again
          exact Contract.wp_mono (fun _ _ later => (beside.moves pre none).trans later) whole
      | ret st => exact beside.moves pre none
  | taskOf c =>
      refine wp_aloof rfl trivial fun found m₁ beside _ => ?_
      cases found with
      | some t => exact beside
      | none =>
          refine wp_aloof rfl trivial fun waiter m₂ beside₂ _ => ?_
          have still := beside.trans beside₂
          cases waiter with
          | some parent => exact ⟨still.sound pre, fun _ m₃ later => still.trans later⟩
          | none => exact still
  | leafOf t leaf =>
      refine wp_aloof rfl trivial fun awaiting m₁ beside loaded => ?_
      have found : awaiting = (m.coros leaf).awaiting := chainExec_answer (.inr ⟨t, loaded⟩)
      cases awaiting with
      | none => exact ⟨beside, found.symm, .refl⟩
      | some child =>
          refine ⟨beside.sound pre, fun bottom m₂ ⟨beside₂, last, path⟩ => ?_⟩
          rw [beside.coros] at last path
          exact ⟨beside.trans beside₂, last, path.head found.symm⟩
  | stepLoop t => exact chain_stepTurn pre.1 pre.2
  | fireTimers now => exact (easy_fireTimersBody now).safe m pre
  | pollLoop => exact safe_stepsToo.pollTurn m pre
  | untilLoop waiter owner stallUntil =>
      exact safe_stepsToo.untilTurn waiter owner stallUntil m pre

end Stepping

/-- A memory that calls of `step_task` and of the card's functions lead to, from coroutines
that have not awaited. -/
inductive Driven (allows : (o : Op) → o.Ret → Memory N → Prop) (r : Fin N) (n : Nat) :
    Memory N → Prop
  | fresh {m : Memory N}
      (links : ∀ c, (m.coros c).awaiting = none ∧ (m.coros c).waiter = none)
      (roots : ∀ t t' c, (m.tasks t).root = some c → (m.tasks t').root = some c → t = t') :
      Driven allows r n m
  | step {m m' : Memory N} (before : Driven allows r n m) (t : TaskPtr)
      (ends : Program.Ends (chainExec allows r) (body n) (stepTask n t) m () m') :
      Driven allows r n m'
  | call {m m' : Memory N} (before : Driven allows r n m) (a : Api) (allowed : Allowed m a)
      (ends : Program.Ends (chainExec allows r) (body n) (runApi n a) m () m') :
      Driven allows r n m'

/-- Below a root that has not ended nothing has: neither the leaf of its chain nor any
coroutine that is awaited on the way. -/
def Resolved (m : Memory N) : Prop :=
  ∀ t root c, (m.tasks t).root = some root → (m.coros root).status.terminal = false →
    Relation.ReflTransGen (fun p c => (m.coros p).awaiting = some c) root c →
    (m.coros c).status.terminal = false

theorem Forest.Sound.resolved {m : Memory N} (sound : m.forest.Sound) : Resolved m :=
  fun _ _ _ rooted live path => sound.live (sound.reached rooted live path)

theorem driven_sound {r : Fin N} {n : Nat} {m : Memory N} (driven : Driven Orderly r n m) :
    m.forest.Sound := by
  induction driven with
  | @fresh m links roots =>
      refine ⟨fun {p c} waits => ?_, fun {t t' c} => roots t t' c, fun {c} _ => (links c).2⟩
      have awaits := waits.2
      rw [show m.forest.awaiting p = none from (links p).1] at awaits
      cases awaits
  | step _ t ends sound =>
      exact (Contract.holds_of_ends (chains_verified r n) (safe_stepTask _ sound) ends).sound
  | call _ a allowed ends sound =>
      exact (Contract.holds_of_ends (chains_verified r n) (chain_runApi sound a allowed)
        ends).sound

theorem chains_resolve {r : Fin N} {n : Nat} {m : Memory N} (driven : Driven Orderly r n m)
    (t : TaskPtr) :
    (∀ m', Program.Ends (chainExec Orderly r) (body n) (stepTask n t) m () m' →
      Resolved m' ∧ ∀ c, (m.coros c).status.terminal = true →
        (m'.coros c).status.terminal = true) ∧
    ∀ o m', Program.Visits (chainExec Orderly r) (body n) (fun _ place => place) ()
      (stepTask n t) m () o m' → NoneRevived o m' := by
  have sound := driven_sound driven
  constructor
  · intro m' ends
    have moved := Contract.holds_of_ends (chains_verified r n) (safe_stepTask m sound) ends
    exact ⟨Forest.Sound.resolved moved.sound, moved.ended⟩
  · intro o m' visits
    exact Contract.sees_of_visits (chains_verified r n) (safe_stepTask m sound) visits

def planted : Memory 2 :=
  { pair.memory with tasks := update pair.memory.tasks 1 (Task.fresh 5) }

theorem planted_root {t : TaskPtr} {c : CoroPtr} (root : (planted.tasks t).root = some c) :
    t = 1 ∧ c = 5 := by
  by_cases same : t = 1
  · subst same
    simp [planted, Task.fresh] at root
    exact ⟨rfl, root.symm⟩
  · have other : planted.tasks t = Task.unborn := update_of_ne same _ _
    rw [other] at root
    cases root

theorem planted_driven (allows : (o : Op) → o.Ret → Memory 2 → Prop) (n : Nat) :
    Driven allows 0 n planted :=
  .fresh (fun _ => ⟨rfl, rfl⟩) fun _ _ _ first second =>
    (planted_root first).1.trans (planted_root second).1.symm

abbrev RootedRun : Type :=
  { s : Memory 2 × List Choice // ∀ t c, (s.1.tasks t).root = some c → c = 5 }

def orderly : (o : Op) → o.Ret → Memory 2 → Bool
  | .act, .api (.await self child), m =>
      !m.forest.ended self && !m.forest.ended child && child != 5 &&
        (m.coros child).waiter == none
  | .act, .api _, _ | .idle, .api _, _ => false
  | .allocTask _, some _, _ => false
  | .clearRoot _ _, _, _ => false
  | .frame _ (.storeStatus _ st), _, _ => st == .pending || st == .waiting || st == .finished
  | _, _, _ => true

theorem orderly_agrees {o : Op} {answer : o.Ret} (s : RootedRun)
    (fits : orderly o answer s.1.1 = true) : Orderly o answer s.1.1 := by
  cases o with
  | act =>
      cases answer with
      | ret st => trivial
      | api a =>
          cases a with
          | await self child =>
              simp only [orderly, Bool.and_eq_true, Bool.not_eq_true', bne_iff_ne, beq_iff_eq]
                at fits
              obtain ⟨⟨⟨live, childLive⟩, other⟩, free⟩ := fits
              refine ⟨live, .inr ⟨childLive, ?_, fun p waiter => ?_⟩⟩
              · rintro ⟨t, root⟩
                exact other (s.2 t child root)
              · rw [free] at waiter
                cases waiter
          | _ => cases fits
  | idle =>
      cases answer with
      | ret st => trivial
      | api a => cases fits
  | allocTask c =>
      cases answer with
      | none => trivial
      | some t => cases fits
  | clearRoot t outside => cases fits
  | frame t o =>
      cases o with
      | storeStatus c st =>
          rintro (rfl | rfl)
          · cases fits
          · cases fits
      | _ => trivial
  | _ => trivial

theorem orderly_rooted {o : Op} {s : RootedRun} {answer : o.Ret}
    {t : Memory 2 × List Choice} (played : playOp orderly o s.1 = some (answer, t))
    (task : TaskPtr) (c : CoroPtr) (root : (t.1.tasks task).root = some c) : c = 5 := by
  obtain ⟨fits, choice, result⟩ := playOp_result played
  rw [(memExec_follows result).root task] at root
  cases o with
  | allocTask c =>
      cases answer with
      | none => exact s.2 task _ root
      | some t => cases fits
  | clearRoot t outside => cases fits
  | _ => exact s.2 task c root

def playRooted (o : Op) (s : RootedRun) : Option (o.Ret × RootedRun) :=
  match played : playOp orderly o s.1 with
  | none => none
  | some (answer, t) => some (answer, ⟨t, orderly_rooted played⟩)

theorem playRooted_follows (o : Op) (s : RootedRun) (answer : o.Ret) (t : RootedRun)
    (played : playRooted o s = some (answer, t)) :
    chainExec Orderly 0 o s.1.1 answer t.1.1 := by
  unfold playRooted at played
  split at played
  · cases played
  · rename_i reply next result
    cases played
    obtain ⟨fits, choice, ran⟩ := playOp_result result
    exact ⟨s.1.1, choice, .refl _, orderly_agrees s fits, ran⟩

/-- The root awaits coroutine 6, which is done, and then is done itself. -/
def childDone : List Choice :=
  [.act (.api (.await 5 6)), .act (.ret .waiting), .act (.ret .finished), .act (.ret .finished)]

theorem chains_resolve_pair :
    ∃ m', Program.Ends (chainExec Orderly 0) (body pair.n) (stepTask pair.n 1) planted () m' ∧
      (m'.coros 5).status = .finished ∧ (m'.coros 6).status = .finished ∧ Resolved m' := by
  have played : (Program.play playRooted (body pair.n) (fun _ place => place)
      (fun _ _ _ => false) 200 () (stepTask pair.n 1)
      ⟨(planted, childDone), fun _ _ root => (planted_root root).2⟩).any
        (Program.Outcome.endsIn fun s => (s.1.1.coros 5).status == .finished &&
          (s.1.1.coros 6).status == .finished) = true := by decide +kernel
  obtain ⟨value, s, ends, found⟩ := Program.ends_of_play playRooted_follows played
  simp only [Bool.and_eq_true, beq_iff_eq] at found
  exact ⟨s.1.1, ends, found.1, found.2,
    ((chains_resolve (planted_driven _ _) 1).1 _ ends).1⟩

def childFails : List Choice :=
  [.act (.api (.await 5 6)), .act (.ret .waiting), .act (.ret .error)]

theorem chains_resolve_fails :
    ¬∀ m, Driven (fun _ _ _ => True) (0 : Fin 2) pair.n m → ∀ t m',
      Program.Ends (chainExec (fun _ _ _ => True) 0) (body pair.n) (stepTask pair.n t) m () m' →
        Resolved m' := by
  intro claim
  have played : (Program.play (playOp fun _ _ _ => true) (body pair.n) (fun _ place => place)
      (fun _ _ _ => false) 200 () (stepTask pair.n 1) (planted, childFails)).any
        (Program.Outcome.endsIn fun s => (s.1.tasks 1).root == some 5 &&
          !(s.1.coros 5).status.terminal && (s.1.coros 5).awaiting == some 6 &&
            (s.1.coros 6).status.terminal) = true := by decide +kernel
  have follows (o : Op) (s : Memory 2 × List Choice) (answer : o.Ret)
      (t : Memory 2 × List Choice) (played : playOp (fun _ _ _ => true) o s = some (answer, t)) :
      chainExec (fun _ _ _ => True) 0 o s.1 answer t.1 := by
    obtain ⟨_, choice, result⟩ := playOp_result played
    exact ⟨s.1, choice, .refl _, trivial, result⟩
  obtain ⟨value, s, ends, found⟩ := Program.ends_of_play follows played
  simp only [Bool.and_eq_true, beq_iff_eq, Bool.not_eq_true'] at found
  obtain ⟨⟨⟨root, live⟩, awaits⟩, isOver⟩ := found
  have resolved := claim planted (planted_driven _ _) 1 s.1 ends
  have childLive := resolved 1 5 6 root live (.single awaits)
  rw [isOver] at childLive
  cases childLive

end Metal.Coop
