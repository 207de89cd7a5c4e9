import Metal.Lib.Run
import Metal.Lib.Tally
import Metal.Build.Graph
import Mathlib.Algebra.BigOperators.Fin

namespace Metal.Build

open Metal.Lib Function

/-! The background walk: one quantum after another settles finished jobs,
isolates the units behind a failure and fills the free lanes. -/

inductive WalkRow
  | pending
  | running
  | done
  | failed
  | skipped
  deriving DecidableEq

def WalkRow.terminal : WalkRow → Bool
  | .done | .failed | .skipped => true
  | .pending | .running => false

inductive WalkStatus
  | idle
  | running
  | done

def walkFanout : Nat := 4

def walkRetries : Nat := 8

abbrev Lane := Fin walkFanout

structure WalkInfo where
  state : WalkStatus
  nTotal : Nat
  nDone : Nat
  nFailed : Nat
  nSkipped : Nat
  nRunning : Nat
  failFqn : Bytes
  failErr : Bytes

variable (units : List BuildUnit)

/-- The walk's frame. A lane holds the unit of its job; `submits` records every
call of `actor_submit` with the rows at that moment. -/
structure Walk where
  row : Index units → WalkRow
  retry : Index units → Nat
  jobs : Lane → Option (Index units)
  counted : Lane → Bool
  inlineCnt : Nat
  peakRunning : Nat
  info : WalkInfo
  submits : List (Index units × (Index units → WalkRow))

/-- What one quantum reads of the job in a lane, and the answer to its
release. -/
structure JobView where
  state : ActorState
  rc : Status
  err : Bytes
  release : Status

structure Quantum where
  job : Lane → JobView
  rootFn : Index units → Option Bytes
  submit : Index units → Status × Bytes
  post : Index units → Bool

variable {units}

def WalkInfo.noteFail (fqn : CString) (reason : Bytes) (info : WalkInfo) :
    WalkInfo :=
  if info.failErr ≠ [] then info
  else
    { info with
      failFqn := snprintf strMax fqn.bytes
      failErr := snprintf errMax
        (if reason ≠ [] then reason else ascii "refused without a reason") }

def Walk.setRow (ui : Index units) (row : WalkRow) (w : Walk units) :
    Walk units :=
  { w with row := update w.row ui row }

def Walk.countDone (w : Walk units) : Walk units :=
  { w with info := { w.info with nDone := w.info.nDone + 1 } }

def Walk.countFailed (fqn : CString) (reason : Bytes) (w : Walk units) :
    Walk units :=
  { w with
    info :=
      { w.info.noteFail fqn reason with nFailed := w.info.nFailed + 1 } }

def Walk.countSkipped (w : Walk units) : Walk units :=
  { w with info := { w.info with nSkipped := w.info.nSkipped + 1 } }

def Walk.census (job : Index units) (view : JobView) (w : Walk units) :
    Walk units :=
  let ui := dagFind units (unit units job).fqn
  let mark := fun row (w : Walk units) => ui.elim w fun ui => w.setRow ui row
  if view.state = .done then (mark .done w).countDone
  else
    match ui with
    | some ui =>
        if view.rc = .busy ∧ w.retry ui < walkRetries then
          { w.setRow ui .pending with
            retry := update w.retry ui (w.retry ui + 1) }
        else
          (mark .failed w).countFailed (unit units job).fqn view.err
    | none => (mark .failed w).countFailed (unit units job).fqn view.err

def Walk.close (lane : Lane) (job : Index units) (view : JobView)
    (w : Walk units) : Walk units :=
  let w := if w.counted lane then w else w.census job view
  { w with counted := update w.counted lane true }

def Walk.vacate (lane : Lane) (w : Walk units) : Walk units :=
  { w with
    jobs := update w.jobs lane none
    counted := update w.counted lane false }

def Walk.settleLane (q : Quantum units) :
    Walk units × Nat → Lane → Walk units × Nat := fun (w, live) lane =>
  match w.jobs lane with
  | none => (w, live)
  | some job =>
      let view := q.job lane
      if ¬ view.state.terminal then (w, live + 1)
      else if view.release = .busy then (w.close lane job view, live + 1)
      else ((w.close lane job view).vacate lane, live)

def Walk.isolated (i : Index units) (w : Walk units) : Bool :=
  (unit units i).depends.any fun dep =>
    match dagFind units dep with
    | none => false
    | some di => w.row di = .failed ∨ w.row di = .skipped

def Walk.isolate (w : Walk units) (i : Index units) : Walk units :=
  if w.row i ≠ .pending then w
  else if w.isolated i then (w.setRow i .skipped).countSkipped
  else w

def Walk.runnable (i : Index units) (w : Walk units) : Bool :=
  (unit units i).depends.all fun dep =>
    match dagFind units dep with
    | none => true
    | some di => w.row di = .done

def Walk.freeLane (w : Walk units) : Option Lane :=
  (List.finRange walkFanout).find? fun lane => w.jobs lane = none

def Walk.launch (q : Quantum units) (i : Index units) (lane : Lane) (live : Nat)
    (w : Walk units) : Walk units × Nat :=
  let u := unit units i
  match q.rootFn i with
  | none =>
      ((w.setRow i .failed).countFailed u.fqn
        (ascii "walk: unit root not resolved"), live)
  | some _ =>
      let w := { w with submits := w.submits ++ [(i, w.row)] }
      let (rc, err) := q.submit i
      if rc ≠ .ok then ((w.setRow i .failed).countFailed u.fqn err, live)
      else
        ({ w.setRow i .running with
          inlineCnt := w.inlineCnt + if q.post i then 0 else 1
          jobs := update w.jobs lane (some i) }, live + 1)

def Walk.fill (q : Quantum units) :
    List (Index units) → Walk units × Nat → Walk units × Nat
  | [], (w, live) => (w, live)
  | i :: rest, (w, live) =>
      if ¬ live < walkFanout then (w, live)
      else if w.row i ≠ .pending ∨ ¬ w.runnable i then fill q rest (w, live)
      else
        match w.freeLane with
        | none => (w, live)
        | some lane => fill q rest (w.launch q i lane live)

/-- The census is published and, with every row settled and every lane drained,
the walk reports that it is done. -/
def Walk.publish : Walk units × Nat → Walk units := fun (w, live) =>
  let w :=
    { w with
      info := { w.info with nRunning := live }
      peakRunning := max w.peakRunning live }
  if live = 0 ∧ ∀ i, w.row i ≠ .pending ∧ w.row i ≠ .running then
    { w with info := { w.info with state := .done, nRunning := 0 } }
  else w

/-- One quantum. The inline steps of jobs without a task of their own change
only these jobs, which the next quantum reads. -/
def Walk.step (w : Walk units) (q : Quantum units) : Walk units :=
  let (w, live) := (List.finRange walkFanout).foldl (Walk.settleLane q) (w, 0)
  let w := (List.finRange units.length).foldl Walk.isolate w
  Walk.publish (Walk.fill q (List.finRange units.length) (w, live))

variable (units)

def walkBegin : Walk units where
  row _ := .pending
  retry _ := 0
  jobs _ := none
  counted _ := false
  inlineCnt := 0
  peakRunning := 0
  info :=
    { state := .running
      nTotal := units.length
      nDone := 0
      nFailed := 0
      nSkipped := 0
      nRunning := 0
      failFqn := []
      failErr := [] }
  submits := []

def walkStart (room : Bool) : Except Refusal (Walk units) :=
  if units = [] then .error ⟨.parse, ascii "walk_start: no units"⟩
  else
    match graphResolve units room with
    | .error refusal =>
        .error ⟨refusal.code,
          ascii "walk_start: graph: " ++ refusal.err.take 80⟩
    | .ok _ => .ok (walkBegin units)

variable {units}

def rowCount (state : WalkRow) (row : Index units → WalkRow) : Nat :=
  (Finset.univ.filter fun i => row i = state).card

theorem rowCount_eq_tally (state : WalkRow) (row : Index units → WalkRow) :
    rowCount state row =
      tally Finset.univ (fun r => if r = state then 1 else 0) row :=
  Finset.card_filter _ _

variable {i : Index units}

theorem rowCount_update {state : WalkRow} {row : Index units → WalkRow} (away : row i ≠ state)
    (new : WalkRow) :
    rowCount state (update row i new) =
      rowCount state row + if new = state then 1 else 0 := by
  have moved := tally_update (Finset.mem_univ i)
    (fun r => if r = state then 1 else 0) row new
  simp only [away, if_false, Nat.add_zero] at moved
  rw [rowCount_eq_tally, rowCount_eq_tally, moved]

structure Walk.Ledger (w : Walk units) : Prop where
  done : w.info.nDone = rowCount .done w.row
  failed : w.info.nFailed = rowCount .failed w.row
  skipped : w.info.nSkipped = rowCount .skipped w.row
  total : w.info.nTotal = units.length
  isolated : ∀ i, w.row i = .skipped →
    ∃ j, Needs units i j ∧ (w.row j = .failed ∨ w.row j = .skipped)

variable {w' w : Walk units} {new : WalkRow}

theorem Walk.Ledger.move (ledger : w.Ledger) (isOpen : (w.row i).terminal = false)
    (row : w'.row = update w.row i new)
    (done : w'.info.nDone = w.info.nDone + if new = .done then 1 else 0)
    (failed : w'.info.nFailed = w.info.nFailed + if new = .failed then 1 else 0)
    (skipped : w'.info.nSkipped =
      w.info.nSkipped + if new = .skipped then 1 else 0) (total : w'.info.nTotal = w.info.nTotal)
    (isolated : new = .skipped →
      ∃ j, Needs units i j ∧ (w.row j = .failed ∨ w.row j = .skipped)) : w'.Ledger := by
  have away {state : WalkRow} (terminal : state.terminal = true) :
      w.row i ≠ state := by
    rintro rfl
    rw [isOpen] at terminal
    cases terminal
  have stays {j : Index units} (bad : w.row j = .failed ∨ w.row j = .skipped) :
      w'.row j = .failed ∨ w'.row j = .skipped := by
    have other : j ≠ i := by
      rintro rfl
      rcases bad with bad | bad
      · exact away rfl bad
      · exact away rfl bad
    rwa [row, update_of_ne other]
  refine ⟨?_, ?_, ?_, total.trans ledger.total, ?_⟩
  · rw [done, ledger.done, row, rowCount_update (away rfl)]
  · rw [failed, ledger.failed, row, rowCount_update (away rfl)]
  · rw [skipped, ledger.skipped, row, rowCount_update (away rfl)]
  · intro k here
    by_cases same : k = i
    · subst same
      rw [row, update_self] at here
      obtain ⟨j, needed, bad⟩ := isolated here
      exact ⟨j, needed, stays bad⟩
    · rw [row, update_of_ne same] at here
      obtain ⟨j, needed, bad⟩ := ledger.isolated k here
      exact ⟨j, needed, stays bad⟩

theorem Walk.Ledger.of_eq (ledger : w.Ledger) (row : w'.row = w.row) (info : w'.info = w.info) :
    w'.Ledger := by
  constructor
  · rw [info, row]
    exact ledger.done
  · rw [info, row]
    exact ledger.failed
  · rw [info, row]
    exact ledger.skipped
  · rw [info]
    exact ledger.total
  · rw [row]
    exact ledger.isolated

theorem WalkInfo.noteFail_census (fqn : CString) (reason : Bytes)
    (info : WalkInfo) :
    (info.noteFail fqn reason).nDone = info.nDone ∧
      (info.noteFail fqn reason).nSkipped = info.nSkipped ∧
      (info.noteFail fqn reason).nTotal = info.nTotal ∧
      (info.noteFail fqn reason).state = info.state := by
  unfold noteFail
  split <;> simp

theorem Walk.Ledger.fail (ledger : w.Ledger) (isOpen : (w.row i).terminal = false) (fqn : CString)
    (reason : Bytes) : ((w.setRow i .failed).countFailed fqn reason).Ledger := by
  obtain ⟨done, skipped, total, -⟩ := w.info.noteFail_census fqn reason
  exact ledger.move isOpen rfl done rfl skipped total (by simp)

/-! Lanes, and how often a unit is submitted. -/

structure Walk.Lanes (w : Walk units) : Prop where
  vacant : ∀ lane, w.jobs lane = none → w.counted lane = false
  active : ∀ lane i, w.jobs lane = some i → w.counted lane = false →
    w.row i = .running
  single : ∀ lane lane' i, w.jobs lane = some i → w.jobs lane' = some i →
    w.counted lane = false → w.counted lane' = false → lane = lane'

structure Walk.Tries (w : Walk units) : Prop where
  ready : ∀ entry ∈ w.submits, ∀ j, Needs units entry.1 j →
    entry.2 j = .done
  tries : ∀ i, (w.submits.map Prod.fst).count i ≤
    w.retry i + if w.row i = .pending then 0 else 1
  spent : ∀ i, w.retry i ≤ walkRetries

structure Walk.Kept (w : Walk units) : Prop where
  ledger : w.Ledger
  lanes : w.Lanes
  tries : w.Tries

variable {order : List (Index units)}

theorem Walk.census_cases (resolved : Resolved units order) (i : Index units) (view : JobView)
    (w : Walk units) :
    w.census i view = (w.setRow i .done).countDone ∨
      (w.retry i < walkRetries ∧ w.census i view =
        { w.setRow i .pending with
          retry := update w.retry i (w.retry i + 1) }) ∨
      w.census i view =
        (w.setRow i .failed).countFailed (unit units i).fqn view.err := by
  simp only [census, resolved.dagFind_iff.mpr rfl, Option.elim_some]
  by_cases done : view.state = .done
  · rw [if_pos done]
    exact .inl rfl
  · rw [if_neg done]
    by_cases busy : view.rc = .busy ∧ w.retry i < walkRetries
    · rw [if_pos busy]
      exact .inr (.inl ⟨busy.2, rfl⟩)
    · rw [if_neg busy]
      exact .inr (.inr rfl)

variable {lane : Lane}

/-- The lane of a running unit is counted: its row moves on, to a terminal
state or back to pending with one retry more. -/
theorem Walk.Kept.leave (kept : w.Kept) (job : w.jobs lane = some i)
    (uncounted : w.counted lane = false) (ledger : w'.Ledger)
    (row : w'.row = update w.row i new) (jobs : w'.jobs = w.jobs)
    (counted : w'.counted = update w.counted lane true)
    (submits : w'.submits = w.submits) (retry : (new ≠ .pending ∧ w'.retry = w.retry) ∨
      (w.retry i < walkRetries ∧
        w'.retry = update w.retry i (w.retry i + 1))) : w'.Kept := by
  have running := kept.lanes.active lane i job uncounted
  have others {lane' : Lane} (clear : w'.counted lane' = false) :
      lane' ≠ lane ∧ w.counted lane' = false := by
    have different : lane' ≠ lane := by
      rintro rfl
      rw [counted, update_self] at clear
      cases clear
    rw [counted, update_of_ne different] at clear
    exact ⟨different, clear⟩
  refine ⟨ledger, ⟨?_, ?_, ?_⟩, ⟨?_, ?_, ?_⟩⟩
  · intro lane' empty
    rw [jobs] at empty
    have different : lane' ≠ lane := by
      rintro rfl
      rw [job] at empty
      cases empty
    rw [counted, update_of_ne different]
    exact kept.lanes.vacant lane' empty
  · intro lane' k jobHere clear
    obtain ⟨different, clear⟩ := others clear
    rw [jobs] at jobHere
    have otherUnit : k ≠ i := by
      rintro rfl
      exact different
        (kept.lanes.single lane' lane k jobHere job clear uncounted)
    rw [row, update_of_ne otherUnit]
    exact kept.lanes.active lane' k jobHere clear
  · intro lane' lane'' k first second clear clear'
    rw [jobs] at first second
    exact kept.lanes.single lane' lane'' k first second (others clear).2
      (others clear').2
  · rw [submits]
    exact kept.tries.ready
  · intro k
    have before := kept.tries.tries k
    rw [submits, row]
    by_cases here : k = i
    · subst here
      rw [running] at before
      rw [update_self]
      rcases retry with ⟨open_, same⟩ | ⟨-, more⟩
      · rw [same, if_neg open_]
        simpa using before
      · rw [more, update_self]
        exact before.trans (Nat.le_add_right _ _)
    · rw [update_of_ne here]
      rcases retry with ⟨-, same⟩ | ⟨-, more⟩
      · rw [same]
        exact before
      · rw [more, update_of_ne here]
        exact before
  · intro k
    rcases retry with ⟨-, same⟩ | ⟨below, more⟩
    · rw [same]
      exact kept.tries.spent k
    · rw [more]
      by_cases here : k = i
      · subst here
        rw [update_self]
        exact below
      · rw [update_of_ne here]
        exact kept.tries.spent k

theorem Walk.Kept.close (resolved : Resolved units order) (kept : w.Kept)
    (job : w.jobs lane = some i) (view : JobView) : (w.close lane i view).Kept := by
  unfold Walk.close
  cases uncounted : w.counted lane with
  | true =>
      simp only [if_true]
      rw [← uncounted, update_eq_self]
      exact kept
  | false =>
      have isOpen : (w.row i).terminal = false := by
        rw [kept.lanes.active lane i job uncounted]
        rfl
      simp only [Bool.false_eq_true, if_false]
      rcases w.census_cases resolved i view with same | ⟨below, same⟩ | same
      · rw [same]
        refine kept.leave job uncounted ?_ rfl rfl rfl rfl (.inl ⟨?_, rfl⟩)
        · exact kept.ledger.move isOpen rfl rfl rfl rfl rfl (by simp)
        · simp
      · rw [same]
        refine kept.leave job uncounted ?_ rfl rfl rfl rfl (.inr ⟨below, rfl⟩)
        exact kept.ledger.move isOpen rfl rfl rfl rfl rfl (by simp)
      · rw [same]
        refine kept.leave job uncounted ?_ rfl rfl rfl rfl (.inl ⟨?_, rfl⟩)
        · exact (kept.ledger.fail isOpen _ _).of_eq rfl rfl
        · simp

theorem Walk.Kept.vacate (kept : w.Kept) (lane : Lane) : (w.vacate lane).Kept := by
  have held {lane' : Lane} {i : Index units}
      (job : (w.vacate lane).jobs lane' = some i) :
      lane' ≠ lane ∧ w.jobs lane' = some i := by
    have different : lane' ≠ lane := by
      rintro rfl
      simp [Walk.vacate] at job
    simpa [Walk.vacate, different] using job
  have clear {lane' : Lane} (different : lane' ≠ lane)
      (uncounted : (w.vacate lane).counted lane' = false) :
      w.counted lane' = false := by
    simpa [Walk.vacate, different] using uncounted
  refine ⟨kept.ledger.of_eq rfl rfl, ⟨?_, ?_, ?_⟩, kept.tries.ready,
    kept.tries.tries, kept.tries.spent⟩
  · intro lane' empty
    by_cases here : lane' = lane
    · simp [Walk.vacate, here]
    · simp only [Walk.vacate, update_of_ne here] at empty ⊢
      exact kept.lanes.vacant lane' empty
  · intro lane' i job uncounted
    obtain ⟨different, job⟩ := held job
    exact kept.lanes.active lane' i job (clear different uncounted)
  · intro lane' lane'' i job job' uncounted uncounted'
    obtain ⟨different, job⟩ := held job
    obtain ⟨different', job'⟩ := held job'
    exact kept.lanes.single lane' lane'' i job job' (clear different uncounted)
      (clear different' uncounted')

theorem Walk.Kept.settleLane (resolved : Resolved units order) (q : Quantum units) (kept : w.Kept)
    (live : Nat) (lane : Lane) : (Walk.settleLane q (w, live) lane).1.Kept := by
  simp only [Walk.settleLane]
  split
  · exact kept
  · rename_i i job
    split
    · exact kept
    · split
      · exact kept.close resolved job _
      · exact (kept.close resolved job _).vacate lane

theorem Walk.isolated_iff (resolved : Resolved units order) (member : i ∈ order) (w : Walk units) :
    w.isolated i = true ↔
      ∃ j, Needs units i j ∧ (w.row j = .failed ∨ w.row j = .skipped) := by
  simp only [isolated, List.any_eq_true]
  constructor
  · rintro ⟨dep, depMember, here⟩
    obtain ⟨j, rfl⟩ := resolved.known i member dep depMember
    rw [resolved.dagFind_iff.mpr rfl] at here
    exact ⟨j, depMember, by simpa using here⟩
  · rintro ⟨j, needed, bad⟩
    refine ⟨_, needed, ?_⟩
    rw [resolved.dagFind_iff.mpr rfl]
    simpa using bad

theorem Walk.runnable_iff (resolved : Resolved units order) (member : i ∈ order) (w : Walk units) :
    w.runnable i = true ↔ ∀ j, Needs units i j → w.row j = .done := by
  simp only [runnable, List.all_eq_true]
  constructor
  · intro ready j needed
    have here := ready _ needed
    rw [resolved.dagFind_iff.mpr rfl] at here
    simpa using here
  · intro done dep depMember
    obtain ⟨j, rfl⟩ := resolved.known i member dep depMember
    rw [resolved.dagFind_iff.mpr rfl]
    simpa using done j depMember

theorem Walk.Lanes.of_pending (lanes : w.Lanes) (pending : w.row i = .pending)
    (row : w'.row = update w.row i new) (jobs : w'.jobs = w.jobs)
    (counted : w'.counted = w.counted) : w'.Lanes := by
  refine ⟨?_, ?_, ?_⟩
  · rw [jobs, counted]
    exact lanes.vacant
  · rw [jobs, counted]
    intro lane k job uncounted
    have running := lanes.active lane k job uncounted
    have other : k ≠ i := by
      rintro rfl
      rw [pending] at running
      cases running
    rwa [row, update_of_ne other]
  · rw [jobs, counted]
    exact lanes.single

theorem Walk.Tries.of_pending (tries : w.Tries) (pending : w.row i = .pending)
    (moves : new ≠ .pending) (row : w'.row = update w.row i new)
    (retry : w'.retry = w.retry) (submits : w'.submits = w.submits ∨
      (w'.submits = w.submits ++ [(i, w.row)] ∧
        ∀ j, Needs units i j → w.row j = .done)) : w'.Tries := by
  refine ⟨?_, ?_, ?_⟩
  · intro entry member
    rcases submits with same | ⟨more, ready⟩
    · rw [same] at member
      exact tries.ready entry member
    · rw [more] at member
      rcases List.mem_append.mp member with member | member
      · exact tries.ready entry member
      · rw [List.mem_singleton.mp member]
        exact ready
  · intro k
    have before := tries.tries k
    rw [retry, row]
    by_cases here : k = i
    · subst here
      rw [pending] at before
      rw [update_self, if_neg moves]
      rcases submits with same | ⟨more, -⟩
      · rw [same]
        exact before.trans (Nat.le_succ _)
      · rw [more, List.map_append, List.count_append]
        simpa using before
    · rw [update_of_ne here]
      rcases submits with same | ⟨more, -⟩
      · rw [same]
        exact before
      · rw [more, List.map_append, List.count_append, List.map_singleton,
          List.count_singleton]
        simpa [Ne.symm here] using before
  · rw [retry]
    exact tries.spent

theorem Walk.Kept.isolate (resolved : Resolved units order) (kept : w.Kept) (member : i ∈ order) :
    (w.isolate i).Kept := by
  unfold Walk.isolate
  by_cases settled : w.row i ≠ .pending
  · rw [if_pos settled]
    exact kept
  · rw [if_neg settled]
    have pending := not_not.mp settled
    split
    · rename_i behind
      refine ⟨?_, ?_, ?_⟩
      · refine kept.ledger.move (by rw [pending]; rfl) rfl rfl rfl rfl rfl ?_
        exact fun _ => (w.isolated_iff resolved member).mp behind
      · exact kept.lanes.of_pending pending rfl rfl rfl
      · exact kept.tries.of_pending pending (by simp) rfl rfl (.inl rfl)
    · exact kept

theorem Walk.Lanes.occupy (lanes : w.Lanes) (pending : w.row i = .pending)
    (free : w.jobs lane = none) (row : w'.row = update w.row i .running)
    (jobs : w'.jobs = update w.jobs lane (some i)) (counted : w'.counted = w.counted) :
    w'.Lanes := by
  have unheld {lane' : Lane} (job : w.jobs lane' = some i)
      (uncounted : w.counted lane' = false) : False := by
    have running := lanes.active lane' i job uncounted
    rw [pending] at running
    cases running
  have held {lane' : Lane} {k : Index units} (job : w'.jobs lane' = some k) :
      (lane' = lane ∧ k = i) ∨ (lane' ≠ lane ∧ w.jobs lane' = some k) := by
    rw [jobs] at job
    by_cases here : lane' = lane
    · rw [here, update_self] at job
      exact .inl ⟨here, (Option.some.inj job).symm⟩
    · rw [update_of_ne here] at job
      exact .inr ⟨here, job⟩
  refine ⟨?_, ?_, ?_⟩
  · intro lane' empty
    have different : lane' ≠ lane := by
      rintro rfl
      rw [jobs, update_self] at empty
      cases empty
    rw [jobs, update_of_ne different] at empty
    rw [counted]
    exact lanes.vacant lane' empty
  · intro lane' k job uncounted
    rw [counted] at uncounted
    rw [row]
    rcases held job with ⟨-, rfl⟩ | ⟨-, job⟩
    · exact update_self ..
    · have other : k ≠ i := by
        rintro rfl
        exact unheld job uncounted
      rw [update_of_ne other]
      exact lanes.active lane' k job uncounted
  · intro lane' lane'' k job job' uncounted uncounted'
    rw [counted] at uncounted uncounted'
    rcases held job with ⟨rfl, rfl⟩ | ⟨-, job⟩
    · rcases held job' with ⟨rfl, -⟩ | ⟨-, job'⟩
      · rfl
      · exact (unheld job' uncounted').elim
    · rcases held job' with ⟨-, rfl⟩ | ⟨-, job'⟩
      · exact (unheld job uncounted).elim
      · exact lanes.single lane' lane'' k job job' uncounted uncounted'

/-- A pending unit with all its dependencies done is submitted into a free
lane. -/
theorem Walk.Kept.launch (kept : w.Kept) (q : Quantum units) (live : Nat)
    (pending : w.row i = .pending) (ready : ∀ j, Needs units i j → w.row j = .done)
    (free : w.jobs lane = none) : (w.launch q i lane live).1.Kept := by
  have isOpen : (w.row i).terminal = false := by
    rw [pending]
    rfl
  unfold Walk.launch
  split
  · exact ⟨kept.ledger.fail isOpen _ _,
      kept.lanes.of_pending pending rfl rfl rfl,
      kept.tries.of_pending pending (by simp) rfl rfl (.inl rfl)⟩
  · have tries {w' : Walk units} {new : WalkRow} (moves : new ≠ .pending)
        (row : w'.row = update w.row i new)
        (retry : w'.retry = w.retry)
        (submits : w'.submits = w.submits ++ [(i, w.row)]) : w'.Tries :=
      kept.tries.of_pending pending moves row retry (.inr ⟨submits, ready⟩)
    dsimp only
    split
    · exact ⟨(kept.ledger.fail isOpen _ _).of_eq rfl rfl,
        kept.lanes.of_pending pending rfl rfl rfl, tries (by simp) rfl rfl rfl⟩
    · have moves : WalkRow.running ≠ .pending := by simp
      exact ⟨kept.ledger.move isOpen rfl rfl rfl rfl rfl (by simp),
        kept.lanes.occupy pending free rfl rfl rfl, tries moves rfl rfl rfl⟩

theorem Walk.freeLane_spec (found : w.freeLane = some lane) : w.jobs lane = none := by
  simpa using List.find?_some found

theorem Walk.Kept.fill (resolved : Resolved units order) (q : Quantum units) (kept : w.Kept)
    (live : Nat) (l : List (Index units)) (within : ∀ i ∈ l, i ∈ order) :
    (Walk.fill q l (w, live)).1.Kept := by
  induction l generalizing w live with
  | nil => exact kept
  | cons i l ih =>
      have rest : ∀ k ∈ l, k ∈ order := fun k member =>
        within k (List.mem_cons_of_mem _ member)
      unfold Walk.fill
      split
      · exact kept
      · split
        · exact ih kept live rest
        · rename_i candidate
          obtain ⟨pending, runnable⟩ := not_or.mp candidate
          split
          · exact kept
          · rename_i lane free
            have ready := (w.runnable_iff resolved
              (within i List.mem_cons_self)).mp (not_not.mp runnable)
            exact ih (kept.launch q live (not_not.mp pending) ready
              (Walk.freeLane_spec free)) _ rest

/-! Live lanes are the lanes that hold a job. -/

def held (job : Option (Index units)) : Nat := if job.isSome then 1 else 0

def Walk.heldLanes (w : Walk units) : Nat := tally Finset.univ held w.jobs

theorem Walk.close_jobs (lane : Lane) (job : Index units) (view : JobView)
    (w : Walk units) : (w.close lane job view).jobs = w.jobs := by
  have census : (w.census job view).jobs = w.jobs := by
    unfold Walk.census
    cases dagFind units (unit units job).fqn with
    | none =>
        dsimp only
        split <;> rfl
    | some ui =>
        dsimp only
        split
        · rfl
        · split <;> rfl
  unfold Walk.close
  split
  · rfl
  · exact census

theorem Walk.settleLane_jobs (q : Quantum units) (w : Walk units) (live : Nat)
    (lane : Lane) :
    (∀ other, other ≠ lane →
      (Walk.settleLane q (w, live) lane).1.jobs other = w.jobs other) ∧
    (Walk.settleLane q (w, live) lane).2 =
      live + held ((Walk.settleLane q (w, live) lane).1.jobs lane) := by
  simp only [Walk.settleLane]
  split
  · rename_i empty
    simp [held, empty]
  · rename_i job busy
    split
    · simp [held, busy]
    · split
      · simp [Walk.close_jobs, held, busy]
      · constructor
        · intro other different
          simp [Walk.vacate, Walk.close_jobs, different]
        · simp [Walk.vacate, held]

theorem Walk.settle_jobs (q : Quantum units) {lanes : List Lane}
    (nodup : lanes.Nodup) (w : Walk units) (live : Nat) :
    (∀ other ∉ lanes,
      (lanes.foldl (Walk.settleLane q) (w, live)).1.jobs other =
        w.jobs other) ∧
    (lanes.foldl (Walk.settleLane q) (w, live)).2 = live +
      (lanes.map fun lane =>
        held ((lanes.foldl (Walk.settleLane q) (w, live)).1.jobs lane)).sum := by
  induction lanes generalizing w live with
  | nil => simp
  | cons lane lanes ih =>
      obtain ⟨fresh, nodup⟩ := List.nodup_cons.mp nodup
      obtain ⟨first, firstLive⟩ := Walk.settleLane_jobs q w live lane
      rcases next : Walk.settleLane q (w, live) lane with ⟨w', live'⟩
      rw [next] at first firstLive
      dsimp only at firstLive
      obtain ⟨others, othersLive⟩ := ih nodup w' live'
      rw [List.foldl_cons, next]
      constructor
      · intro other outside
        obtain ⟨different, outside⟩ := not_or.mp
          (mt List.mem_cons.mpr outside)
        rw [others other outside]
        exact first other different
      · rw [othersLive, List.map_cons, List.sum_cons, others lane fresh]
        omega

theorem Walk.settle_live (q : Quantum units) (w : Walk units) :
    ((List.finRange walkFanout).foldl (Walk.settleLane q) (w, 0)).2 =
      ((List.finRange walkFanout).foldl (Walk.settleLane q) (w, 0)).1.heldLanes := by
  rw [(Walk.settle_jobs q (List.nodup_finRange _) w 0).2, Nat.zero_add,
    Walk.heldLanes, tally, Fin.sum_univ_def]

variable {live : Nat}

theorem Walk.launch_live (q : Quantum units) (free : w.jobs lane = none)
    (counts : live = w.heldLanes) :
    (w.launch q i lane live).2 = (w.launch q i lane live).1.heldLanes := by
  unfold Walk.launch
  split
  · exact counts
  · dsimp only
    split
    · exact counts
    · have more := tally_update (Finset.mem_univ lane) held w.jobs (some i)
      rw [free] at more
      simp only [held, Walk.heldLanes] at more counts ⊢
      simpa [counts] using more.symm

theorem Walk.fill_live (q : Quantum units) (l : List (Index units)) (counts : live = w.heldLanes) :
    (Walk.fill q l (w, live)).2 = (Walk.fill q l (w, live)).1.heldLanes := by
  induction l generalizing w live with
  | nil => exact counts
  | cons i l ih =>
      unfold Walk.fill
      split
      · exact counts
      · split
        · exact ih counts
        · split
          · exact counts
          · rename_i lane free
            exact ih (Walk.launch_live q (Walk.freeLane_spec free) counts)

theorem Walk.heldLanes_eq_zero : w.heldLanes = 0 ↔ ∀ lane, w.jobs lane = none := by
  simp [Walk.heldLanes, tally, held]

/-! Only the end of a quantum changes the reported state. -/

theorem Walk.census_state (job : Index units) (view : JobView) (w : Walk units) :
    (w.census job view).info.state = w.info.state := by
  have failed (w : Walk units) (reason : Bytes) :
      (w.countFailed (unit units job).fqn reason).info.state = w.info.state :=
    (w.info.noteFail_census _ reason).2.2.2
  unfold Walk.census
  cases dagFind units (unit units job).fqn with
  | none =>
      dsimp only
      split
      · rfl
      · exact failed _ _
  | some ui =>
      dsimp only
      split
      · rfl
      · split
        · rfl
        · exact failed _ _

theorem Walk.settleLane_state (q : Quantum units) (at_ : Walk units × Nat)
    (lane : Lane) :
    (Walk.settleLane q at_ lane).1.info.state = at_.1.info.state := by
  have closed (job : Index units) (view : JobView) (w : Walk units) :
      (w.close lane job view).info.state = w.info.state := by
    unfold Walk.close
    split
    · rfl
    · exact w.census_state job view
  obtain ⟨w, live⟩ := at_
  simp only [Walk.settleLane]
  split
  · rfl
  · split
    · rfl
    · split
      · exact closed _ _ w
      · exact closed _ _ w

theorem Walk.isolate_frame (w : Walk units) (i : Index units) :
    (w.isolate i).info.state = w.info.state ∧ (w.isolate i).jobs = w.jobs := by
  unfold Walk.isolate
  split
  · exact ⟨rfl, rfl⟩
  · split <;> exact ⟨rfl, rfl⟩

theorem Walk.launch_state (q : Quantum units) (i : Index units) (lane : Lane)
    (live : Nat) (w : Walk units) :
    (w.launch q i lane live).1.info.state = w.info.state := by
  unfold Walk.launch
  split
  · exact (w.info.noteFail_census _ _).2.2.2
  · dsimp only
    split
    · exact (w.info.noteFail_census _ _).2.2.2
    · rfl

theorem Walk.fill_state (q : Quantum units) (l : List (Index units))
    (w : Walk units) (live : Nat) :
    (Walk.fill q l (w, live)).1.info.state = w.info.state := by
  induction l generalizing w live with
  | nil => rfl
  | cons i l ih =>
      unfold Walk.fill
      split
      · rfl
      · split
        · exact ih w live
        · split
          · rfl
          · exact (ih _ _).trans (w.launch_state q i _ live)

def Walk.Finished (w : Walk units) : Prop :=
  (∀ i, (w.row i).terminal = true) ∧ ∀ lane, w.jobs lane = none

theorem Walk.Finished.passes (finished : w.Finished) (q : Quantum units) :
    Walk.fill q (List.finRange units.length)
      ((List.finRange units.length).foldl Walk.isolate
        ((List.finRange walkFanout).foldl (Walk.settleLane q) (w, 0)).1,
      ((List.finRange walkFanout).foldl (Walk.settleLane q) (w, 0)).2) =
        (w, 0) := by
  have settled (lanes : List Lane) :
      lanes.foldl (Walk.settleLane q) (w, 0) = (w, 0) := by
    induction lanes with
    | nil => rfl
    | cons lane lanes ih =>
        rw [List.foldl_cons, Walk.settleLane, finished.2 lane]
        exact ih
  have notPending (i : Index units) : w.row i ≠ .pending := by
    intro pending
    have terminal := finished.1 i
    rw [pending] at terminal
    cases terminal
  have isolated (l : List (Index units)) : l.foldl Walk.isolate w = w := by
    induction l with
    | nil => rfl
    | cons i l ih =>
        rw [List.foldl_cons, Walk.isolate, if_pos (notPending i)]
        exact ih
  have filled (l : List (Index units)) : Walk.fill q l (w, 0) = (w, 0) := by
    induction l with
    | nil => rfl
    | cons i l ih =>
        rw [Walk.fill, if_neg (by decide), if_pos (.inl (notPending i))]
        exact ih
  rw [settled, isolated, filled]

theorem WalkRow.terminal_iff {row : WalkRow} :
    row.terminal = true ↔ row ≠ .pending ∧ row ≠ .running := by
  cases row <;> simp [WalkRow.terminal]

/-- Publishing leaves everything but the running counts, and reports a finished
walk. -/
theorem Walk.publish_cases (w : Walk units) (counts : live = w.heldLanes) :
    ∃ state nRunning peakRunning,
      Walk.publish (w, live) =
        { w with info := { w.info with state, nRunning }, peakRunning } ∧
      (w.Finished ∧ state = .done ∨ ¬ w.Finished ∧ state = w.info.state) := by
  have test : (live = 0 ∧ ∀ i, w.row i ≠ .pending ∧ w.row i ≠ .running) ↔
      w.Finished := by
    rw [counts, Walk.heldLanes_eq_zero, and_comm, Walk.Finished]
    simp only [WalkRow.terminal_iff]
  by_cases finished : w.Finished
  · refine ⟨.done, 0, max w.peakRunning live, ?_, .inl ⟨finished, rfl⟩⟩
    simp only [Walk.publish]
    rw [if_pos (test.mpr finished)]
  · refine ⟨w.info.state, live, max w.peakRunning live, ?_,
      .inr ⟨finished, rfl⟩⟩
    simp only [Walk.publish]
    rw [if_neg (mt test.mp finished)]

structure Walk.Reports (w : Walk units) : Prop where
  kept : w.Kept
  reports : w.info.state = .done ↔ w.Finished

theorem Walk.Kept.publish (kept : w.Kept) (counts : live = w.heldLanes)
    (before : w.info.state = .done → w.Finished) : (Walk.publish (w, live)).Reports := by
  obtain ⟨state, nRunning, peakRunning, published, reported⟩ :=
    w.publish_cases counts
  rw [published]
  refine ⟨⟨?_, ?_, ?_⟩, ?_⟩
  · exact ⟨kept.ledger.done, kept.ledger.failed, kept.ledger.skipped,
      kept.ledger.total, kept.ledger.isolated⟩
  · exact ⟨kept.lanes.vacant, kept.lanes.active, kept.lanes.single⟩
  · exact ⟨kept.tries.ready, kept.tries.tries, kept.tries.spent⟩
  · change state = .done ↔ w.Finished
    rcases reported with ⟨finished, rfl⟩ | ⟨unfinished, rfl⟩
    · exact iff_of_true rfl finished
    · exact ⟨before, fun finished => absurd finished unfinished⟩

theorem Walk.Reports.step (resolved : Resolved units order) (all : ∀ i, i ∈ order)
    (reports : w.Reports) (q : Quantum units) : (w.step q).Reports := by
  have settled (lanes : List Lane) : ∀ at_ : Walk units × Nat, at_.1.Kept →
      (lanes.foldl (Walk.settleLane q) at_).1.Kept ∧
        (lanes.foldl (Walk.settleLane q) at_).1.info.state =
          at_.1.info.state := by
    induction lanes with
    | nil => exact fun _ kept => ⟨kept, rfl⟩
    | cons lane lanes ih =>
        intro at_ kept
        obtain ⟨rest, same⟩ := ih (Walk.settleLane q at_ lane)
          (kept.settleLane resolved q at_.2 lane)
        exact ⟨rest, same.trans (Walk.settleLane_state q at_ lane)⟩
  have isolated (l : List (Index units)) : ∀ w : Walk units, w.Kept →
      (l.foldl Walk.isolate w).Kept ∧
        (l.foldl Walk.isolate w).info.state = w.info.state ∧
          (l.foldl Walk.isolate w).jobs = w.jobs := by
    induction l with
    | nil => exact fun _ kept => ⟨kept, rfl, rfl⟩
    | cons i l ih =>
        intro w kept
        obtain ⟨rest, state, jobs⟩ :=
          ih (w.isolate i) (kept.isolate resolved (all i))
        obtain ⟨state', jobs'⟩ := w.isolate_frame i
        exact ⟨rest, state.trans state', jobs.trans jobs'⟩
  obtain ⟨kept, state⟩ := settled (List.finRange walkFanout) (w, 0) reports.kept
  obtain ⟨kept', state', jobs⟩ :=
    isolated (List.finRange units.length) _ kept
  have counts := Walk.settle_live q w
  rw [Walk.heldLanes, ← jobs, ← Walk.heldLanes] at counts
  have filled := kept'.fill resolved q
    ((List.finRange walkFanout).foldl (Walk.settleLane q) (w, 0)).2
    (List.finRange units.length) fun i _ => all i
  refine filled.publish (Walk.fill_live q _ counts) ?_
  intro done
  rw [Walk.fill_state, state', state] at done
  -- a walk that had already reported does nothing more
  have finished := reports.reports.mp done
  have same := congrArg Prod.fst (finished.passes q)
  exact same ▸ finished

structure Walk.Sound (w : Walk units) : Prop where
  done : w.info.nDone = rowCount .done w.row
  failed : w.info.nFailed = rowCount .failed w.row
  skipped : w.info.nSkipped = rowCount .skipped w.row
  lanes : (Finset.univ.filter fun lane => (w.jobs lane).isSome).card ≤ 4
  single : ∀ lane lane' i, w.jobs lane = some i → w.jobs lane' = some i →
    w.counted lane = false → w.counted lane' = false → lane = lane'
  ready : ∀ entry ∈ w.submits, ∀ j, Needs units entry.1 j →
    entry.2 j = .done
  tries : ∀ i, (w.submits.map Prod.fst).count i ≤ 1 + walkRetries
  isolated : ∀ i, w.row i = .skipped →
    ∃ j, Needs units i j ∧ (w.row j = .failed ∨ w.row j = .skipped)
  reports : w.info.state = .done ↔
    (∀ i, (w.row i).terminal = true) ∧ ∀ lane, w.jobs lane = none
  total : w.info.state = .done →
    w.info.nDone + w.info.nFailed + w.info.nSkipped = w.info.nTotal

theorem rowCount_total {row : Index units → WalkRow}
    (terminal : ∀ i, (row i).terminal = true) :
    rowCount .done row + rowCount .failed row + rowCount .skipped row =
      units.length := by
  simp only [rowCount, Finset.card_filter, ← Finset.sum_add_distrib]
  have one (i : Index units) :
      (if row i = .done then 1 else 0) + (if row i = .failed then 1 else 0) +
        (if row i = .skipped then 1 else 0) = 1 := by
    have here := terminal i
    cases state : row i <;> simp_all [WalkRow.terminal]
  simp [one]

theorem Walk.Reports.sound (reports : w.Reports) : w.Sound where
  done := reports.kept.ledger.done
  failed := reports.kept.ledger.failed
  skipped := reports.kept.ledger.skipped
  lanes := (Finset.card_filter_le _ _).trans (by simp [walkFanout])
  single := reports.kept.lanes.single
  ready := reports.kept.tries.ready
  tries i := by
    have tries := reports.kept.tries.tries i
    have spent := reports.kept.tries.spent i
    have once : (if w.row i = .pending then 0 else 1) ≤ 1 := by
      split <;> simp
    omega
  isolated := reports.kept.ledger.isolated
  reports := reports.reports
  total done := by
    have ledger := reports.kept.ledger
    rw [ledger.done, ledger.failed, ledger.skipped, ledger.total]
    exact rowCount_total (reports.reports.mp done).1

theorem walkBegin_reports (nonempty : units ≠ []) :
    (walkBegin units).Reports := by
  refine ⟨⟨⟨?_, ?_, ?_, rfl, ?_⟩, ⟨?_, ?_, ?_⟩, ⟨?_, ?_, ?_⟩⟩, ?_⟩
  · simp [walkBegin, rowCount]
  · simp [walkBegin, rowCount]
  · simp [walkBegin, rowCount]
  · simp [walkBegin]
  · simp [walkBegin]
  · simp [walkBegin]
  · simp [walkBegin]
  · simp [walkBegin]
  · simp [walkBegin]
  · simp [walkBegin]
  · refine iff_of_false (by simp [walkBegin]) ?_
    intro finished
    have terminal := finished.1 ⟨0, List.length_pos_iff.mpr nonempty⟩
    cases terminal

/-- Whatever the jobs do and however often their release is put off, the walk is
sound at every quantum. -/
theorem walk_sound (units : List BuildUnit) (room : Bool) (start : Walk units)
    (started : walkStart units room = .ok start)
    (quanta : List (Quantum units)) : (quanta.foldl Walk.step start).Sound := by
  unfold walkStart at started
  split at started
  · cases started
  · rename_i nonempty
    split at started
    · cases started
    · rename_i order accepted
      obtain ⟨resolved, all⟩ := resolved_of_graphResolve accepted
      obtain rfl := Except.ok.inj started
      have keeps (w : Walk units) (q : Quantum units) (reports : w.Reports) :
          (w.step q).Reports := reports.step resolved all q
      exact (foldl_invariant keeps (walkBegin_reports nonempty) quanta).sound

/-- Every job ends well at once and is released, everything is accepted. -/
def calmQuantum (units : List BuildUnit) : Quantum units where
  job _ := ⟨.done, .ok, [], .ok⟩
  rootFn _ := some (ascii "/src")
  submit _ := (.ok, [])
  post _ := true

theorem walk_sound_pair :
    ((List.replicate 3 (calmQuantum pairUnits)).foldl Walk.step
      (walkBegin pairUnits)).Sound := by
  refine walk_sound pairUnits true _ ?_ _
  rw [walkStart, if_neg (by decide), pairUnits_resolve]

end Metal.Build
