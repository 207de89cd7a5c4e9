import Metal.Build.Graph

namespace Metal.Build

open Metal.Lib

/-! The dependency executor: every unit once, after what it depends on, with
the failures isolated. -/

inductive DagState
  | pending
  | running
  | done
  | failed
  | skipped
  deriving DecidableEq

structure DagRow where
  fqn : Bytes
  state : DagState
  rc : Status
  err : Bytes
  imageLen : Nat

/-- How `actor_run` comes back: with a terminal job and its code, or because
the section's holder did not move, the job still in the queue. -/
inductive RunAnswer
  | finished (rc : Status) (err : Bytes) (imageLen : Nat)
  | wedged

/-- What the run meets outside: whether the arena serves its three blocks, the
root resolver, and the actor's answers. -/
structure DagEnv where
  orderRoom : Bool
  rowsRoom : Bool
  rootRoom : Bool
  rootFn : CString → Nat → Option Bytes
  submit : BuildUnit → Bytes → Status × Bytes
  run : BuildUnit → RunAnswer

variable (units : List BuildUnit)

/-- The variables of the sweep; `runs` records the calls of `actor_run` and
their codes. -/
structure Sweep where
  rows : Index units → DagRow
  nDone : Nat
  nFailed : Nat
  nSkipped : Nat
  progressed : Bool
  runs : List (Index units × Status)

def dagDepsReady (u : BuildUnit) (rows : Index units → DagRow) : Bool :=
  u.depends.all fun dep =>
    match dagFind units dep with
    | none => false
    | some di => (rows di).state = .done

def dagBlocked (u : BuildUnit) (rows : Index units → DagRow) :
    Option (Index units) :=
  u.depends.findSome? fun dep =>
    match dagFind units dep with
    | none => none
    | some di =>
        if (rows di).state = .failed ∨ (rows di).state = .skipped then some di
        else none

variable {units}

def Sweep.settle (ui : Index units) (row : DagRow) (s : Sweep units) :
    Sweep units :=
  { s with
    rows := Function.update s.rows ui row
    nDone := s.nDone + if row.state = .done then 1 else 0
    nFailed := s.nFailed + if row.state = .failed then 1 else 0
    nSkipped := s.nSkipped + if row.state = .skipped then 1 else 0
    progressed := true }

def Sweep.ran (ui : Index units) (rc : Status) (s : Sweep units) : Sweep units :=
  { s with runs := s.runs ++ [(ui, rc)] }

def finishedRow (row : DagRow) (rc : Status) (err : Bytes) (imageLen : Nat) :
    DagRow :=
  if rc = .ok then { row with state := .done, imageLen }
  else if rc = .cancelled then
    { row with state := .skipped, err := ascii "cancelled" }
  else { row with state := .failed, rc, err := snprintf errMax err }

def blockedRow (row dep : DagRow) : DagRow :=
  { row with
    state := .skipped
    err := snprintf errMax (ascii "dependency " ++ dep.fqn ++ ascii
      (if dep.state = .failed then " failed" else " skipped")) }

variable (env : DagEnv)

def dagBuild (u : BuildUnit) (ui : Index units) (s : Sweep units) :
    Except Refusal (Sweep units) :=
  let row := s.rows ui
  match env.rootFn u.fqn rootMax with
  | none =>
      .ok (s.settle ui
        { row with
          state := .failed, rc := .compile
          err := ascii "root resolver refused" })
  | some root =>
      let (rc, err) := env.submit u root
      if rc = .busy then .error ⟨.busy, ascii "dag_run: actor queue wedged"⟩
      else if rc ≠ .ok then
        .ok (s.settle ui { row with state := .failed, rc, err })
      else
        match env.run u with
        | .finished rc err imageLen =>
            .ok ((s.ran ui rc).settle ui (finishedRow row rc err imageLen))
        | .wedged =>
            -- the row is marked, but the job is not terminal and its release
            -- is refused
            .error ⟨.busy, ascii "dag_run: terminal job release refused"⟩

def dagVisit (s : Sweep units) (k : Index units) :
    Except Refusal (Sweep units) :=
  let u := unit units k
  match dagFind units u.fqn with
  | none => .ok s
  | some ui =>
      if (s.rows ui).state ≠ .pending then .ok s
      else if ¬ dagDepsReady units u s.rows then
        match dagBlocked units u s.rows with
        | some di => .ok (s.settle ui (blockedRow (s.rows ui) (s.rows di)))
        | none => .ok s
      else dagBuild env u ui s

/-- Passes over the order until one changes nothing; `none` when `fuel` passes
were not enough. -/
def dagSweeps (order : List (Index units)) :
    Nat → Sweep units → Option (Except Refusal (Sweep units))
  | 0, _ => none
  | fuel + 1, s =>
      match order.foldlM (dagVisit env) { s with progressed := false } with
      | .error refusal => some (.error refusal)
      | .ok s => if s.progressed then dagSweeps order fuel s else some (.ok s)

variable (units)

def dagStart : Sweep units where
  rows i :=
    { fqn := snprintf strMax (unit units i).fqn.bytes
      state := .pending
      rc := .ok
      err := []
      imageLen := 0 }
  nDone := 0
  nFailed := 0
  nSkipped := 0
  progressed := true
  runs := []

def dagRun (fuel : Nat) : Option (Except Refusal (Sweep units)) :=
  if units = [] then some (.ok (dagStart units))
  else
    match graphResolve units env.orderRoom with
    | .error refusal => some (.error refusal)
    | .ok order =>
        if ¬ env.rowsRoom ∨ ¬ env.rootRoom then
          some (.error ⟨.nomem, ascii "dag_run: arena exhausted"⟩)
        else dagSweeps env order fuel (dagStart units)

def DagState.Bad (state : DagState) : Prop := state = .failed ∨ state = .skipped

structure Sweep.Settled (s : Sweep units) : Prop where
  once : (s.runs.map Prod.fst).Nodup
  after : ∀ before i rc later, s.runs = before ++ (i, rc) :: later →
    ∀ j, Needs units i j → (j, Status.ok) ∈ before
  terminal : ∀ i, (s.rows i).state = .done ∨ (s.rows i).state.Bad
  done_iff : ∀ i, (s.rows i).state = .done ↔ (i, Status.ok) ∈ s.runs
  skipped_iff : ∀ i, (s.rows i).state = .skipped ↔
    (i, Status.cancelled) ∈ s.runs ∨
      ∃ j, Needs units i j ∧ (s.rows j).state.Bad
  total : s.nDone + s.nFailed + s.nSkipped = units.length

variable {units}

/-- The units of `seen` are settled, the others not yet touched. -/
structure Sweep.Swept (seen : List (Index units)) (s : Sweep units) : Prop where
  once : (s.runs.map Prod.fst).Nodup
  after : ∀ before i rc later, s.runs = before ++ (i, rc) :: later →
    ∀ j, Needs units i j → (j, Status.ok) ∈ before
  closed : ∀ i ∈ seen, ∀ j, Needs units i j → j ∈ seen
  ranSeen : ∀ i rc, (i, rc) ∈ s.runs → i ∈ seen
  pending : ∀ i, i ∉ seen → (s.rows i).state = .pending
  terminal : ∀ i ∈ seen, (s.rows i).state = .done ∨ (s.rows i).state.Bad
  done_iff : ∀ i ∈ seen, (s.rows i).state = .done ↔ (i, Status.ok) ∈ s.runs
  skipped_iff : ∀ i ∈ seen, (s.rows i).state = .skipped ↔
    (i, Status.cancelled) ∈ s.runs ∨
      ∃ j, Needs units i j ∧ (s.rows j).state.Bad
  total : s.nDone + s.nFailed + s.nSkipped = seen.length

theorem Sweep.swept_start : (dagStart units).Swept [] where
  once := List.nodup_nil
  after := by simp [dagStart]
  closed := by simp
  ranSeen := by simp [dagStart]
  pending := by simp [dagStart]
  terminal := by simp
  done_iff := by simp
  skipped_iff := by simp
  total := rfl

theorem DagState.counted {state : DagState} (terminal : state = .done ∨ state.Bad) :
    (if state = .done then 1 else 0) + (if state = .failed then 1 else 0) +
      (if state = .skipped then 1 else 0) = 1 := by
  rcases terminal with rfl | rfl | rfl <;> rfl

/-- The calls of `actor_run` for unit `i`: none, or one with this code. -/
def tried (i : Index units) (rc : Option Status) : List (Index units × Status) :=
  rc.toList.map fun rc => (i, rc)

variable {i : Index units}

theorem mem_tried {j : Index units} {rc : Option Status} {rc' : Status} :
    (j, rc') ∈ tried i rc ↔ j = i ∧ rc = some rc' := by
  cases rc with
  | none => simp [tried]
  | some rc => simp [tried, eq_comm]

theorem append_eq_append_cons {α : Type} {l before later : List α} {x y : α}
    (split : l ++ [x] = before ++ y :: later) :
    (l = before ∧ x = y) ∨ ∃ rest, l = before ++ y :: rest := by
  rcases List.eq_nil_or_concat later with rfl | ⟨rest, last, rfl⟩
  · left
    simpa using List.append_inj' split rfl
  · right
    rw [List.concat_eq_append, ← List.cons_append, ← List.append_assoc] at split
    exact ⟨rest, (List.append_inj' split rfl).1⟩

variable {s : Sweep units} {seen : List (Index units)}

/-- The next unit of the order is settled, after one run or none, by a row that
agrees with what was run. -/
theorem Sweep.Swept.settle {s' : Sweep units} (swept : s.Swept seen) {row : DagRow}
    (rc : Option Status) (fresh : i ∉ seen) (needsSeen : ∀ j, Needs units i j → j ∈ seen)
    (terminal : row.state = .done ∨ row.state.Bad)
    (ranReady : rc.isSome → ∀ j, Needs units i j → (s.rows j).state = .done)
    (doneRow : row.state = .done ↔ rc = some .ok) (skippedRow : row.state = .skipped ↔
      rc = some .cancelled ∨ ∃ j, Needs units i j ∧ (s.rows j).state.Bad)
    (rows : s'.rows = s.rows) (runs : s'.runs = s.runs ++ tried i rc)
    (total : s'.nDone + s'.nFailed + s'.nSkipped = seen.length) :
    (s'.settle i row).Swept (seen ++ [i]) := by
  have unrun : ∀ rc, (i, rc) ∉ s.runs := fun rc member =>
    fresh (swept.ranSeen i rc member)
  have rowHere : (s'.settle i row).rows i = row := by simp [Sweep.settle]
  have rowOther {k : Index units} (other : k ≠ i) :
      (s'.settle i row).rows k = s.rows k := by simp [Sweep.settle, other, rows]
  have ranHere (code : Status) :
      (i, code) ∈ (s'.settle i row).runs ↔ rc = some code := by
    simp [Sweep.settle, runs, mem_tried, unrun]
  have ranOther {k : Index units} (other : k ≠ i) (code : Status) :
      (k, code) ∈ (s'.settle i row).runs ↔ (k, code) ∈ s.runs := by
    simp [Sweep.settle, runs, mem_tried, other]
  have seenOther {k : Index units} (member : k ∈ seen) : k ≠ i :=
    fun same => fresh (same ▸ member)
  have bad {k : Index units} (needs : ∀ j, Needs units k j → j ∈ seen) :
      (∃ j, Needs units k j ∧ ((s'.settle i row).rows j).state.Bad) ↔
        ∃ j, Needs units k j ∧ (s.rows j).state.Bad := by
    refine exists_congr fun j => and_congr_right fun needed => ?_
    rw [rowOther (seenOther (needs j needed))]
  refine ⟨?_, ?_, ?_, ?_, ?_, ?_, ?_, ?_, ?_⟩
  · change (s'.runs.map Prod.fst).Nodup
    rw [runs, List.map_append]
    refine List.nodup_append.mpr ⟨swept.once, ?_, ?_⟩
    · cases rc <;> simp [tried]
    · intro k ran other ranNow same
      obtain ⟨⟨k, code⟩, member, rfl⟩ := List.mem_map.mp ran
      obtain ⟨⟨other, code'⟩, memberNow, rfl⟩ := List.mem_map.mp ranNow
      obtain ⟨rfl, -⟩ := mem_tried.mp memberNow
      cases same
      exact unrun code member
  · intro before k code later split
    change s'.runs = _ at split
    rw [runs] at split
    cases rc with
    | none => exact swept.after before k code later (by simpa [tried] using split)
    | some rc =>
        rcases append_eq_append_cons split with ⟨rfl, here⟩ | ⟨rest, earlier⟩
        · cases here
          intro j needed
          exact (swept.done_iff j (needsSeen j needed)).mp
            (ranReady rfl j needed)
        · exact swept.after before k code rest earlier
  · intro k member j needed
    rcases List.mem_append.mp member with member | member
    · exact List.mem_append_left _ (swept.closed k member j needed)
    · rw [List.mem_singleton.mp member] at needed
      exact List.mem_append_left _ (needsSeen j needed)
  · intro k code ran
    by_cases here : k = i
    · simp [here]
    · exact List.mem_append_left _
        (swept.ranSeen k code ((ranOther here code).mp ran))
  · intro k unseen
    have here : k ≠ i := fun same => unseen (by simp [same])
    rw [rowOther here]
    exact swept.pending k fun member => unseen (List.mem_append_left _ member)
  · intro k member
    rcases List.mem_append.mp member with member | member
    · rw [rowOther (seenOther member)]
      exact swept.terminal k member
    · rw [List.mem_singleton.mp member, rowHere]
      exact terminal
  · intro k member
    rcases List.mem_append.mp member with member | member
    · rw [rowOther (seenOther member), ranOther (seenOther member)]
      exact swept.done_iff k member
    · rw [List.mem_singleton.mp member, rowHere, ranHere]
      exact doneRow
  · intro k member
    rcases List.mem_append.mp member with member | member
    · rw [rowOther (seenOther member), ranOther (seenOther member),
        bad (swept.closed k member)]
      exact swept.skipped_iff k member
    · rw [List.mem_singleton.mp member, rowHere, ranHere, bad needsSeen]
      exact skippedRow
  · have one := DagState.counted terminal
    simp only [Sweep.settle, List.length_append, List.length_singleton]
    omega

variable {order : List (Index units)}

theorem Resolved.depsReady_iff (resolved : Resolved units order) (member : i ∈ order)
    (rows : Index units → DagRow) :
    dagDepsReady units (unit units i) rows = true ↔
      ∀ j, Needs units i j → (rows j).state = .done := by
  simp only [dagDepsReady, List.all_eq_true]
  constructor
  · intro ready j needed
    have here := ready _ needed
    rw [resolved.dagFind_iff.mpr rfl] at here
    simpa using here
  · intro done dep depMember
    obtain ⟨j, rfl⟩ := resolved.known i member dep depMember
    rw [resolved.dagFind_iff.mpr rfl]
    simpa using done j depMember

theorem Resolved.blocked_iff (resolved : Resolved units order) (member : i ∈ order)
    (rows : Index units → DagRow) :
    dagBlocked units (unit units i) rows = none ↔
      ∀ j, Needs units i j → ¬ (rows j).state.Bad := by
  simp only [dagBlocked, List.findSome?_eq_none_iff]
  constructor
  · intro clear j needed
    have here := clear _ needed
    rw [resolved.dagFind_iff.mpr rfl] at here
    simpa [DagState.Bad] using here
  · intro clear dep depMember
    obtain ⟨j, rfl⟩ := resolved.known i member dep depMember
    rw [resolved.dagFind_iff.mpr rfl]
    simpa [DagState.Bad] using clear j depMember

/-- The outside answers as the executor counts on: the queue has room and the
section's holder moves. -/
structure DagEnv.Steady (env : DagEnv) : Prop where
  rowsRoom : env.rowsRoom = true
  rootRoom : env.rootRoom = true
  accepts : ∀ u root, (env.submit u root).1 ≠ .busy
  moves : ∀ u, env.run u ≠ .wedged

theorem finishedRow_state (row : DagRow) (rc : Status) (err : Bytes)
    (imageLen : Nat) :
    let after := (finishedRow row rc err imageLen).state
    (after = .done ∨ after.Bad) ∧ (after = .done ↔ rc = .ok) ∧
      (after = .skipped ↔ rc = .cancelled) := by
  unfold finishedRow
  by_cases done : rc = .ok
  · simp [done]
  · by_cases skipped : rc = .cancelled
    · simp [skipped, DagState.Bad]
    · simp [done, skipped, DagState.Bad]

theorem Sweep.Swept.build {env : DagEnv} (steady : env.Steady) (swept : s.Swept seen)
    (fresh : i ∉ seen) (needsSeen : ∀ j, Needs units i j → j ∈ seen)
    (ready : ∀ j, Needs units i j → (s.rows j).state = .done) :
    ∃ s', dagBuild env (unit units i) i s = .ok s' ∧
      s'.Swept (seen ++ [i]) ∧ s'.progressed = true := by
  have clear : ¬ ∃ j, Needs units i j ∧ (s.rows j).state.Bad := by
    rintro ⟨j, needed, bad⟩
    rw [ready j needed] at bad
    rcases bad with bad | bad <;> cases bad
  have failing {row : DagRow} (failed : row.state = .failed) :
      (s.settle i row).Swept (seen ++ [i]) := by
    refine swept.settle none fresh needsSeen (.inr (.inl failed)) ?_ ?_
      ?_ rfl ?_ swept.total
    · simp
    · simp [failed]
    · simp [failed, clear]
    · simp [tried]
  unfold dagBuild
  cases env.rootFn (unit units i).fqn rootMax with
  | none => exact ⟨_, rfl, failing rfl, rfl⟩
  | some root =>
      have accepts := steady.accepts (unit units i) root
      rcases submitted : env.submit (unit units i) root with ⟨rc, err⟩
      rw [submitted] at accepts
      simp only [submitted]
      rw [if_neg accepts]
      by_cases refused : rc ≠ .ok
      · rw [if_pos refused]
        exact ⟨_, rfl, failing rfl, rfl⟩
      · rw [if_neg refused]
        cases ran : env.run (unit units i) with
        | wedged => exact absurd ran (steady.moves _)
        | finished rc err imageLen =>
            refine ⟨_, rfl, ?_, rfl⟩
            obtain ⟨terminal, done, skipped⟩ :=
              finishedRow_state (s.rows i) rc err imageLen
            refine swept.settle (some rc) fresh needsSeen terminal
              (fun _ => ready) ?_ ?_ rfl rfl swept.total
            · simpa using done
            · simpa [clear] using skipped

theorem Sweep.Swept.visit {env : DagEnv} (steady : env.Steady) (resolved : Resolved units order)
    (swept : s.Swept seen) (member : i ∈ order) (fresh : i ∉ seen)
    (needsSeen : ∀ j, Needs units i j → j ∈ seen) :
    ∃ s', dagVisit env s i = .ok s' ∧
      s'.Swept (seen ++ [i]) ∧ s'.progressed = true := by
  have pending : ¬ (s.rows i).state ≠ .pending :=
    not_not.mpr (swept.pending i fresh)
  simp only [dagVisit, resolved.dagFind_iff.mpr rfl]
  rw [if_neg pending]
  by_cases ready : dagDepsReady units (unit units i) s.rows
  · rw [if_neg (not_not.mpr ready)]
    exact swept.build steady fresh needsSeen
      ((resolved.depsReady_iff member s.rows).mp ready)
  · rw [if_pos ready]
    -- a dependency that is settled and not done failed or was skipped
    have blocked : ∃ j, Needs units i j ∧ (s.rows j).state.Bad := by
      rw [resolved.depsReady_iff member] at ready
      obtain ⟨j, undone⟩ := not_forall.mp ready
      obtain ⟨needed, undone⟩ := Classical.not_imp.mp undone
      exact ⟨j, needed,
        (swept.terminal j (needsSeen j needed)).resolve_left undone⟩
    cases found : dagBlocked units (unit units i) s.rows with
    | none =>
        obtain ⟨j, needed, bad⟩ := blocked
        exact absurd bad
          ((resolved.blocked_iff member s.rows).mp found j needed)
    | some di =>
        refine ⟨_, rfl, ?_, rfl⟩
        refine swept.settle none fresh needsSeen (.inr (.inr rfl)) ?_ ?_ ?_ rfl
          ?_ swept.total
        · simp
        · simp [blockedRow]
        · simpa [blockedRow] using blocked
        · simp [tried]

theorem Sweep.Swept.pass {env : DagEnv} (steady : env.Steady) (resolved : Resolved units order)
    {rest : List (Index units)} (swept : s.Swept seen) (split : order = seen ++ rest)
    (ready : ReadyOrder (Needs units) seen rest) :
    ∃ s', rest.foldlM (dagVisit env) s = .ok s' ∧ s'.Swept order ∧
      (s' = s ∨ s'.progressed = true) ∧ (rest ≠ [] → s'.progressed = true) := by
  induction rest generalizing seen s with
  | nil =>
      rw [split, List.append_nil]
      exact ⟨s, rfl, swept, .inl rfl, by simp⟩
  | cons i rest ih =>
      obtain ⟨fresh, needsSeen, restReady⟩ := ready
      obtain ⟨next, visited, nextSwept, progressed⟩ :=
        swept.visit steady resolved (by simp [split]) fresh needsSeen
      obtain ⟨last, passed, lastSwept, kept, -⟩ :=
        ih nextSwept (by simp [split]) restReady
      have lastProgressed : last.progressed = true := by
        rcases kept with rfl | kept
        · exact progressed
        · exact kept
      refine ⟨last, ?_, lastSwept, .inr lastProgressed, fun _ => lastProgressed⟩
      rw [List.foldlM_cons, visited]
      exact passed

theorem Sweep.Swept.idle {env : DagEnv} (resolved : Resolved units order) (swept : s.Swept order)
    {l : List (Index units)} (within : ∀ i ∈ l, i ∈ order) : l.foldlM (dagVisit env) s = .ok s := by
  induction l with
  | nil => rfl
  | cons i l ih =>
      have settled : (s.rows i).state ≠ .pending := by
        intro pending
        rcases swept.terminal i (within i List.mem_cons_self) with state | state
        · rw [state] at pending
          cases pending
        · rw [pending] at state
          rcases state with state | state <;> cases state
      have visited : dagVisit env s i = .ok s := by
        simp only [dagVisit, resolved.dagFind_iff.mpr rfl]
        rw [if_pos settled]
      rw [List.foldlM_cons, visited]
      exact ih fun j member => within j (List.mem_cons_of_mem _ member)

theorem Sweep.Swept.settled (swept : s.Swept order) (all : ∀ i, i ∈ order) (nodup : order.Nodup) :
    s.Settled where
  once := swept.once
  after := swept.after
  terminal i := swept.terminal i (all i)
  done_iff i := swept.done_iff i (all i)
  skipped_iff i := swept.skipped_iff i (all i)
  total := by
    rw [swept.total]
    have below := nodup.length_le_card
    have above := List.subperm_of_subset (List.nodup_finRange units.length)
      (fun i _ => all i) |>.length_le
    simp only [Fintype.card_fin, List.length_finRange] at below above
    exact le_antisymm below above

theorem Sweep.Swept.of_rows (swept : s.Swept seen) (progressed : Bool) :
    ({ s with progressed } : Sweep units).Swept seen :=
  ⟨swept.once, swept.after, swept.closed, swept.ranSeen, swept.pending,
    swept.terminal, swept.done_iff, swept.skipped_iff, swept.total⟩

/-- On every accepted unit set the executor comes to an end, whatever the
outcomes, with every unit settled as its own run and its dependencies say. -/
theorem dagRun_settles (env : DagEnv) (units : List BuildUnit)
    (order : List (Index units))
    (accepted : graphResolve units env.orderRoom = .ok order)
    (steady : env.Steady) :
    ∃ s : Sweep units, s.Settled ∧
      ∃ passes, ∀ fuel ≥ passes, dagRun units env fuel = some (.ok s) := by
  obtain ⟨resolved, all⟩ := resolved_of_graphResolve accepted
  have nodup := resolved.ready.nodup.1
  by_cases noUnits : units = []
  · subst noUnits
    exact ⟨dagStart [],
      Sweep.swept_start.settled (fun i => i.elim0) List.nodup_nil, 0,
      fun fuel _ => rfl⟩
  · have start : Sweep.Swept [] { dagStart units with progressed := false } :=
      Sweep.swept_start.of_rows false
    obtain ⟨s, passed, swept, -, progressed⟩ :=
      start.pass steady resolved rfl resolved.ready
    have nonempty : order ≠ [] := by
      rintro rfl
      exact List.not_mem_nil
        (all ⟨0, List.length_pos_iff.mpr noUnits⟩)
    refine ⟨{ s with progressed := false },
      (swept.of_rows false).settled all nodup, 2, ?_⟩
    intro fuel enough
    obtain ⟨fuel, rfl⟩ := Nat.exists_eq_add_of_le' enough
    have served : ¬ (¬ env.rowsRoom = true ∨ ¬ env.rootRoom = true) := by
      simp [steady.rowsRoom, steady.rootRoom]
    simp only [dagRun, noUnits, if_false, accepted]
    rw [if_neg served, dagSweeps, passed]
    simp only [progressed nonempty, if_true]
    rw [dagSweeps, (swept.of_rows false).idle resolved fun i _ => all i]
    simp

/-- Everything is served and accepted, and every run comes back with this. -/
def plainEnv (answer : RunAnswer) : DagEnv where
  orderRoom := true
  rowsRoom := true
  rootRoom := true
  rootFn _ _ := some (ascii "/src")
  submit _ _ := (.ok, [])
  run _ := answer

theorem dagRun_settles_pair :
    ∃ s : Sweep pairUnits, s.Settled ∧
      ∃ passes, ∀ fuel ≥ passes,
        dagRun pairUnits (plainEnv (.finished .ok [] 8)) fuel = some (.ok s) :=
  dagRun_settles _ pairUnits [unitA, unitB] pairUnits_resolve
    ⟨rfl, rfl, fun _ _ => by simp [plainEnv], fun _ => by simp [plainEnv]⟩

/-- The holder of the serial section does not move: the run is refused. -/
theorem dagRun_refuses :
    graphResolve pairUnits (plainEnv .wedged).orderRoom = .ok [unitA, unitB] ∧
      (∀ u root, ((plainEnv .wedged).submit u root).1 ≠ .busy) ∧
      ¬ ∃ s : Sweep pairUnits, s.Settled ∧
        ∃ passes, ∀ fuel ≥ passes,
          dagRun pairUnits (plainEnv .wedged) fuel = some (.ok s) := by
  refine ⟨pairUnits_resolve, fun _ _ => by simp [plainEnv], ?_⟩
  rintro ⟨s, -, passes, returns⟩
  have refused : dagRun pairUnits (plainEnv .wedged) (passes + 1) =
      some (.error
        ⟨.busy, ascii "dag_run: terminal job release refused"⟩) := by
    rw [dagRun, if_neg (by decide), plainEnv, pairUnits_resolve]
    rfl
  rw [returns (passes + 1) (Nat.le_succ passes)] at refused
  cases refused

end Metal.Build
