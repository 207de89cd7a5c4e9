import Metal.Lib.CString
import Metal.Lib.Order

namespace Metal.Build

open Metal.Lib

/-! Build units, their dependencies, and the order in which they are built. -/

/-- `pm_metal_build_status_t` -/
inductive Status
  | ok
  | parse
  | cycle
  | missingDep
  | nomem
  | compile
  | link
  | busy
  | cancelled
  deriving DecidableEq

/-- `pm_metal_build_actor_state_t` -/
inductive ActorState
  | new
  | running
  | waiting
  | done
  | failed
  | cancelled
  deriving DecidableEq

def ActorState.terminal : ActorState → Bool
  | .done | .failed | .cancelled => true
  | .new | .running | .waiting => false

def errMax : Nat := 160

def strMax : Nat := 128

def rootMax : Nat := 2048

def snprintf (room : Nat) (text : Bytes) : Bytes := text.take (room - 1)

theorem snprintf_of_length_lt {room : Nat} {text : Bytes}
    (fits : text.length < room) : snprintf room text = text :=
  List.take_of_length_le (Nat.le_sub_one_of_lt fits)

structure Refusal where
  code : Status
  err : Bytes
  deriving DecidableEq

/-- What the graph reads of a unit; the rest of it goes to the compiler as it
is. -/
structure BuildUnit where
  fqn : CString
  depends : List CString

variable (units : List BuildUnit)

abbrev Index := Fin units.length

def unit (i : Index units) : BuildUnit := units.get i

def dagFind (fqn : CString) : Option (Index units) :=
  units.findFinIdx? (·.fqn = fqn)

def unitHasAllDeps (u : BuildUnit) (done : List (Index units)) : Bool :=
  u.depends.all fun dep => done.any fun j => (unit units j).fqn = dep

def duplicateFqn : List BuildUnit → Option CString
  | [] => none
  | u :: rest =>
      if rest.any (·.fqn = u.fqn) then some u.fqn else duplicateFqn rest

def missingDep (u : BuildUnit) : Option CString :=
  u.depends.find? fun dep => ¬ units.any (·.fqn = dep)

/-- One turn of the pass over the units: emit it if its dependencies are out. -/
def resolveVisit (out : List (Index units)) (i : Index units) :
    Except Refusal (List (Index units)) :=
  if i ∈ out then .ok out
  else if unitHasAllDeps units (unit units i) out then
    match missingDep units (unit units i) with
    | some dep => .error ⟨.missingDep, dep.bytes⟩
    | none => .ok (out ++ [i])
  else .ok out

def resolvePass (out : List (Index units)) : Except Refusal (List (Index units)) :=
  (List.finRange units.length).foldlM (resolveVisit units) out

def resolveLoop (out : List (Index units)) : Except Refusal (List (Index units)) :=
  if out.length < units.length then
    match resolvePass units out with
    | .error refusal => .error refusal
    | .ok next =>
        if next.length ≤ out.length then
          .error ⟨.cycle, ascii "dependency cycle"⟩
        else resolveLoop next
  else .ok out
  termination_by units.length - out.length

/-- `room` tells whether the arena serves the order array. -/
def graphResolve (room : Bool) : Except Refusal (List (Index units)) :=
  if units = [] then .ok []
  else if ¬ room then .error ⟨.nomem, ascii "arena exhausted"⟩
  else
    match duplicateFqn units with
    | some fqn => .error ⟨.cycle, fqn.bytes⟩
    | none => resolveLoop units []

def Needs (i j : Index units) : Prop :=
  (unit units j).fqn ∈ (unit units i).depends

structure Resolved (order : List (Index units)) : Prop where
  distinct : ∀ i j, (unit units i).fqn = (unit units j).fqn → i = j
  known : ∀ i ∈ order, ∀ dep ∈ (unit units i).depends,
    ∃ j, (unit units j).fqn = dep
  ready : ReadyOrder (Needs units) [] order

variable {units}

theorem nodup_of_duplicateFqn (unique : duplicateFqn units = none) :
    (units.map BuildUnit.fqn).Nodup := by
  induction units with
  | nil => exact List.nodup_nil
  | cons u rest ih =>
      simp only [duplicateFqn, List.any_eq_true, decide_eq_true_eq] at unique
      split at unique
      · cases unique
      · rename_i absent
        refine (ih unique).cons ?_
        simpa using absent

theorem distinct_of_duplicateFqn (unique : duplicateFqn units = none)
    (i j : Index units) (same : (unit units i).fqn = (unit units j).fqn) :
    i = j := by
  have nodup := nodup_of_duplicateFqn unique
  have sameUnit : units.get i = units.get j :=
    List.inj_on_of_nodup_map nodup (List.get_mem units i)
      (List.get_mem units j) same
  exact (nodup.of_map).get_inj_iff.mp sameUnit

variable {out : List (Index units)}

theorem Resolved.visit {next : List (Index units)} {i : Index units}
    (resolved : Resolved units out) (visited : resolveVisit units out i = .ok next) :
    Resolved units next := by
  unfold resolveVisit at visited
  split at visited
  · cases visited
    exact resolved
  · rename_i fresh
    split at visited
    · rename_i hasDeps
      split at visited
      · cases visited
      · cases visited
        have found : ∀ dep ∈ (unit units i).depends,
            ∃ j ∈ out, (unit units j).fqn = dep := by
          simpa [unitHasAllDeps] using hasDeps
        refine ⟨resolved.distinct, ?_, ?_⟩
        · intro k member
          rcases List.mem_append.mp member with member | member
          · exact resolved.known k member
          · rw [List.mem_singleton.mp member]
            intro dep depMember
            obtain ⟨j, -, same⟩ := found dep depMember
            exact ⟨j, same⟩
        · refine resolved.ready.snoc (by simpa using fresh) ?_
          intro j needed
          obtain ⟨k, member, same⟩ := found _ needed
          simpa [resolved.distinct k j same] using member
    · cases visited
      exact resolved

theorem Resolved.visits {l : List (Index units)} {next : List (Index units)}
    (resolved : Resolved units out) (visited : l.foldlM (resolveVisit units) out = .ok next) :
    Resolved units next := by
  induction l generalizing out with
  | nil =>
      cases visited
      exact resolved
  | cons i l ih =>
      rw [List.foldlM_cons] at visited
      cases first : resolveVisit units out i with
      | error refusal =>
          rw [first] at visited
          cases visited
      | ok middle =>
          rw [first] at visited
          exact ih (resolved.visit first) visited

variable {order : List (Index units)}

theorem Resolved.loop (resolved : Resolved units out) (looped : resolveLoop units out = .ok order) :
    Resolved units order ∧ units.length ≤ order.length := by
  induction out using resolveLoop.induct units with
  | case1 out short refusal passed =>
      rw [resolveLoop, if_pos short, passed] at looped
      cases looped
  | case2 out short next passed stuck =>
      rw [resolveLoop, if_pos short, passed] at looped
      simp only [stuck, if_true] at looped
      cases looped
  | case3 out short next passed progress ih =>
      rw [resolveLoop, if_pos short, passed] at looped
      simp only [progress, if_false] at looped
      exact ih (resolved.visits passed) looped
  | case4 out full =>
      rw [resolveLoop, if_neg full] at looped
      cases looped
      exact ⟨resolved, Nat.le_of_not_lt full⟩

/-- An accepted graph: distinct names, no name missing, every unit once and
after its dependencies. -/
theorem resolved_of_graphResolve {room : Bool} (accepted : graphResolve units room = .ok order) :
    Resolved units order ∧ ∀ i, i ∈ order := by
  unfold graphResolve at accepted
  split at accepted
  · rename_i noUnits
    subst noUnits
    cases accepted
    exact ⟨⟨fun i => i.elim0, by simp, trivial⟩, fun i => i.elim0⟩
  · split at accepted
    · cases accepted
    · split at accepted
      · cases accepted
      · rename_i unique
        have start : Resolved units [] :=
          ⟨distinct_of_duplicateFqn unique, by simp, trivial⟩
        obtain ⟨resolved, full⟩ := start.loop accepted
        exact ⟨resolved,
          mem_of_nodup_of_length resolved.ready.nodup.1 full⟩

theorem Resolved.dagFind_iff (resolved : Resolved units order) {fqn : CString} {i : Index units} :
    dagFind units fqn = some i ↔ (unit units i).fqn = fqn := by
  constructor
  · intro found
    exact of_decide_eq_true (List.findFinIdx?_eq_some_iff.mp found).1
  · rintro rfl
    cases found : dagFind units (unit units i).fqn with
    | none =>
        have absent := List.findFinIdx?_eq_none_iff.mp found
        exact absurd (decide_eq_true rfl) (absent _ (List.get_mem units i))
    | some j =>
        have same := of_decide_eq_true (List.findFinIdx?_eq_some_iff.mp found).1
        rw [resolved.distinct j i same]

/-- Unit `b`, listed first, depends on unit `a`. -/
def nameA : CString := ⟨ascii "a", by decide⟩

def pairUnits : List BuildUnit := [⟨⟨ascii "b", by decide⟩, [nameA]⟩, ⟨nameA, []⟩]

def unitB : Index pairUnits := ⟨0, by decide⟩

def unitA : Index pairUnits := ⟨1, by decide⟩

theorem pairUnits_resolve : graphResolve pairUnits true = .ok [unitA, unitB] := by
  have first : resolvePass pairUnits [] = .ok [unitA] := by decide
  have second : resolvePass pairUnits [unitA] = .ok [unitA, unitB] := by decide
  have unique : duplicateFqn pairUnits = none := by decide
  rw [graphResolve, if_neg (by decide), if_neg (by decide), unique]
  change resolveLoop pairUnits [] = _
  rw [resolveLoop, if_pos (by decide), first]
  change resolveLoop pairUnits [unitA] = _
  rw [resolveLoop, if_pos (by decide), second]
  change resolveLoop pairUnits [unitA, unitB] = _
  rw [resolveLoop, if_neg (by decide)]

end Metal.Build
