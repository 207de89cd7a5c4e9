import Mathlib.Data.Fintype.EquivFin
import Metal.Build.Graph

namespace Metal.Build

open Metal.Lib

/-! Which graphs are resolved, and what is said of the others. -/

variable {units : List BuildUnit}

theorem duplicateFqn_of_nodup (nodup : (units.map BuildUnit.fqn).Nodup) :
    duplicateFqn units = none := by
  induction units with
  | nil => rfl
  | cons u rest ih =>
      obtain ⟨fresh, nodup⟩ := List.nodup_cons.mp nodup
      have alone : ¬ rest.any (·.fqn = u.fqn) = true := by
        rw [List.any_eq_true]
        rintro ⟨w, member, same⟩
        exact fresh (of_decide_eq_true same ▸ List.mem_map_of_mem member)
      rw [duplicateFqn, if_neg alone, ih nodup]

variable {out : List (Index units)}

theorem unitHasAllDeps_iff {u : BuildUnit} :
    unitHasAllDeps units u out = true ↔
      ∀ dep ∈ u.depends, ∃ j ∈ out, (unit units j).fqn = dep := by
  simp [unitHasAllDeps]

theorem missingDep_eq_none_iff {u : BuildUnit} :
    missingDep units u = none ↔ ∀ dep ∈ u.depends, ∃ j, (unit units j).fqn = dep := by
  rw [missingDep, List.find?_eq_none]
  refine forall₂_congr fun dep _ => ?_
  rw [decide_eq_true_iff, not_not, List.any_eq_true]
  constructor
  · rintro ⟨w, member, same⟩
    obtain ⟨j, rfl⟩ := List.get_of_mem member
    exact ⟨j, of_decide_eq_true same⟩
  · rintro ⟨j, same⟩
    exact ⟨units.get j, List.get_mem units j, decide_eq_true same⟩

/-- A unit whose dependencies are out misses none, so the test behind finds nothing:
a visit never fails. -/
theorem resolveVisit_ok (out : List (Index units)) (i : Index units) :
    ∃ next, resolveVisit units out i = .ok next ∧ out <+: next ∧
      (unitHasAllDeps units (unit units i) out = true → i ∈ next) := by
  rw [resolveVisit]
  split
  case isTrue member => exact ⟨out, rfl, List.prefix_rfl, fun _ => member⟩
  case isFalse fresh =>
    split
    case isFalse waits => exact ⟨out, rfl, List.prefix_rfl, fun ready => absurd ready waits⟩
    case isTrue ready =>
      have known : missingDep units (unit units i) = none := by
        rw [missingDep_eq_none_iff]
        intro dep member
        obtain ⟨j, -, same⟩ := unitHasAllDeps_iff.mp ready dep member
        exact ⟨j, same⟩
      rw [known]
      refine ⟨out ++ [i], rfl, List.prefix_append out [i], fun _ => ?_⟩
      exact List.mem_append_right out List.mem_cons_self

theorem unitHasAllDeps_mono {u : BuildUnit} {next : List (Index units)} (more : out <+: next)
    (ready : unitHasAllDeps units u out = true) : unitHasAllDeps units u next = true := by
  rw [unitHasAllDeps_iff] at ready ⊢
  intro dep member
  obtain ⟨j, inOut, same⟩ := ready dep member
  exact ⟨j, more.subset inOut, same⟩

theorem resolveVisits_ok (l out : List (Index units)) :
    ∃ next, l.foldlM (resolveVisit units) out = .ok next ∧ out <+: next ∧
      ∀ i ∈ l, unitHasAllDeps units (unit units i) out = true → i ∈ next := by
  induction l generalizing out with
  | nil => exact ⟨out, rfl, List.prefix_rfl, nofun⟩
  | cons i l ih =>
      obtain ⟨middle, visited, more, ready⟩ := resolveVisit_ok out i
      obtain ⟨next, passed, evenMore, others⟩ := ih middle
      refine ⟨next, ?_, more.trans evenMore, ?_⟩
      · rw [List.foldlM_cons, visited]
        exact passed
      · rintro j (_ | ⟨_, member⟩) has
        · exact evenMore.subset (ready has)
        · exact others j member (unitHasAllDeps_mono more has)

theorem resolvePass_ok (out : List (Index units)) :
    ∃ next, resolvePass units out = .ok next ∧ out <+: next ∧
      ∀ i, unitHasAllDeps units (unit units i) out = true → i ∈ next := by
  obtain ⟨next, passed, more, ready⟩ := resolveVisits_ok (List.finRange units.length) out
  exact ⟨next, passed, more, fun i => ready i (List.mem_finRange i)⟩

def Known (units : List BuildUnit) : Prop := ∀ u ∈ units, missingDep units u = none

instance (units : List BuildUnit) : Decidable (Known units) :=
  inferInstanceAs (Decidable (∀ u ∈ units, missingDep units u = none))

theorem Known.ready (known : Known units) {i : Index units}
    (settled : ∀ j, Needs units i j → j ∈ out) :
    unitHasAllDeps units (unit units i) out = true := by
  rw [unitHasAllDeps_iff]
  intro dep member
  obtain ⟨j, rfl⟩ := missingDep_eq_none_iff.mp (known _ (List.get_mem units i)) dep member
  exact ⟨j, settled j member, rfl⟩

theorem resolvePass_progress (known : Known units) (acyclic : Acyclic (Needs units))
    (short : out.length < units.length) :
    ∃ next, resolvePass units out = .ok next ∧ out.length < next.length := by
  obtain ⟨next, passed, more, ready⟩ := resolvePass_ok out
  refine ⟨next, passed, Nat.lt_of_le_of_ne more.length_le fun same => ?_⟩
  have unchanged := more.eq_of_length same
  have left : ∃ i, i ∉ out := by
    by_contra none_
    rw [not_exists_not] at none_
    have all : List.finRange units.length ⊆ out := fun i _ => none_ i
    have := ((List.nodup_finRange units.length).subperm all).length_le
    rw [List.length_finRange] at this
    omega
  obtain ⟨i, fresh⟩ := left
  obtain ⟨b, undone, settled⟩ := acyclic.exists_ready fresh
  exact undone (unchanged ▸ ready b (known.ready settled))

theorem resolveLoop_ok (known : Known units) (acyclic : Acyclic (Needs units))
    (out : List (Index units)) : ∃ order, resolveLoop units out = .ok order := by
  induction out using resolveLoop.induct units with
  | case1 out short refusal passed =>
      obtain ⟨next, found, -⟩ := resolvePass_ok out
      rw [passed] at found
      cases found
  | case2 out short next passed stuck =>
      obtain ⟨_, found, progress⟩ := resolvePass_progress known acyclic short
      rw [passed] at found
      cases found
      omega
  | case3 out short next passed progress ih =>
      obtain ⟨order, looped⟩ := ih
      rw [resolveLoop, if_pos short, passed]
      exact ⟨order, (if_neg progress).trans looped⟩
  | case4 out full =>
      rw [resolveLoop, if_neg full]
      exact ⟨out, rfl⟩

theorem resolveLoop_error {refusal : Refusal} (looped : resolveLoop units out = .error refusal) :
    refusal.code = .cycle := by
  induction out using resolveLoop.induct units with
  | case1 out short other passed =>
      obtain ⟨next, found, -⟩ := resolvePass_ok out
      rw [passed] at found
      cases found
  | case2 out short next passed stuck =>
      rw [resolveLoop, if_pos short, passed] at looped
      simp only [stuck, if_true] at looped
      cases looped
      rfl
  | case3 out short next passed progress ih =>
      rw [resolveLoop, if_pos short, passed] at looped
      simp only [progress, if_false] at looped
      exact ih looped
  | case4 out full =>
      rw [resolveLoop, if_neg full] at looped
      cases looped

structure Orderable (units : List BuildUnit) : Prop where
  distinct : (units.map BuildUnit.fqn).Nodup
  known : Known units
  acyclic : Acyclic (Needs units)

structure Ordered (units : List BuildUnit) (order : List (Index units)) : Prop where
  perm : order.Perm (List.finRange units.length)
  behind : ∀ i j, Needs units i j → order.idxOf j < order.idxOf i

theorem graphResolve_ok (orderable : Orderable units) :
    ∃ order, graphResolve units true = .ok order := by
  rw [graphResolve]
  split
  case isTrue => exact ⟨[], rfl⟩
  case isFalse =>
    rw [if_neg (by decide), duplicateFqn_of_nodup orderable.distinct]
    exact resolveLoop_ok orderable.known orderable.acyclic []

theorem ordered_of_graphResolve {order : List (Index units)}
    (accepted : graphResolve units true = .ok order) :
    Orderable units ∧ Ordered units order := by
  obtain ⟨resolved, all⟩ := resolved_of_graphResolve accepted
  have fqns : (units.map BuildUnit.fqn).Nodup := by
    rw [List.nodup_iff_injective_get]
    intro i j same
    have lengths : (units.map BuildUnit.fqn).length = units.length := List.length_map _
    have equal := resolved.distinct (i.cast lengths) (j.cast lengths) (by simpa [unit] using same)
    simpa [Fin.ext_iff] using equal
  refine ⟨⟨fqns, fun u member => ?_, resolved.ready.acyclic all⟩, ?_, fun i j needed => ?_⟩
  · obtain ⟨i, rfl⟩ := List.get_of_mem member
    exact missingDep_eq_none_iff.mpr (resolved.known i (all i))
  · exact (List.perm_ext_iff_of_nodup resolved.ready.nodup.1 (List.nodup_finRange _)).mpr
      fun i => iff_of_true (all i) (List.mem_finRange i)
  · exact resolved.ready.idxOf_lt (all i) needed List.not_mem_nil

/-- A graph is resolved exactly if its names are distinct, none is missing and nothing
depends on itself; and the order is one. -/
theorem graphResolve_iff (units : List BuildUnit) :
    ((∃ order, graphResolve units true = .ok order) ↔ Orderable units) ∧
      ∀ order, graphResolve units true = .ok order → Ordered units order :=
  ⟨⟨fun ⟨_, accepted⟩ => (ordered_of_graphResolve accepted).1, graphResolve_ok⟩,
    fun _ accepted => (ordered_of_graphResolve accepted).2⟩

structure NamesFault (units : List BuildUnit) (room : Bool) : Prop where
  missing : ¬ Known units → ∃ err, graphResolve units room = .error ⟨.missingDep, err⟩
  cycle : ∀ err, graphResolve units room = .error ⟨.cycle, err⟩ → ¬ Acyclic (Needs units)

theorem graphResolve_not_missing (units : List BuildUnit) (room : Bool) (err : Bytes) :
    graphResolve units room ≠ .error ⟨.missingDep, err⟩ := by
  intro refused
  rw [graphResolve] at refused
  split at refused
  · cases refused
  split at refused
  · cases refused
  split at refused
  · cases refused
  · cases resolveLoop_error refused

theorem namesFault_iff {units : List BuildUnit} (distinct : (units.map BuildUnit.fqn).Nodup)
    (room : Bool) : NamesFault units room ↔ Known units := by
  constructor
  · intro names
    by_contra unknown
    obtain ⟨err, refused⟩ := names.missing unknown
    exact graphResolve_not_missing units room err refused
  · intro known
    refine ⟨fun unknown => absurd known unknown, fun err refused acyclic => ?_⟩
    obtain ⟨order, accepted⟩ := graphResolve_ok ⟨distinct, known, acyclic⟩
    cases room with
    | true =>
        rw [accepted] at refused
        cases refused
    | false =>
        rw [graphResolve] at refused
        split at refused
        · cases refused
        · cases refused

theorem namesFault_iff_pair : NamesFault pairUnits true :=
  (namesFault_iff (by decide) true).mpr (by decide)

/-- Unit `a` depends on `x`, which is no unit. -/
def loneUnit : List BuildUnit := [⟨nameA, [⟨ascii "x", by decide⟩]⟩]

theorem namesFault_fails :
    ¬ ∀ units : List BuildUnit, (units.map BuildUnit.fqn).Nodup → NamesFault units true := by
  intro all
  have names := all loneUnit (by decide)
  obtain ⟨err, refused⟩ := names.missing (by decide)
  exact graphResolve_not_missing loneUnit true err refused

end Metal.Build
