import Mathlib.Algebra.Group.Int.Units
import Mathlib.Algebra.GroupWithZero.Nat

namespace Metal.Lib

/-! Runs of a deterministic system: a state, and one input after another. -/

instance two_neZero : NeZero 2 := ⟨by decide⟩

instance four_neZero : NeZero 4 := ⟨by decide⟩

variable {σ ι : Type} (step : σ → ι → σ)

/-- Every input of the run is one that `ok` allows in the state it meets. -/
def Along (ok : σ → ι → Prop) : σ → List ι → Prop
  | _, [] => True
  | s, i :: rest => ok s i ∧ Along ok (step s i) rest

instance Along.decidable {ok : σ → ι → Prop} [∀ s i, Decidable (ok s i)] :
    ∀ s l, Decidable (Along step ok s l)
  | _, [] => isTrue trivial
  | s, i :: rest =>
      have := @Along.decidable ok _ (step s i) rest
      inferInstanceAs (Decidable (ok s i ∧ Along step ok (step s i) rest))

variable {step}

theorem Along.append {ok : σ → ι → Prop} {s : σ} {first second : List ι} :
    Along step ok s (first ++ second) ↔
      Along step ok s first ∧ Along step ok (first.foldl step s) second := by
  induction first generalizing s with
  | nil => simp [Along]
  | cons i rest ih => simp [Along, ih, and_assoc]

theorem foldl_invariant {inv : σ → Prop}
    (keeps : ∀ s i, inv s → inv (step s i)) {s : σ} (start : inv s)
    (l : List ι) : inv (l.foldl step s) := by
  induction l generalizing s with
  | nil => exact start
  | cons i rest ih => exact ih (keeps s i start)

theorem Along.invariant {ok : σ → ι → Prop} {inv : σ → Prop}
    (keeps : ∀ s i, inv s → ok s i → inv (step s i)) {s : σ} {l : List ι}
    (start : inv s) (along : Along step ok s l) : inv (l.foldl step s) := by
  induction l generalizing s with
  | nil => exact start
  | cons i rest ih => exact ih (keeps s i start along.1) along.2

end Metal.Lib
