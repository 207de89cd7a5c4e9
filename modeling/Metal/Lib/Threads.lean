import Mathlib.Algebra.Group.Int.Units

namespace Metal.Lib

open Function

/-! Threads that take turns: each is at a point of its program, and a step moves one
of them to another.  A `project` is what a point says that the thread holds. -/

variable {Thread Point α Item : Type} [DecidableEq Thread]

section Thread

variable (at_ : Thread → Point) (self : Thread) (next : Point)
include at_ self next

theorem update_same
    (project : Point → α) (same : project next = project (at_ self)) (other : Thread) :
    project (update at_ self next other) = project (at_ other) := by
  by_cases here : other = self
  · rw [here, update_self, same]
  · rw [update_of_ne here]

theorem exists_update (project : Point → Option Item) (item : Item) :
    (∃ other, project (update at_ self next other) = some item) ↔
      project next = some item ∨ ∃ other ≠ self, project (at_ other) = some item := by
  constructor
  · intro ⟨other, holds⟩
    by_cases here : other = self
    · rw [here, update_self] at holds
      exact .inl holds
    · rw [update_of_ne here] at holds
      exact .inr ⟨other, here, holds⟩
  · intro holds
    rcases holds with holds | ⟨other, apart, holds⟩
    · exact ⟨self, by rw [update_self, holds]⟩
    · exact ⟨other, by rw [update_of_ne apart, holds]⟩

theorem exists_gains
    (project : Point → Option Item) (was : project (at_ self) = none) (item : Item) :
    (∃ other, project (update at_ self next other) = some item) ↔
      project next = some item ∨ ∃ other, project (at_ other) = some item := by
  rw [exists_update]
  refine or_congr_right ⟨fun ⟨other, _, holds⟩ => ⟨other, holds⟩, fun ⟨other, holds⟩ => ?_⟩
  refine ⟨other, fun here => ?_, holds⟩
  rw [here, was] at holds
  cases holds

theorem exists_loses
    (project : Point → Option Item) {lost : Item} (was : project (at_ self) = some lost)
    (only : ∀ other, project (at_ other) = some lost → other = self)
    (none_ : project next = none) (item : Item) :
    (∃ other, project (update at_ self next other) = some item) ↔
      item ≠ lost ∧ ∃ other, project (at_ other) = some item := by
  rw [exists_update, none_]
  constructor
  · intro holds
    rcases holds with never | ⟨other, apart, holds⟩
    · cases never
    · exact ⟨fun same => apart (only other (same ▸ holds)), other, holds⟩
  · intro ⟨different, other, holds⟩
    refine .inr ⟨other, fun here => different ?_, holds⟩
    rw [here, was] at holds
    cases holds
    rfl

end Thread

variable {self : Thread} {at_ : Thread → Point} {next : Point}

theorem exists_still {was : Point} (project : Point → Bool) (here : at_ self = was)
    (still : project was = true → project next = true)
    (before : ∃ other, project (at_ other) = true) :
    ∃ other, project (update at_ self next other) = true := by
  obtain ⟨other, holds⟩ := before
  by_cases same : other = self
  · rw [same, here] at holds
    exact ⟨self, by rw [update_self, still holds]⟩
  · exact ⟨other, by rw [update_of_ne same, holds]⟩

theorem update_single (project : Point → Option Item)
    (single : ∀ one other item, project (at_ one) = some item →
      project (at_ other) = some item → one = other) (fresh : ∀ item, project next = some item →
      ∀ other, project (at_ other) = some item → other = self) (one other : Thread) (item : Item)
    (first : project (update at_ self next one) = some item)
    (second : project (update at_ self next other) = some item) : one = other := by
  by_cases here : one = self <;> by_cases there : other = self
  · rw [here, there]
  · rw [here, update_self] at first
    rw [update_of_ne there] at second
    exact absurd (fresh item first other second) there
  · rw [there, update_self] at second
    rw [update_of_ne here] at first
    exact absurd (fresh item second one first) here
  · rw [update_of_ne here] at first
    rw [update_of_ne there] at second
    exact single one other item first second

theorem update_others (holds : Point → Prop) (others : ∀ other ≠ self, holds (at_ other))
    (now : holds next) (other : Thread) : holds (update at_ self next other) := by
  by_cases here : other = self
  · rw [here, update_self]
    exact now
  · rw [update_of_ne here]
    exact others other here

theorem update_all (holds : Point → Prop) (others : ∀ other, holds (at_ other)) (now : holds next)
    (other : Thread) : holds (update at_ self next other) :=
  update_others holds (fun other _ => others other) now other

end Metal.Lib
