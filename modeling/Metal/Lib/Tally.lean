import Mathlib.Algebra.Order.BigOperators.Group.Finset

namespace Metal.Lib

/-! Counting over a family of which one member changes. -/

variable {ι α : Type} [DecidableEq ι]

def tally (members : Finset ι) (weight : α → Nat) (family : ι → α) : Nat :=
  ∑ i ∈ members, weight (family i)

variable {members : Finset ι}

theorem tally_update {i : ι} (member : i ∈ members) (weight : α → Nat) (family : ι → α)
    (value : α) :
    tally members weight (Function.update family i value) + weight (family i) =
      tally members weight family + weight value := by
  have others : ∑ j ∈ members.erase i, weight (Function.update family i value j) =
      ∑ j ∈ members.erase i, weight (family j) := by
    apply Finset.sum_congr rfl
    intro j other
    rw [Function.update_of_ne (Finset.ne_of_mem_erase other)]
  unfold tally
  rw [← Finset.add_sum_erase members _ member,
    ← Finset.add_sum_erase members (fun j => weight (family j)) member, others,
    Function.update_self]
  omega

omit [DecidableEq ι] in
theorem le_tally {i : ι} (member : i ∈ members) (weight : α → Nat) (family : ι → α) :
    weight (family i) ≤ tally members weight family :=
  Finset.single_le_sum (f := fun j => weight (family j))
    (fun _ _ => Nat.zero_le _) member

theorem add_le_tally {i j : ι} (first : i ∈ members) (second : j ∈ members) (distinct : i ≠ j)
    (weight : α → Nat) (family : ι → α) :
    weight (family i) + weight (family j) ≤ tally members weight family := by
  have member : j ∈ members.erase i :=
    Finset.mem_erase.mpr ⟨distinct.symm, second⟩
  have rest := le_tally member weight family
  unfold tally at rest ⊢
  rw [← Finset.add_sum_erase members _ first]
  omega

omit [DecidableEq ι] in
theorem tally_eq_zero {weight : α → Nat} {family : ι → α}
    (none : ∀ i ∈ members, weight (family i) = 0) : tally members weight family = 0 :=
  Finset.sum_eq_zero none

end Metal.Lib
