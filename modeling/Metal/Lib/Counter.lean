import Mathlib.Order.Interval.Finset.Nat

namespace Metal.Lib

/-! Counters that are kept modulo 2^16, over rings whose size divides that. -/

theorem ofNat_succ (n : Nat) : UInt16.ofNat (n + 1) = UInt16.ofNat n + 1 :=
  UInt16.ofNat_add ..

theorem ofNat_near {a b : Nat} (le : a ≤ b) (near : b < a + 2 ^ 16)
    (same : UInt16.ofNat a = UInt16.ofNat b) : a = b := by
  have := congrArg UInt16.toNat same
  rw [UInt16.toNat_ofNat', UInt16.toNat_ofNat'] at this
  omega

theorem ofNat_mod {size : Nat} (divides : size ∣ 2 ^ 16) (n : Nat) :
    (UInt16.ofNat n).toNat % size = n % size := by
  rw [UInt16.toNat_ofNat', Nat.mod_mod_of_dvd n divides]

theorem mod_near {size a b : Nat} (le : a ≤ b) (near : b < a + size)
    (same : a % size = b % size) : a = b := by
  have gap : (b - a) % size = 0 := by
    rw [← Nat.sub_mod_eq_zero_of_mod_eq same.symm]
  rw [Nat.mod_eq_of_lt (by omega)] at gap
  omega

theorem range_le {α : Type} {lo hi size : Nat} (owns : Nat → α → Prop) (item : α → Nat)
    (each : ∀ n, lo ≤ n → n < hi → ∃ x, owns n x ∧ item x < size)
    (apart : ∀ n m x y, owns n x → owns m y → item x = item y → n = m) :
    hi - lo ≤ size := by
  classical
  have chosen (n : Nat) : ∃ k, lo ≤ n → n < hi → k < size ∧ ∃ x, owns n x ∧ item x = k := by
    by_cases inside : lo ≤ n ∧ n < hi
    · obtain ⟨x, owned, small⟩ := each n inside.1 inside.2
      exact ⟨item x, fun _ _ => ⟨small, x, owned, rfl⟩⟩
    · exact ⟨0, fun above below => absurd ⟨above, below⟩ inside⟩
  choose pick picked using chosen
  have card := Finset.card_le_card_of_injOn (s := Finset.Ico lo hi) (t := Finset.range size)
    pick ?_ ?_
  · simpa using card
  · intro n inside
    have inside := Finset.mem_Ico.mp inside
    exact Finset.mem_coe.mpr (Finset.mem_range.mpr (picked n inside.1 inside.2).1)
  · intro n inside m inside' same
    have inside := Finset.mem_Ico.mp inside
    have inside' := Finset.mem_Ico.mp inside'
    obtain ⟨_, x, owned, rfl'⟩ := picked n inside.1 inside.2
    obtain ⟨_, y, owned', rfl''⟩ := picked m inside'.1 inside'.2
    exact apart n m x y owned owned' (by rw [rfl', rfl'', same])

end Metal.Lib
