import Mathlib.Data.Nat.Bitwise

namespace Metal.Lib

/-! Rounding 64-bit words to a multiple of 4096 by a mask. -/

theorem and_page_mask {y : Nat} (fits : y < 2 ^ 64) :
    y &&& (2 ^ 64 - 4096) = y / 4096 * 4096 := by
  have mask : 2 ^ 64 - 4096 = (2 ^ 52 - 1) * 2 ^ 12 := by decide
  have page : 4096 = 2 ^ 12 := rfl
  apply Nat.eq_of_testBit_eq
  intro i
  rw [mask, page, Nat.testBit_and, Nat.testBit_mul_two_pow, Nat.testBit_mul_two_pow,
    Nat.testBit_div_two_pow, Nat.testBit_two_pow_sub_one]
  by_cases low : 12 ≤ i
  · rw [Nat.sub_add_cancel low]
    by_cases high : i < 64
    · have inside : i - 12 < 52 := by omega
      simp [low, inside]
    · have above : y.testBit i = false :=
        Nat.testBit_lt_two_pow (lt_of_lt_of_le fits
          (Nat.pow_le_pow_right (by decide) (Nat.le_of_not_lt high)))
      simp [above]
  · simp [low]

theorem toNat_page_up (x : UInt64) :
    ((x + (4096 - 1)) &&& ~~~(4096 - 1)).toNat =
      if x.toNat ≤ 2 ^ 64 - 4096 then (x.toNat + 4095) / 4096 * 4096 else 0 := by
  have fits := x.toNat_lt
  have mask : (~~~(4096 - 1) : UInt64).toNat = 2 ^ 64 - 4096 := by decide
  have sum : (x + (4096 - 1)).toNat = (x.toNat + 4095) % 2 ^ 64 := by
    rw [UInt64.toNat_add]
    rfl
  rw [UInt64.toNat_and, mask, sum, and_page_mask (Nat.mod_lt _ (by decide))]
  split
  · rw [Nat.mod_eq_of_lt (by omega)]
  · omega

end Metal.Lib
