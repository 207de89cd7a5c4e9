import Mathlib.Data.Nat.Bitwise
import Metal.Lib.CString

namespace Metal.Lib

/-! Fields of any width in a stream of bytes, least significant bit first. -/

def bitAt (bytes : Nat → UInt8) (pos : Nat) : Bool := (bytes (pos / 8)).toNat.testBit (pos % 8)

/-- The field of `width` bits that begins at bit `pos`. -/
def bitsAt (bytes : Nat → UInt8) (pos width : Nat) : Nat :=
  Nat.ofBits fun i : Fin width => bitAt bytes (pos + i)

/-- The number that `n` bytes from `offset` on are, least significant first. -/
def littleAt (bytes : Nat → UInt8) (offset : Nat) : Nat → Nat
  | 0 => 0
  | n + 1 => 2 ^ 8 * littleAt bytes (offset + 1) n + (bytes offset).toNat

theorem littleAt_lt (bytes : Nat → UInt8) (offset n : Nat) :
    littleAt bytes offset n < 2 ^ (8 * n) := by
  induction n generalizing offset with
  | zero => exact Nat.one_pos
  | succ n ih =>
      have rest := ih (offset + 1)
      have first := (bytes offset).toNat_lt
      rw [littleAt, Nat.mul_succ, Nat.pow_add]
      omega

theorem testBit_littleAt (bytes : Nat → UInt8) {n i : Nat} (offset : Nat) (inside : i < 8 * n) :
    (littleAt bytes offset n).testBit i = bitAt bytes (8 * offset + i) := by
  induction n generalizing offset i with
  | zero => omega
  | succ n ih =>
      rw [littleAt, Nat.testBit_two_pow_mul_add _ (bytes offset).toNat_lt]
      split
      case isTrue first =>
        rw [bitAt, Nat.mul_add_div (by decide), Nat.div_eq_of_lt first, Nat.add_zero,
          Nat.mul_add_mod, Nat.mod_eq_of_lt first]
      case isFalse later =>
        rw [ih (offset + 1) (by omega)]
        congr 1
        omega

theorem bitsAt_eq (bytes : Nat → UInt8) (offset : Nat) {shift width n : Nat}
    (inside : shift + width ≤ 8 * n) :
    bitsAt bytes (8 * offset + shift) width =
      (littleAt bytes offset n >>> shift) % 2 ^ width := by
  apply Nat.eq_of_testBit_eq
  intro i
  rw [bitsAt, Nat.testBit_ofBits, Nat.testBit_mod_two_pow, Nat.testBit_shiftRight]
  split
  case isTrue low =>
    rw [testBit_littleAt bytes offset (by omega), decide_eq_true low, Bool.true_and, Nat.add_assoc]
  case isFalse high =>
    rw [decide_eq_false high, Bool.false_and]

end Metal.Lib
