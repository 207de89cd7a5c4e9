import Mathlib.Data.Nat.Digits.Lemmas
import Metal.Lib.Words

namespace Metal.Lib

/-! Numbers of any size as bytes, least significant byte first. -/

def leNat (p : Bytes) : Nat := Nat.ofDigits 256 (p.map UInt8.toNat)

/-- The first `count` bytes of a number. -/
def natLe : (count n : Nat) → Bytes
  | 0, _ => []
  | count + 1, n => UInt8.ofNat n :: natLe count (n / 256)

@[simp] theorem leNat_nil : leNat [] = 0 := rfl

theorem leNat_cons (byte : UInt8) (p : Bytes) : leNat (byte :: p) = byte.toNat + 256 * leNat p :=
  Nat.ofDigits_cons

theorem leNat_append (p q : Bytes) : leNat (p ++ q) = leNat p + 256 ^ p.length * leNat q := by
  rw [leNat, List.map_append, Nat.ofDigits_append, List.length_map]
  rfl

theorem leNat_lt (p : Bytes) : leNat p < 256 ^ p.length := by
  induction p with
  | nil => decide
  | cons byte rest ih =>
      have below := byte.toNat_lt
      rw [leNat_cons, List.length_cons, Nat.pow_succ]
      omega

theorem leNat_zeros (count : Nat) : leNat (List.replicate count 0) = 0 := by
  induction count with
  | zero => rfl
  | succ count ih =>
      rw [List.replicate_succ, leNat_cons, ih]
      rfl

theorem leNat_take (p : Bytes) (k : Nat) : leNat (p.take k) = leNat p % 256 ^ k := by
  induction k generalizing p with
  | zero => rw [List.take_zero, Nat.pow_zero, Nat.mod_one, leNat_nil]
  | succ k ih =>
      cases p with
      | nil => rw [List.take_nil, leNat_nil, Nat.zero_mod]
      | cons byte rest =>
          have below := byte.toNat_lt
          have high : (byte.toNat + 256 * leNat rest) / 256 = leNat rest := by omega
          rw [List.take_succ_cons, leNat_cons, leNat_cons, ih, Nat.pow_succ,
            Nat.mul_comm _ 256, Nat.mod_mul, high]
          omega

theorem leNat_drop (p : Bytes) (k : Nat) : leNat (p.drop k) = leNat p / 256 ^ k := by
  induction k generalizing p with
  | zero => rw [List.drop_zero, Nat.pow_zero, Nat.div_one]
  | succ k ih =>
      cases p with
      | nil => rw [List.drop_nil, leNat_nil, Nat.zero_div]
      | cons byte rest =>
          have below := byte.toNat_lt
          rw [List.drop_succ_cons, ih, leNat_cons, Nat.pow_succ, Nat.mul_comm _ 256,
            ← Nat.div_div_eq_div_mul]
          congr 1
          omega

@[simp] theorem length_natLe (count n : Nat) : (natLe count n).length = count := by
  induction count generalizing n with
  | zero => rfl
  | succ count ih => rw [natLe, List.length_cons, ih]

theorem leNat_natLe (count n : Nat) : leNat (natLe count n) = n % 256 ^ count := by
  induction count generalizing n with
  | zero => rw [natLe, leNat_nil, Nat.pow_zero, Nat.mod_one]
  | succ count ih =>
      rw [natLe, leNat_cons, ih, Nat.pow_succ, Nat.mul_comm _ 256, Nat.mod_mul,
        UInt8.toNat_ofNat']

theorem leNat_inj {p q : Bytes} (length : p.length = q.length) (same : leNat p = leNat q) :
    p = q := by
  induction p generalizing q with
  | nil => exact (List.eq_nil_of_length_eq_zero length.symm).symm
  | cons x p ih =>
      cases q with
      | nil => cases length
      | cons y q =>
          have left := x.toNat_lt
          have right := y.toNat_lt
          rw [leNat_cons, leNat_cons] at same
          rw [UInt8.toNat_inj.mp (show x.toNat = y.toNat by omega),
            ih (Nat.succ.inj length) (by omega)]

theorem natLe_append (count more n : Nat) :
    natLe (count + more) n = natLe count n ++ natLe more (n / 256 ^ count) := by
  apply leNat_inj
  · rw [List.length_append, length_natLe, length_natLe, length_natLe]
  · rw [leNat_append, leNat_natLe, leNat_natLe, leNat_natLe, length_natLe, Nat.pow_add,
      Nat.mod_mul]

theorem natLe_mod (count n : Nat) : natLe count (n % 256 ^ count) = natLe count n :=
  leNat_inj (by rw [length_natLe, length_natLe])
    (by rw [leNat_natLe, leNat_natLe, Nat.mod_mod])

theorem natLe_digit (more x y : Nat) :
    natLe (4 + more) (x + 2 ^ 32 * y) = natLe 4 x ++ natLe more (y + x / 2 ^ 32) := by
  have low : (x + 2 ^ 32 * y) % 256 ^ 4 = x % 256 ^ 4 := Nat.add_mul_mod_self_left x (256 ^ 4) y
  have high : (x + 2 ^ 32 * y) / 256 ^ 4 = y + x / 2 ^ 32 := by
    rw [Nat.add_comm]
    exact Nat.mul_add_div (by decide) y x
  rw [natLe_append, high, ← natLe_mod 4 (x + 2 ^ 32 * y), low, natLe_mod]

theorem natLe_carry (more x y c : Nat) : natLe (4 + more) (x + 2 ^ 32 * y + c) =
    natLe 4 (x + c) ++ natLe more (y + (x + c) / 2 ^ 32) := by
  rw [Nat.add_right_comm, natLe_digit]

theorem leU32_eq_beU32 (p : Bytes) :
    leU32 p = beU32 [p.getD 3 0, p.getD 2 0, p.getD 1 0, p.getD 0 0] := by
  change (p.getD 0 0).toUInt32 ||| (p.getD 1 0).toUInt32 <<< 8 |||
      (p.getD 2 0).toUInt32 <<< 16 ||| (p.getD 3 0).toUInt32 <<< 24 =
    (p.getD 3 0).toUInt32 <<< 24 ||| (p.getD 2 0).toUInt32 <<< 16 |||
      (p.getD 1 0).toUInt32 <<< 8 ||| (p.getD 0 0).toUInt32
  generalize (p.getD 0 0).toUInt32 = a
  generalize (p.getD 1 0).toUInt32 <<< 8 = b
  generalize (p.getD 2 0).toUInt32 <<< 16 = c
  generalize (p.getD 3 0).toUInt32 <<< 24 = d
  ac_rfl

theorem toNat_leU32 (p : Bytes) : (leU32 p).toNat = leNat p % 2 ^ 32 := by
  have below (i : Nat) : (p.getD i 0).toNat < 256 := (p.getD i 0).toNat_lt
  have first := below 0
  have second := below 1
  have third := below 2
  have fourth := below 3
  rw [leU32_eq_beU32, toNat_beU32]
  simp only [List.getD_cons_zero, List.getD_cons_succ]
  match p with
  | [] => rfl
  | [a] =>
      simp only [leNat_cons, leNat_nil, List.getD_cons_zero, List.getD_cons_succ, List.getD_nil,
        UInt8.toNat_zero] at first ⊢
      omega
  | [a, b] =>
      simp only [leNat_cons, leNat_nil, List.getD_cons_zero, List.getD_cons_succ, List.getD_nil,
        UInt8.toNat_zero] at first second ⊢
      omega
  | [a, b, c] =>
      simp only [leNat_cons, leNat_nil, List.getD_cons_zero, List.getD_cons_succ, List.getD_nil,
        UInt8.toNat_zero] at first second third ⊢
      omega
  | a :: b :: c :: d :: rest =>
      simp only [leNat_cons, List.getD_cons_zero, List.getD_cons_succ] at first second third fourth ⊢
      omega

theorem toNat_leU32_drop (p : Bytes) (k : Nat) :
    (leU32 (p.drop k)).toNat = leNat p / 256 ^ k % 2 ^ 32 := by
  rw [toNat_leU32, leNat_drop]

theorem leBytes32_eq (v : UInt32) : leBytes32 v = natLe 4 v.toNat := by
  apply leNat_inj (by rw [length_leBytes32, length_natLe])
  have below := v.toNat_lt
  have read := toNat_leU32 (leBytes32 v ++ [])
  rw [leU32_leBytes32, List.append_nil] at read
  have small := leNat_lt (leBytes32 v)
  rw [length_leBytes32] at small
  rw [leNat_natLe, read]
  omega

theorem leBytes64_eq (v : UInt64) : leBytes64 v = natLe 8 v.toNat := by
  rw [leBytes64, leBytes32_eq, leBytes32_eq, natLe_append 4 4, ← natLe_mod 4 v.toNat]
  congr 2
  rw [UInt64.toNat_toUInt32, UInt64.toNat_shiftRight, Nat.shiftRight_eq_div_pow]
  have below := v.toNat_lt
  change v.toNat / 2 ^ 32 % 2 ^ 32 = v.toNat / 256 ^ 4
  omega

end Metal.Lib
