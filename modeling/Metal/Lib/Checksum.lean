import Metal.Lib.Words

namespace Metal.Lib

/-! Sums of the 16-bit words of a buffer and their folding to 16 bits: what the ones'
complement checksum of a buffer says about its bytes. -/

/-- The words of a buffer added up, a last odd byte as the high half of a word. -/
def wordSum : Bytes → Nat
  | [] => 0
  | [a] => a.toNat * 256
  | a :: b :: rest => a.toNat * 256 + b.toNat + wordSum rest

def weight (i : Nat) : Nat := if i % 2 = 0 then 256 else 1

@[simp] theorem weight_zero : weight 0 = 256 := rfl

@[simp] theorem weight_one : weight 1 = 1 := rfl

@[simp] theorem weight_add_two (i : Nat) : weight (i + 2) = weight i := by
  simp [weight]

theorem weight_sub {i k : Nat} (above : k ≤ i) (even : k % 2 = 0) :
    weight (i - k) = weight i := by
  have same : (i - k) % 2 = i % 2 := by omega
  rw [weight, weight, same]

theorem wordSum_le (p : Bytes) : wordSum p ≤ 65535 * (p.length / 2 + p.length % 2) := by
  induction p using wordSum.induct with
  | case1 => exact Nat.le_refl 0
  | case2 a =>
      have below := a.toNat_lt
      simp only [wordSum, List.length_cons, List.length_nil]
      omega
  | case3 a b rest ih =>
      have high := a.toNat_lt
      have low := b.toNat_lt
      simp only [wordSum, List.length_cons]
      omega

theorem wordSum_set (p : Bytes) {i : Nat} (inside : i < p.length) (b : UInt8) :
    wordSum (p.set i b) + weight i * (p.getD i 0).toNat =
      wordSum p + weight i * b.toNat := by
  induction p using wordSum.induct generalizing i with
  | case1 => exact absurd inside (Nat.not_lt_zero i)
  | case2 a =>
      obtain rfl : i = 0 := by simpa using inside
      simp only [List.set_cons_zero, wordSum, weight_zero, List.getD_cons_zero]
      omega
  | case3 a c rest ih =>
      match i with
      | 0 =>
          simp only [List.set_cons_zero, wordSum, weight_zero, List.getD_cons_zero]
          omega
      | 1 =>
          simp only [List.set_cons_succ, List.set_cons_zero, wordSum, weight_one,
            List.getD_cons_succ, List.getD_cons_zero]
          omega
      | i + 2 =>
          have shorter := ih (i := i) (by simpa using inside)
          simp only [List.set_cons_succ, wordSum, weight_add_two, List.getD_cons_succ]
          omega

/-- Two bytes with the same weight that both keep the sum modulo 65535 are equal: no
single byte can change unseen. -/
theorem byte_seen {i s t : Nat} {a b : UInt8} (moved : t + weight i * a.toNat =
    s + weight i * b.toNat) (before : 65535 ∣ s) (after : 65535 ∣ t) : a = b := by
  have first := a.toNat_lt
  have second := b.toNat_lt
  obtain ⟨j, rfl⟩ := before
  obtain ⟨k, rfl⟩ := after
  apply UInt8.toNat_inj.mp
  unfold weight at moved
  split at moved <;> omega

def foldCarry (s : Nat) : Nat :=
  if s < 65536 then s else foldCarry (s % 65536 + s / 65536)
termination_by s

theorem foldCarry_lt (s : Nat) : foldCarry s < 65536 := by
  induction s using foldCarry.induct with
  | case1 s small => rwa [foldCarry, if_pos small]
  | case2 s large ih => rwa [foldCarry, if_neg large]

theorem foldCarry_mod (s : Nat) : foldCarry s % 65535 = s % 65535 := by
  induction s using foldCarry.induct with
  | case1 s small => rw [foldCarry, if_pos small]
  | case2 s large ih =>
      rw [foldCarry, if_neg large, ih]
      omega

theorem foldCarry_pos {s : Nat} (positive : 0 < s) : 0 < foldCarry s := by
  induction s using foldCarry.induct with
  | case1 s small => rwa [foldCarry, if_pos small]
  | case2 s large ih =>
      rw [foldCarry, if_neg large]
      exact ih (by omega)

theorem foldCarry_eq_ones {s : Nat} (positive : 0 < s) : foldCarry s = 65535 ↔ 65535 ∣ s := by
  have below := foldCarry_lt s
  have above := foldCarry_pos positive
  have same := foldCarry_mod s
  omega

end Metal.Lib
