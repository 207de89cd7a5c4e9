import Mathlib.NumberTheory.LucasPrimality

namespace Metal.Lib.Binary

/-! Walks along the bits of a number, the highest bit first, and what they
reach: powers modulo `m`, and with them certificates for primes. -/

/-- The bits `count - 1`, ..., `0` of a number. -/
def highFirst (n : Nat) : (count : Nat) → List Bool
  | 0 => []
  | count + 1 => n.testBit count :: highFirst n count

def value (bits : List Bool) : Nat := bits.foldl (fun n bit => 2 * n + bit.toNat) 0

theorem walk {σ : Type} (step : σ → Bool → σ) (holds : Nat → σ → Prop)
    (keeps : ∀ n s bit, holds n s → holds (2 * n + bit.toNat) (step s bit)) {s : σ} {n : Nat}
    (start : holds n s) (bits : List Bool) :
    holds (bits.foldl (fun n bit => 2 * n + bit.toNat) n) (bits.foldl step s) := by
  induction bits generalizing n s with
  | nil => exact start
  | cons bit rest ih => exact ih (keeps n s bit start)

theorem foldl_highFirst (n count front : Nat) :
    (highFirst n count).foldl (fun n bit => 2 * n + bit.toNat) front =
      front * 2 ^ count + n % 2 ^ count := by
  induction count generalizing front with
  | zero => rw [highFirst, List.foldl_nil, Nat.pow_zero, Nat.mul_one, Nat.mod_one, Nat.add_zero]
  | succ count ih =>
      rw [highFirst, List.foldl_cons, ih, Nat.pow_succ, Nat.mod_mul, Nat.toNat_testBit]
      ring

theorem value_highFirst {n count : Nat} (small : n < 2 ^ count) :
    value (highFirst n count) = n := by
  rw [value, foldl_highFirst, Nat.zero_mul, Nat.zero_add, Nat.mod_eq_of_lt small]

/-- `a ^ n % m`, for an exponent of at most `count` bits. -/
def powMod (count m a n : Nat) : Nat :=
  (highFirst n count).foldl (fun power bit => power * power * (if bit then a else 1) % m) (1 % m)

theorem powMod_eq {count n : Nat} (small : n < 2 ^ count) (m a : Nat) :
    powMod count m a n = a ^ n % m := by
  have walked := walk (fun power bit => power * power * (if bit then a else 1) % m)
    (fun n power => power = a ^ n % m)
    (fun n power bit reached => by
      subst reached
      have next : a ^ (2 * n + bit.toNat) = a ^ n * a ^ n * (if bit then a else 1) := by
        rw [Nat.pow_add, Nat.two_mul, Nat.pow_add]
        cases bit with
        | false => rfl
        | true => exact congrArg _ (Nat.pow_one a)
      rw [next]
      exact Nat.ModEq.mul (Nat.ModEq.mul (Nat.mod_modEq _ _) (Nat.mod_modEq _ _)) rfl)
    (s := 1 % m) (n := 0) rfl (highFirst n count)
  rw [powMod, walked]
  exact congrArg (a ^ · % m) (value_highFirst small)

/-- A number, a base whose powers tell it prime, and the prime factors of the
number before it. -/
structure Certificate where
  number : Nat
  base : Nat
  factors : List Nat

/-- The base has the order `number - 1`. -/
def Certificate.passes (known : List Nat) (c : Certificate) : Bool :=
  let count := c.number.log2 + 1
  1 < c.number ∧ c.factors.prod = c.number - 1 ∧
    powMod count c.number c.base (c.number - 1) = 1 ∧
    ∀ q ∈ c.factors, q ∈ known ∧ powMod count c.number c.base ((c.number - 1) / q) ≠ 1

def allPass : List Nat → List Certificate → Bool
  | _, [] => true
  | known, c :: rest => c.passes known && allPass (c.number :: known) rest

theorem prime_of_passes {known : List Nat} {c : Certificate}
    (primes : ∀ q ∈ known, q.Prime) (passes : c.passes known = true) : c.number.Prime := by
  obtain ⟨large, product, order, parts⟩ := of_decide_eq_true passes
  have power {n : Nat} (less : n ≤ c.number - 1) :
      ((c.base : ZMod c.number) ^ n = 1) ↔
        powMod (c.number.log2 + 1) c.number c.base n = 1 := by
    have small : n < 2 ^ (c.number.log2 + 1) :=
      Nat.lt_of_le_of_lt (Nat.le_trans less (Nat.sub_le _ _)) Nat.lt_log2_self
    rw [powMod_eq small, ← Nat.cast_pow, ← Nat.cast_one, ZMod.natCast_eq_natCast_iff',
      Nat.mod_eq_of_lt large]
  refine lucas_primality c.number c.base ((power (Nat.le_refl _)).mpr order) ?_
  intro q prime divides
  rw [← product] at divides
  obtain ⟨factor, member, divides⟩ := (Prime.dvd_prod_iff prime.prime).mp divides
  obtain ⟨known_, differs⟩ := parts factor member
  have same : q = factor := (Nat.prime_dvd_prime_iff_eq prime (primes factor known_)).mp divides
  rw [same]
  exact fun one => differs ((power (Nat.div_le_self _ _)).mp one)

theorem prime_of_allPass {known : List Nat} {certificates : List Certificate}
    (primes : ∀ q ∈ known, q.Prime) (pass : allPass known certificates = true)
    {c : Certificate} (member : c ∈ certificates) : c.number.Prime := by
  induction certificates generalizing known with
  | nil => cases member
  | cons first rest ih =>
      rw [allPass, Bool.and_eq_true] at pass
      have prime := prime_of_passes primes pass.1
      cases member with
      | head => exact prime
      | tail _ member =>
          refine ih (fun q known_ => ?_) pass.2 member
          cases known_ with
          | head => exact prime
          | tail _ known_ => exact primes q known_

end Metal.Lib.Binary
