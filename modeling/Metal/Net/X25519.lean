import Metal.Lib.Curve25519
import Metal.Lib.Endian
import Metal.Net.Handshake

namespace Metal.Net.Wg

open Metal.Lib

/-! `pm_metal_wg_x25519`. The numbers of mbedtls are integers, and its
operations exact; they fail only where there is no result. -/

def mpiReadBinary (be : Bytes) : Int := be.foldl (fun x byte => 256 * x + byte.toNat) 0

/-- `mbedtls_mpi_write_binary`: the buffer may be too small. -/
def mpiWriteBinary (x : Int) (count : Nat) : Option Bytes :=
  if x.natAbs < 256 ^ count then some (natLe count x.natAbs).reverse else none

def mpiInvMod (a n : Int) : Option Int :=
  if 1 < n ∧ Int.gcd a n = 1 then some (Int.gcdA a n % n) else none

def mpiFromLe32 (le : Key) : Int := mpiReadBinary le.toList.reverse

def mpiToLe32 (x : Int) : Option Key := do
  let be ← mpiWriteBinary x 32
  return keyOf be.reverse

def mpiAddMod (a b p : Int) : Int := (a + b) % p

/-- The loop of `mpi_sub_mod`; the modulus is positive. -/
def addWhileNegative (p tmp : Int) : Int :=
  if tmp < 0 ∧ 0 < p then addWhileNegative p (tmp + p) else tmp
  termination_by (-tmp).toNat

def mpiSubMod (a b p : Int) : Int := addWhileNegative p (a - b) % p

def mpiMulMod (a b p : Int) : Int := a * b % p

def mpiSqMod (a p : Int) : Int := a * a % p

def mpiP : Int := (1 <<< 255 : Nat) - 19

def mpiA24 : Int := 121665

structure Ladder where
  x2 : Int
  z2 : Int
  x3 : Int
  z3 : Int
  swap : Bool

def Ladder.exchange (s : Ladder) : Ladder :=
  { s with x2 := s.x3, z2 := s.z3, x3 := s.x2, z3 := s.z2 }

/-- The body of the loop, for the bit `kt`. -/
def Ladder.turn (x1 : Int) (s : Ladder) (kt : Bool) : Ladder :=
  let s := if s.swap ^^ kt then s.exchange else s
  let A := mpiAddMod s.x2 s.z2 mpiP
  let AA := mpiSqMod A mpiP
  let B := mpiSubMod s.x2 s.z2 mpiP
  let BB := mpiSqMod B mpiP
  let E := mpiSubMod AA BB mpiP
  let C := mpiAddMod s.x3 s.z3 mpiP
  let D := mpiSubMod s.x3 s.z3 mpiP
  let DA := mpiMulMod D A mpiP
  let CB := mpiMulMod C B mpiP
  let x3 := mpiSqMod (mpiAddMod DA CB mpiP) mpiP
  let z3 := mpiMulMod x1 (mpiSqMod (mpiSubMod DA CB mpiP) mpiP) mpiP
  let x2 := mpiMulMod AA BB mpiP
  let z2 := mpiMulMod E (mpiAddMod AA (mpiMulMod mpiA24 E mpiP) mpiP) mpiP
  { x2, z2, x3, z3, swap := kt }

def keyBit (k : Key) (i : Nat) : Bool :=
  (k.toList.getD (i / 8) 0 >>> UInt8.ofNat (i &&& 7)) &&& 1 = 1

/-- The loop from the bit `count - 1` down. -/
def Ladder.run (k : Key) (x1 : Int) : (count : Nat) → Ladder → Ladder
  | 0, s => s
  | i + 1, s => Ladder.run k x1 i (s.turn x1 (keyBit k i))

def clamp (scalar : Key) : Key :=
  let k := scalar.set 0 (scalar[0] &&& 248)
  k.set 31 ((k[31] &&& 127) ||| 64)

def x25519 (scalar u : Key) : Option Key := do
  let k := clamp scalar
  let x1 := mpiFromLe32 (u.set 31 (u[31] &&& 127)) % mpiP
  let s := Ladder.run k x1 255 { x2 := 1, z2 := 0, x3 := x1, z3 := 1, swap := false }
  let s := if s.swap then s.exchange else s
  let t ← mpiInvMod s.z2 mpiP
  mpiToLe32 (mpiMulMod s.x2 t mpiP)

def x25519Base (before scalar : Key) : Key := (x25519 scalar nine).getD before

theorem mpiReadBinary_reverse (le : Bytes) : mpiReadBinary le.reverse = leNat le := by
  rw [mpiReadBinary, List.foldl_reverse]
  induction le with
  | nil => rfl
  | cons byte rest ih =>
      rw [List.foldr_cons, ih, leNat_cons]
      push_cast
      ring

theorem keyOf_toList {bytes : Bytes} (length : bytes.length = 32) :
    (keyOf bytes).toList = bytes := by
  rw [keyOf, Vector.toList_ofFn]
  apply List.ext_getElem
  · rw [List.length_ofFn, length]
  · intro i inside below
    rw [List.getElem_ofFn, List.getD_eq_getElem?_getD, List.getElem?_eq_getElem below,
      Option.getD_some]

theorem mpiToLe32_eq {x : Int} (nonneg : 0 ≤ x) (small : x < 256 ^ 32) :
    ∃ out, mpiToLe32 x = some out ∧ leNat out.toList = x := by
  lift x to Nat using nonneg
  have small : x < 256 ^ 32 := by exact_mod_cast small
  refine ⟨keyOf (natLe 32 x), ?_, ?_⟩
  · rw [mpiToLe32, mpiWriteBinary, Int.natAbs_natCast, if_pos small, Option.bind_eq_bind,
      Option.bind_some, List.reverse_reverse, Option.pure_def]
  · rw [keyOf_toList (length_natLe 32 x), leNat_natLe, Nat.mod_eq_of_lt small]

theorem testBit_leNat (p : Bytes) (i : Nat) :
    (leNat p).testBit i = (p.getD (i / 8) 0).toNat.testBit (i % 8) := by
  have power : 256 ^ (i / 8) = 2 ^ (8 * (i / 8)) := by rw [Nat.pow_mul]
  have from_ : (leNat p).testBit i = (leNat (p.drop (i / 8))).testBit (i % 8) := by
    rw [leNat_drop, power, Nat.testBit_div_two_pow, Nat.mod_add_div]
  rw [from_, List.getD_eq_getElem?_getD, ← List.head?_drop]
  cases p.drop (i / 8) with
  | nil => rfl
  | cons byte rest =>
      rw [leNat_cons, Nat.add_comm]
      have inside : i % 8 < 8 := Nat.mod_lt i (by decide)
      rw [Nat.testBit_two_pow_mul_add (i := 8) _ byte.toNat_lt, if_pos inside]
      rfl

theorem keyBit_eq (k : Key) (i : Nat) : keyBit k i = (leNat k.toList).testBit i := by
  have turn : (UInt8.ofNat (i &&& 7)).toNat % 8 = i % 8 := by
    rw [show (7 : Nat) = 2 ^ 3 - 1 from rfl, Nat.and_two_pow_sub_one_eq_mod, UInt8.toNat_ofNat']
    omega
  rw [testBit_leNat, keyBit, Nat.testBit_eq_decide_div_mod_eq, decide_eq_decide,
    ← UInt8.toNat_inj, UInt8.toNat_and, UInt8.toNat_shiftRight, turn, Nat.shiftRight_eq_div_pow]
  exact (congrArg (· = 1) (Nat.and_one_is_mod _)).to_iff

def multiplier (scalar : Key) : Nat := leNat (clamp scalar).toList

theorem leNat_first (le : Key) : leNat le.toList % 256 = le[0].toNat := by
  have length : 0 < le.toList.length := by
    rw [Vector.length_toList]
    decide
  have cut : le.toList = le[0] :: le.toList.drop 1 := by
    rw [← Vector.getElem_toList length, List.getElem_cons_drop, List.drop_zero]
  rw [cut, leNat_cons, Nat.add_mul_mod_self_left, Nat.mod_eq_of_lt le[0].toNat_lt]

theorem leNat_last (le : Key) : leNat le.toList / 256 ^ 31 = le[31].toNat := by
  have length : 31 < le.toList.length := by
    rw [Vector.length_toList]
    decide
  have past : le.toList.length ≤ 31 + 1 := by
    rw [Vector.length_toList]
  rw [← leNat_drop, List.drop_eq_getElem_cons length, List.drop_of_length_le past, leNat_cons,
    leNat_nil, Nat.mul_zero, Nat.add_zero, Vector.getElem_toList]

theorem leNat_set (le : Key) (byte : UInt8) :
    leNat (le.set 31 byte).toList = leNat le.toList % 256 ^ 31 + 256 ^ 31 * byte.toNat := by
  have low : leNat (le.set 31 byte).toList % 256 ^ 31 = leNat le.toList % 256 ^ 31 := by
    rw [← leNat_take, ← leNat_take, Vector.toList_set, List.take_set_of_le (Nat.le_refl 31)]
  have high : leNat (le.set 31 byte).toList / 256 ^ 31 = byte.toNat := by
    rw [leNat_last, Vector.getElem_set_self]
  rw [← low, ← high, Nat.mod_add_div]

theorem multiplier_dvd (scalar : Key) : 8 ∣ multiplier scalar := by
  have first : (clamp scalar)[0] = scalar[0] &&& 248 := by
    rw [clamp, Vector.getElem_set_ne _ _ (by decide), Vector.getElem_set_self]
  have byte : multiplier scalar % 256 % 8 = 0 := by
    rw [multiplier, leNat_first, first, UInt8.toNat_and]
    exact (Nat.and_mod_two_pow (n := 3)).trans (Nat.and_zero _)
  omega

theorem multiplier_bounds (scalar : Key) :
    2 ^ 254 ≤ multiplier scalar ∧ multiplier scalar < 2 ^ 255 := by
  have last : multiplier scalar / 256 ^ 31 = (scalar[31].toNat &&& 127) ||| 64 := by
    rw [multiplier, leNat_last, clamp, Vector.getElem_set_self,
      Vector.getElem_set_ne _ _ (by decide), UInt8.toNat_or, UInt8.toNat_and]
    rfl
  have low : 64 ≤ multiplier scalar / 256 ^ 31 := last ▸ Nat.right_le_or
  have high : multiplier scalar / 256 ^ 31 < 128 :=
    last ▸ Nat.or_lt_two_pow (n := 7) (Nat.and_lt_two_pow _ (by decide)) (by decide)
  have split := Nat.mod_add_div (multiplier scalar) (256 ^ 31)
  have rest := Nat.mod_lt (multiplier scalar) (y := 256 ^ 31) (by decide)
  omega

section Field

open Curve25519

theorem mpiP_eq : mpiP = (p : Int) := by decide

@[simp] theorem cast_mod (x : Int) : ((x % mpiP : Int) : F) = x := by
  rw [mpiP_eq]
  exact ZMod.intCast_mod x p

theorem cast_addWhileNegative (tmp : Int) : (addWhileNegative mpiP tmp : F) = tmp := by
  fun_induction addWhileNegative mpiP tmp with
  | case1 tmp negative ih =>
      have zero : ((p : Int) : F) = 0 := by rw [Int.cast_natCast, ZMod.natCast_self]
      rw [ih, Int.cast_add, mpiP_eq, zero, add_zero]
  | case2 => rfl

@[simp] theorem cast_mpiAddMod (a b : Int) : (mpiAddMod a b mpiP : F) = a + b := by
  rw [mpiAddMod, cast_mod, Int.cast_add]

@[simp] theorem cast_mpiSubMod (a b : Int) : (mpiSubMod a b mpiP : F) = a - b := by
  rw [mpiSubMod, cast_mod, cast_addWhileNegative, Int.cast_sub]

@[simp] theorem cast_mpiMulMod (a b : Int) : (mpiMulMod a b mpiP : F) = a * b := by
  rw [mpiMulMod, cast_mod, Int.cast_mul]

@[simp] theorem cast_mpiSqMod (a : Int) : (mpiSqMod a mpiP : F) = a * a := by
  rw [mpiSqMod, cast_mod, Int.cast_mul]

def Ladder.rungs (s : Ladder) : Montgomery.Rungs F := ⟨⟨s.x2, s.z2⟩, ⟨s.x3, s.z3⟩, s.swap⟩

theorem Ladder.rungs_turn (x1 : Int) (s : Ladder) (kt : Bool) :
    (s.turn x1 kt).rungs = s.rungs.turn a24 x1 kt := by
  have constant : ((mpiA24 : Int) : F) = a24 := by
    rw [mpiA24, a24]
    norm_num
  have order : (if s.swap ^^ kt then s.exchange else s).rungs =
      if s.rungs.swapped != kt then s.rungs.swap else s.rungs := by
    rw [Bool.bne_eq_xor]
    exact apply_ite Ladder.rungs _ _ _
  rw [Ladder.turn, Montgomery.Rungs.turn, ← order]
  generalize (if s.swap ^^ kt then s.exchange else s) = t
  simp only [Ladder.rungs, Montgomery.double, Montgomery.diffAdd, cast_mpiAddMod, cast_mpiSubMod,
    cast_mpiMulMod, cast_mpiSqMod, constant]

theorem Ladder.rungs_run (k : Key) (x1 : Int) (count : Nat) (s : Ladder) :
    (Ladder.run k x1 count s).rungs =
      (Binary.highFirst (leNat k.toList) count).foldl (Montgomery.Rungs.turn a24 (x1 : F))
        s.rungs := by
  induction count generalizing s with
  | zero => rfl
  | succ i ih =>
      rw [Ladder.run, ih, Ladder.rungs_turn, keyBit_eq, Binary.highFirst, List.foldl_cons]

/-- The `u` that a buffer stands for; its highest bit does not count. -/
def coordinate (u : Key) : F := (leNat u.toList % 2 ^ 255 : Nat)

theorem coordinate_eq (u : Key) :
    ((mpiFromLe32 (u.set 31 (u[31] &&& 127)) % mpiP : Int) : F) = coordinate u := by
  have byte : (u[31] &&& 127).toNat = leNat u.toList / 256 ^ 31 % 2 ^ 7 := by
    rw [leNat_last, UInt8.toNat_and]
    exact Nat.and_two_pow_sub_one_eq_mod _ 7
  have masked : leNat (u.set 31 (u[31] &&& 127)).toList = leNat u.toList % 2 ^ 255 := by
    rw [leNat_set, byte, show 2 ^ 255 = 256 ^ 31 * 2 ^ 7 by norm_num, Nat.mod_mul]
  rw [cast_mod, mpiFromLe32, mpiReadBinary_reverse, masked, coordinate, Int.cast_natCast]

theorem coordinate_of_lt {u : Key} (reduced : leNat u.toList < p) :
    coordinate u = (leNat u.toList : F) := by
  have small : leNat u.toList < 2 ^ 255 := Nat.lt_trans reduced (by decide)
  rw [coordinate, Nat.mod_eq_of_lt small]

theorem mpiInvMod_zero {z : Int} (zero : (z : F) = 0) : mpiInvMod z mpiP = none := by
  have divides : (p : Int) ∣ z := (ZMod.intCast_zmod_eq_zero_iff_dvd z p).mp zero
  have gcd : Int.gcd z p = p := Nat.gcd_eq_right (Int.natCast_dvd.mp divides)
  rw [mpiInvMod, mpiP_eq, gcd]
  exact if_neg fun one => prime_p.one_lt.ne' one.2

theorem mpiInvMod_inv {z : Int} (nonzero : (z : F) ≠ 0) :
    ∃ t, mpiInvMod z mpiP = some t ∧ (t : F) = (z : F)⁻¹ := by
  have indivisible : ¬ (p : Int) ∣ z := fun divides =>
    nonzero ((ZMod.intCast_zmod_eq_zero_iff_dvd z p).mpr divides)
  have coprime : Int.gcd z mpiP = 1 := by
    rw [mpiP_eq, Int.gcd_comm]
    exact prime_p.coprime_iff_not_dvd.mpr fun divides => indivisible (Int.natCast_dvd.mpr divides)
  have large : 1 < mpiP := by
    rw [mpiP_eq]
    exact_mod_cast prime_p.one_lt
  refine ⟨_, if_pos ⟨large, coprime⟩, ?_⟩
  have bezout : ((Int.gcd z mpiP : Int) : F) = (z * Int.gcdA z mpiP + mpiP * Int.gcdB z mpiP : Int) :=
    congrArg _ (Int.gcd_eq_gcd_ab z mpiP)
  have zero : ((mpiP : Int) : F) = 0 := by rw [mpiP_eq, Int.cast_natCast, ZMod.natCast_self]
  rw [coprime, Int.cast_add, Int.cast_mul, Int.cast_mul, zero, zero_mul, add_zero,
    Int.cast_natCast, Nat.cast_one] at bezout
  rw [cast_mod]
  exact eq_inv_of_mul_eq_one_right bezout.symm

theorem x25519_ladder (scalar u : Key) :
    let r := Montgomery.ladder a24 (coordinate u) (Binary.highFirst (multiplier scalar) 255)
    (r.z = 0 → x25519 scalar u = none) ∧
      (r.z ≠ 0 → ∃ out, x25519 scalar u = some out ∧ leNat out.toList < p ∧
        (leNat out.toList : F) = r.x / r.z) := by
  intro r
  let x1 := mpiFromLe32 (u.set 31 (u[31] &&& 127)) % mpiP
  let last := Ladder.run (clamp scalar) x1 255
    { x2 := 1, z2 := 0, x3 := x1, z3 := 1, swap := false }
  let s := if last.swap then last.exchange else last
  have code : x25519 scalar u =
      (mpiInvMod s.z2 mpiP).bind fun t => mpiToLe32 (mpiMulMod s.x2 t mpiP) := rfl
  have start : Ladder.rungs { x2 := 1, z2 := 0, x3 := x1, z3 := 1, swap := false } =
      Montgomery.Rungs.start (coordinate u) := by
    simp only [Ladder.rungs, Montgomery.Rungs.start, x1, coordinate_eq, Int.cast_one, Int.cast_zero]
  have reached : last.rungs.settle.low = r := by
    rw [Ladder.rungs_run, start]
    simp only [r, Montgomery.ladder, multiplier, x1, coordinate_eq]
  have settled : (⟨s.x2, s.z2⟩ : Montgomery.Ratio F) = r := by
    rw [← reached]
    exact (apply_ite (fun t : Ladder => t.rungs.low) _ _ _).trans
      (apply_ite Montgomery.Rungs.low _ _ _).symm
  rw [code, ← settled]
  clear_value s
  refine ⟨fun zero => ?_, fun nonzero => ?_⟩
  · rw [mpiInvMod_zero zero, Option.bind_none]
  · obtain ⟨t, inverse, value⟩ := mpiInvMod_inv nonzero
    have positive : 0 < mpiP := by decide
    have nonneg : 0 ≤ mpiMulMod s.x2 t mpiP := Int.emod_nonneg _ positive.ne'
    have reduced : mpiMulMod s.x2 t mpiP < mpiP := Int.emod_lt_of_pos _ positive
    obtain ⟨out, written, number⟩ := mpiToLe32_eq nonneg
      (Int.lt_trans reduced (by decide))
    refine ⟨out, by rw [inverse, Option.bind_some, written], ?_, ?_⟩
    · rw [← number, mpiP_eq] at reduced
      exact Int.ofNat_lt.mp reduced
    · rw [← Int.cast_natCast, number, cast_mpiMulMod, value, div_eq_mul_inv]

theorem read_bits (n : Nat) : Binary.highFirst n 255 ≠ [] := List.cons_ne_nil _ _

theorem value_multiplier (scalar : Key) :
    Binary.value (Binary.highFirst (multiplier scalar) 255) = multiplier scalar :=
  Binary.value_highFirst (multiplier_bounds scalar).2

/-- The exchange multiplies the point on the curve, and fails where the multiple
is at infinity. -/
theorem x25519_at (scalar : Key) {u : Key} {c : Point} (at_ : At (coordinate u) c) :
    (multiplier scalar • c = 0 → x25519 scalar u = none) ∧
      (multiplier scalar • c ≠ 0 → ∃ out, x25519 scalar u = some out ∧ leNat out.toList < p ∧
        At (leNat out.toList : F) (multiplier scalar • c)) := by
  have even : 2 ∣ Binary.value (Binary.highFirst (multiplier scalar) 255) := by
    rw [value_multiplier]
    exact Nat.dvd_trans (by decide) (multiplier_dvd scalar)
  have multiple := ladder_at at_ (read_bits (multiplier scalar)) even
  rw [value_multiplier] at multiple
  obtain ⟨fails, returns⟩ := x25519_ladder scalar u
  refine ⟨fun infinity => fails (multiple.1 infinity), fun finite => ?_⟩
  obtain ⟨nonzero, value⟩ := multiple.2 finite
  obtain ⟨out, result, reduced, number⟩ := returns nonzero
  exact ⟨out, result, reduced, number ▸ value⟩

theorem order_not_dvd (scalar : Key) : ¬ order ∣ multiplier scalar := by
  intro divides
  have coprime : Nat.Coprime 8 order := by decide
  have both : 8 * order ∣ multiplier scalar :=
    coprime.mul_dvd_of_dvd_of_dvd (multiplier_dvd scalar) divides
  obtain ⟨low, high⟩ := multiplier_bounds scalar
  have large : 2 ^ 255 < 8 * order := by decide
  have least := Nat.le_of_dvd (Nat.lt_of_lt_of_le (by decide) low) both
  exact absurd (Nat.lt_of_lt_of_le large least) (Nat.lt_asymm high)

theorem coordinate_nine : coordinate nine = 9 := by decide +kernel

theorem exists_base : ∃ b : Point, At (coordinate nine) b := exists_at _

theorem x25519_nine {b : Point} (base : At (coordinate nine) b) (secret : Key) :
    ∃ pub, x25519 secret nine = some pub ∧ At (coordinate pub) (multiplier secret • b) := by
  have finite : multiplier secret • b ≠ 0 := by
    rw [Ne, ← addOrderOf_dvd_iff_nsmul_eq_zero, order_base (coordinate_nine ▸ base)]
    exact order_not_dvd secret
  obtain ⟨pub, result, reduced, value⟩ := (x25519_at secret base).2 finite
  exact ⟨pub, result, coordinate_of_lt reduced ▸ value⟩

theorem x25519_shared {b : Point} (base : At (coordinate nine) b) (mine theirs : Key) {pub : Key}
    (known : At (coordinate pub) (multiplier theirs • b)) :
    ∃ dh, x25519 mine pub = some dh ∧ leNat dh.toList < p ∧
      At (leNat dh.toList : F) ((multiplier mine * multiplier theirs) • b) := by
  rw [mul_nsmul']
  refine (x25519_at mine known).2 ?_
  rw [← mul_nsmul', Ne, ← addOrderOf_dvd_iff_nsmul_eq_zero, order_base (coordinate_nine ▸ base)]
  intro divides
  rcases prime_order.dvd_mul.mp divides with first | second
  · exact order_not_dvd mine first
  · exact order_not_dvd theirs second

theorem eq_of_at {first second : Key} {c : Point} (below : leNat first.toList < p)
    (below' : leNat second.toList < p) (at_ : At (leNat first.toList : F) c)
    (at' : At (leNat second.toList : F) c) : first = second := by
  have same : leNat first.toList = leNat second.toList := by
    have equal := (ZMod.natCast_eq_natCast_iff' _ _ p).mp (at_.unique at')
    rwa [Nat.mod_eq_of_lt below, Nat.mod_eq_of_lt below'] at equal
  exact Vector.toList_inj.mp
    (leNat_inj (by rw [Vector.length_toList, Vector.length_toList]) same)

theorem x25519_agrees : Agrees x25519 where
  base secret := by
    obtain ⟨b, base⟩ := exists_base
    obtain ⟨pub, result, _⟩ := x25519_nine base secret
    rw [result]
    rfl
  agree a b pubA pubB ofA ofB := by
    obtain ⟨base, at_⟩ := exists_base
    obtain ⟨pubA', resultA, publicA⟩ := x25519_nine at_ a
    obtain ⟨pubB', resultB, publicB⟩ := x25519_nine at_ b
    cases Option.some.inj (ofA.symm.trans resultA)
    cases Option.some.inj (ofB.symm.trans resultB)
    obtain ⟨dh, result, below, value⟩ := x25519_shared at_ a b publicB
    obtain ⟨dh', result', below', value'⟩ := x25519_shared at_ b a publicA
    rw [mul_comm] at value'
    exact ⟨dh, result, eq_of_at below' below value' value ▸ result'⟩

def knownPeers : State :=
  { boot with
    peer0 := ⟨true, Vector.replicate 32 1, Vector.replicate 32 2⟩
    peer1 := ⟨true, Vector.replicate 32 2, Vector.replicate 32 1⟩ }

theorem handshake_iff_known_x25519 : (handshake (card x25519) knownPeers).1 = 0 :=
  (handshake_iff_known x25519 x25519_agrees knownPeers).1.mpr ⟨rfl, rfl, rfl, rfl⟩

/-- Two secrets agree, whatever the buffers of the public keys held: for every
scalar and every `u`, the exchange finds the `u` of the clamped multiple. -/
theorem x25519_agreement :
    (∀ a b beforeA beforeB : Key, ∃ shared,
        x25519 a (x25519Base beforeB b) = some shared ∧
          x25519 b (x25519Base beforeA a) = some shared) ∧
      (∀ u : Key, ∃ c : Point, At (coordinate u) c) ∧
      ∀ (scalar u : Key) (c : Point), At (coordinate u) c →
        match x25519 scalar u with
        | none => multiplier scalar • c = 0
        | some out =>
            leNat out.toList < p ∧ At (leNat out.toList : F) (multiplier scalar • c) := by
  refine ⟨fun a b beforeA beforeB => ?_, fun u => exists_at _, fun scalar u c at_ => ?_⟩
  · obtain ⟨pubA, ofA⟩ := Option.isSome_iff_exists.mp (x25519_agrees.base a)
    obtain ⟨pubB, ofB⟩ := Option.isSome_iff_exists.mp (x25519_agrees.base b)
    rw [x25519Base, x25519Base, ofA, ofB]
    exact x25519_agrees.agree a b pubA pubB ofA ofB
  · obtain ⟨fails, returns⟩ := x25519_at scalar at_
    by_cases infinity : multiplier scalar • c = 0
    · rw [fails infinity]
      exact infinity
    · obtain ⟨out, result, reduced, value⟩ := returns infinity
      rw [result]
      exact ⟨reduced, value⟩

end Field

end Metal.Net.Wg
