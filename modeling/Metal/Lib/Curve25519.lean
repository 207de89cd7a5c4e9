import Mathlib.FieldTheory.IsAlgClosed.AlgebraicClosure
import Metal.Lib.Montgomery

namespace Metal.Lib.Curve25519

open Montgomery

/-! Curve25519: `y² = x³ + 486662 x² + x` over the field of `2^255 - 19`
elements. Its points, and those of its twist, are taken over the algebraic
closure, where every `x` has one. -/

def p : Nat := 2 ^ 255 - 19

def order : Nat := 2 ^ 252 + 27742317777372353535851937790883648493

/-- Each prime of the chains that lead to `order` and to `p`. -/
def certificates : List Binary.Certificate :=
  [
    ⟨2, 1, []⟩,
    ⟨3, 2, [2]⟩,
    ⟨5, 2, [2, 2]⟩,
    ⟨7, 3, [2, 3]⟩,
    ⟨11, 2, [2, 5]⟩,
    ⟨13, 2, [2, 2, 3]⟩,
    ⟨17, 3, [2, 2, 2, 2]⟩,
    ⟨19, 2, [2, 3, 3]⟩,
    ⟨23, 5, [2, 11]⟩,
    ⟨29, 2, [2, 2, 7]⟩,
    ⟨31, 3, [2, 3, 5]⟩,
    ⟨37, 2, [2, 2, 3, 3]⟩,
    ⟨41, 6, [2, 2, 2, 5]⟩,
    ⟨43, 3, [2, 3, 7]⟩,
    ⟨47, 5, [2, 23]⟩,
    ⟨53, 2, [2, 2, 13]⟩,
    ⟨59, 2, [2, 29]⟩,
    ⟨67, 2, [2, 3, 11]⟩,
    ⟨73, 5, [2, 2, 2, 3, 3]⟩,
    ⟨79, 3, [2, 3, 13]⟩,
    ⟨83, 2, [2, 41]⟩,
    ⟨97, 5, [2, 2, 2, 2, 2, 3]⟩,
    ⟨103, 5, [2, 3, 17]⟩,
    ⟨107, 2, [2, 53]⟩,
    ⟨113, 3, [2, 2, 2, 2, 7]⟩,
    ⟨127, 3, [2, 3, 3, 7]⟩,
    ⟨131, 2, [2, 5, 13]⟩,
    ⟨173, 2, [2, 2, 43]⟩,
    ⟨223, 3, [2, 3, 37]⟩,
    ⟨239, 7, [2, 7, 17]⟩,
    ⟨269, 2, [2, 2, 67]⟩,
    ⟨307, 5, [2, 3, 3, 17]⟩,
    ⟨353, 3, [2, 2, 2, 2, 2, 11]⟩,
    ⟨419, 2, [2, 11, 19]⟩,
    ⟨479, 13, [2, 239]⟩,
    ⟨487, 3, [2, 3, 3, 3, 3, 3]⟩,
    ⟨991, 6, [2, 3, 3, 5, 11]⟩,
    ⟨1361, 3, [2, 2, 2, 2, 5, 17]⟩,
    ⟨1723, 3, [2, 3, 7, 41]⟩,
    ⟨2437, 2, [2, 2, 3, 7, 29]⟩,
    ⟨2551, 6, [2, 3, 5, 5, 17]⟩,
    ⟨2851, 2, [2, 3, 5, 5, 19]⟩,
    ⟨2939, 2, [2, 13, 113]⟩,
    ⟨3727, 3, [2, 3, 3, 3, 3, 23]⟩,
    ⟨3797, 2, [2, 2, 13, 73]⟩,
    ⟨4153, 5, [2, 2, 2, 3, 173]⟩,
    ⟨5879, 11, [2, 2939]⟩,
    ⟨9463, 3, [2, 3, 19, 83]⟩,
    ⟨17231, 13, [2, 5, 1723]⟩,
    ⟨22111, 6, [2, 3, 5, 11, 67]⟩,
    ⟨30703, 3, [2, 3, 7, 17, 43]⟩,
    ⟨32573, 2, [2, 2, 17, 479]⟩,
    ⟨34123, 2, [2, 3, 11, 11, 47]⟩,
    ⟨37853, 2, [2, 2, 9463]⟩,
    ⟨41081, 3, [2, 2, 2, 5, 13, 79]⟩,
    ⟨57467, 2, [2, 59, 487]⟩,
    ⟨65147, 2, [2, 32573]⟩,
    ⟨75707, 2, [2, 37853]⟩,
    ⟨82163, 2, [2, 41081]⟩,
    ⟨132049, 26, [2, 2, 2, 2, 3, 3, 7, 131]⟩,
    ⟨132667, 5, [2, 3, 22111]⟩,
    ⟨137849, 3, [2, 2, 2, 17231]⟩,
    ⟨409477, 2, [2, 2, 3, 34123]⟩,
    ⟨430751, 17, [2, 5, 5, 5, 1723]⟩,
    ⟨531581, 2, [2, 2, 5, 7, 3797]⟩,
    ⟨569003, 2, [2, 7, 97, 419]⟩,
    ⟨1224481, 13, [2, 2, 2, 2, 2, 3, 5, 2551]⟩,
    ⟨1923133, 2, [2, 2, 3, 43, 3727]⟩,
    ⟨8574133, 2, [2, 2, 3, 7, 103, 991]⟩,
    ⟨14741173, 2, [2, 2, 3, 3, 409477]⟩,
    ⟨58964693, 2, [2, 2, 14741173]⟩,
    ⟨292386187, 2, [2, 3, 3, 3, 3, 307, 5879]⟩,
    ⟨2773320623, 5, [2, 2437, 569003]⟩,
    ⟨72106336199, 7, [2, 13, 2773320623]⟩,
    ⟨213441916511, 13, [2, 5, 73, 292386187]⟩,
    ⟨1257559732178653, 2, [2, 2, 3, 7, 23, 531581, 1224481]⟩,
    ⟨1919519569386763, 2, [2, 3, 7, 19, 47, 47, 127, 8574133]⟩,
    ⟨31757755568855353, 10, [2, 2, 2, 3, 31, 107, 223, 4153, 430751]⟩,
    ⟨4434155615661930479, 17, [2, 41, 43, 1257559732178653]⟩,
    ⟨3044861653679985063343, 5, [2, 3, 11, 30703, 82163, 132667, 137849]⟩,
    ⟨172054593956031949258510691, 2, [2, 5, 1361, 2851, 4434155615661930479]⟩,
    ⟨198211423230930754013084525763697, 5, [2, 2, 2, 2, 3, 23, 58964693, 3044861653679985063343]⟩,
    ⟨75445702479781427272750846543864801, 7,
      [2, 2, 2, 2, 2, 3, 3, 5, 5, 75707, 72106336199, 1919519569386763]⟩,
    ⟨19757330305831588566944191468367130476339, 2,
      [2, 269, 213441916511, 172054593956031949258510691]⟩,
    ⟨276602624281642239937218680557139826668747, 2,
      [2, 7, 19757330305831588566944191468367130476339]⟩,
    ⟨74058212732561358302231226437062788676166966415465897661863160754340907, 2,
      [2, 3, 353, 57467, 132049, 1923133, 31757755568855353,
        75445702479781427272750846543864801]⟩,
    ⟨7237005577332262213973186563042994240857116359379907606001950938285454250989, 2,
      [2, 2, 3, 11, 198211423230930754013084525763697,
        276602624281642239937218680557139826668747]⟩,
    ⟨57896044618658097711785492504343953926634992332820282019728792003956564819949, 2,
      [2, 2, 3, 65147, 74058212732561358302231226437062788676166966415465897661863160754340907]⟩
  ]

theorem certificates_pass : Binary.allPass [] certificates = true := by decide +kernel

theorem prime_of_certified {n : Nat} (certified : n ∈ certificates.map (·.number)) : n.Prime := by
  obtain ⟨c, member, number⟩ := List.mem_map.mp certified
  rw [← number]
  exact Binary.prime_of_allPass (fun q known => absurd known List.not_mem_nil) certificates_pass
    member

theorem prime_p : p.Prime := prime_of_certified (by simp [certificates, p])

theorem prime_order : order.Prime := prime_of_certified (by simp [certificates, order])

instance : Fact p.Prime := ⟨prime_p⟩

abbrev F := ZMod p

noncomputable abbrev K := AlgebraicClosure F

noncomputable instance : DecidableEq K := Classical.decEq K

noncomputable abbrev Point := (curve (486662 : K)).Point

/-- The point is finite and has this `x`. -/
def At (u : F) (c : Point) : Prop := ∃ y h, c = .some (algebraMap F K u) y h

def a24 : F := 121665

theorem cast_ne_zero {n : Nat} (small : n < p) (nonzero : n ≠ 0) : (n : K) ≠ 0 := by
  rw [← map_natCast (algebraMap F K)]
  refine (map_ne_zero (algebraMap F K)).mpr fun zero => nonzero ?_
  exact Nat.eq_zero_of_dvd_of_lt ((ZMod.natCast_eq_zero_iff n p).mp zero) small

theorem two : (2 : K) ≠ 0 := cast_ne_zero (n := 2) (by norm_num [p]) (by decide)

theorem smooth : (486662 : K) ^ 2 ≠ 4 := by
  intro square
  have difference : ((236839902240 : Nat) : K) = 486662 ^ 2 - 4 := by norm_num
  refine cast_ne_zero (n := 236839902240) (by norm_num [p]) (by norm_num) ?_
  rw [difference, square, sub_self]

theorem a24_eq : (486662 : K) = 4 * algebraMap F K a24 + 2 := by
  rw [a24, map_ofNat]
  norm_num

theorem exists_at (u : F) : ∃ c, At u c := by
  let x := algebraMap F K u
  obtain ⟨y, square⟩ := IsAlgClosed.exists_pow_nat_eq (x ^ 3 + 486662 * x ^ 2 + x) two_pos
  exact ⟨_, y, curve_nonsingular two smooth square, rfl⟩

theorem At.unique {u v : F} {c : Point} (first : At u c) (second : At v c) : u = v := by
  obtain ⟨y, h, rfl⟩ := first
  obtain ⟨y', h', same⟩ := second
  exact (algebraMap F K).injective ((WeierstrassCurve.Affine.Point.some.injEq ..).mp same).1

theorem ladder_at {u : F} {c : Point} (at_ : At u c) {bits : List Bool} (read : bits ≠ [])
    (even : 2 ∣ Binary.value bits) :
    let r := ladder a24 u bits
    (Binary.value bits • c = 0 → r.z = 0) ∧
      (Binary.value bits • c ≠ 0 → r.z ≠ 0 ∧ At (r.x / r.z) (Binary.value bits • c)) := by
  intro r
  obtain ⟨y, h, rfl⟩ := at_
  have gives := ladder_gives (h := h) two smooth a24_eq read even
  rw [← ladder_map] at gives
  refine ⟨fun infinity => (map_eq_zero (algebraMap F K)).mp (gives.1 infinity), fun finite => ?_⟩
  generalize Binary.value bits • WeierstrassCurve.Affine.Point.some _ y h = d at gives finite
  cases d with
  | zero => exact absurd rfl finite
  | some x y h =>
      obtain ⟨z, ratio⟩ := gives.2 x y h rfl
      have x_ : algebraMap F K (r.x / r.z) = x := by
        rw [map_div₀]
        exact (div_eq_iff z).mpr (ratio.trans (mul_comm _ _))
      subst x_
      exact ⟨(map_ne_zero (algebraMap F K)).mp z, y, h, rfl⟩

theorem ladder_order : (ladder a24 9 (Binary.highFirst order 253)).z = 0 := by decide +kernel

theorem order_base {b : Point} (at_ : At 9 b) : addOrderOf b = order := by
  obtain ⟨y, h, rfl⟩ := at_
  have nonzero : algebraMap F K 9 ≠ 0 :=
    (map_ne_zero (algebraMap F K)).mpr (by decide)
  have : Fact order.Prime := ⟨prime_order⟩
  refine addOrderOf_eq_prime ?_ (WeierstrassCurve.Affine.Point.some_ne_zero h)
  have reads := ladder_reads (h := h) two smooth a24_eq nonzero (Binary.highFirst order 253)
  rw [← ladder_map, Binary.value_highFirst (by norm_num [order])] at reads
  generalize order • WeierstrassCurve.Affine.Point.some _ y h = d at reads
  cases d with
  | zero => rfl
  | some x y h =>
      refine absurd ?_ reads.some.1
      exact (map_eq_zero (algebraMap F K)).mpr ladder_order

end Metal.Lib.Curve25519
