import Metal.Lib.ChaChaPoly
import Metal.Net.WgCrypto

namespace Metal.Net.Wg

open Metal.Lib

/-! Five limbs of 26 bits compute modulo `2 ^ 130 - 5`: the Poly1305 of
`net/wg/__crypto__` on whole blocks is the one of RFC 8439. -/

def Limbs.value (l : Limbs) : Nat :=
  l.l0.toNat + 2 ^ 26 * l.l1.toNat + 2 ^ 52 * l.l2.toNat + 2 ^ 78 * l.l3.toNat +
    2 ^ 104 * l.l4.toNat

structure Limbs.Narrow (l : Limbs) : Prop where
  l0 : l.l0.toNat < 2 ^ 26
  l1 : l.l1.toNat < 2 ^ 26
  l2 : l.l2.toNat < 2 ^ 26
  l3 : l.l3.toNat < 2 ^ 26
  l4 : l.l4.toNat < 2 ^ 26

/-- What the limbs of the sum stay below: the last carry into `l1` is not
passed on. -/
structure Limbs.Carried (l : Limbs) : Prop where
  l0 : l.l0.toNat < 2 ^ 26
  l1 : l.l1.toNat < 2 ^ 26 + 2 ^ 6
  l2 : l.l2.toNat < 2 ^ 26
  l3 : l.l3.toNat < 2 ^ 26
  l4 : l.l4.toNat < 2 ^ 26

theorem toNat_and_low26 (x : UInt32) : (x &&& low26).toNat = x.toNat % 2 ^ 26 := by
  rw [UInt32.toNat_and]
  exact Nat.and_two_pow_sub_one_eq_mod x.toNat 26

theorem toNat_add_lt {x y : UInt32} (small : x.toNat + y.toNat < 2 ^ 32) :
    (x + y).toNat = x.toNat + y.toNat := by
  rw [UInt32.toNat_add, Nat.mod_eq_of_lt small]

theorem toNat_add_lt64 {x y : UInt64} (small : x.toNat + y.toNat < 2 ^ 64) :
    (x + y).toNat = x.toNat + y.toNat := by
  rw [UInt64.toNat_add, Nat.mod_eq_of_lt small]

theorem toNat_shift26 (x : UInt32) : (x >>> 26).toNat = x.toNat / 2 ^ 26 := by
  rw [UInt32.toNat_shiftRight, Nat.shiftRight_eq_div_pow]
  rfl

theorem toNat_shift26_64 (x : UInt64) : (x >>> 26).toNat = x.toNat / 2 ^ 26 := by
  rw [UInt64.toNat_shiftRight, Nat.shiftRight_eq_div_pow]
  rfl

theorem toNat_low26_64 (x : UInt64) : (x.toUInt32 &&& low26).toNat = x.toNat % 2 ^ 26 := by
  rw [toNat_and_low26, UInt64.toNat_toUInt32]
  omega

def addBlock (h : Limbs) (block : Bytes) (hibit : UInt32) : Limbs :=
  { l0 := h.l0 + (load32Le block &&& low26)
    l1 := h.l1 + ((load32Le (block.drop 3) >>> 2) &&& low26)
    l2 := h.l2 + ((load32Le (block.drop 6) >>> 4) &&& low26)
    l3 := h.l3 + ((load32Le (block.drop 9) >>> 6) &&& low26)
    l4 := h.l4 + ((load32Le (block.drop 12) >>> 8) ||| hibit) }

structure Wide where
  d0 : UInt64
  d1 : UInt64
  d2 : UInt64
  d3 : UInt64
  d4 : UInt64

def Wide.value (d : Wide) : Nat :=
  d.d0.toNat + 2 ^ 26 * d.d1.toNat + 2 ^ 52 * d.d2.toNat + 2 ^ 78 * d.d3.toNat +
    2 ^ 104 * d.d4.toNat

def columns (w r : Limbs) : Wide :=
  let r0 := r.l0.toUInt64
  let r1 := r.l1.toUInt64
  let r2 := r.l2.toUInt64
  let r3 := r.l3.toUInt64
  let r4 := r.l4.toUInt64
  let w0 := w.l0.toUInt64
  let w1 := w.l1.toUInt64
  let w2 := w.l2.toUInt64
  let w3 := w.l3.toUInt64
  let w4 := w.l4.toUInt64
  { d0 := w0 * r0 + w1 * 5 * r4 + w2 * 5 * r3 + w3 * 5 * r2 + w4 * 5 * r1
    d1 := w0 * r1 + w1 * r0 + w2 * 5 * r4 + w3 * 5 * r3 + w4 * 5 * r2
    d2 := w0 * r2 + w1 * r1 + w2 * r0 + w3 * 5 * r4 + w4 * 5 * r3
    d3 := w0 * r3 + w1 * r2 + w2 * r1 + w3 * r0 + w4 * 5 * r4
    d4 := w0 * r4 + w1 * r3 + w2 * r2 + w3 * r1 + w4 * r0 }

def passOn (d : Wide) : Wide :=
  let d1 := d.d1 + d.d0 >>> 26
  let d2 := d.d2 + d1 >>> 26
  let d3 := d.d3 + d2 >>> 26
  let d4 := d.d4 + d3 >>> 26
  ⟨d.d0, d1, d2, d3, d4⟩

def wrapRound (d : Wide) : Limbs :=
  let h0 := (d.d0.toUInt32 &&& low26) + (d.d4 >>> 26).toUInt32 * 5
  { l0 := h0 &&& low26
    l1 := (d.d1.toUInt32 &&& low26) + h0 >>> 26
    l2 := d.d2.toUInt32 &&& low26
    l3 := d.d3.toUInt32 &&& low26
    l4 := d.d4.toUInt32 &&& low26 }

theorem polyBlock_eq (r h : Limbs) (block : Bytes) (hibit : UInt32) :
    polyBlock r h block hibit = wrapRound (passOn (columns (addBlock h block hibit) r)) := rfl

theorem toNat_column {a b c d e a' b' c' d' e' : UInt64}
    (a_ : a.toNat < 2 ^ 31) (b_ : b.toNat < 2 ^ 31) (c_ : c.toNat < 2 ^ 31)
    (d_ : d.toNat < 2 ^ 31) (e_ : e.toNat < 2 ^ 31)
    (a'_ : a'.toNat < 2 ^ 26) (b'_ : b'.toNat < 2 ^ 26) (c'_ : c'.toNat < 2 ^ 26)
    (d'_ : d'.toNat < 2 ^ 26) (e'_ : e'.toNat < 2 ^ 26) :
    (a * a' + b * b' + c * c' + d * d' + e * e').toNat =
      a.toNat * a'.toNat + b.toNat * b'.toNat + c.toNat * c'.toNat + d.toNat * d'.toNat +
        e.toNat * e'.toNat ∧
    (a * a' + b * b' + c * c' + d * d' + e * e').toNat < 2 ^ 60 := by
  have a_ := Nat.mul_lt_mul'' a_ a'_
  have b_ := Nat.mul_lt_mul'' b_ b'_
  have c_ := Nat.mul_lt_mul'' c_ c'_
  have d_ := Nat.mul_lt_mul'' d_ d'_
  have e_ := Nat.mul_lt_mul'' e_ e'_
  simp only [UInt64.toNat_add, UInt64.toNat_mul]
  generalize a.toNat * a'.toNat = a at *
  generalize b.toNat * b'.toNat = b at *
  generalize c.toNat * c'.toNat = c at *
  generalize d.toNat * d'.toNat = d at *
  generalize e.toNat * e'.toNat = e at *
  omega

structure Wide.Fits (d : Wide) : Prop where
  d0 : d.d0.toNat < 2 ^ 60
  d1 : d.d1.toNat < 2 ^ 60
  d2 : d.d2.toNat < 2 ^ 60
  d3 : d.d3.toNat < 2 ^ 60
  d4 : d.d4.toNat < 10 * 2 ^ 52

theorem toNat_carry (low high : UInt64) (low_ : low.toNat < 2 ^ 61)
    (high_ : high.toNat < 2 ^ 60) :
    (high + low >>> 26).toNat = high.toNat + low.toNat / 2 ^ 26 := by
  rw [toNat_add_lt64 (by rw [toNat_shift26_64]; omega), toNat_shift26_64]

theorem toNat_wrap (low : UInt64) {high : UInt64} (small : high.toNat < 11 * 2 ^ 52) :
    ((low.toUInt32 &&& low26) + (high >>> 26).toUInt32 * 5).toNat =
      low.toNat % 2 ^ 26 + 5 * (high.toNat / 2 ^ 26) := by
  have times : ((high >>> 26).toUInt32 * 5).toNat = 5 * (high.toNat / 2 ^ 26) := by
    rw [UInt32.toNat_mul, UInt64.toNat_toUInt32, toNat_shift26_64,
      show (5 : UInt32).toNat = 5 from rfl]
    omega
  rw [toNat_add_lt (by rw [times, toNat_low26_64]; omega), times, toNat_low26_64]

theorem toNat_passOn {d : Wide} (fits : d.Fits) :
    (passOn d).d1.toNat = d.d1.toNat + d.d0.toNat / 2 ^ 26 ∧
      (passOn d).d2.toNat = d.d2.toNat + (passOn d).d1.toNat / 2 ^ 26 ∧
      (passOn d).d3.toNat = d.d3.toNat + (passOn d).d2.toNat / 2 ^ 26 ∧
      (passOn d).d4.toNat = d.d4.toNat + (passOn d).d3.toNat / 2 ^ 26 := by
  obtain ⟨d0, d1, d2, d3, d4⟩ := fits
  have e1 : (passOn d).d1.toNat = d.d1.toNat + d.d0.toNat / 2 ^ 26 :=
    toNat_carry d.d0 d.d1 (by omega) d1
  have e2 : (passOn d).d2.toNat = d.d2.toNat + (passOn d).d1.toNat / 2 ^ 26 :=
    toNat_carry (passOn d).d1 d.d2 (by omega) d2
  have e3 : (passOn d).d3.toNat = d.d3.toNat + (passOn d).d2.toNat / 2 ^ 26 :=
    toNat_carry (passOn d).d2 d.d3 (by omega) d3
  have e4 : (passOn d).d4.toNat = d.d4.toNat + (passOn d).d3.toNat / 2 ^ 26 :=
    toNat_carry (passOn d).d3 d.d4 (by omega) (by omega)
  exact ⟨e1, e2, e3, e4⟩

theorem wrapRound_value {d : Wide} (fits : d.Fits) :
    (wrapRound (passOn d)).Carried ∧
      ∃ c, d.value = (wrapRound (passOn d)).value + ChaChaPoly.prime * c := by
  obtain ⟨e1, e2, e3, e4⟩ := toNat_passOn fits
  obtain ⟨d0, d1, d2, d3, d4⟩ := fits
  have h0 := toNat_wrap (passOn d).d0 (show (passOn d).d4.toNat < 11 * 2 ^ 52 by omega)
  have low : (passOn d).d0.toNat = d.d0.toNat := rfl
  generalize passOn d = e at *
  have l1 : (wrapRound e).l1.toNat = e.d1.toNat % 2 ^ 26 +
      ((e.d0.toUInt32 &&& low26) + (e.d4 >>> 26).toUInt32 * 5).toNat / 2 ^ 26 := by
    rw [wrapRound]
    dsimp only
    rw [toNat_add_lt (by rw [toNat_low26_64, toNat_shift26, h0]; omega), toNat_low26_64,
      toNat_shift26]
  have l0 : (wrapRound e).l0.toNat =
      ((e.d0.toUInt32 &&& low26) + (e.d4 >>> 26).toUInt32 * 5).toNat % 2 ^ 26 :=
    toNat_and_low26 _
  have l2 : (wrapRound e).l2.toNat = e.d2.toNat % 2 ^ 26 := toNat_low26_64 _
  have l3 : (wrapRound e).l3.toNat = e.d3.toNat % 2 ^ 26 := toNat_low26_64 _
  have l4 : (wrapRound e).l4.toNat = e.d4.toNat % 2 ^ 26 := toNat_low26_64 _
  rw [h0] at l0 l1
  refine ⟨⟨by omega, by omega, by omega, by omega, by omega⟩, e.d4.toNat / 2 ^ 26, ?_⟩
  rw [Wide.value, Limbs.value, l0, l1, l2, l3, l4, ChaChaPoly.prime]
  omega

structure Limbs.Loaded (l : Limbs) : Prop where
  l0 : l.l0.toNat < 2 ^ 27
  l1 : l.l1.toNat < 2 ^ 27 + 2 ^ 6
  l2 : l.l2.toNat < 2 ^ 27
  l3 : l.l3.toNat < 2 ^ 27
  l4 : l.l4.toNat < 2 ^ 26 + 2 ^ 25

theorem toNat_times5 {x : UInt64} (small : x.toNat < 2 ^ 28) : (x * 5).toNat = 5 * x.toNat := by
  rw [UInt64.toNat_mul, show (5 : UInt64).toNat = 5 from rfl]
  omega

variable {r : Limbs}

theorem columns_value {w : Limbs} (loaded : w.Loaded) (narrow : r.Narrow) :
    (columns w r).Fits ∧
      ∃ c, w.value * r.value = (columns w r).value + ChaChaPoly.prime * c := by
  obtain ⟨w0, w1, w2, w3, w4⟩ := loaded
  obtain ⟨r0, r1, r2, r3, r4⟩ := narrow
  have one {x : UInt32} (small : x.toNat < 2 ^ 28) : x.toUInt64.toNat < 2 ^ 31 := by
    rw [UInt32.toNat_toUInt64]
    omega
  have times {x : UInt32} (small : x.toNat < 2 ^ 28) :
      (x.toUInt64 * 5).toNat = 5 * x.toNat := by
    rw [toNat_times5 (by rwa [UInt32.toNat_toUInt64]), UInt32.toNat_toUInt64]
  have five {x : UInt32} (small : x.toNat < 2 ^ 28) : (x.toUInt64 * 5).toNat < 2 ^ 31 := by
    rw [times small]
    omega
  have thin {y : UInt32} (small : y.toNat < 2 ^ 26) : y.toUInt64.toNat < 2 ^ 26 := by
    rwa [UInt32.toNat_toUInt64]
  have v0 : w.l0.toNat < 2 ^ 28 := by omega
  have v1 : w.l1.toNat < 2 ^ 28 := by omega
  have v2 : w.l2.toNat < 2 ^ 28 := by omega
  have v3 : w.l3.toNat < 2 ^ 28 := by omega
  have v4 : w.l4.toNat < 2 ^ 28 := by omega
  obtain ⟨c0, s0⟩ := toNat_column (one v0) (five v1) (five v2) (five v3) (five v4)
    (thin r0) (thin r4) (thin r3) (thin r2) (thin r1)
  obtain ⟨c1, s1⟩ := toNat_column (one v0) (one v1) (five v2) (five v3) (five v4)
    (thin r1) (thin r0) (thin r4) (thin r3) (thin r2)
  obtain ⟨c2, s2⟩ := toNat_column (one v0) (one v1) (one v2) (five v3) (five v4)
    (thin r2) (thin r1) (thin r0) (thin r4) (thin r3)
  obtain ⟨c3, s3⟩ := toNat_column (one v0) (one v1) (one v2) (one v3) (five v4)
    (thin r3) (thin r2) (thin r1) (thin r0) (thin r4)
  obtain ⟨c4, -⟩ := toNat_column (one v0) (one v1) (one v2) (one v3) (one v4)
    (thin r4) (thin r3) (thin r2) (thin r1) (thin r0)
  simp only [times v1, times v2, times v3, times v4, UInt32.toNat_toUInt64] at c0 c1 c2 c3 c4
  have s4 : (columns w r).d4.toNat < 10 * 2 ^ 52 := by
    have p0 := Nat.mul_lt_mul'' w0 r4
    have p1 := Nat.mul_lt_mul'' w1 r3
    have p2 := Nat.mul_lt_mul'' w2 r2
    have p3 := Nat.mul_lt_mul'' w3 r1
    have p4 := Nat.mul_lt_mul'' w4 r0
    rw [show (columns w r).d4.toNat = _ from c4]
    omega
  refine ⟨⟨s0, s1, s2, s3, s4⟩,
    w.l1.toNat * r.l4.toNat + w.l2.toNat * r.l3.toNat + w.l3.toNat * r.l2.toNat +
      w.l4.toNat * r.l1.toNat +
    2 ^ 26 * (w.l2.toNat * r.l4.toNat + w.l3.toNat * r.l3.toNat + w.l4.toNat * r.l2.toNat) +
    2 ^ 52 * (w.l3.toNat * r.l4.toNat + w.l4.toNat * r.l3.toNat) +
    2 ^ 78 * (w.l4.toNat * r.l4.toNat), ?_⟩
  rw [Wide.value, show (columns w r).d0.toNat = _ from c0,
    show (columns w r).d1.toNat = _ from c1, show (columns w r).d2.toNat = _ from c2,
    show (columns w r).d3.toNat = _ from c3, show (columns w r).d4.toNat = _ from c4,
    show ChaChaPoly.prime = 1361129467683753853853498429727072845819 from rfl,
    Limbs.value, Limbs.value]
  ring

theorem toNat_load (p : Bytes) (k : Nat) {shift : UInt32} (small : shift.toNat < 32) :
    (load32Le (p.drop k) >>> shift).toNat =
      leNat p / 256 ^ k % 2 ^ 32 / 2 ^ shift.toNat := by
  rw [UInt32.toNat_shiftRight, Nat.mod_eq_of_lt small, Nat.shiftRight_eq_div_pow, load32Le,
    toNat_leU32_drop]

variable {hibit : UInt32}

theorem toNat_or_hibit {x : UInt32} (small : x.toNat < 2 ^ 24)
    (bit : hibit = 0 ∨ hibit = (1 : UInt32) <<< 24) :
    (x ||| hibit).toNat = x.toNat + hibit.toNat := by
  rw [UInt32.toNat_or]
  rcases bit with rfl | rfl
  · exact Nat.or_zero _
  · change x.toNat ||| 2 ^ 24 = x.toNat + 2 ^ 24
    rw [Nat.or_comm, Nat.add_comm]
    have beside := Nat.two_pow_add_eq_or_of_lt small 1
    rw [Nat.mul_one] at beside
    exact beside.symm

variable {h : Limbs}

theorem addBlock_value {block : Bytes} (carried : h.Carried) (short : block.length ≤ 16)
    (bit : hibit = 0 ∨ hibit = (1 : UInt32) <<< 24) :
    (addBlock h block hibit).Loaded ∧ (addBlock h block hibit).value =
      h.value + leNat block + 2 ^ 104 * hibit.toNat := by
  obtain ⟨h0, h1, h2, h3, h4⟩ := carried
  have number : leNat block < 2 ^ 128 :=
    Nat.lt_of_lt_of_le (leNat_lt block) (Nat.pow_le_pow_right (by decide) short)
  have top : hibit.toNat ≤ 2 ^ 24 := by
    rcases bit with rfl | rfl <;> decide
  have b0 : (load32Le block &&& low26).toNat = leNat block % 2 ^ 26 := by
    rw [toNat_and_low26, load32Le, toNat_leU32]
    omega
  have b1 : ((load32Le (block.drop 3) >>> 2) &&& low26).toNat =
      leNat block / 2 ^ 26 % 2 ^ 26 := by
    rw [toNat_and_low26, toNat_load block 3 (by decide), show (2 : UInt32).toNat = 2 from rfl]
    omega
  have b2 : ((load32Le (block.drop 6) >>> 4) &&& low26).toNat =
      leNat block / 2 ^ 52 % 2 ^ 26 := by
    rw [toNat_and_low26, toNat_load block 6 (by decide), show (4 : UInt32).toNat = 4 from rfl]
    omega
  have b3 : ((load32Le (block.drop 9) >>> 6) &&& low26).toNat =
      leNat block / 2 ^ 78 % 2 ^ 26 := by
    rw [toNat_and_low26, toNat_load block 9 (by decide), show (6 : UInt32).toNat = 6 from rfl]
    omega
  have shifted : (load32Le (block.drop 12) >>> 8).toNat = leNat block / 2 ^ 104 := by
    rw [toNat_load block 12 (by decide), show (8 : UInt32).toNat = 8 from rfl]
    omega
  have b4 : ((load32Le (block.drop 12) >>> 8) ||| hibit).toNat =
      leNat block / 2 ^ 104 + hibit.toNat := by
    rw [toNat_or_hibit (by rw [shifted]; omega) bit, shifted]
  have s0 : (addBlock h block hibit).l0.toNat = h.l0.toNat + leNat block % 2 ^ 26 := by
    rw [addBlock, toNat_add_lt (by rw [b0]; omega), b0]
  have s1 : (addBlock h block hibit).l1.toNat = h.l1.toNat + leNat block / 2 ^ 26 % 2 ^ 26 := by
    rw [addBlock, toNat_add_lt (by rw [b1]; omega), b1]
  have s2 : (addBlock h block hibit).l2.toNat = h.l2.toNat + leNat block / 2 ^ 52 % 2 ^ 26 := by
    rw [addBlock, toNat_add_lt (by rw [b2]; omega), b2]
  have s3 : (addBlock h block hibit).l3.toNat = h.l3.toNat + leNat block / 2 ^ 78 % 2 ^ 26 := by
    rw [addBlock, toNat_add_lt (by rw [b3]; omega), b3]
  have s4 : (addBlock h block hibit).l4.toNat =
      h.l4.toNat + (leNat block / 2 ^ 104 + hibit.toNat) := by
    rw [addBlock, toNat_add_lt (by rw [b4]; omega), b4]
  refine ⟨⟨by omega, by omega, by omega, by omega, by omega⟩, ?_⟩
  rw [Limbs.value, Limbs.value, s0, s1, s2, s3, s4]
  omega

/-- One block of the code is one block of the tag, in the numbers modulo
`2 ^ 130 - 5`. -/
theorem polyBlock_value {block : Bytes} (narrow : r.Narrow) (carried : h.Carried)
    (short : block.length ≤ 16) (bit : hibit = 0 ∨ hibit = (1 : UInt32) <<< 24) :
    (polyBlock r h block hibit).Carried ∧
      (polyBlock r h block hibit).value % ChaChaPoly.prime =
        ChaChaPoly.absorb r.value h.value (leNat block + 2 ^ 104 * hibit.toNat) := by
  obtain ⟨loaded, sum⟩ := addBlock_value carried short bit
  obtain ⟨fits, c, product⟩ := columns_value loaded narrow
  obtain ⟨carried', c', wrapped⟩ := wrapRound_value fits
  rw [polyBlock_eq]
  refine ⟨carried', ?_⟩
  rw [ChaChaPoly.absorb, ← Nat.add_assoc, ← sum, Nat.mul_comm, product, wrapped,
    Nat.add_mul_mod_self_left, Nat.add_mul_mod_self_left]

def settle (h : Limbs) : Limbs :=
  let h1 := h.l1 + (h.l0 >>> 26)
  let h0 := h.l0 &&& low26
  let h2 := h.l2 + (h1 >>> 26)
  let h1 := h1 &&& low26
  let h3 := h.l3 + (h2 >>> 26)
  let h2 := h2 &&& low26
  let h4 := h.l4 + (h3 >>> 26)
  let h3 := h3 &&& low26
  let h0 := h0 + (5 : UInt32) * (h4 >>> 26)
  let h4 := h4 &&& low26
  let h1 := h1 + (h0 >>> 26)
  let h0 := h0 &&& low26
  ⟨h0, h1, h2, h3, h4⟩

def plusFive (h : Limbs) : Limbs × UInt32 :=
  let g0 := h.l0 + 5
  let g1 := h.l1 + (g0 >>> 26)
  let g0 := g0 &&& low26
  let g2 := h.l2 + (g1 >>> 26)
  let g1 := g1 &&& low26
  let g3 := h.l3 + (g2 >>> 26)
  let g2 := g2 &&& low26
  let g4 := h.l4 + (g3 >>> 26)
  let g3 := g3 &&& low26
  (⟨g0, g1, g2, g3, g4 &&& low26⟩, g4 >>> 26)

def choose (mask h g : UInt32) : UInt32 := (h &&& mask) ||| (g &&& ~~~ mask)

/-- The number less `2 ^ 130 - 5`, where it is as large. -/
def freeze (h : Limbs) : Limbs :=
  let (g, carry) := plusFive h
  let mask := carry - 1
  ⟨choose mask h.l0 g.l0, choose mask h.l1 g.l1, choose mask h.l2 g.l2, choose mask h.l3 g.l3,
    choose mask h.l4 g.l4⟩

theorem polyFinish_eq (h : Limbs) (pad : Vector UInt32 4) :
    polyFinish h pad = output (freeze (settle h)) pad := rfl

theorem toNat_carry32 (low high : UInt32) (small : high.toNat < 2 ^ 31) :
    (high + low >>> 26).toNat = high.toNat + low.toNat / 2 ^ 26 := by
  have below := low.toNat_lt
  rw [toNat_add_lt (by rw [toNat_shift26]; omega), toNat_shift26]

theorem settle_value (carried : h.Carried) :
    (settle h).Narrow ∧ ∃ c, h.value = (settle h).value + ChaChaPoly.prime * c := by
  obtain ⟨b0, b1, b2, b3, b4⟩ := carried
  obtain ⟨a1, a1_⟩ : ∃ a1, a1 = h.l1 + h.l0 >>> 26 := ⟨_, rfl⟩
  obtain ⟨a2, a2_⟩ : ∃ a2, a2 = h.l2 + a1 >>> 26 := ⟨_, rfl⟩
  obtain ⟨a3, a3_⟩ : ∃ a3, a3 = h.l3 + a2 >>> 26 := ⟨_, rfl⟩
  obtain ⟨a4, a4_⟩ : ∃ a4, a4 = h.l4 + a3 >>> 26 := ⟨_, rfl⟩
  obtain ⟨t, t_⟩ : ∃ t, t = (h.l0 &&& low26) + (5 : UInt32) * (a4 >>> 26) := ⟨_, rfl⟩
  have made : settle h = ⟨t &&& low26, (a1 &&& low26) + t >>> 26, a2 &&& low26, a3 &&& low26,
      a4 &&& low26⟩ := by
    subst t_ a4_ a3_ a2_ a1_
    rfl
  have n1 : a1.toNat = h.l1.toNat + h.l0.toNat / 2 ^ 26 := by
    rw [a1_, toNat_carry32 _ _ (by omega)]
  have n2 : a2.toNat = h.l2.toNat + a1.toNat / 2 ^ 26 := by
    rw [a2_, toNat_carry32 _ _ (by omega)]
  have n3 : a3.toNat = h.l3.toNat + a2.toNat / 2 ^ 26 := by
    rw [a3_, toNat_carry32 _ _ (by omega)]
  have n4 : a4.toNat = h.l4.toNat + a3.toNat / 2 ^ 26 := by
    rw [a4_, toNat_carry32 _ _ (by omega)]
  have five : ((5 : UInt32) * (a4 >>> 26)).toNat = 5 * (a4.toNat / 2 ^ 26) := by
    rw [UInt32.toNat_mul, toNat_shift26, show (5 : UInt32).toNat = 5 from rfl]
    omega
  have n0 : t.toNat = h.l0.toNat % 2 ^ 26 + 5 * (a4.toNat / 2 ^ 26) := by
    rw [t_, toNat_add_lt (by rw [toNat_and_low26, five]; omega), toNat_and_low26, five]
  have last : ((a1 &&& low26) + t >>> 26).toNat = a1.toNat % 2 ^ 26 + t.toNat / 2 ^ 26 := by
    rw [toNat_carry32 _ _ (by rw [toNat_and_low26]; omega), toNat_and_low26]
  rw [made]
  refine ⟨⟨?_, ?_, ?_, ?_, ?_⟩, a4.toNat / 2 ^ 26, ?_⟩
  · rw [toNat_and_low26]
    omega
  · -- A carry comes back only where `l1` has given one away.
    rw [last]
    omega
  · rw [toNat_and_low26]
    omega
  · rw [toNat_and_low26]
    omega
  · rw [toNat_and_low26]
    omega
  · rw [Limbs.value, Limbs.value, last, toNat_and_low26, toNat_and_low26, toNat_and_low26,
      toNat_and_low26, ChaChaPoly.prime]
    omega

theorem choose_zero (h g : UInt32) : choose (0 - 1) h g = h := by
  rw [choose]
  apply UInt32.toBitVec_inj.mp
  simp

theorem choose_one (h g : UInt32) : choose (1 - 1) h g = g := by
  rw [choose]
  apply UInt32.toBitVec_inj.mp
  simp

theorem plusFive_value (narrow : h.Narrow) :
    (plusFive h).1.Narrow ∧ (plusFive h).2.toNat < 2 ∧
      (plusFive h).1.value + 2 ^ 130 * (plusFive h).2.toNat = h.value + 5 := by
  obtain ⟨b0, b1, b2, b3, b4⟩ := narrow
  obtain ⟨g0, g0_⟩ : ∃ g0, g0 = h.l0 + 5 := ⟨_, rfl⟩
  obtain ⟨g1, g1_⟩ : ∃ g1, g1 = h.l1 + g0 >>> 26 := ⟨_, rfl⟩
  obtain ⟨g2, g2_⟩ : ∃ g2, g2 = h.l2 + g1 >>> 26 := ⟨_, rfl⟩
  obtain ⟨g3, g3_⟩ : ∃ g3, g3 = h.l3 + g2 >>> 26 := ⟨_, rfl⟩
  obtain ⟨g4, g4_⟩ : ∃ g4, g4 = h.l4 + g3 >>> 26 := ⟨_, rfl⟩
  have made : plusFive h = (⟨g0 &&& low26, g1 &&& low26, g2 &&& low26, g3 &&& low26,
      g4 &&& low26⟩, g4 >>> 26) := by
    subst g4_ g3_ g2_ g1_ g0_
    rfl
  have n0 : g0.toNat = h.l0.toNat + 5 := by
    rw [g0_, toNat_add_lt (by rw [show (5 : UInt32).toNat = 5 from rfl]; omega)]
    rfl
  have n1 : g1.toNat = h.l1.toNat + g0.toNat / 2 ^ 26 := by
    rw [g1_, toNat_carry32 _ _ (by omega)]
  have n2 : g2.toNat = h.l2.toNat + g1.toNat / 2 ^ 26 := by
    rw [g2_, toNat_carry32 _ _ (by omega)]
  have n3 : g3.toNat = h.l3.toNat + g2.toNat / 2 ^ 26 := by
    rw [g3_, toNat_carry32 _ _ (by omega)]
  have n4 : g4.toNat = h.l4.toNat + g3.toNat / 2 ^ 26 := by
    rw [g4_, toNat_carry32 _ _ (by omega)]
  rw [made]
  refine ⟨⟨?_, ?_, ?_, ?_, ?_⟩, ?_, ?_⟩
  all_goals
    simp only [Limbs.value, toNat_and_low26, toNat_shift26]
    omega

theorem freeze_value (narrow : h.Narrow) :
    (freeze h).Narrow ∧ (freeze h).value = h.value % ChaChaPoly.prime := by
  obtain ⟨narrow', below, sum⟩ := plusFive_value narrow
  have mine : h.value < 2 ^ 130 := by
    obtain ⟨b0, b1, b2, b3, b4⟩ := narrow
    rw [Limbs.value]
    omega
  have theirs : (plusFive h).1.value < 2 ^ 130 := by
    obtain ⟨b0, b1, b2, b3, b4⟩ := narrow'
    rw [Limbs.value]
    omega
  rw [show freeze h = ⟨choose ((plusFive h).2 - 1) h.l0 (plusFive h).1.l0,
    choose ((plusFive h).2 - 1) h.l1 (plusFive h).1.l1,
    choose ((plusFive h).2 - 1) h.l2 (plusFive h).1.l2,
    choose ((plusFive h).2 - 1) h.l3 (plusFive h).1.l3,
    choose ((plusFive h).2 - 1) h.l4 (plusFive h).1.l4⟩ from rfl]
  rcases Nat.lt_or_ge (plusFive h).2.toNat 1 with none_ | one
  · have zero : (plusFive h).2 = 0 := UInt32.toNat_inj.mp (Nat.lt_one_iff.mp none_)
    rw [zero] at sum ⊢
    simp only [choose_zero]
    have less : h.value < ChaChaPoly.prime := by
      rw [UInt32.toNat_zero] at sum
      rw [ChaChaPoly.prime]
      omega
    exact ⟨narrow, (Nat.mod_eq_of_lt less).symm⟩
  · have is_one : (plusFive h).2 = 1 :=
      UInt32.toNat_inj.mp (Nat.le_antisymm (Nat.lt_succ_iff.mp below) one)
    rw [is_one] at sum ⊢
    simp only [choose_one]
    refine ⟨narrow', ?_⟩
    rw [UInt32.toNat_one] at sum
    have large : ChaChaPoly.prime ≤ h.value := by
      rw [ChaChaPoly.prime]
      omega
    have rest : h.value - ChaChaPoly.prime < ChaChaPoly.prime := by
      rw [ChaChaPoly.prime]
      omega
    rw [Nat.mod_eq_sub_mod large, Nat.mod_eq_of_lt rest]
    change (plusFive h).1.value = h.value - ChaChaPoly.prime
    rw [ChaChaPoly.prime]
    omega

theorem toNat_or_shift {x y k : UInt32} (small : k.toNat < 32) (below : x.toNat < 2 ^ k.toNat) :
    (x ||| (y <<< k)).toNat = x.toNat + 2 ^ k.toNat * (y.toNat % 2 ^ (32 - k.toNat)) := by
  have shifted : (y <<< k).toNat = 2 ^ k.toNat * (y.toNat % 2 ^ (32 - k.toNat)) := by
    rw [UInt32.toNat_shiftLeft, Nat.mod_eq_of_lt small, Nat.shiftLeft_eq, Nat.mul_comm]
    have split : (2 : Nat) ^ 32 = 2 ^ k.toNat * 2 ^ (32 - k.toNat) := by
      rw [← Nat.pow_add, Nat.add_sub_cancel' (Nat.le_of_lt small)]
    rw [split, Nat.mul_mod_mul_left]
  rw [UInt32.toNat_or, shifted, Nat.or_comm, ← Nat.two_pow_add_eq_or_of_lt below, Nat.add_comm]

theorem toNat_shift (x : UInt32) {k : UInt32} (small : k.toNat < 32) :
    (x >>> k).toNat = x.toNat / 2 ^ k.toNat := by
  rw [UInt32.toNat_shiftRight, Nat.mod_eq_of_lt small, Nat.shiftRight_eq_div_pow]

theorem store_carry (f : UInt64) : store32Le f.toUInt32 = natLe 4 f.toNat := by
  rw [store32Le, leBytes32_eq, UInt64.toNat_toUInt32]
  exact natLe_mod 4 f.toNat

theorem toNat_digit (s p : UInt32) (f : UInt64) :
    (s.toUInt64 + p.toUInt64 + (f >>> 32)).toNat = s.toNat + p.toNat + f.toNat / 2 ^ 32 := by
  have left := s.toNat_lt
  have right := p.toNat_lt
  have below := f.toNat_lt
  have shifted : (f >>> 32).toNat = f.toNat / 2 ^ 32 := by
    rw [UInt64.toNat_shiftRight, Nat.shiftRight_eq_div_pow]
    rfl
  rw [UInt64.toNat_add, UInt64.toNat_add, UInt32.toNat_toUInt64, UInt32.toNat_toUInt64, shifted]
  omega

theorem output_value (narrow : h.Narrow) (pad : Vector UInt32 4) :
    output h pad = natLe 16 (h.value + padValue pad) := by
  obtain ⟨b0, b1, b2, b3, b4⟩ := narrow
  have s0 : (h.l0 ||| (h.l1 <<< 26)).toNat = h.l0.toNat + 2 ^ 26 * (h.l1.toNat % 2 ^ 6) :=
    toNat_or_shift (by decide) b0
  have s1 : ((h.l1 >>> 6) ||| (h.l2 <<< 20)).toNat =
      h.l1.toNat / 2 ^ 6 + 2 ^ 20 * (h.l2.toNat % 2 ^ 12) := by
    have high : (h.l1 >>> 6).toNat = h.l1.toNat / 2 ^ 6 := toNat_shift _ (by decide)
    rw [toNat_or_shift (by decide) (by rw [high]; change _ < 2 ^ 20; omega), high]
    rfl
  have s2 : ((h.l2 >>> 12) ||| (h.l3 <<< 14)).toNat =
      h.l2.toNat / 2 ^ 12 + 2 ^ 14 * (h.l3.toNat % 2 ^ 18) := by
    have high : (h.l2 >>> 12).toNat = h.l2.toNat / 2 ^ 12 := toNat_shift _ (by decide)
    rw [toNat_or_shift (by decide) (by rw [high]; change _ < 2 ^ 14; omega), high]
    rfl
  have s3 : ((h.l3 >>> 18) ||| (h.l4 <<< 8)).toNat =
      h.l3.toNat / 2 ^ 18 + 2 ^ 8 * (h.l4.toNat % 2 ^ 24) := by
    have high : (h.l3 >>> 18).toNat = h.l3.toNat / 2 ^ 18 := toNat_shift _ (by decide)
    rw [toNat_or_shift (by decide) (by rw [high]; change _ < 2 ^ 8; omega), high]
    rfl
  have number : h.value + padValue pad =
      (h.l0 ||| (h.l1 <<< 26)).toNat + pad[0].toNat + 2 ^ 32 *
      (((h.l1 >>> 6) ||| (h.l2 <<< 20)).toNat + pad[1].toNat + 2 ^ 32 *
      (((h.l2 >>> 12) ||| (h.l3 <<< 14)).toNat + pad[2].toNat + 2 ^ 32 *
      (((h.l3 >>> 18) ||| (h.l4 <<< 8)).toNat + pad[3].toNat + 2 ^ 32 *
        (h.l4.toNat / 2 ^ 24)))) := by
    rw [s0, s1, s2, s3, Limbs.value, padValue]
    omega
  have f0 : ((h.l0 ||| (h.l1 <<< 26)).toUInt64 + pad[0].toUInt64).toNat =
      (h.l0 ||| (h.l1 <<< 26)).toNat + pad[0].toNat := by
    have left := (h.l0 ||| (h.l1 <<< 26)).toNat_lt
    have right := pad[0].toNat_lt
    rw [toNat_add_lt64 (by rw [UInt32.toNat_toUInt64, UInt32.toNat_toUInt64]; omega),
      UInt32.toNat_toUInt64, UInt32.toNat_toUInt64]
  rw [number, natLe_digit 12, natLe_carry 8, natLe_carry 4, natLe_carry 0, natLe, output]
  simp only [store_carry, toNat_digit, f0, List.append_nil, List.append_assoc]

theorem polyFinish_value (carried : h.Carried) (pad : Vector UInt32 4) :
    polyFinish h pad = natLe 16 (h.value % ChaChaPoly.prime + padValue pad) := by
  obtain ⟨narrow, c, settled⟩ := settle_value carried
  obtain ⟨narrow', frozen⟩ := freeze_value narrow
  rw [polyFinish_eq, output_value narrow', frozen, settled, Nat.add_mul_mod_self_left]

def keyLimbs (key : Bytes) : Limbs :=
  { l0 := load32Le key &&& 0x3ffffff
    l1 := (load32Le (key.drop 3) >>> 2) &&& 0x3ffff03
    l2 := (load32Le (key.drop 6) >>> 4) &&& 0x3ffc0ff
    l3 := (load32Le (key.drop 9) >>> 6) &&& 0x3f03fff
    l4 := (load32Le (key.drop 12) >>> 8) &&& 0x00fffff }

def keyPad (key : Bytes) : Vector UInt32 4 :=
  Vector.ofFn fun i => load32Le (key.drop (16 + 4 * i.val))

theorem and_digit {x n m k mask : Nat} (small : mask < 2 ^ 26)
    (digit : x % 2 ^ 26 = n / 2 ^ k % 2 ^ 26) (mask_ : mask = m / 2 ^ k % 2 ^ 26) :
    x &&& mask = (n &&& m) / 2 ^ k % 2 ^ 26 := by
  have whole : (x &&& mask) % 2 ^ 26 = x &&& mask :=
    Nat.mod_eq_of_lt (Nat.lt_of_le_of_lt Nat.and_le_right small)
  rw [← whole, Nat.and_mod_two_pow, digit, Nat.mod_eq_of_lt small, mask_,
    ← Nat.shiftRight_eq_div_pow, ← Nat.shiftRight_eq_div_pow, ← Nat.shiftRight_eq_div_pow,
    Nat.shiftRight_and_distrib, Nat.and_mod_two_pow]

theorem keyLimbs_value (key : Bytes) :
    (keyLimbs key).Narrow ∧ (keyLimbs key).value = ChaChaPoly.clamp (leNat (key.take 16)) := by
  have number : leNat (key.take 16) = leNat key % 2 ^ 128 := leNat_take key 16
  have l0 : (keyLimbs key).l0.toNat =
      ChaChaPoly.clamp (leNat (key.take 16)) / 2 ^ 0 % 2 ^ 26 := by
    rw [keyLimbs, UInt32.toNat_and, load32Le, toNat_leU32]
    exact and_digit (by decide) (by rw [number]; omega) (by decide)
  have l1 : (keyLimbs key).l1.toNat =
      ChaChaPoly.clamp (leNat (key.take 16)) / 2 ^ 26 % 2 ^ 26 := by
    rw [keyLimbs, UInt32.toNat_and, toNat_load key 3 (by decide),
      show (2 : UInt32).toNat = 2 from rfl]
    exact and_digit (by decide) (by rw [number]; omega) (by decide)
  have l2 : (keyLimbs key).l2.toNat =
      ChaChaPoly.clamp (leNat (key.take 16)) / 2 ^ 52 % 2 ^ 26 := by
    rw [keyLimbs, UInt32.toNat_and, toNat_load key 6 (by decide),
      show (4 : UInt32).toNat = 4 from rfl]
    exact and_digit (by decide) (by rw [number]; omega) (by decide)
  have l3 : (keyLimbs key).l3.toNat =
      ChaChaPoly.clamp (leNat (key.take 16)) / 2 ^ 78 % 2 ^ 26 := by
    rw [keyLimbs, UInt32.toNat_and, toNat_load key 9 (by decide),
      show (6 : UInt32).toNat = 6 from rfl]
    exact and_digit (by decide) (by rw [number]; omega) (by decide)
  have l4 : (keyLimbs key).l4.toNat =
      ChaChaPoly.clamp (leNat (key.take 16)) / 2 ^ 104 % 2 ^ 26 := by
    rw [keyLimbs, UInt32.toNat_and, toNat_load key 12 (by decide),
      show (8 : UInt32).toNat = 8 from rfl]
    exact and_digit (by decide) (by rw [number]; omega) (by decide)
  have small : ChaChaPoly.clamp (leNat (key.take 16)) < 2 ^ 128 := by
    refine Nat.lt_of_le_of_lt Nat.and_le_right ?_
    decide
  refine ⟨⟨by omega, by omega, by omega, by omega, by omega⟩, ?_⟩
  rw [Limbs.value, l0, l1, l2, l3, l4]
  omega

theorem keyPad_value (key : Bytes) :
    padValue (keyPad key) = leNat ((key.drop 16).take 16) := by
  have digit (i : Nat) (inside : i < 4) :
      (keyPad key)[i].toNat = leNat key / 256 ^ (16 + 4 * i) % 2 ^ 32 := by
    rw [keyPad, Vector.getElem_ofFn, load32Le, toNat_leU32_drop]
  rw [padValue, digit 0 (by decide), digit 1 (by decide), digit 2 (by decide), digit 3 (by decide),
    leNat_take, leNat_drop]
  omega

theorem absorb_congr {r a b n : Nat} (same : a % ChaChaPoly.prime = b % ChaChaPoly.prime) :
    ChaChaPoly.absorb r a n = ChaChaPoly.absorb r b n := by
  rw [ChaChaPoly.absorb, ChaChaPoly.absorb]
  exact ((Nat.ModEq.refl r).mul (Nat.ModEq.add_right n same))

theorem leNat_mark (chunk : Bytes) :
    leNat (chunk ++ [1]) = leNat chunk + 2 ^ (8 * chunk.length) := by
  rw [leNat_append, leNat_cons, leNat_nil, show (256 : Nat) = 2 ^ 8 from rfl, ← Nat.pow_mul,
    show (1 : UInt8).toNat = 1 from rfl, Nat.mul_zero, Nat.add_zero, Nat.mul_one]

theorem leNat_padded {bytes : Bytes} (n : Nat) : leNat (padded bytes n) = leNat bytes := by
  rw [padded, leNat_append, leNat_zeros, Nat.mul_zero, Nat.add_zero]

def polyChunk (r h : Limbs) (chunk : Bytes) : Limbs :=
  if chunk.length < 16 then polyBlock r h (padded (chunk ++ [1]) 16) 0
  else polyBlock r h chunk ((1 : UInt32) <<< 24)

theorem polyChunk_value {chunk : Bytes} {a : Nat} (narrow : r.Narrow) (carried : h.Carried)
    (short : chunk.length ≤ 16) (same : h.value % ChaChaPoly.prime = a % ChaChaPoly.prime) :
    (polyChunk r h chunk).Carried ∧ (polyChunk r h chunk).value % ChaChaPoly.prime =
      ChaChaPoly.absorb r.value a (leNat (chunk ++ [1])) := by
  rw [← absorb_congr same, polyChunk]
  split
  next less =>
    have length : (padded (chunk ++ [1]) 16).length ≤ 16 := by
      rw [padded, List.length_append, List.length_replicate, List.length_append,
        List.length_singleton]
      omega
    obtain ⟨carried', value⟩ := polyBlock_value narrow carried length (.inl rfl)
    refine ⟨carried', ?_⟩
    rw [value, leNat_padded, UInt32.toNat_zero, Nat.mul_zero, Nat.add_zero]
  next whole =>
    obtain ⟨carried', value⟩ := polyBlock_value narrow carried short (.inr rfl)
    refine ⟨carried', ?_⟩
    have sixteen : chunk.length = 16 := by omega
    rw [value, leNat_mark, sixteen]
    rfl

theorem accumulate_nil (r a : Nat) : ChaChaPoly.accumulate r a [] = a := rfl

theorem blockNat_succ (msg : Bytes) (i : Nat) :
    ChaChaPoly.blockNat msg i.succ = ChaChaPoly.blockNat (msg.drop 16) i := by
  rw [ChaChaPoly.blockNat, ChaChaPoly.blockNat, List.drop_drop, Nat.mul_succ, Nat.add_comm]

theorem accumulate_take {msg : Bytes} (some_ : msg ≠ []) (r a : Nat) :
    ChaChaPoly.accumulate r a msg = ChaChaPoly.accumulate r
      (ChaChaPoly.absorb r a (leNat (msg.take 16 ++ [1]))) (msg.drop 16) := by
  have pos := List.length_pos_iff.mpr some_
  have count : (msg.length + 15) / 16 = ((msg.drop 16).length + 15) / 16 + 1 := by
    rw [List.length_drop]
    omega
  rw [ChaChaPoly.accumulate, ChaChaPoly.accumulate, count, List.range_succ_eq_map, List.foldl_cons,
    List.foldl_map]
  simp only [blockNat_succ]
  rfl

theorem polyAbsorb_value {a : Nat} (narrow : r.Narrow) (fuel : Nat) {msg : Bytes}
    (enough : msg.length ≤ fuel) (carried : h.Carried)
    (same : h.value % ChaChaPoly.prime = a % ChaChaPoly.prime) :
    (polyAbsorb r fuel h msg).Carried ∧ (polyAbsorb r fuel h msg).value % ChaChaPoly.prime =
      ChaChaPoly.accumulate r.value a msg % ChaChaPoly.prime := by
  induction fuel generalizing h a msg with
  | zero =>
      have none_ : msg = [] := List.eq_nil_of_length_eq_zero (Nat.le_zero.mp enough)
      subst none_
      exact ⟨carried, same⟩
  | succ fuel ih =>
      rw [polyAbsorb]
      split
      next none_ =>
        subst none_
        exact ⟨carried, same⟩
      next some_ =>
        have pos := List.length_pos_iff.mpr some_
        rw [accumulate_take some_]
        obtain ⟨carried', value⟩ :=
          polyChunk_value narrow carried (List.length_take_le 16 msg) same
        have value' : (polyChunk r h (msg.take 16)).value % ChaChaPoly.prime =
            ChaChaPoly.absorb r.value a (leNat (msg.take 16 ++ [1])) % ChaChaPoly.prime := by
          rw [value, ChaChaPoly.absorb, Nat.mod_mod]
        exact ih (by rw [List.length_drop]; omega) carried' value'

def lengths (ad ct : Bytes) : Bytes := natLe 8 ad.length ++ natLe 8 ct.length

theorem length_lengths (ad ct : Bytes) : (lengths ad ct).length = 16 := by
  rw [lengths, List.length_append, length_natLe, length_natLe]

theorem store_length {n : Nat} (fits : n < 2 ^ 64) : store64Le (UInt64.ofNat n) = natLe 8 n := by
  rw [store64Le, leBytes64_eq, UInt64.toNat_ofNat_of_lt' fits]

theorem accumulate_block {block : Bytes} (length : block.length = 16) (r a : Nat) :
    ChaChaPoly.accumulate r a block = ChaChaPoly.absorb r a (leNat (block ++ [1])) := by
  have some_ : block ≠ [] := by
    rintro rfl
    cases length
  have rest : block.drop 16 = [] := List.drop_eq_nil_of_le (Nat.le_of_eq length)
  rw [accumulate_take some_, rest, accumulate_nil, List.take_of_length_le (Nat.le_of_eq length)]

theorem toList_ofFn_getD {bytes : Bytes} {n : Nat} (length : bytes.length = n) :
    (Vector.ofFn fun i : Fin n => bytes.getD i 0).toList = bytes := by
  subst length
  rw [Vector.toList_ofFn]
  apply List.ext_getElem
  · rw [List.length_ofFn]
  · intro i inside inside'
    rw [List.getElem_ofFn, List.getD_eq_getElem?_getD, List.getElem?_eq_getElem inside']
    rfl

/-- The tag of the code for messages of any lengths: the two messages one after
the other, each with a short block of its own, and the lengths. -/
theorem poly1305Mac_value (key : Bytes) {ad ct : Bytes} (adFits : ad.length < 2 ^ 64)
    (ctFits : ct.length < 2 ^ 64) :
    (poly1305Mac key ad ct).toList =
      let r := ChaChaPoly.clamp (leNat (key.take 16))
      let a := ChaChaPoly.accumulate r (ChaChaPoly.accumulate r 0 ad) ct
      natLe 16 (ChaChaPoly.accumulate r a (lengths ad ct) + leNat ((key.drop 16).take 16)) := by
  obtain ⟨narrow, clamped⟩ := keyLimbs_value key
  have zero : Limbs.Carried ⟨0, 0, 0, 0, 0⟩ := ⟨by decide, by decide, by decide, by decide, by decide⟩
  obtain ⟨adCarried, adValue⟩ :=
    polyAbsorb_value narrow ad.length (Nat.le_refl _) zero (a := 0) rfl
  obtain ⟨ctCarried, ctValue⟩ :=
    polyAbsorb_value narrow ct.length (Nat.le_refl _) adCarried adValue
  have whole : ¬ (lengths ad ct).length < 16 := by
    rw [length_lengths]
    decide
  obtain ⟨carried, value⟩ := polyChunk_value narrow ctCarried
    (Nat.le_of_eq (length_lengths ad ct)) ctValue
  rw [polyChunk, if_neg whole] at carried value
  have made : (poly1305Mac key ad ct).toList = (Vector.ofFn fun i : Fin 16 =>
      (polyFinish (polyBlock (keyLimbs key) (polyAbsorb (keyLimbs key) ct.length
        (polyAbsorb (keyLimbs key) ad.length ⟨0, 0, 0, 0, 0⟩ ad) ct)
        (store64Le (UInt64.ofNat ad.length) ++ store64Le (UInt64.ofNat ct.length))
        ((1 : UInt32) <<< 24)) (keyPad key)).getD i 0).toList := rfl
  have finished := polyFinish_value carried (keyPad key)
  rw [value, clamped, ← accumulate_block (length_lengths ad ct), keyPad_value] at finished
  rw [made, store_length adFits, store_length ctFits]
  change (Vector.ofFn fun i : Fin 16 => (polyFinish (polyBlock (keyLimbs key) _ (lengths ad ct)
    ((1 : UInt32) <<< 24)) (keyPad key)).getD i 0).toList = _
  rw [finished, toList_ofFn_getD (length_natLe 16 _)]

end Metal.Net.Wg
