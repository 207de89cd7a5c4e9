import Metal.Net.WgPoly

namespace Metal.Net.Wg

open Metal.Lib

/-! The Poly1305 of `net/wg/__crypto__` with every sum and product checked: none of them leaves
its word, after any blocks. -/

def sum32 (x y : UInt32) : Option UInt32 :=
  if x.toNat + y.toNat < 2 ^ 32 then some (x + y) else none

def product32 (x y : UInt32) : Option UInt32 :=
  if x.toNat * y.toNat < 2 ^ 32 then some (x * y) else none

def sum64 (x y : UInt64) : Option UInt64 :=
  if x.toNat + y.toNat < 2 ^ 64 then some (x + y) else none

def product64 (x y : UInt64) : Option UInt64 :=
  if x.toNat * y.toNat < 2 ^ 64 then some (x * y) else none

def cast32 (x : UInt64) : Option UInt32 := if x.toNat < 2 ^ 32 then some x.toUInt32 else none

def difference32 (strict : Bool) (x y : UInt32) : Option UInt32 :=
  if strict ∧ x.toNat < y.toNat then none else some (x - y)

def addBlockChecked (h : Limbs) (block : Bytes) (hibit : UInt32) : Option Limbs := do
  let h0 ← sum32 h.l0 (load32Le block &&& low26)
  let h1 ← sum32 h.l1 ((load32Le (block.drop 3) >>> 2) &&& low26)
  let h2 ← sum32 h.l2 ((load32Le (block.drop 6) >>> 4) &&& low26)
  let h3 ← sum32 h.l3 ((load32Le (block.drop 9) >>> 6) &&& low26)
  let h4 ← sum32 h.l4 ((load32Le (block.drop 12) >>> 8) ||| hibit)
  return ⟨h0, h1, h2, h3, h4⟩

def columnChecked (a a' b b' c c' d d' e e' : UInt64) : Option UInt64 := do
  let p0 ← product64 a a'
  let p1 ← product64 b b'
  let s1 ← sum64 p0 p1
  let p2 ← product64 c c'
  let s2 ← sum64 s1 p2
  let p3 ← product64 d d'
  let s3 ← sum64 s2 p3
  let p4 ← product64 e e'
  sum64 s3 p4

def columnsChecked (w r : Limbs) : Option Wide := do
  let r0 := r.l0.toUInt64
  let r1 := r.l1.toUInt64
  let r2 := r.l2.toUInt64
  let r3 := r.l3.toUInt64
  let r4 := r.l4.toUInt64
  let w0 := w.l0.toUInt64
  let w1 := w.l1.toUInt64
  let w2 := w.l2.toUInt64
  let w3 := w.l3.toUInt64
  let w4 := w.l4.toUInt64
  let f1 ← product64 w1 5
  let f2 ← product64 w2 5
  let f3 ← product64 w3 5
  let f4 ← product64 w4 5
  let d0 ← columnChecked w0 r0 f1 r4 f2 r3 f3 r2 f4 r1
  let d1 ← columnChecked w0 r1 w1 r0 f2 r4 f3 r3 f4 r2
  let d2 ← columnChecked w0 r2 w1 r1 w2 r0 f3 r4 f4 r3
  let d3 ← columnChecked w0 r3 w1 r2 w2 r1 w3 r0 f4 r4
  let d4 ← columnChecked w0 r4 w1 r3 w2 r2 w3 r1 w4 r0
  return ⟨d0, d1, d2, d3, d4⟩

def passOnChecked (d : Wide) : Option Wide := do
  let d1 ← sum64 d.d1 (d.d0 >>> 26)
  let d2 ← sum64 d.d2 (d1 >>> 26)
  let d3 ← sum64 d.d3 (d2 >>> 26)
  let d4 ← sum64 d.d4 (d3 >>> 26)
  return ⟨d.d0, d1, d2, d3, d4⟩

def wrapRoundChecked (d : Wide) : Option Limbs := do
  let c ← cast32 (d.d4 >>> 26)
  let five ← product32 c 5
  let h0 ← sum32 (d.d0.toUInt32 &&& low26) five
  let h1 ← sum32 (d.d1.toUInt32 &&& low26) (h0 >>> 26)
  return ⟨h0 &&& low26, h1, d.d2.toUInt32 &&& low26, d.d3.toUInt32 &&& low26,
    d.d4.toUInt32 &&& low26⟩

def polyBlockChecked (r h : Limbs) (block : Bytes) (hibit : UInt32) : Option Limbs := do
  let w ← addBlockChecked h block hibit
  let d ← columnsChecked w r
  let d ← passOnChecked d
  wrapRoundChecked d

def settleChecked (h : Limbs) : Option Limbs := do
  let h1 ← sum32 h.l1 (h.l0 >>> 26)
  let h2 ← sum32 h.l2 (h1 >>> 26)
  let h3 ← sum32 h.l3 (h2 >>> 26)
  let h4 ← sum32 h.l4 (h3 >>> 26)
  let five ← product32 5 (h4 >>> 26)
  let h0 ← sum32 (h.l0 &&& low26) five
  let h1 ← sum32 (h1 &&& low26) (h0 >>> 26)
  return ⟨h0 &&& low26, h1, h2 &&& low26, h3 &&& low26, h4 &&& low26⟩

def plusFiveChecked (h : Limbs) : Option (Limbs × UInt32) := do
  let g0 ← sum32 h.l0 5
  let g1 ← sum32 h.l1 (g0 >>> 26)
  let g2 ← sum32 h.l2 (g1 >>> 26)
  let g3 ← sum32 h.l3 (g2 >>> 26)
  let g4 ← sum32 h.l4 (g3 >>> 26)
  return (⟨g0 &&& low26, g1 &&& low26, g2 &&& low26, g3 &&& low26, g4 &&& low26⟩, g4 >>> 26)

def freezeChecked (strict : Bool) (h : Limbs) : Option Limbs := do
  let (g, carry) ← plusFiveChecked h
  let mask ← difference32 strict carry 1
  return ⟨choose mask h.l0 g.l0, choose mask h.l1 g.l1, choose mask h.l2 g.l2,
    choose mask h.l3 g.l3, choose mask h.l4 g.l4⟩

def outputChecked (h : Limbs) (pad : Vector UInt32 4) : Option Bytes := do
  let s0 := h.l0 ||| (h.l1 <<< 26)
  let s1 := (h.l1 >>> 6) ||| (h.l2 <<< 20)
  let s2 := (h.l2 >>> 12) ||| (h.l3 <<< 14)
  let s3 := (h.l3 >>> 18) ||| (h.l4 <<< 8)
  let (p0, p1, p2, p3) := padWords pad
  let f0 ← sum64 s0.toUInt64 p0.toUInt64
  let f1 ← (sum64 s1.toUInt64 p1.toUInt64).bind fun sum => sum64 sum (f0 >>> 32)
  let f2 ← (sum64 s2.toUInt64 p2.toUInt64).bind fun sum => sum64 sum (f1 >>> 32)
  let f3 ← (sum64 s3.toUInt64 p3.toUInt64).bind fun sum => sum64 sum (f2 >>> 32)
  return store32Le f0.toUInt32 ++ store32Le f1.toUInt32 ++ store32Le f2.toUInt32 ++
    store32Le f3.toUInt32

def polyFinishChecked (strict : Bool) (h : Limbs) (pad : Vector UInt32 4) : Option Bytes := do
  let h ← settleChecked h
  let h ← freezeChecked strict h
  outputChecked h pad

structure Block where
  bytes : Bytes
  hibit : UInt32

def blocksOf : Nat → Bytes → List Block
  | 0, _ => []
  | fuel + 1, msg =>
      if msg = [] then []
      else
        let chunk := msg.take 16
        (if chunk.length < 16 then ⟨padded (chunk ++ [1]) 16, 0⟩ else ⟨chunk, (1 : UInt32) <<< 24⟩) ::
          blocksOf fuel (msg.drop 16)

def lengthBlock (ad ct : Bytes) : Block :=
  ⟨store64Le (UInt64.ofNat ad.length) ++ store64Le (UInt64.ofNat ct.length), (1 : UInt32) <<< 24⟩

def macBlocks (ad ct : Bytes) : List Block :=
  blocksOf ad.length ad ++ blocksOf ct.length ct ++ [lengthBlock ad ct]

def zeroLimbs : Limbs := ⟨0, 0, 0, 0, 0⟩

def limbsAfter (r : Limbs) (blocks : List Block) : Limbs :=
  blocks.foldl (fun h block => polyBlock r h block.bytes block.hibit) zeroLimbs

def limbsAfterChecked (r : Limbs) (blocks : List Block) : Option Limbs :=
  blocks.foldlM (fun h block => polyBlockChecked r h block.bytes block.hibit) zeroLimbs

def poly1305MacChecked (strict : Bool) (key ad ct : Bytes) : Option Tag := do
  let h ← limbsAfterChecked (keyLimbs key) (macBlocks ad ct)
  let bytes ← polyFinishChecked strict h (keyPad key)
  return Vector.ofFn fun i => bytes.getD i 0

theorem sum32_eq {x y : UInt32} (small : x.toNat + y.toNat < 2 ^ 32) : sum32 x y = some (x + y) :=
  if_pos small

theorem product32_eq {x y : UInt32} (small : x.toNat * y.toNat < 2 ^ 32) :
    product32 x y = some (x * y) :=
  if_pos small

theorem sum64_eq {x y : UInt64} (small : x.toNat + y.toNat < 2 ^ 64) : sum64 x y = some (x + y) :=
  if_pos small

theorem product64_eq {x y : UInt64} (small : x.toNat * y.toNat < 2 ^ 64) :
    product64 x y = some (x * y) :=
  if_pos small

theorem low26_lt (x : UInt32) : (x &&& low26).toNat < 2 ^ 26 := by
  rw [toNat_and_low26]
  exact Nat.mod_lt _ (by decide)

variable {h : Limbs}

theorem addBlockChecked_eq {block : Bytes} {hibit : UInt32} (carried : h.Carried)
    (bit : hibit = 0 ∨ hibit = (1 : UInt32) <<< 24) :
    addBlockChecked h block hibit = some (addBlock h block hibit) := by
  obtain ⟨h0, h1, h2, h3, h4⟩ := carried
  have b0 := low26_lt (load32Le block)
  have b1 := low26_lt (load32Le (block.drop 3) >>> 2)
  have b2 := low26_lt (load32Le (block.drop 6) >>> 4)
  have b3 := low26_lt (load32Le (block.drop 9) >>> 6)
  have below := (load32Le (block.drop 12)).toNat_lt
  have shifted : (load32Le (block.drop 12) >>> 8).toNat < 2 ^ 24 := by
    rw [toNat_shift _ (by decide)]
    change _ / 2 ^ 8 < _
    omega
  have top : hibit.toNat ≤ 2 ^ 24 := by
    rcases bit with rfl | rfl <;> decide
  have b4 : ((load32Le (block.drop 12) >>> 8) ||| hibit).toNat < 2 ^ 26 := by
    rw [toNat_or_hibit shifted bit]
    omega
  rw [addBlockChecked, sum32_eq (by omega), sum32_eq (by omega), sum32_eq (by omega),
    sum32_eq (by omega), sum32_eq (by omega)]
  rfl

theorem columnChecked_eq {a b c d e a' b' c' d' e' : UInt64}
    (a_ : a.toNat < 2 ^ 31) (b_ : b.toNat < 2 ^ 31) (c_ : c.toNat < 2 ^ 31)
    (d_ : d.toNat < 2 ^ 31) (e_ : e.toNat < 2 ^ 31)
    (a'_ : a'.toNat < 2 ^ 26) (b'_ : b'.toNat < 2 ^ 26) (c'_ : c'.toNat < 2 ^ 26)
    (d'_ : d'.toNat < 2 ^ 26) (e'_ : e'.toNat < 2 ^ 26) :
    columnChecked a a' b b' c c' d d' e e' = some (a * a' + b * b' + c * c' + d * d' + e * e') := by
  have product {x y : UInt64} (x_ : x.toNat < 2 ^ 31) (y_ : y.toNat < 2 ^ 26) :
      product64 x y = some (x * y) ∧ (x * y).toNat < 2 ^ 57 := by
    have below := Nat.mul_lt_mul'' x_ y_
    refine ⟨product64_eq (by omega), ?_⟩
    rw [UInt64.toNat_mul]
    omega
  have sum {x y : UInt64} {m : Nat} (x_ : x.toNat < m) (y_ : y.toNat < 2 ^ 57)
      (m_ : m ≤ 2 ^ 60) : sum64 x y = some (x + y) ∧ (x + y).toNat < m + 2 ^ 57 := by
    refine ⟨sum64_eq (by omega), ?_⟩
    rw [UInt64.toNat_add]
    omega
  obtain ⟨p0, b0⟩ := product a_ a'_
  obtain ⟨p1, b1⟩ := product b_ b'_
  obtain ⟨p2, b2⟩ := product c_ c'_
  obtain ⟨p3, b3⟩ := product d_ d'_
  obtain ⟨p4, b4⟩ := product e_ e'_
  obtain ⟨s1, t1⟩ := sum b0 b1 (by decide)
  obtain ⟨s2, t2⟩ := sum t1 b2 (by decide)
  obtain ⟨s3, t3⟩ := sum t2 b3 (by decide)
  obtain ⟨s4, -⟩ := sum t3 b4 (by decide)
  rw [columnChecked, p0, p1, p2, p3, p4]
  simp only [bind, Option.bind, s1, s2, s3, s4]

theorem columnsChecked_eq {w r : Limbs} (loaded : w.Loaded) (narrow : r.Narrow) :
    columnsChecked w r = some (columns w r) := by
  obtain ⟨w0, w1, w2, w3, w4⟩ := loaded
  obtain ⟨r0, r1, r2, r3, r4⟩ := narrow
  have one {x : UInt32} (small : x.toNat < 2 ^ 28) : x.toUInt64.toNat < 2 ^ 31 := by
    rw [UInt32.toNat_toUInt64]
    omega
  have five {x : UInt32} (small : x.toNat < 2 ^ 28) :
      product64 x.toUInt64 5 = some (x.toUInt64 * 5) ∧ (x.toUInt64 * 5).toNat < 2 ^ 31 := by
    have small' : x.toUInt64.toNat < 2 ^ 28 := by rwa [UInt32.toNat_toUInt64]
    refine ⟨product64_eq (by rw [show (5 : UInt64).toNat = 5 from rfl]; omega), ?_⟩
    rw [toNat_times5 small']
    omega
  have thin {y : UInt32} (small : y.toNat < 2 ^ 26) : y.toUInt64.toNat < 2 ^ 26 := by
    rwa [UInt32.toNat_toUInt64]
  have v0 : w.l0.toNat < 2 ^ 28 := by omega
  have v1 : w.l1.toNat < 2 ^ 28 := by omega
  have v2 : w.l2.toNat < 2 ^ 28 := by omega
  have v3 : w.l3.toNat < 2 ^ 28 := by omega
  have v4 : w.l4.toNat < 2 ^ 28 := by omega
  obtain ⟨f1, t1⟩ := five v1
  obtain ⟨f2, t2⟩ := five v2
  obtain ⟨f3, t3⟩ := five v3
  obtain ⟨f4, t4⟩ := five v4
  have d0 := columnChecked_eq (one v0) t1 t2 t3 t4 (thin r0) (thin r4) (thin r3) (thin r2) (thin r1)
  have d1 := columnChecked_eq (one v0) (one v1) t2 t3 t4
    (thin r1) (thin r0) (thin r4) (thin r3) (thin r2)
  have d2 := columnChecked_eq (one v0) (one v1) (one v2) t3 t4
    (thin r2) (thin r1) (thin r0) (thin r4) (thin r3)
  have d3 := columnChecked_eq (one v0) (one v1) (one v2) (one v3) t4
    (thin r3) (thin r2) (thin r1) (thin r0) (thin r4)
  have d4 := columnChecked_eq (one v0) (one v1) (one v2) (one v3) (one v4)
    (thin r4) (thin r3) (thin r2) (thin r1) (thin r0)
  rw [columnsChecked, f1, f2, f3, f4]
  simp only [bind, Option.bind, d0, d1, d2, d3, d4]
  rfl

theorem carryChecked_eq {low high : UInt64} (low_ : low.toNat < 2 ^ 61)
    (high_ : high.toNat < 2 ^ 60) :
    sum64 high (low >>> 26) = some (high + low >>> 26) := by
  apply sum64_eq
  rw [toNat_shift26_64]
  omega

theorem passOnChecked_eq {d : Wide} (fits : d.Fits) :
    passOnChecked d = some (passOn d) ∧ (passOn d).d4.toNat < 11 * 2 ^ 52 := by
  obtain ⟨e1, e2, e3, e4⟩ := toNat_passOn fits
  obtain ⟨d0, d1, d2, d3, d4⟩ := fits
  have c1 : sum64 d.d1 (d.d0 >>> 26) = some (passOn d).d1 := carryChecked_eq (by omega) d1
  have c2 : sum64 d.d2 ((passOn d).d1 >>> 26) = some (passOn d).d2 :=
    carryChecked_eq (by omega) d2
  have c3 : sum64 d.d3 ((passOn d).d2 >>> 26) = some (passOn d).d3 :=
    carryChecked_eq (by omega) d3
  have c4 : sum64 d.d4 ((passOn d).d3 >>> 26) = some (passOn d).d4 :=
    carryChecked_eq (by omega) (by omega)
  refine ⟨?_, by omega⟩
  simp only [passOnChecked, bind, Option.bind, c1, c2, c3, c4]
  rfl

theorem wrapRoundChecked_eq {d : Wide} (small : d.d4.toNat < 11 * 2 ^ 52) :
    wrapRoundChecked d = some (wrapRound d) := by
  have carry : (d.d4 >>> 26).toNat < 11 * 2 ^ 26 := by
    rw [toNat_shift26_64]
    omega
  have word : (d.d4 >>> 26).toUInt32.toNat < 11 * 2 ^ 26 := by
    rw [UInt64.toNat_toUInt32]
    omega
  have cast : cast32 (d.d4 >>> 26) = some (d.d4 >>> 26).toUInt32 := if_pos (by omega)
  have times : product32 (d.d4 >>> 26).toUInt32 5 = some ((d.d4 >>> 26).toUInt32 * 5) :=
    product32_eq (by rw [show (5 : UInt32).toNat = 5 from rfl]; omega)
  have five : ((d.d4 >>> 26).toUInt32 * 5).toNat < 55 * 2 ^ 26 := by
    rw [UInt32.toNat_mul, show (5 : UInt32).toNat = 5 from rfl]
    exact Nat.lt_of_le_of_lt (Nat.mod_le _ _) (by omega)
  have low := low26_lt d.d0.toUInt32
  have h0 : sum32 (d.d0.toUInt32 &&& low26) ((d.d4 >>> 26).toUInt32 * 5) =
      some ((d.d0.toUInt32 &&& low26) + (d.d4 >>> 26).toUInt32 * 5) := sum32_eq (by omega)
  have mid := low26_lt d.d1.toUInt32
  have h1 : sum32 (d.d1.toUInt32 &&& low26)
      (((d.d0.toUInt32 &&& low26) + (d.d4 >>> 26).toUInt32 * 5) >>> 26) =
      some ((d.d1.toUInt32 &&& low26) +
        ((d.d0.toUInt32 &&& low26) + (d.d4 >>> 26).toUInt32 * 5) >>> 26) := by
    have below := ((d.d0.toUInt32 &&& low26) + (d.d4 >>> 26).toUInt32 * 5).toNat_lt
    exact sum32_eq (by rw [toNat_shift26]; omega)
  simp only [wrapRoundChecked, bind, Option.bind, cast, times, h0, h1]
  rfl

theorem polyBlockChecked_eq {r : Limbs} {block : Bytes} {hibit : UInt32} (narrow : r.Narrow)
    (carried : h.Carried) (short : block.length ≤ 16)
    (bit : hibit = 0 ∨ hibit = (1 : UInt32) <<< 24) :
    polyBlockChecked r h block hibit = some (polyBlock r h block hibit) := by
  obtain ⟨loaded, -⟩ := addBlock_value carried short bit
  obtain ⟨fits, -⟩ := columns_value loaded narrow
  obtain ⟨passed, small⟩ := passOnChecked_eq fits
  simp only [polyBlockChecked, bind, Option.bind, addBlockChecked_eq carried bit,
    columnsChecked_eq loaded narrow, passed, wrapRoundChecked_eq small]
  rfl

theorem carryChecked32_eq (low : UInt32) {high : UInt32} (small : high.toNat < 2 ^ 31) :
    sum32 high (low >>> 26) = some (high + low >>> 26) := by
  have below := low.toNat_lt
  apply sum32_eq
  rw [toNat_shift26]
  omega

theorem settleChecked_eq (carried : h.Carried) : settleChecked h = some (settle h) := by
  obtain ⟨b0, b1, b2, b3, b4⟩ := carried
  obtain ⟨a1, a1_⟩ : ∃ a1, a1 = h.l1 + h.l0 >>> 26 := ⟨_, rfl⟩
  obtain ⟨a2, a2_⟩ : ∃ a2, a2 = h.l2 + a1 >>> 26 := ⟨_, rfl⟩
  obtain ⟨a3, a3_⟩ : ∃ a3, a3 = h.l3 + a2 >>> 26 := ⟨_, rfl⟩
  obtain ⟨a4, a4_⟩ : ∃ a4, a4 = h.l4 + a3 >>> 26 := ⟨_, rfl⟩
  have c1 : sum32 h.l1 (h.l0 >>> 26) = some a1 := a1_ ▸ carryChecked32_eq h.l0 (by omega)
  have c2 : sum32 h.l2 (a1 >>> 26) = some a2 := a2_ ▸ carryChecked32_eq a1 (by omega)
  have c3 : sum32 h.l3 (a2 >>> 26) = some a3 := a3_ ▸ carryChecked32_eq a2 (by omega)
  have c4 : sum32 h.l4 (a3 >>> 26) = some a4 := a4_ ▸ carryChecked32_eq a3 (by omega)
  have carry : (a4 >>> 26).toNat < 2 ^ 6 := by
    have below := a4.toNat_lt
    rw [toNat_shift26]
    omega
  have five : product32 5 (a4 >>> 26) = some ((5 : UInt32) * (a4 >>> 26)) :=
    product32_eq (by rw [show (5 : UInt32).toNat = 5 from rfl]; omega)
  have times : ((5 : UInt32) * (a4 >>> 26)).toNat < 2 ^ 9 := by
    rw [UInt32.toNat_mul, show (5 : UInt32).toNat = 5 from rfl]
    exact Nat.lt_of_le_of_lt (Nat.mod_le _ _) (by omega)
  have low := low26_lt h.l0
  have mid := low26_lt a1
  have h0 : sum32 (h.l0 &&& low26) ((5 : UInt32) * (a4 >>> 26)) =
      some ((h.l0 &&& low26) + (5 : UInt32) * (a4 >>> 26)) := sum32_eq (by omega)
  have h1 := carryChecked32_eq ((h.l0 &&& low26) + (5 : UInt32) * (a4 >>> 26))
    (show (a1 &&& low26).toNat < 2 ^ 31 by omega)
  simp only [settleChecked, bind, Option.bind, c1, c2, c3, c4, five, h0, h1]
  subst a4_ a3_ a2_ a1_
  rfl

theorem plusFiveChecked_eq (narrow : h.Narrow) : plusFiveChecked h = some (plusFive h) := by
  obtain ⟨b0, b1, b2, b3, b4⟩ := narrow
  have g0 : sum32 h.l0 5 = some (h.l0 + 5) :=
    sum32_eq (by rw [show (5 : UInt32).toNat = 5 from rfl]; omega)
  have g1 := carryChecked32_eq (h.l0 + 5) (show h.l1.toNat < 2 ^ 31 by omega)
  have g2 := carryChecked32_eq (h.l1 + (h.l0 + 5) >>> 26) (show h.l2.toNat < 2 ^ 31 by omega)
  have g3 := carryChecked32_eq (h.l2 + (h.l1 + (h.l0 + 5) >>> 26) >>> 26)
    (show h.l3.toNat < 2 ^ 31 by omega)
  have g4 := carryChecked32_eq (h.l3 + (h.l2 + (h.l1 + (h.l0 + 5) >>> 26) >>> 26) >>> 26)
    (show h.l4.toNat < 2 ^ 31 by omega)
  simp only [plusFiveChecked, bind, Option.bind, g0, g1, g2, g3, g4]
  rfl

theorem freezeChecked_eq (narrow : h.Narrow) : freezeChecked false h = some (freeze h) := by
  have mask (x : UInt32) : difference32 false x 1 = some (x - 1) := if_neg (by simp)
  simp only [freezeChecked, bind, Option.bind, plusFiveChecked_eq narrow, mask]
  rfl

theorem outputChecked_eq (h : Limbs) (pad : Vector UInt32 4) :
    outputChecked h pad = some (output h pad) := by
  have word (x : UInt32) : x.toUInt64.toNat < 2 ^ 32 := by
    rw [UInt32.toNat_toUInt64]
    exact x.toNat_lt
  have two (x y : UInt32) : sum64 x.toUInt64 y.toUInt64 = some (x.toUInt64 + y.toUInt64) := by
    apply sum64_eq
    have left := word x
    have right := word y
    omega
  have three (x y : UInt32) (f : UInt64) :
      sum64 (x.toUInt64 + y.toUInt64) (f >>> 32) = some (x.toUInt64 + y.toUInt64 + f >>> 32) := by
    have left := word x
    have right := word y
    have below := f.toNat_lt
    apply sum64_eq
    rw [toNat_add_lt64 (by omega), UInt64.toNat_shiftRight, Nat.shiftRight_eq_div_pow]
    change _ + _ / 2 ^ 32 < _
    omega
  simp only [outputChecked, bind, Option.bind, two, three]
  rfl

theorem polyFinishChecked_eq (carried : h.Carried) (pad : Vector UInt32 4) :
    polyFinishChecked false h pad = some (polyFinish h pad) := by
  obtain ⟨narrow, -⟩ := settle_value carried
  simp only [polyFinishChecked, bind, Option.bind, settleChecked_eq carried,
    freezeChecked_eq narrow, outputChecked_eq]
  rfl

/-- What the code makes of a block: 16 bytes at most, and a marking bit or none. -/
structure Block.Made (block : Block) : Prop where
  short : block.bytes.length ≤ 16
  bit : block.hibit = 0 ∨ block.hibit = (1 : UInt32) <<< 24

def Block.value (block : Block) : Nat := leNat block.bytes + 2 ^ 104 * block.hibit.toNat

/-- The accumulator over numbers: a block added, times `r`, block after block. -/
def horner (r : Nat) (blocks : List Block) : Nat :=
  blocks.foldl (fun a block => ChaChaPoly.absorb r a block.value) 0

theorem blocksOf_made (fuel : Nat) (msg : Bytes) : ∀ block ∈ blocksOf fuel msg, block.Made := by
  induction fuel generalizing msg with
  | zero => nofun
  | succ fuel ih =>
      rw [blocksOf]
      split
      next => nofun
      next some_ =>
        intro block isIn
        rcases List.mem_cons.mp isIn with rfl | isIn
        · have short := List.length_take_le 16 msg
          split
          next less =>
            refine ⟨?_, .inl rfl⟩
            simp only [padded, List.length_append, List.length_replicate, List.length_singleton]
            omega
          next => exact ⟨short, .inr rfl⟩
        · exact ih (msg.drop 16) block isIn

theorem macBlocks_made (ad ct : Bytes) : ∀ block ∈ macBlocks ad ct, block.Made := by
  intro block isIn
  rw [macBlocks, List.mem_append, List.mem_append, List.mem_singleton] at isIn
  rcases isIn with (isIn | isIn) | rfl
  · exact blocksOf_made _ _ block isIn
  · exact blocksOf_made _ _ block isIn
  · refine ⟨?_, .inr rfl⟩
    rw [lengthBlock, store64Le, store64Le, leBytes64_eq, leBytes64_eq, List.length_append,
      length_natLe, length_natLe]

theorem zeroLimbs_carried : zeroLimbs.Carried :=
  ⟨by decide, by decide, by decide, by decide, by decide⟩

theorem limbsAfter_value {r : Limbs} (narrow : r.Narrow) {blocks : List Block}
    (made : ∀ block ∈ blocks, block.Made) :
    limbsAfterChecked r blocks = some (limbsAfter r blocks) ∧ (limbsAfter r blocks).Carried ∧
      (limbsAfter r blocks).value % ChaChaPoly.prime = horner r.value blocks % ChaChaPoly.prime := by
  induction blocks using List.reverseRecOn with
  | nil => exact ⟨rfl, zeroLimbs_carried, rfl⟩
  | append_singleton blocks block ih =>
      obtain ⟨checked, carried, value⟩ :=
        ih fun b isIn => made b (List.mem_append_left _ isIn)
      obtain ⟨short, bit⟩ := made block (List.mem_append_right _ (List.mem_singleton_self _))
      obtain ⟨carried', value'⟩ := polyBlock_value narrow carried short bit
      have last : limbsAfter r (blocks ++ [block]) =
          polyBlock r (limbsAfter r blocks) block.bytes block.hibit := by
        rw [limbsAfter, List.foldl_append]
        rfl
      refine ⟨?_, ?_, ?_⟩
      · rw [limbsAfterChecked, List.foldlM_append]
        change (limbsAfterChecked r blocks).bind _ = _
        rw [checked, last]
        simp only [Option.bind, List.foldlM_cons, List.foldlM_nil,
          polyBlockChecked_eq narrow carried short bit]
        rfl
      · rwa [last]
      · have number : horner r.value (blocks ++ [block]) =
            ChaChaPoly.absorb r.value (horner r.value blocks) block.value := by
          rw [horner, List.foldl_append]
          rfl
        rw [last, value', absorb_congr value, number, ChaChaPoly.absorb, ChaChaPoly.absorb,
          Nat.mod_mod]
        rfl

theorem polyAbsorb_blocks (r : Limbs) (fuel : Nat) (h : Limbs) (msg : Bytes) :
    polyAbsorb r fuel h msg =
      (blocksOf fuel msg).foldl (fun h block => polyBlock r h block.bytes block.hibit) h := by
  induction fuel generalizing h msg with
  | zero => rfl
  | succ fuel ih =>
      rw [polyAbsorb, blocksOf]
      split
      next => rfl
      next =>
        rw [List.foldl_cons]
        dsimp only
        split
        · exact ih _ _
        · exact ih _ _

theorem poly1305Mac_blocks (key ad ct : Bytes) :
    poly1305Mac key ad ct = Vector.ofFn fun i =>
      (polyFinish (limbsAfter (keyLimbs key) (macBlocks ad ct)) (keyPad key)).getD i 0 := by
  rw [macBlocks, limbsAfter, List.foldl_append, List.foldl_append, ← polyAbsorb_blocks,
    ← polyAbsorb_blocks]
  rfl

/-- No sum, product or cast of the tag's computation leaves its word; after any number of its
blocks the limbs stand for the accumulator; and the tag is the accumulator and the pad. -/
theorem poly1305_exact (key ad ct : Bytes) :
    poly1305MacChecked false key ad ct = some (poly1305Mac key ad ct) ∧
      (∀ n, let blocks := (macBlocks ad ct).take n
        (limbsAfter (keyLimbs key) blocks).Carried ∧
          (limbsAfter (keyLimbs key) blocks).value % ChaChaPoly.prime =
            horner (keyLimbs key).value blocks % ChaChaPoly.prime) ∧
      (poly1305Mac key ad ct).toList = natLe 16
        (horner (keyLimbs key).value (macBlocks ad ct) % ChaChaPoly.prime +
          padValue (keyPad key)) := by
  obtain ⟨narrow, -⟩ := keyLimbs_value key
  obtain ⟨checked, carried, value⟩ := limbsAfter_value narrow (macBlocks_made ad ct)
  refine ⟨?_, ?_, ?_⟩
  · rw [poly1305MacChecked, checked, poly1305Mac_blocks]
    simp only [bind, Option.bind, polyFinishChecked_eq carried]
    rfl
  · intro n
    exact (limbsAfter_value narrow fun block isIn =>
      macBlocks_made ad ct block (List.mem_of_mem_take isIn)).2
  · rw [poly1305Mac_blocks, polyFinish_value carried, value, toList_ofFn_getD (length_natLe 16 _)]

/-- The mask of the last subtraction is made of a difference that wraps. -/
theorem poly1305_mask_wraps : poly1305MacChecked true (List.replicate 32 0) [] [] = none := by
  decide +kernel

end Metal.Net.Wg
