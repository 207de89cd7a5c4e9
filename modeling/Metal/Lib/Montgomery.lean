import Mathlib.AlgebraicGeometry.EllipticCurve.Affine.Point
import Metal.Lib.Binary

namespace Metal.Lib.Montgomery

open WeierstrassCurve WeierstrassCurve.Affine

/-! Multiples of a point on `y² = x³ + a x² + x` by their `x` alone: the
ladder, over any field where the curve is one. -/

section Ladder

variable {R : Type} [CommRing R]

structure Ratio (R : Type) where
  x : R
  z : R

def double (a24 : R) (p : Ratio R) : Ratio R :=
  let aa := (p.x + p.z) * (p.x + p.z)
  let bb := (p.x - p.z) * (p.x - p.z)
  let e := aa - bb
  ⟨aa * bb, e * (aa + a24 * e)⟩

/-- The sum of two points, by their `x` and that of their difference. -/
def diffAdd (x1 : R) (p q : Ratio R) : Ratio R :=
  let da := (q.x - q.z) * (p.x + p.z)
  let cb := (q.x + q.z) * (p.x - p.z)
  ⟨(da + cb) * (da + cb), x1 * ((da - cb) * (da - cb))⟩

theorem double_x (a24 : R) (p : Ratio R) : (double a24 p).x = (p.x ^ 2 - p.z ^ 2) ^ 2 := by
  simp only [double]
  ring

theorem double_z {a a24 : R} (a24_ : a = 4 * a24 + 2) (p : Ratio R) :
    (double a24 p).z = 4 * p.x * p.z * (p.x ^ 2 + a * p.x * p.z + p.z ^ 2) := by
  subst a24_
  simp only [double]
  ring

theorem diffAdd_comm (x1 : R) (p q : Ratio R) : diffAdd x1 p q = diffAdd x1 q p := by
  simp only [diffAdd, Ratio.mk.injEq]
  constructor <;> ring

theorem diffAdd_x (x1 : R) (p q : Ratio R) :
    (diffAdd x1 p q).x = 4 * (p.x * q.x - p.z * q.z) ^ 2 := by
  simp only [diffAdd]
  ring

theorem diffAdd_z (x1 : R) (p q : Ratio R) :
    (diffAdd x1 p q).z = x1 * (4 * (q.x * p.z - p.x * q.z) ^ 2) := by
  simp only [diffAdd]
  ring

/-- The multiples `n` and `n + 1` of a point, the other way round where
`swapped`. -/
structure Rungs (R : Type) where
  low : Ratio R
  high : Ratio R
  swapped : Bool

def Rungs.swap (s : Rungs R) : Rungs R := { s with low := s.high, high := s.low }

def Rungs.start (x1 : R) : Rungs R := ⟨⟨1, 0⟩, ⟨x1, 1⟩, false⟩

def Rungs.turn (a24 x1 : R) (s : Rungs R) (bit : Bool) : Rungs R :=
  let s := if s.swapped != bit then s.swap else s
  ⟨double a24 s.low, diffAdd x1 s.low s.high, bit⟩

def Rungs.settle (s : Rungs R) : Rungs R := if s.swapped then s.swap else s

def ladder (a24 x1 : R) (bits : List Bool) : Ratio R :=
  (bits.foldl (Rungs.turn a24 x1) (Rungs.start x1)).settle.low

theorem turn_false (a24 x1 : R) (s : Rungs R) :
    (s.turn a24 x1 false).settle =
      ⟨double a24 s.settle.low, diffAdd x1 s.settle.low s.settle.high, false⟩ := by
  cases s with
  | mk low high swapped => cases swapped <;> rfl

theorem turn_true (a24 x1 : R) (s : Rungs R) :
    (s.turn a24 x1 true).settle =
      ⟨diffAdd x1 s.settle.high s.settle.low, double a24 s.settle.high, true⟩ := by
  cases s with
  | mk low high swapped => cases swapped <;> rfl

/-! From `x1 = 0` the ladder only ever sees infinity. -/

theorem turn_flat (a24 : R) {s : Rungs R} (low : s.low.x * s.low.z = 0)
    (high : s.high.x * s.high.z = 0) (bit : Bool) :
    (s.turn a24 0 bit).low.z = 0 ∧ (s.turn a24 0 bit).high.z = 0 := by
  have doubled {p : Ratio R} (flat : p.x * p.z = 0) : (double a24 p).z = 0 := by
    rw [double_z rfl, mul_assoc 4, flat, mul_zero, zero_mul]
  refine ⟨?_, zero_mul _⟩
  rw [Rungs.turn]
  split
  · exact doubled high
  · exact doubled low

theorem ladder_flat (a24 : R) {bits : List Bool} (read : bits ≠ []) :
    (ladder a24 (0 : R) bits).z = 0 := by
  have flat : ∀ (bits : List Bool) (s : Rungs R), s.low.x * s.low.z = 0 →
      s.high.x * s.high.z = 0 → bits ≠ [] →
      (bits.foldl (Rungs.turn a24 0) s).low.z = 0 ∧ (bits.foldl (Rungs.turn a24 0) s).high.z = 0 := by
    intro bits
    induction bits with
    | nil => exact fun _ _ _ read => absurd rfl read
    | cons bit rest ih =>
        intro s low high _
        have turned := turn_flat a24 low high bit
        cases rest with
        | nil => exact turned
        | cons next rest =>
            exact ih _ (by rw [turned.1, mul_zero]) (by rw [turned.2, mul_zero])
              (List.cons_ne_nil _ _)
  have done := flat bits (Rungs.start 0) (mul_zero 1) (mul_one 0) read
  rw [ladder, Rungs.settle]
  split
  · exact done.2
  · exact done.1

/-! A ladder in one ring is a ladder in another. -/

section Map

variable {S : Type} [CommRing S] (f : R →+* S)

def Ratio.map (p : Ratio R) : Ratio S := ⟨f p.x, f p.z⟩

def Rungs.map (s : Rungs R) : Rungs S := ⟨s.low.map f, s.high.map f, s.swapped⟩

theorem turn_map (a24 x1 : R) (s : Rungs R) (bit : Bool) :
    (s.turn a24 x1 bit).map f = (s.map f).turn (f a24) (f x1) bit := by
  rw [Rungs.turn, Rungs.turn]
  split <;>
    simp only [Rungs.map, Rungs.swap, Ratio.map, double, diffAdd, map_add, map_sub, map_mul, *,
      if_true, if_false, Bool.false_eq_true]

theorem ladder_map (a24 x1 : R) (bits : List Bool) :
    (ladder a24 x1 bits).map f = ladder (f a24) (f x1) bits := by
  have settle (s : Rungs R) : s.settle.low.map f = (s.map f).settle.low := by
    cases s with
    | mk low high swapped => cases swapped <;> rfl
  have start : (Rungs.start x1).map f = Rungs.start (f x1) := by
    simp only [Rungs.start, Rungs.map, Ratio.map, map_one, map_zero]
  rw [ladder, ladder, settle, ← start]
  generalize Rungs.start x1 = s
  congr 2
  induction bits generalizing s with
  | nil => rfl
  | cons bit rest ih => rw [List.foldl_cons, List.foldl_cons, ih, turn_map]

end Map

end Ladder

section Curve

variable {K : Type} [Field K]

def curve (a : K) : Affine K := ⟨0, a, 0, 1, 0⟩

theorem curve_equation {a x y : K} :
    (curve a).Equation x y ↔ y ^ 2 = x ^ 3 + a * x ^ 2 + x := by
  rw [equation_iff]
  simp only [curve, zero_mul, add_zero, one_mul]

theorem curve_nonsingular {a x y : K} (two : (2 : K) ≠ 0) (smooth : a ^ 2 ≠ 4)
    (on : y ^ 2 = x ^ 3 + a * x ^ 2 + x) : (curve a).Nonsingular x y := by
  refine (equation_iff_nonsingular_of_Δ_ne_zero ?_).mp (curve_equation.mpr on)
  have discriminant : (curve a).Δ = 2 ^ 4 * (a ^ 2 - 4) := by
    simp only [Δ, b₂, b₄, b₆, b₈, curve]
    ring
  rw [discriminant]
  exact mul_ne_zero (pow_ne_zero 4 two) (sub_ne_zero.mpr smooth)

theorem negY_curve (a x y : K) : (curve a).negY x y = -y := by
  simp only [negY, curve, zero_mul, sub_zero]

theorem addX_curve (a x x' slope : K) :
    (curve a).addX x x' slope = slope ^ 2 - a - x - x' := by
  simp only [addX, curve, zero_mul, add_zero]

theorem point_equation {a : K} {x y : K} (h : (curve a).Nonsingular x y) :
    y ^ 2 = x ^ 3 + a * x ^ 2 + x := curve_equation.mp h.1

/-- The fraction is the `x` of the point; at infinity that is `1 / 0`. -/
def Reads {a : K} (p : Ratio K) (c : (curve a).Point) : Prop :=
  ∃ scale : K, scale ≠ 0 ∧ p.x = scale * c.xRep 0 ∧ p.z = scale * c.xRep 1

variable {p : Ratio K}

theorem Reads.neg {a : K} {c : (curve a).Point} (reads : Reads p c) : Reads p (-c) := by
  rw [Reads, Point.xRep_neg]
  exact reads

theorem Reads.of_zero {a : K} (x : p.x ≠ 0) (z : p.z = 0) : Reads p (0 : (curve a).Point) :=
  ⟨p.x, x, (mul_one _).symm, z.trans (mul_zero _).symm⟩

theorem Reads.of_some {a : K} {x y : K} {h : (curve a).Nonsingular x y} (z : p.z ≠ 0)
    (ratio : p.x = p.z * x) : Reads p (Point.some x y h) :=
  ⟨p.z, z, ratio, (mul_one _).symm⟩

theorem Reads.some {a : K} {x y : K} {h : (curve a).Nonsingular x y}
    (reads : Reads p (Point.some x y h)) : p.z ≠ 0 ∧ p.x = p.z * x := by
  obtain ⟨scale, nonzero, x_, z_⟩ := reads
  have z : p.z = scale := z_.trans (mul_one _)
  rw [z]
  exact ⟨nonzero, x_⟩

theorem Reads.zero {a : K} (reads : Reads p (0 : (curve a).Point)) : p.x ≠ 0 ∧ p.z = 0 := by
  obtain ⟨scale, nonzero, x_, z_⟩ := reads
  have x : p.x = scale := x_.trans (mul_one _)
  rw [x]
  exact ⟨nonzero, z_.trans (mul_zero _)⟩

/-- The fraction has a value where the point is finite, and that is its `x`. -/
def Gives {a : K} (p : Ratio K) (c : (curve a).Point) : Prop :=
  (c = 0 → p.z = 0) ∧ ∀ x y h, c = Point.some x y h → p.z ≠ 0 ∧ p.x = p.z * x

theorem Reads.gives {a : K} {c : (curve a).Point} (reads : Reads p c) : Gives p c :=
  ⟨fun infinity => (infinity ▸ reads).zero.2, fun _ _ _ finite => (finite ▸ reads).some⟩

theorem diffAdd_zero {a : K} (two : (2 : K) ≠ 0) {x1 y1 : K} {h : (curve a).Nonsingular x1 y1}
    {q : Ratio K} (nonzero : x1 ≠ 0) (first : Reads p (0 : (curve a).Point))
    (second : Reads q (Point.some x1 y1 h)) : Reads (diffAdd x1 p q) (Point.some x1 y1 h) := by
  obtain ⟨x, z⟩ := first.zero
  obtain ⟨z', ratio⟩ := second.some
  have z_at : (diffAdd x1 p q).z = x1 * (2 * p.x * q.z) ^ 2 := by
    rw [diffAdd_z, z]
    ring
  refine Reads.of_some ?_ ?_
  · rw [z_at]
    exact mul_ne_zero nonzero (pow_ne_zero 2 (mul_ne_zero (mul_ne_zero two x) z'))
  · rw [z_at, diffAdd_x, z, ratio]
    ring

end Curve

section Sums

variable {K : Type} [Field K] [DecidableEq K] {a a24 : K}

theorem addX_self {x y : K} (two : (2 : K) ≠ 0) (on : y ^ 2 = x ^ 3 + a * x ^ 2 + x)
    (steep : y ≠ 0) :
    (curve a).addX x x ((curve a).slope x x y y) * (4 * y ^ 2) = (x ^ 2 - 1) ^ 2 := by
  have differs : y - (curve a).negY x y ≠ 0 := by
    rw [negY_curve, sub_neg_eq_add, ← two_mul]
    exact mul_ne_zero two steep
  have slope : (curve a).slope x x y y * (2 * y) = 3 * x ^ 2 + 2 * a * x + 1 := by
    rw [slope_of_Y_ne rfl (sub_ne_zero.mp differs), two_mul y, ← sub_neg_eq_add y y,
      ← negY_curve a x, div_mul_cancel₀ _ differs]
    simp only [curve, zero_mul, sub_zero]
  rw [addX_curve]
  linear_combination
    ((curve a).slope x x y y * (2 * y) + (3 * x ^ 2 + 2 * a * x + 1)) * slope -
      (4 * a + 8 * x) * on

theorem addX_mul_addX {x y x' y' : K} (on : y ^ 2 = x ^ 3 + a * x ^ 2 + x)
    (on' : y' ^ 2 = x' ^ 3 + a * x' ^ 2 + x') (apart : x ≠ x') :
    (curve a).addX x x' ((curve a).slope x x' y y') *
        (curve a).addX x x' ((curve a).slope x x' y (-y')) * (x - x') ^ 2 =
      (x * x' - 1) ^ 2 := by
  have nonzero : x - x' ≠ 0 := sub_ne_zero.mpr apart
  have sum : (curve a).addX x x' ((curve a).slope x x' y y') * (x - x') ^ 2 =
      (y - y') ^ 2 - (a + x + x') * (x - x') ^ 2 := by
    rw [addX_curve, slope_of_X_ne apart]
    field_simp
    ring
  have difference : (curve a).addX x x' ((curve a).slope x x' y (-y')) * (x - x') ^ 2 =
      (y + y') ^ 2 - (a + x + x') * (x - x') ^ 2 := by
    rw [addX_curve, slope_of_X_ne apart]
    field_simp
    ring
  apply mul_right_cancel₀ (pow_ne_zero 2 nonzero)
  calc _ = ((curve a).addX x x' ((curve a).slope x x' y y') * (x - x') ^ 2) *
        ((curve a).addX x x' ((curve a).slope x x' y (-y')) * (x - x') ^ 2) := by ring
    _ = ((y - y') ^ 2 - (a + x + x') * (x - x') ^ 2) *
        ((y + y') ^ 2 - (a + x + x') * (x - x') ^ 2) := by rw [sum, difference]
    _ = (y ^ 2 - y' ^ 2) ^ 2 - 2 * (a + x + x') * (x - x') ^ 2 * (y ^ 2 + y' ^ 2) +
        (a + x + x') ^ 2 * (x - x') ^ 4 := by ring
    _ = (x * x' - 1) ^ 2 * (x - x') ^ 2 := by
        rw [on, on']
        ring

theorem double_reads (two : (2 : K) ≠ 0) (smooth : a ^ 2 ≠ 4) (a24_ : a = 4 * a24 + 2)
    {p : Ratio K} {c : (curve a).Point} (reads : Reads p c) : Reads (double a24 p) (c + c) := by
  cases c with
  | zero =>
      obtain ⟨x, z⟩ := Reads.zero reads
      change Reads (double a24 p) ((0 : (curve a).Point) + 0)
      rw [add_zero]
      refine Reads.of_zero ?_ ?_
      · rw [double_x, z, zero_pow two_ne_zero, sub_zero]
        exact pow_ne_zero 2 (pow_ne_zero 2 x)
      · rw [double_z a24_, z]
        ring
  | some x y h =>
      obtain ⟨z, ratio⟩ := Reads.some reads
      have on := point_equation h
      have x_at : (double a24 p).x = p.z ^ 4 * (x ^ 2 - 1) ^ 2 := by
        rw [double_x, ratio]
        ring
      have z_at : (double a24 p).z = p.z ^ 4 * (4 * y ^ 2) := by
        rw [double_z a24_, ratio, on]
        ring
      by_cases flat : y = 0
      · rw [Point.add_self_of_Y_eq (by rw [negY_curve, flat, neg_zero])]
        refine Reads.of_zero ?_ ?_
        · rw [x_at]
          refine mul_ne_zero (pow_ne_zero 4 z) (pow_ne_zero 2 fun one => smooth ?_)
          have square : x ^ 2 = 1 := sub_eq_zero.mp one
          have line : a * x = -2 := by
            rw [flat] at on
            linear_combination (-x) * on - (x ^ 2 + a * x + 2) * square
          linear_combination (a * x - 2) * line - a ^ 2 * square
        · rw [z_at, flat]
          ring
      · have differs : y ≠ (curve a).negY x y := by
          rw [negY_curve]
          intro same
          have twice : 2 * y = 0 := by linear_combination same
          exact mul_ne_zero two flat twice
        have four : (4 : K) ≠ 0 := by
          have square : (4 : K) = 2 * 2 := by norm_num
          rw [square]
          exact mul_ne_zero two two
        rw [Point.add_self_of_Y_ne differs]
        refine Reads.of_some ?_ ?_
        · rw [z_at]
          exact mul_ne_zero (pow_ne_zero 4 z) (mul_ne_zero four (pow_ne_zero 2 flat))
        · rw [x_at, z_at, ← addX_self two on flat]
          ring

theorem diffAdd_next (two : (2 : K) ≠ 0) (smooth : a ^ 2 ≠ 4) (a24_ : a = 4 * a24 + 2)
    {x1 y1 : K} {h : (curve a).Nonsingular x1 y1} (nonzero : x1 ≠ 0) {p q : Ratio K}
    {c : (curve a).Point} (first : Reads p c) (second : Reads q (c + Point.some x1 y1 h)) :
    Reads (diffAdd x1 p q) (c + (c + Point.some x1 y1 h)) := by
  generalize next : c + Point.some x1 y1 h = d at second ⊢
  cases c with
  | zero =>
      have same : Point.some x1 y1 h = d := (zero_add _).symm.trans next
      subst same
      have sum := diffAdd_zero two nonzero first second
      rw [← zero_add (Point.some x1 y1 h)] at sum
      exact sum
  | some x y on =>
      cases d with
      | zero =>
          have opposite : Point.some x y on = -Point.some x1 y1 h := eq_neg_of_add_eq_zero_left next
          have sum := diffAdd_zero two nonzero second
            (by rw [← neg_neg (Point.some x1 y1 h), ← opposite]; exact first.neg)
          rw [diffAdd_comm]
          change Reads _ (Point.some x y on + 0)
          rw [add_zero, opposite]
          exact sum.neg
      | some x' y' on' =>
          obtain ⟨z, ratio⟩ := first.some
          obtain ⟨z', ratio'⟩ := second.some
          have x_at : (diffAdd x1 p q).x = (2 * p.z * q.z) ^ 2 * (x * x' - 1) ^ 2 := by
            rw [diffAdd_x, ratio, ratio']
            ring
          have z_at : (diffAdd x1 p q).z = (2 * p.z * q.z) ^ 2 * (x1 * (x - x') ^ 2) := by
            rw [diffAdd_z, ratio, ratio']
            ring
          have scale : (2 * p.z * q.z) ^ 2 ≠ 0 :=
            pow_ne_zero 2 (mul_ne_zero (mul_ne_zero two z) z')
          by_cases same : x = x'
          · have sum : Point.some x y on + Point.some x' y' on' = 0 := by
              rcases Point.X_eq_iff.mp same with equal | opposite
              · rw [equal] at next
                exact absurd (add_eq_left.mp next) (Point.some_ne_zero h)
              · rw [opposite, neg_add_cancel]
            have twice : Point.some x' y' on' + Point.some x' y' on' = Point.some x1 y1 h := by
              calc _ = Point.some x' y' on' + (Point.some x y on + Point.some x1 y1 h) := by
                    rw [next]
                _ = (Point.some x y on + Point.some x' y' on') + Point.some x1 y1 h := by abel
                _ = Point.some x1 y1 h := by rw [sum, zero_add]
            rw [sum]
            have doubled : Reads (double a24 ⟨x', 1⟩) (Point.some x1 y1 h) := by
              rw [← twice]
              exact double_reads two smooth a24_ (Reads.of_some one_ne_zero (one_mul _).symm)
            obtain ⟨z_, ratio_⟩ := doubled.some
            have square : x' ^ 2 - 1 ≠ 0 := by
              intro one
              rw [double_x, one_pow, one, zero_pow two_ne_zero] at ratio_
              exact mul_ne_zero z_ nonzero ratio_.symm
            subst same
            refine Reads.of_zero ?_ ?_
            · rw [x_at, ← sq]
              exact mul_ne_zero scale (pow_ne_zero 2 square)
            · rw [z_at]
              ring
          · have difference : Point.some x y on + -Point.some x' y' on' = -Point.some x1 y1 h := by
              rw [← next]
              abel
            rw [Point.neg_some, Point.neg_some, Point.add_of_X_ne same, Point.some.injEq,
              negY_curve] at difference
            have product := addX_mul_addX (point_equation on) (point_equation on') same
            rw [difference.1] at product
            rw [Point.add_of_X_ne same]
            have apart : x1 * (x - x') ^ 2 ≠ 0 :=
              mul_ne_zero nonzero (pow_ne_zero 2 (sub_ne_zero.mpr same))
            refine Reads.of_some ?_ ?_
            · rw [z_at]
              exact mul_ne_zero scale apart
            · rw [x_at, z_at, ← product]
              ring

end Sums

section Run

variable {K : Type} [Field K] [DecidableEq K] {a a24 x1 y1 : K}
variable {h : (curve a).Nonsingular x1 y1}

/-- The rungs are the multiple `n` of the base and the next. -/
def Rungs.At (base : (curve a).Point) (n : Nat) (s : Rungs K) : Prop :=
  Reads s.settle.low (n • base) ∧ Reads s.settle.high ((n + 1) • base)

theorem Rungs.At.turn (two : (2 : K) ≠ 0) (smooth : a ^ 2 ≠ 4) (a24_ : a = 4 * a24 + 2)
    (nonzero : x1 ≠ 0) {n : Nat} {s : Rungs K} (reached : s.At (Point.some x1 y1 h) n)
    (bit : Bool) : (s.turn a24 x1 bit).At (Point.some x1 y1 h) (2 * n + bit.toNat) := by
  obtain ⟨low, high⟩ := reached
  have sum : Reads (diffAdd x1 s.settle.low s.settle.high)
      ((2 * n + 1) • Point.some x1 y1 h) := by
    rw [succ_nsmul] at high
    have next := diffAdd_next two smooth a24_ nonzero low high
    have total : n • Point.some x1 y1 h + (n • Point.some x1 y1 h + Point.some x1 y1 h) =
        (2 * n + 1) • Point.some x1 y1 h := by
      rw [← succ_nsmul, ← add_nsmul]
      congr 1
      ring
    exact total ▸ next
  cases bit with
  | false =>
      rw [At, turn_false]
      refine ⟨?_, sum⟩
      have twice := double_reads two smooth a24_ low
      rw [← two_nsmul, ← mul_nsmul'] at twice
      exact twice
  | true =>
      rw [At, turn_true]
      refine ⟨diffAdd_comm x1 _ _ ▸ sum, ?_⟩
      have twice := double_reads two smooth a24_ high
      rw [← two_nsmul, ← mul_nsmul'] at twice
      exact twice

theorem ladder_reads (two : (2 : K) ≠ 0) (smooth : a ^ 2 ≠ 4) (a24_ : a = 4 * a24 + 2)
    (nonzero : x1 ≠ 0) (bits : List Bool) :
    Reads (ladder a24 x1 bits) (Binary.value bits • Point.some x1 y1 h) := by
  have start : (Rungs.start x1).At (Point.some x1 y1 h) 0 := by
    constructor
    · rw [zero_nsmul]
      exact Reads.of_zero one_ne_zero rfl
    · rw [zero_add, one_nsmul]
      exact Reads.of_some one_ne_zero (one_mul _).symm
  exact (Binary.walk (Rungs.turn a24 x1) (fun n s => s.At (Point.some x1 y1 h) n)
    (fun n s bit reached => reached.turn two smooth a24_ nonzero bit) start bits).1

theorem flat_base (flat : x1 = 0) : Point.some x1 y1 h + Point.some x1 y1 h = 0 := by
  have on := point_equation h
  have level : y1 = 0 := by
    rw [flat] at on
    exact pow_eq_zero_iff two_ne_zero |>.mp (by linear_combination on)
  exact Point.add_self_of_Y_eq (by rw [negY_curve, level, neg_zero])

theorem ladder_gives (two : (2 : K) ≠ 0) (smooth : a ^ 2 ≠ 4) (a24_ : a = 4 * a24 + 2)
    {bits : List Bool} (read : bits ≠ []) (even : 2 ∣ Binary.value bits) :
    Gives (ladder a24 x1 bits) (Binary.value bits • Point.some x1 y1 h) := by
  by_cases flat : x1 = 0
  · obtain ⟨half, twice⟩ := even
    have multiple : Binary.value bits • Point.some x1 y1 h = 0 := by
      rw [twice, mul_nsmul, two_nsmul, flat_base flat, nsmul_zero]
    rw [multiple, flat]
    exact ⟨fun _ => ladder_flat a24 read,
      fun _ _ h finite => absurd finite.symm (Point.some_ne_zero h)⟩
  · exact (ladder_reads two smooth a24_ flat bits).gives

end Run

end Metal.Lib.Montgomery
