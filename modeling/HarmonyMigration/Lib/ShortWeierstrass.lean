import Mathlib.AlgebraicGeometry.EllipticCurve.Affine.Point
import Mathlib.Tactic

/-! The curves `y² = x³ + b` in Jacobian coordinates. The formulas do not contain `b`. -/

namespace ShortWeierstrass

open WeierstrassCurve WeierstrassCurve.Affine

variable {F : Type*} [Field F]

/-- `y² = x³ + b`. -/
def curve (b : F) : Affine F := { a₁ := 0, a₂ := 0, a₃ := 0, a₄ := 0, a₆ := b }

variable {b : F}

theorem negY_curve (x y : F) : (curve b).negY x y = -y := by simp [negY, curve]

theorem equation_curve {x y : F} : (curve b).Equation x y ↔ y ^ 2 = x ^ 3 + b := by
  rw [equation_iff]
  simp [curve]

/-- Off characteristics two and three every point of the curve is smooth where `b` is not zero. -/
theorem nonsingular_curve (h6 : (6 : F) ≠ 0) (hb : b ≠ 0) {x y : F} (h : y ^ 2 = x ^ 3 + b) :
    (curve b).Nonsingular x y := by
  have h2 : (2 : F) ≠ 0 := fun h2 => h6 (by rw [show (6 : F) = 2 * 3 by norm_num, h2, zero_mul])
  have h3 : (3 : F) ≠ 0 := fun h3 => h6 (by rw [show (6 : F) = 2 * 3 by norm_num, h3, mul_zero])
  rw [nonsingular_iff]
  refine ⟨equation_curve.mpr h, ?_⟩
  by_cases hy : y = 0
  · -- then `x³ = -b` is not zero, and neither is the slope
    have hx : x ≠ 0 := by
      rintro rfl
      rw [hy] at h
      exact hb (by linear_combination -h)
    left
    simpa [curve] using (mul_ne_zero h3 (pow_ne_zero 2 hx)).symm
  · right
    simp only [curve, zero_mul, sub_zero]
    intro hneg
    exact hy ((mul_eq_zero.mp (by linear_combination hneg : 2 * y = 0)).resolve_left h2)

/-- The triple `x, y, z` stands for the point `x / z², y / z³`, and for infinity where `z` is zero. -/
inductive Represents : (curve b).Point → F → F → F → Prop
  | infinity (x y : F) : Represents 0 x y 0
  | affine {x y z : F} (h : (curve b).Nonsingular x y) (hz : z ≠ 0) : Represents (.some x y h) (x * z ^ 2) (y * z ^ 3) z

theorem Represents.z_eq_zero_iff {P : (curve b).Point} {x y z : F} (h : Represents P x y z) : z = 0 ↔ P = 0 := by
  cases h with
  | infinity => simp
  | affine h hz => simp [hz, Point.some_ne_zero]

/-- The coordinates of twice a point. -/
def doubled (x y z : F) : F × F × F :=
  let slope := 3 * x * x
  let offset := 4 * x * (y * y)
  let x3 := slope * slope - 2 * offset
  (x3, slope * (offset - x3) - 8 * (y * y) * (y * y), 2 * y * z)

/-- The coordinates of the sum of two points with different abscissas. -/
def summed (x1 y1 z1 x2 y2 z2 : F) : F × F × F :=
  let u1 := x1 * (z2 * z2)
  let u2 := x2 * (z1 * z1)
  let s1 := y1 * z2 * (z2 * z2)
  let s2 := y2 * z1 * (z1 * z1)
  let d := u2 - u1
  let rise := s2 - s1
  let x3 := rise * rise - d * d * d - 2 * (u1 * (d * d))
  (x3, rise * (u1 * (d * d) - x3) - s1 * (d * d * d), d * z1 * z2)

/-- Affine points with given coordinates are equal. -/
theorem represents_of_eq {x y z x' y' : F} (h : (curve b).Nonsingular x y) (hz : z ≠ 0) (hx : x' = x * z ^ 2)
    (hy : y' = y * z ^ 3) : Represents (.some x y h) x' y' z := by
  subst hx hy
  exact .affine h hz

theorem addX_curve (x1 x2 slope : F) : (curve b).addX x1 x2 slope = slope * slope - x1 - x2 := by
  simp only [addX, curve]
  ring

theorem addY_curve (x1 x2 y1 slope : F) :
    (curve b).addY x1 x2 y1 slope = slope * (x1 - (slope * slope - x1 - x2)) - y1 := by
  rw [addY, negY_curve, negAddY, addX_curve]
  ring

/-- No point with an ordinate is its own negative. -/
theorem ne_negY (h2 : (2 : F) ≠ 0) {x y : F} (hy : y ≠ 0) : y ≠ (curve b).negY x y := by
  rw [negY_curve]
  intro hneg
  exact hy ((mul_eq_zero.mp (by linear_combination hneg : 2 * y = 0)).resolve_left h2)

section Double

variable [DecidableEq F]

theorem slope_self (h2 : (2 : F) ≠ 0) {x y : F} (hy : y ≠ 0) : (curve b).slope x x y y = 3 * x * x / (2 * y) := by
  rw [slope_of_Y_ne rfl (ne_negY h2 hy), negY_curve]
  simp only [curve]
  congr 1 <;> ring

theorem slope_of_ne {x1 x2 : F} (h : x1 ≠ x2) (y1 y2 : F) : (curve b).slope x1 x2 y1 y2 = (y2 - y1) / (x2 - x1) := by
  rw [slope_of_X_ne h, ← neg_sub y2 y1, ← neg_sub x2 x1, neg_div_neg_eq]

theorem Represents.double (h2 : (2 : F) ≠ 0) {P : (curve b).Point} {x y z : F} (h : Represents P x y z) (hy : y ≠ 0)
    (hz : z ≠ 0) : Represents (P + P) (doubled x y z).1 (doubled x y z).2.1 (doubled x y z).2.2 := by
  cases h with
  | infinity => exact absurd rfl hz
  | @affine x y z h hz =>
    have hy0 : y ≠ 0 := fun h0 => hy (by rw [h0, zero_mul])
    rw [Point.add_self_of_Y_ne (ne_negY h2 hy0)]
    refine represents_of_eq _ ?_ ?_ ?_
    · exact mul_ne_zero (mul_ne_zero h2 hy) hz
    · rw [addX_curve, slope_self h2 hy0]
      simp only [doubled]
      field_simp
      ring
    · rw [addY_curve, slope_self h2 hy0]
      simp only [doubled]
      field_simp
      ring

/-- A point without ordinate is its own negative. -/
theorem Represents.double_eq_zero {P : (curve b).Point} {x y z : F} (h : Represents P x y z) (h0 : y = 0 ∨ z = 0) :
    P + P = 0 := by
  cases h with
  | infinity => exact add_zero 0
  | @affine x y z h hz =>
    have hy : y = 0 := by
      rcases h0 with h0 | h0
      · exact (mul_eq_zero.mp h0).resolve_right (pow_ne_zero 3 hz)
      · exact absurd h0 hz
    exact Point.add_self_of_Y_eq (by rw [negY_curve, hy, neg_zero])

end Double

section Add

variable [DecidableEq F] {P Q : (curve b).Point} {x1 y1 z1 x2 y2 z2 : F}

theorem Represents.add (hP : Represents P x1 y1 z1) (hQ : Represents Q x2 y2 z2) (hz1 : z1 ≠ 0) (hz2 : z2 ≠ 0)
    (hu : x1 * (z2 * z2) ≠ x2 * (z1 * z1)) :
    Represents (P + Q) (summed x1 y1 z1 x2 y2 z2).1 (summed x1 y1 z1 x2 y2 z2).2.1 (summed x1 y1 z1 x2 y2 z2).2.2 := by
  cases hP with
  | infinity => exact absurd rfl hz1
  | @affine x1 y1 z1 h1 _ =>
    cases hQ with
    | infinity => exact absurd rfl hz2
    | @affine x2 y2 z2 h2 _ =>
      have hne : x1 ≠ x2 := by
        rintro rfl
        exact hu (by ring)
      have hd : x2 - x1 ≠ 0 := sub_ne_zero.mpr hne.symm
      rw [Point.add_of_X_ne hne]
      have hz3 : x2 * z2 ^ 2 * (z1 * z1) - x1 * z1 ^ 2 * (z2 * z2) ≠ 0 := sub_ne_zero.mpr hu.symm
      refine represents_of_eq _ ?_ ?_ ?_
      · exact mul_ne_zero (mul_ne_zero hz3 hz1) hz2
      · rw [addX_curve, slope_of_ne hne]
        simp only [summed]
        field_simp
        ring
      · rw [addY_curve, slope_of_ne hne]
        simp only [summed]
        field_simp
        ring

/-- One abscissa: the ordinates tell the point from its negative. -/
theorem Represents.eq_of_coordinates (hP : Represents P x1 y1 z1) (hQ : Represents Q x2 y2 z2) (hz1 : z1 ≠ 0) (hz2 : z2 ≠ 0)
    (hu : x1 * (z2 * z2) = x2 * (z1 * z1)) :
    (y1 * z2 * (z2 * z2) = y2 * z1 * (z1 * z1) → P = Q) ∧ (y1 * z2 * (z2 * z2) ≠ y2 * z1 * (z1 * z1) → P + Q = 0) := by
  cases hP with
  | infinity => exact absurd rfl hz1
  | @affine x1 y1 z1 h1 _ =>
    cases hQ with
    | infinity => exact absurd rfl hz2
    | @affine x2 y2 z2 h2 _ =>
      have hz : z1 ^ 2 * z2 ^ 2 ≠ 0 := mul_ne_zero (pow_ne_zero 2 hz1) (pow_ne_zero 2 hz2)
      have hz' : z1 ^ 3 * z2 ^ 3 ≠ 0 := mul_ne_zero (pow_ne_zero 3 hz1) (pow_ne_zero 3 hz2)
      have hx : x1 = x2 := mul_right_cancel₀ hz (by linear_combination hu)
      subst hx
      constructor
      · intro hs
        have hy : y1 = y2 := mul_right_cancel₀ hz' (by linear_combination hs)
        subst hy
        rfl
      · intro hs
        refine Point.add_of_Y_eq rfl ((Y_eq_of_X_eq h1.1 h2.1 rfl).resolve_left fun hy => hs ?_)
        rw [hy]
        ring

end Add

end ShortWeierstrass
