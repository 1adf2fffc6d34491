import HarmonyMigration.Exchange.PointArithmetic

/-! The two representations of `normalize-exchange-wallets.py` agree: sums, doubles and multiples in Jacobian coordinates
are those of `point_add`. -/

namespace HarmonyMigration.ExchangeRecovery

open Except ModArith ShortWeierstrass

/-- The coordinates of a triple, reduced, satisfy the equation of the curve or stand for infinity. -/
structure OnCurve (t : ℤ × ℤ × ℤ) : Prop where
  x_reduced : 0 ≤ t.1 ∧ t.1 < secp256k1P
  y_reduced : 0 ≤ t.2.1 ∧ t.2.1 < secp256k1P
  z_reduced : 0 ≤ t.2.2 ∧ t.2.2 < secp256k1P
  equation : t.2.2 = 0 ∨ t.2.1 ^ 2 ≡ t.1 ^ 3 + 7 * t.2.2 ^ 6 [ZMOD secp256k1P]

/-- `point_add` of `point` to itself, `k` times from infinity. -/
def pointAddTimes (point : Option (ℤ × ℤ)) : ℕ → Except RecoverError (Option (ℤ × ℤ))
  | 0 => .ok none
  | k + 1 => (pointAddTimes point k).bind fun multiple => pointAdd multiple point

section Agreement

variable {t u : ℤ × ℤ × ℤ}

/-- A triple on the curve stands for a point. -/
theorem OnCurve.exists_denotes (h : OnCurve t) : ∃ P : Point, Denotes P t := by
  obtain ⟨x, y, z⟩ := t
  obtain ⟨-, hy, hz, heq⟩ := h
  simp only at hy hz heq
  by_cases h0 : z = 0
  · subst h0
    refine ⟨0, hy, hz, ?_⟩
    simp only [Int.cast_zero]
    exact .infinity _ _
  · have hz0 : (z : Fp) ≠ 0 := mt (intCast_eq_zero_iff hz).mp h0
    have hcast := (ZMod.intCast_eq_intCast_iff _ _ _).mpr (heq.resolve_left h0)
    push_cast at hcast
    have hpoint : ((y : Fp) / (z : Fp) ^ 3) ^ 2 = ((x : Fp) / (z : Fp) ^ 2) ^ 3 + 7 := by
      field_simp
      linear_combination hcast
    have hsmooth := nonsingular_curve six_ne_zero seven_ne_zero hpoint
    exact ⟨_, hy, hz, represents_of_eq hsmooth hz0 (by field_simp) (by field_simp)⟩

theorem affine_jacobianAdd (ht : OnCurve t) (hu : OnCurve u) : affineFromJacobian (jacobianAdd t u) =
    (affineFromJacobian t).bind fun left => (affineFromJacobian u).bind fun right => pointAdd left right := by
  obtain ⟨P, hP⟩ := ht.exists_denotes
  obtain ⟨Q, hQ⟩ := hu.exists_denotes
  rw [affineFromJacobian_denotes hP, affineFromJacobian_denotes hQ, bind_ok_left, bind_ok_left, pointAdd_eq]
  exact affineFromJacobian_denotes (denotes_add hP hQ)

theorem affine_jacobianDouble (ht : OnCurve t) : affineFromJacobian (jacobianDouble t) =
    (affineFromJacobian t).bind fun point => pointAdd point point := by
  obtain ⟨P, hP⟩ := ht.exists_denotes
  rw [affineFromJacobian_denotes hP, bind_ok_left, pointAdd_eq]
  exact affineFromJacobian_denotes (denotes_double hP)

theorem pointAddTimes_coordinates (P : Point) (k : ℕ) :
    pointAddTimes (coordinates P) k = .ok (coordinates (k • P)) := by
  induction k with
  | zero => rw [pointAddTimes, zero_nsmul, coordinates_zero]
  | succ k ih => rw [pointAddTimes, ih, bind_ok_left, pointAdd_eq, succ_nsmul]

/-- A triple with last coordinate one stands for its first two coordinates. -/
theorem OnCurve.exists_coordinates {x y : ℤ} (h : OnCurve (x, y, 1)) : ∃ P : Point, coordinates P = some (x, y) := by
  obtain ⟨hx, hy, -, heq⟩ := h
  have hcast := (ZMod.intCast_eq_intCast_iff _ _ _).mpr (heq.resolve_left one_ne_zero)
  push_cast at hcast
  exact ⟨_, coordinates_pointOf (by linear_combination hcast) hx hy⟩

theorem scalarMultiply_eq_pointAddTimes {x y : ℤ} (h : OnCurve (x, y, 1)) (k : ℕ) :
    scalarMultiply k (some (x, y)) = pointAddTimes (some (x, y)) k := by
  obtain ⟨P, hP⟩ := h.exists_coordinates
  have hne : P ≠ 0 := by
    rintro rfl
    cases hP
  rw [← hP, scalarMultiply_natCast hne, pointAddTimes_coordinates]

end Agreement

end HarmonyMigration.ExchangeRecovery
