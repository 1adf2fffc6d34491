import Mathlib.Algebra.Field.Basic
import Mathlib.Algebra.Module.Basic
import Mathlib.Tactic

/-! ECDSA in a vector space over the field of scalars: what verification computes, and the key that a signature
determines. -/

namespace Ecdsa

variable {K V : Type*} [Field K] [AddCommGroup V] [Module K V] (g : V)

/-- The point that the verification of `(r, s)` compares with `r`, for the digest `e` and the key `Q`. -/
def verifyPoint (e r s : K) (Q : V) : V := (e * s⁻¹) • g + (r * s⁻¹) • Q

/-- The key for which the verification ends in `R`. -/
def recovered (e r s : K) (R : V) : V := r⁻¹ • (s • R - e • g)

/-- The second half of a signature with the private key `d` and the nonce `k`. -/
def signS (d k e r : K) : K := k⁻¹ * (e + r * d)

variable {e r s d k : K} {R : V}

theorem verifyPoint_recovered (hr : r ≠ 0) (hs : s ≠ 0) : verifyPoint g e r s (recovered g e r s R) = R := by
  have hscale : r * s⁻¹ * r⁻¹ = s⁻¹ := by field_simp
  rw [verifyPoint, recovered, smul_smul, hscale, smul_sub, smul_smul, smul_smul, inv_mul_cancel₀ hs, one_smul,
    mul_comm e]
  abel

theorem signS_smul (hk : k ≠ 0) : signS d k e r • k • g = (e + r * d) • g := by
  rw [smul_smul, signS, mul_right_comm, inv_mul_cancel₀ hk, one_mul]

theorem recovered_signed (hk : k ≠ 0) (hr : r ≠ 0) : recovered g e r (signS d k e r) (k • g) = d • g := by
  rw [recovered, signS_smul g hk, ← sub_smul, add_sub_cancel_left, smul_smul, inv_mul_cancel_left₀ hr]

/-- A signature keeps its key when the point and the second half change signs together. -/
theorem recovered_neg : recovered g e r (-s) (-R) = recovered g e r s R := by
  rw [recovered, recovered, neg_smul_neg]

/-- The negated point gives the key's negative, moved by a multiple of the generator. -/
theorem recovered_other (hk : k ≠ 0) (hr : r ≠ 0) :
    recovered g e r (signS d k e r) (-(k • g)) = -(d • g) - (2 * e * r⁻¹) • g := by
  have hscalar : r⁻¹ * (-(e + r * d) - e) = -d - 2 * e * r⁻¹ := by
    field_simp
    ring
  rw [recovered, smul_neg, signS_smul g hk, ← neg_smul, ← sub_smul, smul_smul, hscalar, sub_smul, neg_smul]

theorem recovered_other_ne (h2 : (2 : K) ≠ 0) (hg : g ≠ 0) (hk : k ≠ 0) (hr : r ≠ 0) (hs : signS d k e r ≠ 0) :
    recovered g e r (signS d k e r) (-(k • g)) ≠ d • g := by
  rw [recovered_other g hk hr]
  intro heq
  have hzero : (2 * (d + e * r⁻¹)) • g = 0 := by
    have hsum : (2 * (d + e * r⁻¹)) • g = d • g - (-(d • g) - (2 * e * r⁻¹) • g) := by module
    rw [hsum, heq, sub_self]
  have hscalar := (mul_eq_zero.mp ((smul_eq_zero.mp hzero).resolve_right hg)).resolve_left h2
  refine hs ?_
  have hmul : signS d k e r = k⁻¹ * (r * (d + e * r⁻¹)) := by
    rw [signS]
    field_simp
    ring
  rw [hmul, hscalar, mul_zero, mul_zero]

end Ecdsa
