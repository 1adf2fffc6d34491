import HarmonyMigration.Exchange.Secp256k1
import HarmonyMigration.Lib.Decimal
import HarmonyMigration.Lib.Except

/-! The point arithmetic of `normalize-exchange-wallets.py`: affine sums, and multiples in Jacobian coordinates. Each
function computes the operation of the group. -/

namespace HarmonyMigration.ExchangeRecovery

open Decimal Except ModArith ShortWeierstrass

inductive RecoverError
  | valueError (message : Text)
  | notHexadecimal
  | notInvertible
  | notSubscriptable
  | outOfRange
  deriving DecidableEq

/-- `pow(a, -1, m)`. -/
def modInverse (a m : ℤ) : Except RecoverError ℤ := ofOption (inverse? a m) .notInvertible

/-! ### The source's functions -/

def pointAdd (left right : Option (ℤ × ℤ)) : Except RecoverError (Option (ℤ × ℤ)) :=
  match left, right with
  | none, right => .ok right
  | some left, none => .ok (some left)
  | some (x1, y1), some (x2, y2) =>
    if x1 = x2 ∧ (y1 + y2) % secp256k1P = 0 then .ok none
    else
      (if (x1, y1) = (x2, y2) then
        (modInverse (2 * y1) secp256k1P).map fun inverse : ℤ => 3 * x1 * x1 * inverse % secp256k1P
      else
        (modInverse ((x2 - x1) % secp256k1P) secp256k1P).map fun inverse : ℤ => (y2 - y1) * inverse % secp256k1P).map
      fun slope : ℤ =>
        let x3 := (slope * slope - x1 - x2) % secp256k1P
        let y3 := (slope * (x1 - x3) - y1) % secp256k1P
        some (x3, y3)

def jacobianDouble (point : ℤ × ℤ × ℤ) : ℤ × ℤ × ℤ :=
  let (x, y, z) := point
  if y = 0 ∨ z = 0 then (0, 1, 0)
  else
    let ySquared := y * y % secp256k1P
    let slope := 3 * x * x % secp256k1P
    let offset := 4 * x * ySquared % secp256k1P
    let x3 := (slope * slope - 2 * offset) % secp256k1P
    let y3 := (slope * (offset - x3) - 8 * ySquared * ySquared) % secp256k1P
    let z3 := 2 * y * z % secp256k1P
    (x3, y3, z3)

def jacobianAdd (left right : ℤ × ℤ × ℤ) : ℤ × ℤ × ℤ :=
  let (x1, y1, z1) := left
  let (x2, y2, z2) := right
  if z1 = 0 then right
  else if z2 = 0 then left
  else
    let z1Squared := z1 * z1 % secp256k1P
    let z2Squared := z2 * z2 % secp256k1P
    let u1 := x1 * z2Squared % secp256k1P
    let u2 := x2 * z1Squared % secp256k1P
    let s1 := y1 * z2 * z2Squared % secp256k1P
    let s2 := y2 * z1 * z1Squared % secp256k1P
    if u1 = u2 then (if s1 = s2 then jacobianDouble left else (0, 1, 0))
    else
      let difference := (u2 - u1) % secp256k1P
      let rise := (s2 - s1) % secp256k1P
      let differenceSquared := difference * difference % secp256k1P
      let differenceCubed := differenceSquared * difference % secp256k1P
      let u1DifferenceSquared := u1 * differenceSquared % secp256k1P
      let x3 := (rise * rise - differenceCubed - 2 * u1DifferenceSquared) % secp256k1P
      let y3 := (rise * (u1DifferenceSquared - x3) - s1 * differenceCubed) % secp256k1P
      let z3 := difference * z1 * z2 % secp256k1P
      (x3, y3, z3)

def affineFromJacobian (point : ℤ × ℤ × ℤ) : Except RecoverError (Option (ℤ × ℤ)) :=
  let (x, y, z) := point
  if z = 0 then .ok none
  else
    (modInverse z secp256k1P).map fun inverse : ℤ =>
      let inverseSquared := inverse * inverse % secp256k1P
      some (x * inverseSquared % secp256k1P, y * inverseSquared * inverse % secp256k1P)

/-- `while scalar`, one binary digit in each turn. -/
def scalarLoop : ℕ → ℕ → ℤ × ℤ × ℤ → ℤ × ℤ × ℤ → ℤ × ℤ × ℤ
  | 0, _, result, _ => result
  | fuel + 1, scalar, result, addend =>
    if scalar = 0 then result
    else scalarLoop fuel (scalar / 2) (if scalar % 2 = 1 then jacobianAdd result addend else result) (jacobianDouble addend)

/-- `point[0]` raises where the point is `None`. -/
def scalarMultiply (scalar : ℤ) (point : Option (ℤ × ℤ)) : Except RecoverError (Option (ℤ × ℤ)) :=
  let scalar := (if scalar < 0 then scalar % secp256k1N else scalar).toNat
  (ofOption point .notSubscriptable).bind fun point =>
  affineFromJacobian (scalarLoop (scalar.log2 + 1) scalar (0, 1, 0) (point.1, point.2, 1))

/-! ### Triples that stand for points -/

/-- The triple stands for the point, with the ordinate and the last coordinate reduced. -/
structure Denotes (P : Point) (t : ℤ × ℤ × ℤ) : Prop where
  y_reduced : 0 ≤ t.2.1 ∧ t.2.1 < secp256k1P
  z_reduced : 0 ≤ t.2.2 ∧ t.2.2 < secp256k1P
  represents : Represents P (t.1 : Fp) (t.2.1 : Fp) (t.2.2 : Fp)

/-- A reduced number is tested for zero as its residue is. -/
theorem intCast_eq_zero_iff {a : ℤ} (h : 0 ≤ a ∧ a < secp256k1P) : (a : Fp) = 0 ↔ a = 0 := by
  constructor
  · intro ha
    exact eq_of_intCast_eq h ⟨le_refl 0, secp256k1P_pos⟩ (by rw [ha, Int.cast_zero])
  · rintro rfl
    exact Int.cast_zero

/-- Two remainders are equal where their residues are. -/
theorem emod_eq_iff {a b : ℤ} : a % secp256k1P = b % secp256k1P ↔ (a : Fp) = b := (ZMod.intCast_eq_intCast_iff' a b _).symm

@[simp] theorem intCast_emod (a : ℤ) : ((a % secp256k1P : ℤ) : Fp) = a := ZMod.intCast_mod a _

theorem denotes_infinity : Denotes 0 (0, 1, 0) where
  y_reduced := by decide
  z_reduced := by decide
  represents := by
    simp only [Int.cast_zero]
    exact .infinity _ _

theorem denotes_double {P : Point} {t : ℤ × ℤ × ℤ} (h : Denotes P t) : Denotes (P + P) (jacobianDouble t) := by
  obtain ⟨x, y, z⟩ := t
  obtain ⟨hy, hz, hrep⟩ := h
  simp only at hy hz hrep
  rw [jacobianDouble]
  split_ifs with h0
  · have hzero : (y : Fp) = 0 ∨ (z : Fp) = 0 := h0.imp (intCast_eq_zero_iff hy).mpr (intCast_eq_zero_iff hz).mpr
    rw [hrep.double_eq_zero hzero]
    exact denotes_infinity
  · obtain ⟨hy0, hz0⟩ := not_or.mp h0
    have hdouble := hrep.double two_ne_zero (mt (intCast_eq_zero_iff hy).mp hy0) (mt (intCast_eq_zero_iff hz).mp hz0)
    refine ⟨reduced secp256k1P_pos _, reduced secp256k1P_pos _, ?_⟩
    simp only [doubled] at hdouble
    simp only [intCast_emod]
    push_cast [intCast_emod]
    exact hdouble

theorem denotes_add {P Q : Point} {t u : ℤ × ℤ × ℤ} (hP : Denotes P t) (hQ : Denotes Q u) :
    Denotes (P + Q) (jacobianAdd t u) := by
  obtain ⟨x1, y1, z1⟩ := t
  obtain ⟨x2, y2, z2⟩ := u
  obtain ⟨hy1, hz1, hrep1⟩ := id hP
  obtain ⟨hy2, hz2, hrep2⟩ := id hQ
  simp only at hy1 hz1 hrep1 hy2 hz2 hrep2
  rw [jacobianAdd]
  by_cases h1 : z1 = 0
  · rw [if_pos h1, hrep1.z_eq_zero_iff.mp ((intCast_eq_zero_iff hz1).mpr h1), zero_add]
    exact hQ
  by_cases h2 : z2 = 0
  · rw [if_neg h1, if_pos h2, hrep2.z_eq_zero_iff.mp ((intCast_eq_zero_iff hz2).mpr h2), add_zero]
    exact hP
  have hne1 : (z1 : Fp) ≠ 0 := mt (intCast_eq_zero_iff hz1).mp h1
  have hne2 : (z2 : Fp) ≠ 0 := mt (intCast_eq_zero_iff hz2).mp h2
  rw [if_neg h1, if_neg h2]
  simp only [emod_eq_iff]
  push_cast [intCast_emod]
  split_ifs with hu hs
  · -- one point, or a point and its negative
    have heq := (hrep1.eq_of_coordinates hrep2 hne1 hne2 hu).1 hs
    rw [← heq]
    exact denotes_double hP
  · rw [(hrep1.eq_of_coordinates hrep2 hne1 hne2 hu).2 hs]
    exact denotes_infinity
  · have hsum := hrep1.add hrep2 hne1 hne2 hu
    refine ⟨reduced secp256k1P_pos _, reduced secp256k1P_pos _, ?_⟩
    simp only [summed] at hsum
    simp only [intCast_emod]
    push_cast [intCast_emod]
    exact hsum

theorem scalarLoop_denotes {fuel n : ℕ} (hn : n < 2 ^ fuel) {P Q : Point} {result addend : ℤ × ℤ × ℤ}
    (hP : Denotes P result) (hQ : Denotes Q addend) : Denotes (P + n • Q) (scalarLoop fuel n result addend) := by
  induction fuel generalizing n P Q result addend with
  | zero =>
    obtain rfl : n = 0 := by simpa using hn
    rw [zero_nsmul, add_zero]
    exact hP
  | succ fuel ih =>
    rw [scalarLoop]
    have hhalf : n / 2 < 2 ^ fuel := by omega
    split_ifs with h0 hodd
    · rw [h0, zero_nsmul, add_zero]
      exact hP
    · have hnext := ih hhalf (denotes_add hP hQ) (denotes_double hQ)
      have hsum : P + Q + (n / 2) • (Q + Q) = P + n • Q := by
        conv_rhs => rw [show n = 2 * (n / 2) + 1 by omega]
        module
      rwa [hsum] at hnext
    · have hnext := ih hhalf hP (denotes_double hQ)
      have hsum : P + (n / 2) • (Q + Q) = P + n • Q := by
        conv_rhs => rw [show n = 2 * (n / 2) by omega]
        module
      rwa [hsum] at hnext

theorem denotes_affine {P : Point} {x y : ℤ} (h : coordinates P = some (x, y)) : Denotes P (x, y, 1) := by
  cases P with
  | zero => cases h
  | some x' y' hP =>
    obtain ⟨rfl, rfl⟩ := Prod.mk.inj (Option.some.inj h)
    have hone : (0 : ℤ) ≤ 1 ∧ (1 : ℤ) < secp256k1P := by decide
    refine ⟨val_lt y', hone, ?_⟩
    simp only [intCast_val, Int.cast_one]
    exact represents_of_eq hP one_ne_zero (by ring) (by ring)

/-! ### What the functions return -/

theorem modInverse_prime {p : ℕ} [Fact p.Prime] {a : ℤ} (h : (a : ZMod p) ≠ 0) :
    ∃ v, modInverse a p = .ok v ∧ (v : ZMod p) = (a : ZMod p)⁻¹ := by
  obtain ⟨v, hv, -, -, hinv⟩ := inverse?_prime h
  exact ⟨v, by rw [modInverse, hv]; rfl, hinv⟩

theorem affineFromJacobian_denotes {P : Point} {t : ℤ × ℤ × ℤ} (h : Denotes P t) :
    affineFromJacobian t = .ok (coordinates P) := by
  obtain ⟨x, y, z⟩ := t
  obtain ⟨-, hz, hrep⟩ := h
  simp only at hz hrep
  rw [affineFromJacobian]
  by_cases h0 : z = 0
  · rw [if_pos h0, hrep.z_eq_zero_iff.mp ((intCast_eq_zero_iff hz).mpr h0), coordinates_zero]
  · have hz0 : (z : Fp) ≠ 0 := mt (intCast_eq_zero_iff hz).mp h0
    obtain ⟨v, hv, hinv⟩ := modInverse_prime hz0
    rw [if_neg h0, hv]
    generalize hx' : (x : Fp) = x' at hrep
    generalize hy' : (y : Fp) = y' at hrep
    generalize hz' : (z : Fp) = z' at hrep hinv hz0
    cases hrep with
    | infinity => exact absurd rfl hz0
    | @affine x₀ y₀ _ hP _ =>
      have hx : x * (v * v % secp256k1P) % secp256k1P = ((x₀.val : ℕ) : ℤ) := by
        apply eq_of_intCast_eq (reduced secp256k1P_pos _) (val_lt x₀)
        push_cast [intCast_emod]
        rw [ZMod.natCast_zmod_val, hx', hinv]
        field_simp
      have hy : y * (v * v % secp256k1P) * v % secp256k1P = ((y₀.val : ℕ) : ℤ) := by
        apply eq_of_intCast_eq (reduced secp256k1P_pos _) (val_lt y₀)
        push_cast [intCast_emod]
        rw [ZMod.natCast_zmod_val, hy', hinv]
        field_simp
      simp only [Except.map, hx, hy]
      rfl

/-- A multiple of a point other than infinity. -/
theorem scalarMultiply_eq {P : Point} (hP : P ≠ 0) (scalar : ℤ) :
    scalarMultiply scalar (coordinates P) =
      .ok (coordinates ((if scalar < 0 then scalar % secp256k1N else scalar).toNat • P)) := by
  cases hc : coordinates P with
  | none => exact absurd (coordinates_eq_none_iff.mp hc) hP
  | some point =>
    have hmultiple := scalarLoop_denotes (Nat.lt_log2_self (n := (if scalar < 0 then scalar % secp256k1N else scalar).toNat))
      denotes_infinity (denotes_affine hc)
    rw [zero_add] at hmultiple
    exact affineFromJacobian_denotes hmultiple

theorem scalarMultiply_natCast {P : Point} (hP : P ≠ 0) (n : ℕ) :
    scalarMultiply n (coordinates P) = .ok (coordinates (n • P)) := by
  rw [scalarMultiply_eq hP, if_neg (by omega), Int.toNat_natCast]

section Sum

open WeierstrassCurve.Affine

variable {x1 y1 x2 y2 : Fp} {h1 : (curve (7 : Fp)).Nonsingular x1 y1} {h2 : (curve (7 : Fp)).Nonsingular x2 y2}

/-- The last lines of `point_add`, from the slope of the line. -/
theorem coordinates_add (h : ¬(x1 = x2 ∧ y1 = (curve (7 : Fp)).negY x2 y2)) {slope : ℤ}
    (hslope : (slope : Fp) = (curve (7 : Fp)).slope x1 x2 y1 y2) :
    let x3 := (slope * slope - x1.val - x2.val) % secp256k1P
    some (x3, (slope * (x1.val - x3) - y1.val) % secp256k1P) = coordinates (.some x1 y1 h1 + .some x2 y2 h2) := by
  intro x3
  have hx : x3 = (((curve (7 : Fp)).addX x1 x2 ((curve (7 : Fp)).slope x1 x2 y1 y2)).val : ℕ) := by
    apply eq_of_intCast_eq (reduced secp256k1P_pos _) (val_lt _)
    rw [intCast_val, addX_curve, ← hslope]
    simp
  have hy : (slope * (x1.val - x3) - y1.val) % secp256k1P =
      (((curve (7 : Fp)).addY x1 x2 y1 ((curve (7 : Fp)).slope x1 x2 y1 y2)).val : ℕ) := by
    apply eq_of_intCast_eq (reduced secp256k1P_pos _) (val_lt _)
    rw [intCast_val, addY_curve, ← hslope]
    simp [x3]
  rw [Point.add_some h, coordinates, ← hx, ← hy]

theorem pointAdd_eq (P Q : Point) : pointAdd (coordinates P) (coordinates Q) = .ok (coordinates (P + Q)) := by
  cases P with
  | zero => exact congrArg (fun R => Except.ok (coordinates R)) (zero_add Q).symm
  | some x1 y1 h1 =>
    cases Q with
    | zero => exact congrArg (fun R => Except.ok (coordinates R)) (add_zero (.some x1 y1 h1)).symm
    | some x2 y2 h2 =>
      simp only [coordinates, pointAdd]
      have hx : ((x1.val : ℕ) : ℤ) = (x2.val : ℕ) ↔ x1 = x2 := Int.natCast_inj.trans (ZMod.val_injective _).eq_iff
      have hy : ((y1.val : ℕ) : ℤ) = (y2.val : ℕ) ↔ y1 = y2 := Int.natCast_inj.trans (ZMod.val_injective _).eq_iff
      have hneg : ((y1.val : ℕ) + (y2.val : ℕ) : ℤ) % secp256k1P = 0 ↔ y1 = (curve (7 : Fp)).negY x2 y2 := by
        rw [← Int.zero_emod (secp256k1P : ℤ), emod_eq_iff, negY_curve, eq_neg_iff_add_eq_zero]
        simp
      by_cases hinf : x1 = x2 ∧ y1 = (curve (7 : Fp)).negY x2 y2
      · rw [if_pos ⟨hx.mpr hinf.1, hneg.mpr hinf.2⟩, Point.add_of_Y_eq hinf.1 hinf.2]
      rw [if_neg fun h => hinf ⟨hx.mp h.1, hneg.mp h.2⟩]
      by_cases hsame : x1 = x2
      · -- one abscissa and not the negative: the same point
        have hy12 := (Y_eq_of_X_eq h1.1 h2.1 hsame).resolve_right fun h => hinf ⟨hsame, h⟩
        subst hsame hy12
        have hy0 : y1 ≠ 0 := by
          rintro rfl
          exact hinf ⟨rfl, by rw [negY_curve, neg_zero]⟩
        have hcast : ((2 * (y1.val : ℕ) : ℤ) : Fp) ≠ 0 := by simpa using ⟨two_ne_zero, hy0⟩
        obtain ⟨v, hv, hinv⟩ := modInverse_prime hcast
        rw [if_pos rfl, hv]
        refine congrArg Except.ok (coordinates_add hinf ?_)
        rw [slope_self two_ne_zero hy0]
        push_cast [intCast_emod] at hinv ⊢
        rw [hinv]
        simp [div_eq_mul_inv]
      · have hcast : (((x2.val : ℕ) - (x1.val : ℕ) : ℤ) % secp256k1P : ℤ) ≠ (0 : Fp) := by
          simpa [sub_eq_zero] using fun h => hsame h.symm
        obtain ⟨v, hv, hinv⟩ := modInverse_prime hcast
        have hne : ¬(((x1.val : ℕ) : ℤ), ((y1.val : ℕ) : ℤ)) = (((x2.val : ℕ) : ℤ), ((y2.val : ℕ) : ℤ)) := fun h =>
          hsame (hx.mp (Prod.mk.inj h).1)
        rw [if_neg hne, hv]
        refine congrArg Except.ok (coordinates_add hinf ?_)
        rw [slope_of_ne hsame]
        push_cast [intCast_emod] at hinv ⊢
        rw [hinv]
        simp [div_eq_mul_inv]

end Sum

/-! ### The order of the generator -/

theorem order_smul_generator : secp256k1N • generator = 0 := by
  have heval : (scalarMultiply secp256k1N (some secp256k1G)).toOption = some none := by decide +kernel
  rw [← coordinates_generator, scalarMultiply_natCast generator_ne_zero] at heval
  exact coordinates_eq_none_iff.mp (Option.some.inj heval)

end HarmonyMigration.ExchangeRecovery
