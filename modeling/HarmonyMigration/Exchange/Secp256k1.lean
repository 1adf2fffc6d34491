import HarmonyMigration.Lib.Pratt
import HarmonyMigration.Lib.ShortWeierstrass
import Mathlib.NumberTheory.LegendreSymbol.Basic

/-! The curve secp256k1 of `normalize-exchange-wallets.py`, over Mathlib's group of points. -/

namespace HarmonyMigration.ExchangeRecovery

open ShortWeierstrass WeierstrassCurve.Affine

def secp256k1P : ℕ := 0xFFFFFFFFFFFFFFFFFFFFFFFFFFFFFFFFFFFFFFFFFFFFFFFFFFFFFFFEFFFFFC2F

def secp256k1N : ℕ := 0xFFFFFFFFFFFFFFFFFFFFFFFFFFFFFFFEBAAEDCE6AF48A03BBFD25E8CD0364141

def secp256k1G : ℤ × ℤ :=
  (0x79BE667EF9DCBBAC55A06295CE870B07029BFCDB2DCE28D959F2815B16F81798,
    0x483ADA7726A3C4655DA4FBFC0E1108A8FD17B448A68554199C47D08FFB10D4B8)

/-! ### Both numbers are prime -/

def smallPrimes : List ℕ := [2, 3, 5, 7, 11, 13, 17, 19, 23, 29, 31, 41, 53, 59, 97, 109, 113, 149, 293, 461, 631, 797,
  1627, 1871, 2011, 2621, 2657, 2731, 4051, 4423, 5323, 7723, 9349, 13441, 16699, 20113, 24809, 28181, 41201, 85831,
  96557, 971, 1373]

def primeTable : List Pratt.Line := [
  ⟨1206781, 10, [2, 2, 3, 5, 20113]⟩,
  ⟨7240687, 3, [2, 3, 1206781]⟩,
  ⟨107590001, 3, [2, 2, 2, 2, 5, 5, 5, 5, 7, 29, 53]⟩,
  ⟨255515944373312847190720520512484175977, 3,
    [2, 2, 2, 7, 7, 11, 1627, 2657, 4423, 41201, 96557, 7240687, 107590001]⟩,
  ⟨13331831, 13, [2, 5, 971, 1373]⟩,
  ⟨173378833005251801, 6, [2, 2, 2, 5, 5, 2621, 24809, 13331831]⟩,
  ⟨22149492674086928081353, 5, [2, 2, 2, 3, 5323, 173378833005251801]⟩,
  ⟨132896956044521568488119, 6, [2, 3, 22149492674086928081353]⟩,
  ⟨205115282021455665897114700593932402728804164701536103180137503955397371, 10,
    [2, 3, 5, 29, 29, 31, 7723, 132896956044521568488119, 255515944373312847190720520512484175977]⟩,
  ⟨secp256k1P, 3, [2, 3, 7, 13441, 205115282021455665897114700593932402728804164701536103180137503955397371]⟩,
  ⟨44706919, 6, [2, 3, 797, 9349]⟩,
  ⟨120233, 3, [2, 2, 2, 7, 19, 113]⟩,
  ⟨174723607534414371449, 3, [2, 2, 2, 17, 59, 4051, 120233, 44706919]⟩,
  ⟨4681609, 23, [2, 2, 2, 3, 97, 2011]⟩,
  ⟨107361793816595537, 3, [2, 2, 2, 2, 16699, 85831, 4681609]⟩,
  ⟨305873, 3, [2, 2, 2, 2, 7, 2731]⟩,
  ⟨1627771, 3, [2, 3, 5, 29, 1871]⟩,
  ⟨297159362677, 2, [2, 2, 3, 3, 11, 461, 1627771]⟩,
  ⟨545358713, 5, [2, 2, 2, 41, 59, 28181]⟩,
  ⟨29047611873442575647497758179, 2, [2, 293, 305873, 545358713, 297159362677]⟩,
  ⟨341948486974166000522343609283189, 2, [2, 2, 3, 3, 3, 109, 29047611873442575647497758179]⟩,
  ⟨secp256k1N, 7, [2, 2, 2, 2, 2, 2, 3, 149, 631, 107361793816595537, 174723607534414371449,
    341948486974166000522343609283189]⟩]

theorem prime_of_mem_smallPrimes : ∀ q ∈ smallPrimes, q.Prime := by
  norm_num [smallPrimes]

theorem primeTable_check : Pratt.check smallPrimes primeTable = true := by decide +kernel

theorem prime_secp256k1P : secp256k1P.Prime :=
  Pratt.prime_of_check prime_of_mem_smallPrimes primeTable_check _ (by simp [primeTable])

theorem prime_secp256k1N : secp256k1N.Prime :=
  Pratt.prime_of_check prime_of_mem_smallPrimes primeTable_check _ (by simp [primeTable])

instance : Fact secp256k1P.Prime := ⟨prime_secp256k1P⟩

instance : Fact secp256k1N.Prime := ⟨prime_secp256k1N⟩

theorem secp256k1P_pos : (0 : ℤ) < secp256k1P := by exact_mod_cast prime_secp256k1P.pos

theorem secp256k1N_pos : (0 : ℤ) < secp256k1N := by exact_mod_cast prime_secp256k1N.pos

theorem secp256k1N_lt : secp256k1N < secp256k1P := by decide

/-! ### The field -/

abbrev Fp := ZMod secp256k1P

theorem natCast_ne_zero {m n : ℕ} (h0 : 0 < n) (h : n < m) : ((n : ℕ) : ZMod m) ≠ 0 := fun hn =>
  absurd (Nat.le_of_dvd h0 ((ZMod.natCast_eq_zero_iff n m).mp hn)) (by omega)

theorem two_ne_zero : (2 : Fp) ≠ 0 := by exact_mod_cast natCast_ne_zero (by decide : 0 < 2) (by decide : 2 < secp256k1P)

theorem six_ne_zero : (6 : Fp) ≠ 0 := by exact_mod_cast natCast_ne_zero (by decide : 0 < 6) (by decide : 6 < secp256k1P)

theorem seven_ne_zero : (7 : Fp) ≠ 0 := by exact_mod_cast natCast_ne_zero (by decide : 0 < 7) (by decide : 7 < secp256k1P)

/-- A reduced number is the value of its residue. -/
theorem val_intCast {a : ℤ} (h : 0 ≤ a ∧ a < secp256k1P) : (((a : Fp).val : ℕ) : ℤ) = a := by
  rw [ZMod.val_intCast, Int.emod_eq_of_lt h.1 h.2]

theorem val_lt (x : Fp) : 0 ≤ ((x.val : ℕ) : ℤ) ∧ ((x.val : ℕ) : ℤ) < secp256k1P :=
  ⟨Int.natCast_nonneg _, by exact_mod_cast ZMod.val_lt x⟩

@[simp] theorem intCast_val (x : Fp) : (((x.val : ℕ) : ℤ) : Fp) = x := by simp

/-- Reduced numbers are equal where their residues are. -/
theorem eq_of_intCast_eq {a b : ℤ} (ha : 0 ≤ a ∧ a < secp256k1P) (hb : 0 ≤ b ∧ b < secp256k1P) (h : (a : Fp) = b) :
    a = b := by
  rw [← val_intCast ha, ← val_intCast hb, h]

/-- `-7` is not a cube, so that no point of the curve has ordinate zero. -/
theorem cube_add_seven_ne_zero (x : Fp) : x ^ 3 + 7 ≠ 0 := by
  intro h
  have hcube : x ^ 3 = ((-7 : ℤ) : Fp) := by
    push_cast
    linear_combination h
  have hx : x ≠ 0 := by
    rintro rfl
    exact seven_ne_zero (by linear_combination h)
  have hthird : 3 * ((secp256k1P - 1) / 3) = secp256k1P - 1 := by decide
  have hone : ((ModArith.powMod (-7) ((secp256k1P - 1) / 3) secp256k1P : ℤ) : Fp) = ((1 : ℤ) : Fp) := by
    rw [ModArith.cast_powMod, ← hcube, ← pow_mul, hthird, ZMod.pow_card_sub_one_eq_one hx, Int.cast_one]
  exact absurd ((ZMod.intCast_eq_intCast_iff' _ _ _).mp hone) (by decide +kernel)

/-- The exponent `(p + 1) / 4` takes a root of a square. -/
theorem pow_root {a : Fp} (h : IsSquare a) : (a ^ ((secp256k1P + 1) / 4)) ^ 2 = a := by
  obtain ⟨y, rfl⟩ := h
  have hexp : 2 * ((secp256k1P + 1) / 4 * 2) = secp256k1P + 1 := by decide
  rw [← pow_two, ← pow_mul, ← pow_mul, hexp, pow_succ, ZMod.pow_card, pow_two]

/-! ### The curve -/

instance sevenAtLeastTwo : Nat.AtLeastTwo 7 := ⟨by decide⟩

abbrev Point := (curve (7 : Fp)).Point

/-- A point as the source writes it, none at infinity. -/
def coordinates : Point → Option (ℤ × ℤ)
  | .zero => none
  | .some x y _ => some (x.val, y.val)

theorem coordinates_zero : coordinates 0 = none := rfl

theorem coordinates_eq_none_iff {P : Point} : coordinates P = none ↔ P = 0 := by
  cases P with
  | zero => exact iff_of_true rfl rfl
  | some x y h => exact iff_of_false (Option.some_ne_none _) (Point.some_ne_zero h)

theorem coordinates_injective : Function.Injective coordinates := by
  intro P Q h
  cases P with
  | zero => exact (coordinates_eq_none_iff.mp h.symm).symm
  | some x y hP =>
    cases Q with
    | zero => exact coordinates_eq_none_iff.mp h
    | some x' y' hQ =>
      obtain ⟨hx, hy⟩ := Prod.mk.inj (Option.some.inj h)
      obtain rfl := ZMod.val_injective _ (Int.natCast_inj.mp hx)
      obtain rfl := ZMod.val_injective _ (Int.natCast_inj.mp hy)
      rfl

/-- The point with these coordinates. -/
def pointOf {x y : ℤ} (h : (y : Fp) ^ 2 = (x : Fp) ^ 3 + 7) : Point :=
  .some x y (nonsingular_curve six_ne_zero seven_ne_zero h)

theorem coordinates_pointOf {x y : ℤ} (h : (y : Fp) ^ 2 = (x : Fp) ^ 3 + 7) (hx : 0 ≤ x ∧ x < secp256k1P)
    (hy : 0 ≤ y ∧ y < secp256k1P) : coordinates (pointOf h) = some (x, y) := by
  rw [pointOf, coordinates, val_intCast hx, val_intCast hy]

theorem generator_equation : (secp256k1G.2 : Fp) ^ 2 = (secp256k1G.1 : Fp) ^ 3 + 7 := by
  have hmod : ((secp256k1G.2 ^ 2 : ℤ) : Fp) = ((secp256k1G.1 ^ 3 + 7 : ℤ) : Fp) :=
    (ZMod.intCast_eq_intCast_iff' _ _ _).mpr (by decide +kernel)
  push_cast at hmod
  exact hmod

def generator : Point := pointOf generator_equation

theorem coordinates_generator : coordinates generator = some secp256k1G :=
  coordinates_pointOf generator_equation (by decide) (by decide)

theorem generator_ne_zero : generator ≠ 0 := Point.some_ne_zero _

end HarmonyMigration.ExchangeRecovery
