import Mathlib.Data.ZMod.Basic
import Mathlib.Data.Int.GCD
import Mathlib.Tactic

/-! Python's `pow` with a modulus: powers by squaring, and inverses by Euclid's loop. -/

namespace ModArith

/-- The value that stands for `a` modulo `m`. -/
theorem reduced {m : ℤ} (hm : 0 < m) (a : ℤ) : 0 ≤ a % m ∧ a % m < m := ⟨Int.emod_nonneg a hm.ne', Int.emod_lt_of_pos a hm⟩

/-! ### Powers -/

/-- `acc * b ^ e` modulo `m`, one binary digit of `e` in each turn. -/
def powLoop (m : ℤ) : ℕ → ℤ → ℕ → ℤ → ℤ
  | 0, _, _, acc => acc
  | fuel + 1, b, e, acc =>
    if e = 0 then acc
    else powLoop m fuel (b * b % m) (e / 2) (if e % 2 = 1 then acc * b % m else acc)

/-- `pow(b, e, m)`. -/
def powMod (b : ℤ) (e : ℕ) (m : ℤ) : ℤ := powLoop m (e.log2 + 1) (b % m) e (1 % m)

variable {m : ℤ}

theorem powLoop_modEq {fuel e : ℕ} (h : e < 2 ^ fuel) (b acc : ℤ) : powLoop m fuel b e acc ≡ acc * b ^ e [ZMOD m] := by
  induction fuel generalizing b e acc with
  | zero =>
    obtain rfl : e = 0 := by simpa using h
    simp [powLoop]
  | succ fuel ih =>
    rw [powLoop]
    split_ifs with h0 hodd
    · simp [h0]
    · have hhalf := ih (by omega : e / 2 < 2 ^ fuel) (b * b % m) (acc * b % m)
      have he : acc * b * (b * b) ^ (e / 2) = acc * b ^ e := by
        conv_rhs => rw [show e = 2 * (e / 2) + 1 by omega, pow_succ, pow_mul]
        ring
      rw [← he]
      exact hhalf.trans ((Int.mod_modEq _ _).mul ((Int.mod_modEq _ _).pow _))
    · have hhalf := ih (by omega : e / 2 < 2 ^ fuel) (b * b % m) acc
      have he : acc * (b * b) ^ (e / 2) = acc * b ^ e := by
        conv_rhs => rw [show e = 2 * (e / 2) by omega, pow_mul]
        ring
      rw [← he]
      exact hhalf.trans ((Int.ModEq.refl acc).mul ((Int.mod_modEq _ _).pow _))

theorem powLoop_reduced (hm : 0 < m) {acc : ℤ} (hacc : 0 ≤ acc ∧ acc < m) (fuel : ℕ) (b : ℤ) (e : ℕ) :
    0 ≤ powLoop m fuel b e acc ∧ powLoop m fuel b e acc < m := by
  induction fuel generalizing b e acc with
  | zero => exact hacc
  | succ fuel ih =>
    rw [powLoop]
    split_ifs
    · exact hacc
    · exact ih (reduced hm _) _ _
    · exact ih hacc _ _

theorem powMod_eq (hm : 0 < m) (b : ℤ) (e : ℕ) : powMod b e m = b ^ e % m := by
  obtain ⟨hnonneg, hlt⟩ := powLoop_reduced hm (reduced hm 1) (e.log2 + 1) (b % m) e
  have hmod : powMod b e m ≡ b ^ e [ZMOD m] := by
    have hloop := powLoop_modEq (m := m) (Nat.lt_log2_self (n := e)) (b % m) (1 % m)
    exact hloop.trans (by simpa using (Int.mod_modEq 1 m).mul ((Int.mod_modEq b m).pow e))
  exact (Int.emod_eq_of_lt hnonneg hlt).symm.trans hmod

/-! ### Inverses -/

/-- The loop of `pow(a, -1, m)`: the two remainders, and what they are multiples of `a` by. -/
def invLoop : ℕ → ℤ → ℤ → ℤ → ℤ → Option ℤ
  | 0, _, _, _, _ => none
  | fuel + 1, a, n, b, c =>
    if n = 0 then (if a = 1 then some b else none)
    else invLoop fuel n (a % n) c (b - a / n * c)

/-- `pow(a, -1, m)`, none where it raises. -/
def inverse? (a m : ℤ) : Option ℤ := (invLoop (m.toNat + 1) (a % m) m 1 0).map (· % m)

theorem invLoop_spec {x a n b c : ℤ} {fuel : ℕ} (hfuel : n < fuel) (ha : 0 ≤ a) (hn : 0 ≤ n) (hab : a ≡ b * x [ZMOD m])
    (hnc : n ≡ c * x [ZMOD m]) (hgcd : Int.gcd a n = 1) : ∃ v, invLoop fuel a n b c = some v ∧ v * x ≡ 1 [ZMOD m] := by
  induction fuel generalizing a n b c with
  | zero => omega
  | succ fuel ih =>
    by_cases h0 : n = 0
    · obtain rfl : a = 1 := by
        rw [h0, Int.gcd_zero_right] at hgcd
        omega
      exact ⟨b, by rw [invLoop, if_pos h0, if_pos rfl], hab.symm⟩
    · have hpos : 0 < n := lt_of_le_of_ne hn (Ne.symm h0)
      obtain ⟨hrem, hlt⟩ := reduced hpos a
      -- the remainder is the same combination of the two cofactors
      have hcof : a % n ≡ (b - a / n * c) * x [ZMOD m] := by
        have hsub := hab.sub (hnc.mul_left (a / n))
        have hleft : a - a / n * n = a % n := by
          have hdiv := Int.mul_ediv_add_emod a n
          linarith [mul_comm n (a / n)]
        rw [hleft] at hsub
        have hright : b * x - a / n * (c * x) = (b - a / n * c) * x := by ring
        rwa [hright] at hsub
      have hgcd' : Int.gcd n (a % n) = 1 := by
        rw [Int.gcd_comm, Int.gcd_emod]
        exact hgcd
      obtain ⟨v, hv, hvx⟩ := ih (by omega) hn hrem hnc hcof hgcd'
      exact ⟨v, by rw [invLoop, if_neg h0, hv], hvx⟩

theorem inverse?_spec (hm : 0 < m) {a : ℤ} (h : Int.gcd a m = 1) :
    ∃ v, inverse? a m = some v ∧ 0 ≤ v ∧ v < m ∧ v * a ≡ 1 [ZMOD m] := by
  obtain ⟨hnonneg, -⟩ := reduced hm a
  have hself : a % m ≡ 1 * a [ZMOD m] := by
    rw [one_mul]
    exact Int.mod_modEq a m
  have hzero : m ≡ 0 * a [ZMOD m] := by simp [Int.ModEq]
  have hgcd : Int.gcd (a % m) m = 1 := by
    rw [Int.gcd_emod]
    exact h
  have hfuel : m < ((m.toNat + 1 : ℕ) : ℤ) := by omega
  obtain ⟨v, hv, hva⟩ := invLoop_spec hfuel hnonneg hm.le hself hzero hgcd
  refine ⟨v % m, by rw [inverse?, hv, Option.map_some], (reduced hm v).1, (reduced hm v).2, ?_⟩
  exact ((Int.mod_modEq v m).mul_right a).trans hva

/-! ### Over a prime -/

section Prime

variable {p : ℕ} [Fact p.Prime]

theorem cast_powMod (b : ℤ) (e : ℕ) : ((powMod b e p : ℤ) : ZMod p) = (b : ZMod p) ^ e := by
  have hp : (0 : ℤ) < p := by exact_mod_cast (Fact.out : p.Prime).pos
  rw [powMod_eq hp, ZMod.intCast_mod, Int.cast_pow]

theorem inverse?_prime {a : ℤ} (h : (a : ZMod p) ≠ 0) :
    ∃ v, inverse? a p = some v ∧ 0 ≤ v ∧ v < p ∧ (v : ZMod p) = (a : ZMod p)⁻¹ := by
  have hp : p.Prime := Fact.out
  have hdvd : ¬(p : ℤ) ∣ a := fun hdvd => h ((ZMod.intCast_zmod_eq_zero_iff_dvd a p).mpr hdvd)
  have hgcd : Int.gcd a p = 1 := by
    rw [Int.gcd_comm]
    exact Int.isCoprime_iff_gcd_eq_one.mp ((Int.prime_iff_natAbs_prime.mpr (by simpa using hp)).coprime_iff_not_dvd.mpr hdvd)
  obtain ⟨v, hv, hnonneg, hlt, hva⟩ := inverse?_spec (by exact_mod_cast hp.pos) hgcd
  refine ⟨v, hv, hnonneg, hlt, eq_inv_of_mul_eq_one_left ?_⟩
  have hcast := (ZMod.intCast_eq_intCast_iff (v * a) 1 p).mpr hva
  simpa using hcast

end Prime

end ModArith
