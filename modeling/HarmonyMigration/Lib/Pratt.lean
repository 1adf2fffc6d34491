import HarmonyMigration.Lib.ModArith
import Mathlib.NumberTheory.LucasPrimality

/-! Tables of primes that a computation confirms. -/

namespace Pratt
open ModArith

/-- The witness has order `p - 1`, whose prime factors are listed. -/
structure Line where
  p : ℕ
  witness : ℕ
  factors : List ℕ

/-- The factors are primes already known, and no smaller power of the witness is one. -/
def Line.check (known : List ℕ) (l : Line) : Bool :=
  l.factors.all (· ∈ known) && l.factors.prod + 1 = l.p && powMod l.witness (l.p - 1) l.p = 1 &&
    l.factors.all fun q => powMod l.witness ((l.p - 1) / q) l.p ≠ 1

/-- A line may use the lines before it. -/
def check : List ℕ → List Line → Bool
  | _, [] => true
  | known, l :: table => l.check known && check (l.p :: known) table

theorem natCast_powMod {p : ℕ} (hp : 0 < p) (a e : ℕ) : ((powMod a e p : ℤ) : ZMod p) = (a : ZMod p) ^ e := by
  rw [powMod_eq (by exact_mod_cast hp), ZMod.intCast_mod]
  push_cast
  rfl

theorem Line.prime_of_check {known : List ℕ} (hknown : ∀ q ∈ known, q.Prime) {l : Line} (h : l.check known = true) :
    l.p.Prime := by
  simp only [Line.check, Bool.and_eq_true, List.all_eq_true, decide_eq_true_eq] at h
  obtain ⟨⟨⟨hmem, hprod⟩, hone⟩, hne⟩ := h
  have hprime : ∀ q ∈ l.factors, q.Prime := fun q hq => hknown q (hmem q hq)
  have hpos : 0 < l.factors.prod := List.prod_pos fun q hq => (hprime q hq).pos
  have hp : 1 < l.p := by omega
  refine lucas_primality l.p (l.witness : ZMod l.p) ?_ fun q hq hdvd hpow => ?_
  · rw [← natCast_powMod (by omega), hone, Int.cast_one]
  · rw [← hprod, Nat.add_sub_cancel] at hdvd
    -- a prime divisor of the product is one of its prime factors
    obtain ⟨f, hf, hqf⟩ := (Prime.dvd_prod_iff hq.prime).mp hdvd
    obtain rfl := (Nat.prime_dvd_prime_iff_eq hq (hprime f hf)).mp hqf
    refine hne q hf ?_
    obtain ⟨hnonneg, hlt⟩ := reduced (by omega : (0 : ℤ) < l.p) ((l.witness : ℤ) ^ ((l.p - 1) / q))
    rw [← natCast_powMod (by omega), ← Int.cast_one, ZMod.intCast_eq_intCast_iff'] at hpow
    rw [← powMod_eq (by omega)] at hnonneg hlt
    rwa [Int.emod_eq_of_lt hnonneg hlt, Int.emod_eq_of_lt (by decide) (by exact_mod_cast hp)] at hpow

theorem prime_of_check {known : List ℕ} (hknown : ∀ q ∈ known, q.Prime) {table : List Line}
    (h : check known table = true) : ∀ p ∈ table.map Line.p, p.Prime := by
  induction table generalizing known with
  | nil => simp
  | cons l table ih =>
    obtain ⟨hl, htable⟩ := Bool.and_eq_true_iff.mp h
    have hp := Line.prime_of_check hknown hl
    exact List.forall_mem_cons.mpr ⟨hp, ih (List.forall_mem_cons.mpr ⟨hp, hknown⟩) htable⟩

end Pratt
