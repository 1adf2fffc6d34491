import Mathlib.Tactic

/-! A total shared out in proportion, every share rounded down. -/

namespace Floors

variable {ι : Type*} (l : List ι) (g : ι → ℤ)

/-- The shares never add up to more than the total, and lose less than one unit each. -/
theorem sum_floor {c e : ℤ} (he : 0 < e) :
    (l.map fun x => g x * c / e).sum * e ≤ (l.map g).sum * c ∧
      (l.map g).sum * c ≤ (l.map fun x => g x * c / e).sum * e + l.length * (e - 1) := by
  induction l with
  | nil => simp
  | cons x l ih =>
    have hmod := Int.mul_ediv_add_emod (g x * c) e
    have hnonneg := Int.emod_nonneg (g x * c) he.ne'
    have hlt := Int.emod_lt_of_pos (g x * c) he
    simp only [List.map_cons, List.sum_cons, List.length_cons, add_mul, Nat.cast_add, Nat.cast_one, one_mul]
    rw [mul_comm e] at hmod
    constructor
    · linarith [ih.1]
    · linarith [ih.2]

/-- The parts of `c` in proportion to `g`, which sums to `e`. -/
theorem sum_floor_le {c e : ℤ} (he : 0 < e) (hsum : (l.map g).sum = e) : (l.map fun x => g x * c / e).sum ≤ c := by
  have h := (sum_floor l g (c := c) he).1
  rw [hsum, mul_comm e] at h
  exact le_of_mul_le_mul_right h he

theorem sub_sum_floor_lt {c e : ℤ} (he : 0 < e) (hsum : (l.map g).sum = e) :
    c - (l.map fun x => g x * c / e).sum < l.length := by
  have h := (sum_floor l g (c := c) he).2
  rw [hsum] at h
  have hne : l ≠ [] := by
    rintro rfl
    rw [List.map_nil, List.sum_nil] at hsum
    omega
  have hlength : 0 < (l.length : ℤ) := Int.natCast_pos.mpr (List.length_pos_iff.mpr hne)
  refine lt_of_mul_lt_mul_right ?_ he.le
  calc (c - (l.map fun x => g x * c / e).sum) * e
      = e * c - (l.map fun x => g x * c / e).sum * e := by ring
    _ ≤ l.length * (e - 1) := by linarith
    _ < l.length * e := by nlinarith

end Floors
