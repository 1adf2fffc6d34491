import Mathlib.Tactic

/-! The maximal runs of a predicate over a range of numbers, listed from below. -/

namespace MaximalRuns

/-- From `r.1` to `r.2` the predicate holds, and on neither side of them within `[lo, hi)`. -/
structure IsRun (P : ℕ → Prop) (lo hi : ℕ) (r : ℕ × ℕ) : Prop where
  lower : lo ≤ r.1
  nonempty : r.1 ≤ r.2
  upper : r.2 < hi
  holds : ∀ n, r.1 ≤ n → n ≤ r.2 → P n
  left : lo < r.1 → ¬P (r.1 - 1)
  right : r.2 + 1 < hi → ¬P (r.2 + 1)

/-- All the maximal runs in `[lo, hi)`, in increasing order. -/
structure Lists (P : ℕ → Prop) (lo hi : ℕ) (rs : List (ℕ × ℕ)) : Prop where
  increasing : rs.Pairwise fun r r' => r.2 < r'.1
  mem_iff : ∀ r, r ∈ rs ↔ IsRun P lo hi r

variable {P Q : ℕ → Prop} {lo mid hi : ℕ} {r : ℕ × ℕ} {rs : List (ℕ × ℕ)}

theorem Lists.nil (P : ℕ → Prop) (lo : ℕ) : Lists P lo lo [] := by
  refine ⟨List.Pairwise.nil, fun r => ⟨fun h => absurd h List.not_mem_nil, fun h => ?_⟩⟩
  have := h.lower
  have := h.nonempty
  have := h.upper
  omega

theorem IsRun.congr (hPQ : ∀ n, lo ≤ n → n < hi → (P n ↔ Q n)) (h : IsRun P lo hi r) : IsRun Q lo hi r := by
  have hlower := h.lower
  have hne := h.nonempty
  have hupper := h.upper
  refine ⟨hlower, hne, hupper, fun n h1 h2 => ?_, fun hl => ?_, fun hr => ?_⟩
  · exact (hPQ n (by omega) (by omega)).mp (h.holds n h1 h2)
  · rw [← hPQ (r.1 - 1) (by omega) (by omega)]
    exact h.left hl
  · rw [← hPQ (r.2 + 1) (by omega) hr]
    exact h.right hr

/-- Only the numbers of the range matter. -/
theorem Lists.congr (hPQ : ∀ n, lo ≤ n → n < hi → (P n ↔ Q n)) (h : Lists P lo hi rs) : Lists Q lo hi rs := by
  refine ⟨h.increasing, fun r => (h.mem_iff r).trans ⟨fun hr => hr.congr hPQ, fun hr => hr.congr ?_⟩⟩
  exact fun n h1 h2 => (hPQ n h1 h2).symm

/-- A number without the predicate ends no run and starts none. -/
theorem isRun_succ_iff (hmid : ¬P mid) : IsRun P lo (mid + 1) r ↔ IsRun P lo mid r := by
  refine ⟨fun h => ?_, fun h => ?_⟩
  · have hne : r.2 ≠ mid := fun heq => hmid (heq ▸ h.holds r.2 h.nonempty le_rfl)
    have hupper := h.upper
    exact ⟨h.lower, h.nonempty, by omega, h.holds, h.left, fun hr => h.right (by omega)⟩
  · have hupper := h.upper
    refine ⟨h.lower, h.nonempty, by omega, h.holds, h.left, fun hr => ?_⟩
    rcases Nat.lt_or_ge (r.2 + 1) mid with hlt | hge
    · exact h.right hlt
    · obtain rfl : r.2 + 1 = mid := by omega
      exact hmid

theorem Lists.skip (h : Lists P lo mid rs) (hmid : ¬P mid) : Lists P lo (mid + 1) rs :=
  ⟨h.increasing, fun r => (h.mem_iff r).trans (isRun_succ_iff hmid).symm⟩

/-- Numbers with the predicate, after one without it, are one more run. -/
theorem isRun_stretch_iff (hlo : lo ≤ mid) (hmid : mid < hi) (hedge : lo < mid → ¬P (mid - 1))
    (hP : ∀ n, mid ≤ n → n < hi → P n) : IsRun P lo hi r ↔ IsRun P lo mid r ∨ r = (mid, hi - 1) := by
  refine ⟨fun h => ?_, ?_⟩
  · have hlower := h.lower
    have hne := h.nonempty
    have hupper := h.upper
    rcases Nat.lt_or_ge r.2 mid with hlt | hge
    · exact Or.inl ⟨hlower, hne, hlt, h.holds, h.left, fun hr => h.right (by omega)⟩
    · right
      have hstart : r.1 = mid := by
        rcases Nat.lt_trichotomy r.1 mid with hlt | heq | hgt
        · exact absurd (h.holds (mid - 1) (by omega) (by omega)) (hedge (by omega))
        · exact heq
        · exact absurd (hP (r.1 - 1) (by omega) (by omega)) (h.left (by omega))
      have hend : r.2 = hi - 1 := by
        by_contra hlt
        exact h.right (by omega) (hP (r.2 + 1) (by omega) (by omega))
      exact Prod.ext hstart hend
  · rintro (h | rfl)
    · have hlower := h.lower
      have hne := h.nonempty
      have hupper := h.upper
      refine ⟨hlower, hne, by omega, h.holds, h.left, fun hr => ?_⟩
      rcases Nat.lt_or_ge (r.2 + 1) mid with hlt | hge
      · exact h.right hlt
      · -- the number before the stretch is not in a run
        have hlast : r.2 = mid - 1 := by omega
        exact absurd (hlast ▸ h.holds r.2 hne le_rfl) (hedge (by omega))
    · exact ⟨hlo, by dsimp only; omega, by dsimp only; omega, fun n h1 h2 => hP n h1 (by dsimp only at h2; omega), hedge,
        fun hr => by dsimp only at hr; omega⟩

theorem Lists.stretch (h : Lists P lo mid rs) (hlo : lo ≤ mid) (hmid : mid < hi) (hedge : lo < mid → ¬P (mid - 1))
    (hP : ∀ n, mid ≤ n → n < hi → P n) : Lists P lo hi (rs ++ [(mid, hi - 1)]) := by
  refine ⟨List.pairwise_append.mpr ⟨h.increasing, List.pairwise_singleton _ _, fun r hr r' hr' => ?_⟩, fun r => ?_⟩
  · rw [List.mem_singleton.mp hr']
    exact ((h.mem_iff r).mp hr).upper
  · rw [List.mem_append, h.mem_iff, List.mem_singleton, isRun_stretch_iff hlo hmid hedge hP]

end MaximalRuns
