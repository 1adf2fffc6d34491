import Mathlib.Tactic

/-! Bisection for the first number that satisfies a predicate which, once true, stays true. -/

/-- Between `low` and `high`, with at most `fuel` halvings. -/
def bisect (p : ℕ → Bool) : ℕ → ℕ → ℕ → ℕ
  | 0, low, _ => low
  | fuel + 1, low, high =>
    if low < high then
      if p ((low + high) / 2) then bisect p fuel low ((low + high) / 2)
      else bisect p fuel ((low + high) / 2 + 1) high
    else low

/-- With a halving for every number in between, the result is the first in the range. -/
theorem bisect_spec {p : ℕ → Bool} (hmono : ∀ a b, a ≤ b → p a → p b) {fuel low high : ℕ}
    (hfuel : high - low ≤ fuel) (hle : low ≤ high) (hhigh : p high) :
    low ≤ bisect p fuel low high ∧ bisect p fuel low high ≤ high ∧ p (bisect p fuel low high) ∧
      ∀ b, low ≤ b → p b → bisect p fuel low high ≤ b := by
  induction fuel generalizing low high with
  | zero =>
    obtain rfl : low = high := by omega
    exact ⟨le_rfl, le_rfl, hhigh, fun b hb _ => hb⟩
  | succ fuel ih =>
    unfold bisect
    split_ifs with hlt hmid
    · obtain ⟨h1, h2, h3, h4⟩ := ih (show (low + high) / 2 - low ≤ fuel by omega) (by omega) hmid
      exact ⟨h1, by omega, h3, h4⟩
    · obtain ⟨h1, h2, h3, h4⟩ := ih (show high - ((low + high) / 2 + 1) ≤ fuel by omega) (by omega) hhigh
      refine ⟨by omega, h2, h3, fun b hb hp => ?_⟩
      rcases Nat.lt_or_ge ((low + high) / 2) b with hb' | hb'
      · exact h4 b hb' hp
      · exact absurd (hmono _ _ hb' hp) hmid
    · obtain rfl : low = high := by omega
      exact ⟨le_rfl, le_rfl, hhigh, fun b hb _ => hb⟩
