import HarmonyMigration.Lib.Except

/-! A query over a range of numbers that may be refused. A range that is refused is asked for in two halves, one after the
other, and only a single number that is refused is given up. -/

namespace RangeSplit

open Except

variable {ε α : Type*}

def middle (low high : ℕ) : ℕ := low + (high - low) / 2

def fetch (query : ℕ → ℕ → Except ε (List α)) (low high : ℕ) : Except (ℕ × ε) (List α) :=
  match query low high with
  | .ok l => .ok l
  | .error e =>
    if low < high then
      (fetch query low (middle low high)).bind fun left =>
      (fetch query (middle low high + 1) high).map fun right => left ++ right
    else .error (low, e)
termination_by high - low
decreasing_by all_goals simp only [middle]; omega

variable {query : ℕ → ℕ → Except ε (List α)} {low high : ℕ}

theorem middle_mem (h : low < high) : low ≤ middle low high ∧ middle low high < high := by
  unfold middle
  omega

theorem fetch_of_ok {l : List α} (hq : query low high = .ok l) : fetch query low high = .ok l := by
  rw [fetch, hq]

theorem fetch_of_error_lt {e : ε} (hq : query low high = .error e) (hlt : low < high) :
    fetch query low high = (fetch query low (middle low high)).bind fun left =>
      (fetch query (middle low high + 1) high).map fun right => left ++ right := by
  conv_lhs => rw [fetch, hq]
  exact if_pos hlt

theorem fetch_of_error_not_lt {e : ε} (hq : query low high = .error e) (hlt : ¬low < high) :
    fetch query low high = .error (low, e) := by
  rw [fetch, hq]
  exact if_neg hlt

/-- What holds of every answer, and of the answers to two halves put together, holds of what is fetched. -/
theorem fetch_ok {P : ℕ → ℕ → List α → Prop} {l : List α} (hle : low ≤ high)
    (hquery : ∀ a b l, low ≤ a → a ≤ b → b ≤ high → query a b = .ok l → P a b l)
    (hjoin : ∀ a m b l r, a ≤ m → m < b → P a m l → P (m + 1) b r → P a b (l ++ r))
    (h : fetch query low high = .ok l) : P low high l := by
  induction low, high using fetch.induct query generalizing l with
  | case1 low high l' hq =>
    rw [fetch_of_ok hq] at h
    exact hquery _ _ _ le_rfl hle le_rfl (hq.trans (congrArg Except.ok (Except.ok.inj h)))
  | case2 low high e hq hlt ihleft ihright =>
    rw [fetch_of_error_lt hq hlt] at h
    obtain ⟨left, hleft, h⟩ := of_bind_ok h
    obtain ⟨right, hright, rfl⟩ := of_map_ok h
    have hmiddle := middle_mem hlt
    refine hjoin _ _ _ _ _ hmiddle.1 hmiddle.2 (ihleft hmiddle.1 (fun a b l ha hb hm => ?_) hleft)
      (ihright hmiddle.2 (fun a b l ha hb hm => ?_) hright)
    · exact hquery a b l ha hb (by omega)
    · exact hquery a b l (by omega) hb hm
  | case3 low high e hq hlt =>
    rw [fetch_of_error_not_lt hq hlt] at h
    cases h

/-- The number that is given up was refused by itself. -/
theorem fetch_error {b : ℕ} {e : ε} (hle : low ≤ high) (h : fetch query low high = .error (b, e)) :
    low ≤ b ∧ b ≤ high ∧ query b b = .error e := by
  induction low, high using fetch.induct query with
  | case1 low high l hq =>
    rw [fetch_of_ok hq] at h
    cases h
  | case2 low high e' hq hlt ihleft ihright =>
    rw [fetch_of_error_lt hq hlt] at h
    have hmiddle := middle_mem hlt
    cases hleft : fetch query low (middle low high) with
    | error p =>
      rw [hleft] at h
      obtain ⟨h1, h2, h3⟩ := ihleft hmiddle.1 (hleft.trans h)
      exact ⟨h1, by omega, h3⟩
    | ok left =>
      rw [hleft] at h
      cases hright : fetch query (middle low high + 1) high with
      | error p =>
        rw [bind_ok_left, hright] at h
        obtain ⟨h1, h2, h3⟩ := ihright hmiddle.2 (hright.trans h)
        exact ⟨by omega, h2, h3⟩
      | ok right =>
        rw [bind_ok_left, hright] at h
        cases h
  | case3 low high e' hq hlt =>
    rw [fetch_of_error_not_lt hq hlt] at h
    obtain ⟨rfl, rfl⟩ := Prod.mk.inj (Except.error.inj h)
    obtain rfl : low = high := by omega
    exact ⟨le_rfl, le_rfl, hq⟩

end RangeSplit
