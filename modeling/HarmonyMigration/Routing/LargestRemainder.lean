import HarmonyMigration.Routing.ProRata
import HarmonyMigration.Lib.SortedBy
import Mathlib.Algebra.Order.Floor.Ring
import Mathlib.Data.Rat.Floor

/-! A split by largest remainder succeeds whenever the amount is held, and every share is the exact
one rounded down or up. -/

namespace HarmonyMigration.Routing

open Erc20 Except

section Rounded
variable {amount : ℤ} {positions : List Position}

/-- In a list sorted by descending remainder, no more than there are nonzero ones, the first are nonzero. -/
theorem pos_of_mem_take {α : Type*} {f : α → ℤ} {l : List α} (hs : l.Pairwise fun a b => f b ≤ f a)
    (h0 : ∀ a ∈ l, 0 ≤ f a) {k : ℕ} (hk : k ≤ l.countP fun a => 0 < f a) : ∀ a ∈ l.take k, 0 < f a := by
  induction l generalizing k with
  | nil => simp
  | cons b l ih =>
    obtain ⟨hhead, htail⟩ := List.pairwise_cons.mp hs
    cases k with
    | zero => simp
    | succ k =>
      by_cases hb : 0 < f b
      · rw [List.countP_cons_of_pos (by simpa using hb)] at hk
        have hrest := ih htail (fun a ha => h0 a (List.mem_cons_of_mem _ ha)) (Nat.le_of_succ_le_succ hk)
        intro a ha
        rw [List.take_succ_cons] at ha
        rcases List.mem_cons.mp ha with rfl | ha
        · exact hb
        · exact hrest a ha
      · -- the largest remainder is zero, so all are
        have hnone : ((b :: l).countP fun a => 0 < f a) = 0 := by
          refine List.countP_eq_zero.mpr fun a ha => ?_
          rcases List.mem_cons.mp ha with rfl | ha
          · simpa using hb
          · have := hhead a ha
            rw [decide_eq_true_iff]
            omega
        omega

/-- There are no more extra units than positions whose exact share is not whole. -/
theorem extras_le_countP (htotal : 0 < available positions) :
    extras amount positions ≤ ((active positions).countP fun x => 0 < amount * x.1.remaining % available positions) := by
  have hmul := extras_mul_available amount positions
  rw [← sum_active positions fun p => amount * p.remaining % available positions] at hmul
  have hle : ((active positions).map fun x => amount * x.1.remaining % available positions).sum ≤
      ((active positions).map fun x => (if 0 < amount * x.1.remaining % available positions then (1 : ℤ) else 0) *
        available positions).sum := by
    refine List.sum_le_sum fun x _ => ?_
    have hlt := Int.emod_lt_of_pos (amount * x.1.remaining) htotal
    split_ifs with hpos
    · rw [one_mul]
      exact hlt.le
    · rw [zero_mul]
      exact not_lt.mp hpos
  rw [List.sum_map_mul_right, sum_ite_one (active positions) fun x =>
    0 < amount * x.1.remaining % available positions, ← hmul] at hle
  exact le_of_mul_le_mul_right hle htotal

/-- An extra unit goes to a position whose exact share is not whole. -/
theorem remainder_pos_of_bonus (htotal : 0 < available positions) {x : Position × ℕ} (hx : x ∈ active positions)
    (hbonus : x.2 ∈ bonus amount positions) : 0 < amount * x.1.remaining % available positions := by
  have hsorted : ((active positions).insertionSort fun a b => remainderOrder amount (available positions) a ≤
      remainderOrder amount (available positions) b).Pairwise fun a b =>
        amount * b.1.remaining % available positions ≤ amount * a.1.remaining % available positions := by
    refine (SortedBy.pairwise_insertionSort _ (active positions)).imp fun {a b} hle => ?_
    rcases Prod.Lex.le_iff.mp hle with hlt | ⟨heq, -⟩
    · exact (neg_lt_neg_iff.mp hlt).le
    · exact (neg_inj.mp heq).symm.le
  have hperm := List.perm_insertionSort (fun a b : Position × ℕ =>
    remainderOrder amount (available positions) a ≤ remainderOrder amount (available positions) b) (active positions)
  have hcount := @extras_le_countP amount positions htotal
  rw [← hperm.countP_eq] at hcount
  obtain ⟨y, hy, hyx⟩ := List.mem_map.mp hbonus
  have hypos := pos_of_mem_take hsorted (fun a _ => Int.emod_nonneg _ htotal.ne')
    (show (extras amount positions).toNat ≤ _ by omega) y hy
  -- a position is known by its place
  have hmem : y ∈ active positions := hperm.mem_iff.mp (List.mem_of_mem_take hy)
  rwa [List.inj_on_of_nodup_map (active_snd_nodup positions) hmem hx hyx] at hypos

/-- The exact share of a position. -/
def exactShare (amount : ℤ) (positions : List Position) (p : Position) : ℚ :=
  (amount * p.remaining : ℤ) / (vaultRemaining positions : ℤ)

theorem eq_floor {n d : ℤ} (hd : 0 < d) : n / d = ⌊((n : ℚ) / (d : ℚ))⌋ := by
  have hdq : (0 : ℚ) < d := by exact_mod_cast hd
  have hlow : n / d * d ≤ n := Int.ediv_mul_le n hd.ne'
  have hhigh : n < (n / d + 1) * d := Int.lt_ediv_add_one_mul_self n hd
  refine (Int.floor_eq_iff.mpr ⟨?_, ?_⟩).symm
  · rw [le_div_iff₀ hdq]
    exact_mod_cast hlow
  · rw [div_lt_iff₀ hdq]
    exact_mod_cast hhigh

theorem succ_eq_ceil {n d : ℤ} (hd : 0 < d) (hrem : 0 < n % d) : n / d + 1 = ⌈((n : ℚ) / (d : ℚ))⌉ := by
  have hdq : (0 : ℚ) < d := by exact_mod_cast hd
  have hdecomp : d * (n / d) + n % d = n := Int.mul_ediv_add_emod n d
  have hlow : n / d * d < n := by
    rw [mul_comm]
    omega
  have hhigh : n ≤ (n / d + 1) * d := (Int.lt_ediv_add_one_mul_self n hd).le
  refine (Int.ceil_eq_iff.mpr ⟨?_, ?_⟩).symm
  · rw [Int.cast_add, Int.cast_one, add_sub_cancel_right, lt_div_iff₀ hdq]
    exact_mod_cast hlow
  · rw [div_le_iff₀ hdq]
    exact_mod_cast hhigh

/-- Every share is the exact one rounded down or up. -/
theorem proRataShares_rounded (hp : ∀ p ∈ positions, 0 ≤ p.remaining) :
    ∀ x ∈ positions.zip (proRataShares amount positions),
      x.2 = ⌊exactShare amount positions x.1⌋ ∨ x.2 = ⌈exactShare amount positions x.1⌉ := by
  intro x hx
  rw [zip_proRataShares] at hx
  obtain ⟨y, hy, rfl⟩ := List.mem_map.mp hx
  have hmem : y.1 ∈ positions := by
    rw [← List.zipIdx_map_fst 0 positions]
    exact List.mem_map_of_mem hy
  dsimp only
  by_cases hpos : 0 < y.1.remaining
  · have htotal : 0 < available positions := by
      rw [available_eq hp]
      exact lt_of_lt_of_le hpos (List.single_le_sum (fun z hz => by
        obtain ⟨q, hq, rfl⟩ := List.mem_map.mp hz
        exact hp q hq) _ (List.mem_map_of_mem hmem))
    rw [if_pos hpos, exactShare, ← available_eq hp]
    by_cases hbonus : y.2 ∈ bonus amount positions
    · have hactive : y ∈ active positions := List.mem_filter.mpr ⟨hy, by simpa using hpos⟩
      rw [if_pos hbonus]
      exact Or.inr (succ_eq_ceil htotal (remainder_pos_of_bonus htotal hactive hbonus))
    · rw [if_neg hbonus, add_zero]
      exact Or.inl (eq_floor htotal)
  · have hzero : y.1.remaining = 0 := le_antisymm (not_lt.mp hpos) (hp _ hmem)
    rw [if_neg hpos, exactShare, hzero]
    exact Or.inl (by simp)

end Rounded

/-- What one call of `pro_rata` gives. -/
structure Apportioned (amount : ℤ) (positions left : List Position) (result : List (Position × ℤ)) (shares : List ℤ) :
    Prop where
  split : Split positions amount shares left result
  positive : ∀ x ∈ result, 0 < x.2
  sum : (result.map Prod.snd).sum = amount
  rounded : ∀ x ∈ positions.zip shares,
    x.2 = ⌊exactShare amount positions x.1⌋ ∨ x.2 = ⌈exactShare amount positions x.1⌉

theorem exists_apportioned {amount : ℤ} {positions : List Position} (hp : ∀ p ∈ positions, 0 ≤ p.remaining)
    (h0 : 0 ≤ amount) (hle : amount ≤ vaultRemaining positions) :
    ∃ left result shares, proRata amount positions = .ok (left, result) ∧
      Apportioned amount positions left result shares := by
  obtain ⟨⟨left, result⟩, hrun⟩ := exists_proRata hp h0 hle
  obtain ⟨shares, hsplit, hshares⟩ := split_of_proRata hrun hp
  refine ⟨left, result, shares, hrun, hsplit, fun x hx => (hsplit.result_pos x hx).2, hsplit.result_sum, fun x hx => ?_⟩
  by_cases hz : amount = 0
  · -- nothing is shared out, and nothing is the exact share
    subst hz
    have hzero : x.2 = 0 := by
      have hnonneg : ∀ s ∈ shares, 0 ≤ s := fun s hs => by
        obtain ⟨p, hps⟩ : ∃ p, (p, s) ∈ positions.zip shares := by
          rw [← List.map_snd_zip hsplit.length.le] at hs
          obtain ⟨⟨p, t⟩, hps, rfl⟩ := List.mem_map.mp hs
          exact ⟨p, hps⟩
        exact (hsplit.bounds _ hps).1
      have hx2 := (List.of_mem_zip hx).2
      exact le_antisymm ((List.single_le_sum hnonneg _ hx2).trans hsplit.sum.le) (hnonneg _ hx2)
    exact Or.inl (by simp [hzero, exactShare])
  · rw [hshares hz] at hx
    exact proRataShares_rounded hp x hx

/-- An amount that is held is split without an error: positive shares that add up to it, each the exact share rounded
down or up and taken from its position, and two splits leave as much as one of both amounts. -/
theorem proRata_exact {amount : ℤ} {positions : List Position} (hp : ∀ p ∈ positions, 0 ≤ p.remaining)
    (h0 : 0 ≤ amount) (hle : amount ≤ vaultRemaining positions) :
    ∃ left result shares, proRata amount positions = .ok (left, result) ∧
      Apportioned amount positions left result shares ∧
      ∀ b, 0 ≤ b → amount + b ≤ vaultRemaining positions → ∃ left₂ result₂ whole resultWhole,
        proRata b left = .ok (left₂, result₂) ∧ proRata (amount + b) positions = .ok (whole, resultWhole) ∧
        vaultRemaining left₂ = vaultRemaining whole := by
  obtain ⟨left, result, shares, hrun, happ⟩ := exists_apportioned hp h0 hle
  refine ⟨left, result, shares, hrun, happ, fun b hb hsum => ?_⟩
  have hleft := happ.split.left_sum
  obtain ⟨left₂, result₂, shares₂, hrun₂, happ₂⟩ :=
    exists_apportioned happ.split.left_nonneg hb (show b ≤ vaultRemaining left by omega)
  obtain ⟨whole, resultWhole, sharesWhole, hrunWhole, happWhole⟩ := exists_apportioned hp (by omega) hsum
  refine ⟨left₂, result₂, whole, resultWhole, hrun₂, hrunWhole, ?_⟩
  have hleft₂ := happ₂.split.left_sum
  have hwhole := happWhole.split.left_sum
  omega

def threePositions : List Position :=
  [⟨1, 0x11#160, 9, 0x99#160, .ordinaryEoa, false, 3⟩, ⟨2, 0x12#160, 9, 0x99#160, .ordinaryEoa, false, 3⟩,
    ⟨3, 0x13#160, 9, 0x99#160, .ordinaryEoa, false, 4⟩]

theorem proRata_exact_three : ∃ left result shares, proRata 5 threePositions = .ok (left, result) ∧
    Apportioned 5 threePositions left result shares ∧
    ∀ b, 0 ≤ b → 5 + b ≤ vaultRemaining threePositions → ∃ left₂ result₂ whole resultWhole,
      proRata b left = .ok (left₂, result₂) ∧ proRata (5 + b) threePositions = .ok (whole, resultWhole) ∧
      vaultRemaining left₂ = vaultRemaining whole :=
  proRata_exact (by decide) (by decide) (by decide)

end HarmonyMigration.Routing
