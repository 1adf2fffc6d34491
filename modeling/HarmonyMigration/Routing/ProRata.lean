import HarmonyMigration.Routing.Types

/-! `pro_rata`: an amount split over vault positions by largest remainder, ties by validator key. -/

namespace HarmonyMigration.Routing

open Erc20 Except

/-- `sum(position["remaining"] for position in positions)`. -/
def vaultRemaining (positions : List Position) : ℤ := (positions.map Position.remaining).sum

/-- The total of the positions that still hold something. -/
def available (positions : List Position) : ℤ := vaultRemaining (positions.filter fun p => 0 < p.remaining)

/-- The units that rounding leaves over. -/
def extras (amount : ℤ) (positions : List Position) : ℤ :=
  amount - ((positions.filter fun p => 0 < p.remaining).map
    fun p => amount * p.remaining / available positions).sum

/-- Larger remainders first, then the smaller validator key, then the earlier position. -/
def remainderOrder (amount total : ℤ) (x : Position × ℕ) : ℤ ×ₗ ℕ ×ₗ ℕ :=
  toLex (-(amount * x.1.remaining % total), toLex (x.1.validatorKey, x.2))

/-- The indices that get one of the units left over. -/
def bonus (amount : ℤ) (positions : List Position) : List ℕ :=
  (((positions.zipIdx.filter fun x => 0 < x.1.remaining).insertionSort fun a b =>
    remainderOrder amount (available positions) a ≤ remainderOrder amount (available positions) b).take
      (extras amount positions).toNat).map Prod.snd

def proRataShares (amount : ℤ) (positions : List Position) : List ℤ :=
  positions.zipIdx.map fun x =>
    if 0 < x.1.remaining then
      amount * x.1.remaining / available positions + if x.2 ∈ bonus amount positions then 1 else 0
    else 0

/-- The positions after the split, and what each position gave. -/
def proRata (amount : ℤ) (positions : List Position) : Except Error (List Position × List (Position × ℤ)) :=
  (require (0 ≤ amount ∧ amount ≤ available positions) .proRataExceedsVault).bind fun _ =>
  if amount = 0 then .ok (positions, [])
  else
    let shares := positions.zip (proRataShares amount positions)
    let result := shares.filter fun x => x.2 ≠ 0
    (require (∀ x ∈ result, x.2 ≤ x.1.remaining) .proRataExceedsPosition).bind fun _ =>
    (require ((result.map Prod.snd).sum = amount) .proRataDoesNotClose).bind fun _ =>
    .ok (shares.map fun x => { x.1 with remaining := x.1.remaining - x.2 }, result)

/-! ### What a split preserves -/

/-- What the positions hold at a validator. -/
def heldAt (positions : List Position) (validator : ℕ) : ℤ :=
  ((positions.filter fun p => p.validatorKey = validator).map Position.remaining).sum

/-- What a split takes from a validator. -/
def takenAt (result : List (Position × ℤ)) (validator : ℕ) : ℤ :=
  ((result.filter fun x => x.1.validatorKey = validator).map Prod.snd).sum

/-- A position without its amount. -/
def Position.blank (p : Position) : Position := { p with remaining := 0 }

theorem available_eq {positions : List Position} (h : ∀ p ∈ positions, 0 ≤ p.remaining) :
    available positions = vaultRemaining positions := by
  unfold available vaultRemaining
  rw [Dict.sum_filter_eq fun p : Position => 0 < p.remaining]
  refine congrArg _ (List.map_congr_left fun p hp => ?_)
  split_ifs with hpos
  · rfl
  · exact le_antisymm (h p hp) (not_lt.mp hpos)

theorem proRataShares_length (amount : ℤ) (positions : List Position) :
    (proRataShares amount positions).length = positions.length := by
  simp [proRataShares]

/-- The shares of one split, in the order of the positions. -/
structure Split (positions : List Position) (amount : ℤ) (shares : List ℤ) (left : List Position)
    (result : List (Position × ℤ)) : Prop where
  length : shares.length = positions.length
  left : left = (positions.zip shares).map fun x => { x.1 with remaining := x.1.remaining - x.2 }
  result : result = (positions.zip shares).filter fun x => x.2 ≠ 0
  bounds : ∀ x ∈ positions.zip shares, 0 ≤ x.2 ∧ x.2 ≤ x.1.remaining
  sum : shares.sum = amount
  nonneg : 0 ≤ amount
  le : amount ≤ vaultRemaining positions

theorem zip_replicate_zero (positions : List Position) :
    positions.zip (List.replicate positions.length (0 : ℤ)) = positions.map fun p => (p, 0) := by
  induction positions with
  | nil => rfl
  | cons p positions ih =>
    rw [List.length_cons, List.replicate_succ, List.zip_cons_cons, ih, List.map_cons]

theorem sum_filter_ne_zero {α : Type*} (l : List (α × ℤ)) :
    ((l.filter fun x => x.2 ≠ 0).map Prod.snd).sum = (l.map Prod.snd).sum := by
  rw [Dict.sum_filter_eq fun x : α × ℤ => x.2 ≠ 0]
  refine congrArg _ (List.map_congr_left fun x _ => ?_)
  split_ifs with h
  · rfl
  · exact (not_not.mp h).symm

theorem vaultRemaining_nonneg {positions : List Position} (h : ∀ p ∈ positions, 0 ≤ p.remaining) :
    0 ≤ vaultRemaining positions := by
  refine List.sum_nonneg fun x hx => ?_
  obtain ⟨p, hp, rfl⟩ := List.mem_map.mp hx
  exact h p hp

theorem proRataShares_nonneg {amount : ℤ} {positions : List Position} (ha : 0 ≤ amount)
    (hp : ∀ p ∈ positions, 0 ≤ p.remaining) : ∀ s ∈ proRataShares amount positions, 0 ≤ s := by
  intro s hs
  obtain ⟨x, hx, rfl⟩ := List.mem_map.mp hs
  by_cases hpos : 0 < x.1.remaining
  · have hdiv : 0 ≤ amount * x.1.remaining / available positions := by
      rw [available_eq hp]
      exact Int.ediv_nonneg (mul_nonneg ha hpos.le) (vaultRemaining_nonneg hp)
    rw [if_pos hpos]
    split_ifs <;> omega
  · rw [if_neg hpos]

/-- A split that succeeds is one. -/
theorem split_of_proRata {amount : ℤ} {positions left : List Position} {result : List (Position × ℤ)}
    (h : proRata amount positions = .ok (left, result)) (hp : ∀ p ∈ positions, 0 ≤ p.remaining) :
    ∃ shares, Split positions amount shares left result ∧ (amount ≠ 0 → shares = proRataShares amount positions) := by
  unfold proRata at h
  rw [require_bind_ok] at h
  obtain ⟨⟨h0, hle⟩, h⟩ := h
  rw [available_eq hp] at hle
  by_cases hz : amount = 0
  · rw [if_pos hz] at h
    obtain ⟨rfl, rfl⟩ : positions = left ∧ [] = result := by simpa using h
    refine ⟨List.replicate positions.length 0, ⟨by simp, ?_, ?_, ?_, by simp [hz], h0, hle⟩, fun hn => absurd hz hn⟩
    · rw [zip_replicate_zero, List.map_map]
      exact (List.map_id'' (fun p => by simp) positions).symm
    · rw [zip_replicate_zero]
      exact (List.filter_eq_nil_iff.mpr fun x hx => by
        obtain ⟨p, -, rfl⟩ := List.mem_map.mp hx
        simp).symm
    · rw [zip_replicate_zero]
      intro x hx
      obtain ⟨p, hpm, rfl⟩ := List.mem_map.mp hx
      exact ⟨le_rfl, hp p hpm⟩
  · rw [if_neg hz] at h
    simp only [require_bind_ok] at h
    obtain ⟨hbound, hsum, h⟩ := h
    obtain ⟨rfl, rfl⟩ : _ = left ∧ _ = result := by simpa only [Except.ok.injEq, Prod.mk.injEq] using h
    have hlen := proRataShares_length amount positions
    refine ⟨proRataShares amount positions, ⟨hlen, rfl, rfl, fun x hx => ?_, ?_, h0, hle⟩, fun _ => rfl⟩
    · refine ⟨proRataShares_nonneg h0 hp _ (List.of_mem_zip hx).2, ?_⟩
      by_cases hx0 : x.2 = 0
      · rw [hx0]
        exact hp _ (List.of_mem_zip hx).1
      · exact hbound x (List.mem_filter.mpr ⟨hx, by simpa using hx0⟩)
    · rw [sum_filter_ne_zero, List.map_snd_zip hlen.le] at hsum
      exact hsum

namespace Split
variable {positions left : List Position} {amount : ℤ} {shares : List ℤ} {result : List (Position × ℤ)}

theorem left_nonneg (h : Split positions amount shares left result) : ∀ p ∈ left, 0 ≤ p.remaining := by
  rw [h.left]
  intro p hp
  obtain ⟨x, hx, rfl⟩ := List.mem_map.mp hp
  have := h.bounds x hx
  dsimp only
  omega

theorem left_blank (h : Split positions amount shares left result) :
    left.map Position.blank = positions.map Position.blank := by
  rw [h.left, List.map_map]
  conv_rhs => rw [← List.map_fst_zip h.length.ge, List.map_map]
  rfl

theorem result_pos (h : Split positions amount shares left result) : ∀ x ∈ result, x.1 ∈ positions ∧ 0 < x.2 := by
  rw [h.result]
  intro x hx
  obtain ⟨hx, hne⟩ := List.mem_filter.mp hx
  refine ⟨(List.of_mem_zip hx).1, ?_⟩
  exact lt_of_le_of_ne (h.bounds x hx).1 (Ne.symm (by simpa using hne))

theorem result_sum (h : Split positions amount shares left result) : (result.map Prod.snd).sum = amount := by
  rw [h.result, sum_filter_ne_zero, List.map_snd_zip h.length.le, h.sum]

/-- At every validator, what is left and what was taken make up what was held. -/
theorem held_add_taken (h : Split positions amount shares left result) (v : ℕ) :
    heldAt left v + takenAt result v = heldAt positions v := by
  have htaken : takenAt result v =
      ((positions.zip shares).map fun x => if x.1.validatorKey = v then x.2 else 0).sum := by
    rw [takenAt, Dict.sum_filter_eq fun x : Position × ℤ => x.1.validatorKey = v, h.result,
      Dict.sum_filter_eq fun x : Position × ℤ => x.2 ≠ 0]
    refine congrArg _ (List.map_congr_left fun x _ => ?_)
    by_cases hx : x.2 = 0 <;> simp [hx]
  have hleft : heldAt left v =
      ((positions.zip shares).map fun x => if x.1.validatorKey = v then x.1.remaining - x.2 else 0).sum := by
    rw [heldAt, Dict.sum_filter_eq fun p : Position => p.validatorKey = v, h.left, List.map_map]
    rfl
  have hheld : heldAt positions v =
      ((positions.zip shares).map fun x => if x.1.validatorKey = v then x.1.remaining else 0).sum := by
    rw [heldAt, Dict.sum_filter_eq fun p : Position => p.validatorKey = v]
    conv_lhs => rw [← List.map_fst_zip h.length.ge, List.map_map]
    rfl
  rw [htaken, hleft, hheld, ← List.sum_map_add]
  refine congrArg _ (List.map_congr_left fun x _ => ?_)
  split_ifs <;> ring

theorem left_sum (h : Split positions amount shares left result) :
    vaultRemaining left + amount = vaultRemaining positions := by
  have hpos : vaultRemaining positions = ((positions.zip shares).map fun x => x.1.remaining).sum := by
    unfold vaultRemaining
    conv_lhs => rw [← List.map_fst_zip h.length.ge, List.map_map]
    rfl
  have hamount : amount = ((positions.zip shares).map Prod.snd).sum := by
    rw [List.map_snd_zip h.length.le, h.sum]
  rw [hpos, hamount, vaultRemaining, h.left, List.map_map, ← List.sum_map_add]
  refine congrArg _ (List.map_congr_left fun x _ => ?_)
  simp

/-- Taking everything leaves nothing. -/
theorem left_zero (h : Split positions amount shares left result) (hall : amount = vaultRemaining positions) :
    ∀ p ∈ left, p.remaining = 0 := by
  have hsum : vaultRemaining left = 0 := by
    have := h.left_sum
    omega
  intro p hp
  have hle : p.remaining ≤ vaultRemaining left :=
    List.single_le_sum (fun y hy => by
      obtain ⟨q, hq, rfl⟩ := List.mem_map.mp hy
      exact h.left_nonneg q hq) _ (List.mem_map_of_mem hp)
  exact le_antisymm (hle.trans hsum.le) (h.left_nonneg p hp)

end Split

/-! ### A split exists -/

/-- In a list with distinct keys, as many keys are among the first `k` as there are elements. -/
theorem countP_mem_take {α β : Type*} [DecidableEq β] {f : α → β} {l : List α} (hnd : (l.map f).Nodup) (k : ℕ) :
    (l.countP fun x => f x ∈ (l.take k).map f) = (l.take k).length := by
  rw [← List.take_append_drop k l, List.map_append, List.nodup_append] at hnd
  have hdrop : ((l.drop k).countP fun x => f x ∈ (l.take k).map f) = 0 := by
    refine List.countP_eq_zero.mpr fun x hx => ?_
    rw [decide_eq_true_iff]
    exact fun hm => hnd.2.2 _ hm _ (List.mem_map_of_mem hx) rfl
  have htake : ((l.take k).countP fun x => f x ∈ (l.take k).map f) = (l.take k).length := by
    refine List.countP_eq_length.mpr fun x hx => ?_
    rw [decide_eq_true_iff]
    exact List.mem_map_of_mem hx
  calc (l.countP fun x => f x ∈ (l.take k).map f)
      = ((l.take k ++ l.drop k).countP fun x => f x ∈ (l.take k).map f) := by rw [List.take_append_drop]
    _ = (l.take k).length := by rw [List.countP_append, htake, hdrop, add_zero]

theorem sum_ite_one {α : Type*} (l : List α) (p : α → Prop) [DecidablePred p] :
    (l.map fun x => if p x then (1 : ℤ) else 0).sum = l.countP fun x => p x := by
  induction l with
  | nil => rfl
  | cons x l ih =>
    rw [List.map_cons, List.sum_cons, ih, List.countP_cons]
    by_cases hx : p x <;> simp [hx, add_comm]

section Exists
variable {amount : ℤ} {positions : List Position}

/-- The positions that take part, with their places. -/
def active (positions : List Position) : List (Position × ℕ) := positions.zipIdx.filter fun x => 0 < x.1.remaining

theorem active_fst (positions : List Position) :
    (active positions).map Prod.fst = positions.filter fun p => 0 < p.remaining := by
  have hfst : positions.zipIdx.map Prod.fst = positions := List.zipIdx_map_fst 0 positions
  conv_rhs => rw [← hfst, List.filter_map]
  rfl

theorem active_snd_nodup (positions : List Position) : ((active positions).map Prod.snd).Nodup := by
  refine List.Nodup.sublist (List.filter_sublist.map Prod.snd) ?_
  rw [List.zipIdx_map_snd]
  exact List.nodup_range'

theorem sum_active (positions : List Position) (f : Position → ℤ) :
    ((active positions).map fun x => f x.1).sum = ((positions.filter fun p => 0 < p.remaining).map f).sum := by
  rw [← active_fst, List.map_map]
  rfl

/-- The remainders add up to a multiple of the total: one unit for each extra. -/
theorem extras_mul_available (amount : ℤ) (positions : List Position) :
    extras amount positions * available positions =
      ((positions.filter fun p => 0 < p.remaining).map fun p => amount * p.remaining % available positions).sum := by
  have hsum : ((positions.filter fun p => 0 < p.remaining).map fun p =>
        amount * p.remaining / available positions * available positions +
          amount * p.remaining % available positions).sum = amount * available positions := by
    conv_rhs => rw [available, vaultRemaining, ← List.sum_map_mul_left]
    refine congrArg _ (List.map_congr_left fun p _ => ?_)
    rw [mul_comm (amount * p.remaining / available positions)]
    exact Int.mul_ediv_add_emod _ _
  rw [List.sum_map_add, List.sum_map_mul_right] at hsum
  rw [extras, sub_mul]
  omega

theorem extras_bounds (amount : ℤ) (htotal : 0 < available positions) :
    0 ≤ extras amount positions ∧
      extras amount positions ≤ (positions.filter fun p => 0 < p.remaining).length := by
  have heq := extras_mul_available amount positions
  have hnonneg : 0 ≤ ((positions.filter fun p => 0 < p.remaining).map
      fun p => amount * p.remaining % available positions).sum := by
    refine List.sum_nonneg fun x hx => ?_
    obtain ⟨p, -, rfl⟩ := List.mem_map.mp hx
    exact Int.emod_nonneg _ htotal.ne'
  have hle : ((positions.filter fun p => 0 < p.remaining).map
      fun p => amount * p.remaining % available positions).sum ≤
        (positions.filter fun p => 0 < p.remaining).length * available positions := by
    rw [← nsmul_eq_mul, ← List.sum_replicate, ← List.map_const']
    exact List.sum_le_sum fun p _ => (Int.emod_lt_of_pos _ htotal).le
  refine ⟨?_, ?_⟩
  · exact nonneg_of_mul_nonneg_left (heq ▸ hnonneg) htotal
  · exact le_of_mul_le_mul_right (heq ▸ hle) htotal

/-- Every extra unit is given. -/
theorem countP_bonus (htotal : 0 < available positions) :
    ((active positions).countP fun x => x.2 ∈ bonus amount positions : ℕ) = extras amount positions := by
  obtain ⟨h0, hle⟩ := extras_bounds amount htotal
  have hperm := List.perm_insertionSort (fun a b : Position × ℕ =>
    remainderOrder amount (available positions) a ≤ remainderOrder amount (available positions) b) (active positions)
  have hcount := countP_mem_take ((hperm.map Prod.snd).nodup_iff.mpr (active_snd_nodup positions))
    (extras amount positions).toNat
  have hlength : (active positions).length = (positions.filter fun p => 0 < p.remaining).length := by
    rw [← active_fst, List.length_map]
  rw [← hperm.countP_eq]
  have hbonus : bonus amount positions = ((List.insertionSort (fun a b =>
      remainderOrder amount (available positions) a ≤ remainderOrder amount (available positions) b)
        (active positions)).take (extras amount positions).toNat).map Prod.snd := rfl
  rw [hbonus, hcount, List.length_take, hperm.length_eq, hlength]
  omega

theorem proRataShares_sum (htotal : 0 < available positions) : (proRataShares amount positions).sum = amount := by
  have hsplit : (proRataShares amount positions).sum =
      ((active positions).map fun x => amount * x.1.remaining / available positions +
        if x.2 ∈ bonus amount positions then 1 else 0).sum := by
    rw [active, Dict.sum_filter_eq fun x : Position × ℕ => 0 < x.1.remaining]
    rfl
  rw [hsplit, List.sum_map_add, sum_active positions fun p => amount * p.remaining / available positions,
    sum_ite_one (active positions) fun x => x.2 ∈ bonus amount positions, countP_bonus htotal, extras]
  omega

theorem zip_proRataShares (amount : ℤ) (positions : List Position) :
    positions.zip (proRataShares amount positions) = positions.zipIdx.map fun y =>
      (y.1, if 0 < y.1.remaining then
        amount * y.1.remaining / available positions + if y.2 ∈ bonus amount positions then 1 else 0 else 0) := by
  have hfst : positions.zipIdx.map Prod.fst = positions := List.zipIdx_map_fst 0 positions
  calc positions.zip (proRataShares amount positions)
      = (positions.zipIdx.map Prod.fst).zip (proRataShares amount positions) := by rw [hfst]
    _ = _ := by rw [proRataShares, List.zip_map']

/-- No position gives more than it holds: the extra unit goes where the quotient is rounded down. -/
theorem proRataShares_le (hp : ∀ p ∈ positions, 0 ≤ p.remaining) (ha : amount ≤ available positions) :
    ∀ x ∈ positions.zip (proRataShares amount positions), x.2 ≤ x.1.remaining := by
  intro x hx
  rw [zip_proRataShares] at hx
  obtain ⟨y, hy, rfl⟩ := List.mem_map.mp hx
  have hmem : y.1 ∈ positions := by
    rw [← List.zipIdx_map_fst 0 positions]
    exact List.mem_map_of_mem hy
  dsimp only
  by_cases hpos : 0 < y.1.remaining
  · have htotal : 0 < available positions := by
      rw [available_eq hp]
      exact lt_of_lt_of_le hpos (List.single_le_sum (fun z hz => by
        obtain ⟨q, hq, rfl⟩ := List.mem_map.mp hz
        exact hp q hq) _ (List.mem_map_of_mem hmem))
    rw [if_pos hpos]
    rcases ha.lt_or_eq with hlt | heq
    · -- below the total the quotient is below the position
      have hquotient : amount * y.1.remaining / available positions < y.1.remaining :=
        Int.ediv_lt_of_lt_mul htotal (by
          rw [mul_comm y.1.remaining]
          exact mul_lt_mul_of_pos_right hlt hpos)
      split_ifs <;> omega
    · -- the total itself leaves no extra unit
      have hextras : extras amount positions = 0 := by
        have hmul := extras_mul_available amount positions
        rw [heq] at hmul ⊢
        have hzero : ((positions.filter fun p => 0 < p.remaining).map
            fun p => available positions * p.remaining % available positions).sum = 0 := by
          refine List.sum_eq_zero fun z hz => ?_
          obtain ⟨q, -, rfl⟩ := List.mem_map.mp hz
          exact Int.mul_emod_right _ _
        rw [hzero] at hmul
        exact (mul_eq_zero.mp hmul).resolve_right htotal.ne'
      have hbonus : bonus amount positions = [] := by rw [bonus, hextras]; rfl
      rw [hbonus, heq, Int.mul_ediv_cancel_left _ htotal.ne']
      simp
  · rw [if_neg hpos]
    exact hp _ hmem

/-- Any amount up to what is held can be split. -/
theorem exists_proRata (hp : ∀ p ∈ positions, 0 ≤ p.remaining) (h0 : 0 ≤ amount)
    (hle : amount ≤ vaultRemaining positions) : ∃ split, proRata amount positions = .ok split := by
  rw [← available_eq hp] at hle
  unfold proRata
  simp only [require_bind_ok]
  by_cases hz : amount = 0
  · exact ⟨_, ⟨h0, hle⟩, if_pos hz⟩
  · have htotal : 0 < available positions := by omega
    have hsum : ((((positions.zip (proRataShares amount positions)).filter fun x => x.2 ≠ 0).map Prod.snd).sum) =
        amount := by
      rw [sum_filter_ne_zero, List.map_snd_zip (proRataShares_length amount positions).le, proRataShares_sum htotal]
    have hbound : ∀ x ∈ (positions.zip (proRataShares amount positions)).filter fun x => x.2 ≠ 0,
        x.2 ≤ x.1.remaining := fun x hx => proRataShares_le hp hle x (List.mem_of_mem_filter hx)
    refine ⟨((positions.zip (proRataShares amount positions)).map fun x =>
      { x.1 with remaining := x.1.remaining - x.2 },
      (positions.zip (proRataShares amount positions)).filter fun x => x.2 ≠ 0), ⟨h0, hle⟩, ?_⟩
    rw [if_neg hz]
    exact require_bind_ok.mpr ⟨hbound, require_bind_ok.mpr ⟨hsum, rfl⟩⟩

end Exists

end HarmonyMigration.Routing
