import HarmonyMigration.Allocation.Split
import HarmonyMigration.Lib.Floors

/-! A built pool pays out no more than its collateral: what is claimable, what is held and what is retained
are the collateral, and every amount is the account's own share of it. -/

namespace HarmonyMigration.Allocation

open Erc20

/-- The rows that take part in the split: claimable, held, or below the minimum afterwards. -/
def Status.shares (s : Status) : Bool := s.eligible || s = .belowMinimum

structure Conserved (i : PoolInput) (s : Summary) (rows : List Row) : Prop where
  gross : ∀ row ∈ rows, row.gross = i.gross row.account
  bounded : ∀ row ∈ rows, 0 ≤ row.allocation ∧ row.allocation ≤ row.gross
  nothing : ∀ row ∈ rows, row.status.excluded ∨ row.status = .belowMinimum → row.allocation = 0
  collateral : s.collateral = i.collateral
  claimable : s.claimable = sumIf (· = .claimable) Row.allocation rows
  held : s.held = sumIf Status.held Row.allocation rows
  parts : s.claimable + s.held + s.retained = s.collateral
  retained : 0 ≤ s.retained
  eligible : s.eligible = sumIf Status.shares Row.gross rows
  whole : s.eligible ≤ s.collateral → ∀ row ∈ rows, row.status = .claimable ∨ row.status.held →
    row.allocation = row.gross
  floored : s.collateral < s.eligible → ∀ row ∈ rows, row.status = .claimable ∨ row.status.held →
    row.allocation = row.gross * s.collateral / s.eligible
  lost : s.collateral < s.eligible →
    s.collateral - sumIf Status.shares (fun row => row.gross * s.collateral / s.eligible) rows <
      (rows.filter fun row => row.status.shares).length
  accounts_nodup : (rows.map Row.account).Nodup
  mem_accounts : ∀ a, a ∈ rows.map Row.account ↔ a ∈ i.holdings.keys ∨ a ∈ i.adjustments.keys

theorem allocate_account (collateral eligible minimum : ℤ) (row : Row) :
    (allocate collateral eligible minimum row).account = row.account := by
  simp only [allocate]
  split_ifs <;> rfl

/-- The statuses a row can end with, by what it had before. -/
theorem allocate_status (collateral eligible minimum : ℤ) (row : Row) :
    (row.status.eligible = true ∧ (allocate collateral eligible minimum row).status = .belowMinimum ∧
        (allocate collateral eligible minimum row).allocation = row.allocation) ∨
      (row.status.eligible = true ∧ (allocate collateral eligible minimum row).status = row.status ∧
        (allocate collateral eligible minimum row).allocation = scaled collateral eligible row.gross) ∨
      (row.status.eligible = false ∧ allocate collateral eligible minimum row = row) := by
  cases heligible : row.status.eligible with
  | false =>
    refine .inr (.inr ⟨rfl, ?_⟩)
    rw [allocate, if_pos (by simp [heligible])]
  | true =>
    simp only [allocate, heligible, not_true_eq_false, if_false]
    split_ifs with hc
    · exact .inl ⟨trivial, rfl, rfl⟩
    · exact .inr (.inl ⟨trivial, rfl, rfl⟩)

theorem allocate_shares {collateral eligible minimum : ℤ} {row : Row} (h : row.status ≠ .belowMinimum) :
    (allocate collateral eligible minimum row).status.shares = row.status.eligible := by
  rcases allocate_status collateral eligible minimum row with ⟨he, hst, -⟩ | ⟨he, hst, -⟩ | ⟨he, heq⟩
  · rw [hst, he]
    rfl
  · rw [hst, he, Status.shares, he, Bool.true_or]
  · rw [heq, he, Status.shares, he, Bool.false_or]
    exact decide_eq_false h

theorem eligible_iff (s : Status) : s.eligible = true ↔ s = .claimable ∨ s.held = true := by
  simp [Status.eligible]

/-- A row that may be paid gets its share, every other row nothing. -/
theorem allocate_allocation {collateral eligible minimum : ℤ} {row : Row} (hzero : row.allocation = 0) :
    (allocate collateral eligible minimum row).allocation =
      if (allocate collateral eligible minimum row).status.eligible then scaled collateral eligible row.gross else 0 := by
  rcases allocate_status collateral eligible minimum row with ⟨he, hst, ha⟩ | ⟨he, hst, ha⟩ | ⟨he, heq⟩
  · rw [hst, ha, hzero]
    rfl
  · rw [hst, ha, if_pos he]
  · rw [heq, he, hzero]
    rfl

/-- What is claimable and what is held, before the small amounts are dropped. -/
theorem paid_le {collateral eligible minimum : ℤ} {rows : List Row}
    (hzero : ∀ row ∈ rows, row.allocation = 0)
    (hnonneg : ∀ row ∈ rows, 0 ≤ scaled collateral eligible row.gross) :
    sumIf (· = .claimable) Row.allocation (rows.map (allocate collateral eligible minimum)) +
        sumIf Status.held Row.allocation (rows.map (allocate collateral eligible minimum)) ≤
      sumIf Status.eligible (fun row => scaled collateral eligible row.gross) rows := by
  induction rows with
  | nil => simp [sumIf]
  | cons row rows ih =>
    rw [List.forall_mem_cons] at hzero hnonneg
    have hrest := ih hzero.2 hnonneg.2
    have hone : (if (allocate collateral eligible minimum row).status = .claimable then
          (allocate collateral eligible minimum row).allocation else 0) +
        (if (allocate collateral eligible minimum row).status.held then
          (allocate collateral eligible minimum row).allocation else 0) ≤
        if row.status.eligible then scaled collateral eligible row.gross else 0 := by
      rcases allocate_status collateral eligible minimum row with ⟨he, hst, -⟩ | ⟨he, hst, ha⟩ | ⟨he, heq⟩
      · rw [hst, if_pos he]
        simpa [Status.held] using hnonneg.1
      · rw [hst, ha, if_pos he]
        rcases (eligible_iff _).mp he with hc | hh
        · simp [hc, Status.held]
        · have hc : row.status ≠ .claimable := by
            intro hc
            simp [hc, Status.held] at hh
          simp [hc, hh]
      · rw [heq, he, hzero.1]
        simp
    rw [List.map_cons, sumIf_cons, sumIf_cons, sumIf_cons]
    simp only [decide_eq_true_eq]
    linarith

theorem sumIf_allocate (f : ℤ → ℤ) {collateral eligible minimum : ℤ} {rows : List Row}
    (hne : ∀ row ∈ rows, row.status ≠ .belowMinimum) :
    sumIf Status.shares (fun row => f row.gross) (rows.map (allocate collateral eligible minimum)) =
      sumIf Status.eligible (fun row => f row.gross) rows := by
  induction rows with
  | nil => rfl
  | cons row rows ih =>
    rw [List.forall_mem_cons] at hne
    rw [List.map_cons, sumIf_cons, sumIf_cons, ih hne.2, allocate_shares hne.1, allocate_gross]

theorem length_shares {collateral eligible minimum : ℤ} {rows : List Row}
    (hne : ∀ row ∈ rows, row.status ≠ .belowMinimum) :
    ((rows.map (allocate collateral eligible minimum)).filter fun row => row.status.shares).length =
      (rows.filter fun row => row.status.eligible).length := by
  rw [List.filter_map, List.length_map]
  refine congrArg List.length (List.filter_congr fun row hrow => ?_)
  exact allocate_shares (hne row hrow)

theorem scaled_whole {collateral eligible : ℤ} (h : eligible ≤ collateral) (gross : ℤ) :
    scaled collateral eligible gross = gross := by
  simp [scaled, scale, not_lt.mpr h]

theorem scaled_floored {collateral eligible : ℤ} (h : collateral < eligible) (gross : ℤ) :
    scaled collateral eligible gross = gross * collateral / eligible := by
  simp [scaled, scale, h]

theorem scaled_le {collateral eligible gross : ℤ} (hc : 0 ≤ collateral) (hg : 0 ≤ gross) :
    scaled collateral eligible gross ≤ gross := by
  rcases le_or_gt eligible collateral with h | h
  · rw [scaled_whole h]
  · rw [scaled_floored h]
    refine Int.ediv_le_of_le_mul (by omega) ?_
    exact mul_le_mul_of_nonneg_left h.le hg

/-- The shares fit into the collateral. -/
theorem sum_scaled_le {collateral : ℤ} (hc : 0 ≤ collateral) {rows : List Row} :
    sumIf Status.eligible (fun row => scaled collateral (sumIf Status.eligible Row.gross rows) row.gross) rows ≤
      collateral := by
  rcases le_or_gt (sumIf Status.eligible Row.gross rows) collateral with h | h
  · simp only [scaled_whole h]
    exact h
  · simp only [scaled_floored h]
    exact Floors.sum_floor_le _ Row.gross (lt_of_le_of_lt hc h) rfl

theorem accounts_nodup (holdings adjustments : Dict Address ℤ) : (accounts holdings adjustments).Nodup :=
  (List.mergeSort_perm _ _).nodup_iff.mpr (List.nodup_dedup _)

theorem mem_accounts {holdings adjustments : Dict Address ℤ} {a : Address} :
    a ∈ accounts holdings adjustments ↔ a ∈ holdings.keys ∨ a ∈ adjustments.keys := by
  rw [accounts, List.mem_mergeSort, List.mem_dedup, List.mem_append]

theorem accountRow_account {policy : Policy} {i : PoolInput} {account : Address} {row : Row}
    (h : accountRow i.pool i.planPool policy i.holdings i.adjustments account = .ok row) :
    row.account = account ∧ row.allocation = 0 := by
  obtain ⟨r, -, rfl⟩ := Except.of_map_ok h
  exact ⟨rfl, rfl⟩

theorem paid_of_buildPool {policy : Policy} {minimum : ℤ} {i : PoolInput} {s : Summary} {rows : List Row}
    (h : buildPool i.pool i.planPool policy i.state i.adjustments minimum = .ok (s, rows)) :
    s.claimable = sumIf (· = .claimable) Row.allocation rows ∧ s.held = sumIf Status.held Row.allocation rows := by
  obtain ⟨holdings, -, h⟩ := Except.of_bind_ok h
  obtain ⟨⟨c, source⟩, -, h⟩ := Except.of_bind_ok h
  obtain ⟨classified, -, h⟩ := Except.of_bind_ok h
  obtain ⟨rfl, rfl⟩ := Prod.mk.inj (Except.ok.inj h)
  exact ⟨rfl, rfl⟩

/-- `build_pool` conserves the collateral of the pool. -/
theorem built_pool_conserves {policy : Policy} {minimum : ℤ} {i : PoolInput} {s : Summary} {rows : List Row}
    (h : buildPool i.pool i.planPool policy i.state i.adjustments minimum = .ok (s, rows)) : Conserved i s rows := by
  obtain ⟨classified, hcl, hcol, hel, hrows, hret, -, -, -⟩ := buildPool_ok h
  obtain ⟨hclaimable, hheld⟩ := paid_of_buildPool h
  have hmem : ∀ row ∈ classified, ∃ a, accountRow i.pool i.planPool policy i.holdings i.adjustments a = .ok row := by
    intro row hrow
    obtain ⟨a, -, ha⟩ := Except.ok_of_mem_right hcl hrow
    exact ⟨a, ha⟩
  have hgross : ∀ row ∈ classified, row.gross = i.gross row.account ∧ 0 ≤ row.gross := by
    intro row hrow
    obtain ⟨a, ha⟩ := hmem row hrow
    rw [(accountRow_account ha).1, (accountRow_ok ha).1]
    exact ⟨rfl, le_max_left _ _⟩
  have hzero : ∀ row ∈ classified, row.allocation = 0 := by
    intro row hrow
    obtain ⟨a, ha⟩ := hmem row hrow
    exact (accountRow_account ha).2
  have hne : ∀ row ∈ classified, row.status ≠ .belowMinimum := by
    intro row hrow
    obtain ⟨a, ha⟩ := hmem row hrow
    exact (accountRow_ok ha).2.2
  have hcnonneg : 0 ≤ s.collateral := hcol ▸ collateral_nonneg i
  have hnonneg : ∀ row ∈ classified, 0 ≤ scaled s.collateral s.eligible row.gross :=
    fun row hrow => scaled_nonneg hcnonneg (hgross row hrow).2
  have haccounts : rows.map Row.account = accounts i.holdings i.adjustments := by
    rw [hrows, List.map_map]
    refine Eq.trans (List.map_congr_left fun row _ => allocate_account _ _ _ row) ?_
    exact (Except.map_eq_of_forall₂ (g := Row.account) (f := id) hcl fun a row ha => (accountRow_account ha).1.symm).symm.trans
      (List.map_id _)
  -- every row is the row of an account, with its share or with nothing
  have hrow : ∀ row ∈ rows, ∃ r ∈ classified, row = allocate s.collateral s.eligible minimum r := by
    intro row hrow
    rw [hrows] at hrow
    obtain ⟨r, hr, rfl⟩ := List.mem_map.mp hrow
    exact ⟨r, hr, rfl⟩
  have hpaid : ∀ row ∈ rows, row.status = .claimable ∨ row.status.held = true →
      row.allocation = scaled s.collateral s.eligible row.gross := by
    intro row hr hst
    obtain ⟨r, hr', rfl⟩ := hrow row hr
    rw [allocate_allocation (hzero r hr'), if_pos ((eligible_iff _).mpr hst), allocate_gross]
  have htotal : sumIf Status.eligible (fun row => scaled s.collateral s.eligible row.gross) classified ≤ s.collateral := by
    rw [hel]
    exact sum_scaled_le hcnonneg
  have hsum : s.claimable + s.held ≤ sumIf Status.eligible (fun row => scaled s.collateral s.eligible row.gross) classified := by
    rw [hclaimable, hheld, hrows]
    exact paid_le hzero hnonneg
  have heligible : s.eligible = sumIf Status.shares Row.gross rows := by
    rw [hel, hrows]
    exact (sumIf_allocate id hne).symm
  refine ⟨?_, ?_, ?_, hcol, hclaimable, hheld, by rw [hret]; ring, by rw [hret]; linarith, heligible, ?_, ?_, ?_, ?_, ?_⟩
  · intro row hr
    obtain ⟨r, hr', rfl⟩ := hrow row hr
    rw [allocate_gross, allocate_account]
    exact (hgross r hr').1
  · intro row hr
    obtain ⟨r, hr', rfl⟩ := hrow row hr
    rw [allocate_allocation (hzero r hr'), allocate_gross]
    split_ifs
    · exact ⟨hnonneg r hr', scaled_le hcnonneg (hgross r hr').2⟩
    · exact ⟨le_rfl, (hgross r hr').2⟩
  · intro row hr hst
    obtain ⟨r, hr', rfl⟩ := hrow row hr
    rw [allocate_allocation (hzero r hr'), if_neg]
    rw [eligible_iff]
    rintro (hc | hc)
    · simp [hc, Status.excluded] at hst
    · revert hc hst
      cases (allocate s.collateral s.eligible minimum r).status <;> simp [Status.excluded, Status.held]
  · intro hle row hr hst
    rw [hpaid row hr hst, scaled_whole hle]
  · intro hlt row hr hst
    rw [hpaid row hr hst, scaled_floored hlt]
  · intro hlt
    rw [hrows, sumIf_allocate (fun g => g * s.collateral / s.eligible) hne, length_shares hne, hel]
    exact Floors.sub_sum_floor_lt _ Row.gross (lt_of_le_of_lt hcnonneg (hel ▸ hlt)) rfl
  · rw [haccounts]
    exact accounts_nodup _ _
  · intro a
    rw [haccounts]
    exact mem_accounts

/-- A holder of 250 against a collateral of 100. -/
theorem built_pool_conserves_short :
    ∃ s rows, buildPool (holderPool 250).pool (holderPool 250).planPool holderPolicy (holderPool 250).state
        (holderPool 250).adjustments 10 = .ok (s, rows) ∧ Conserved (holderPool 250) s rows := by
  have hok : (buildPool (holderPool 250).pool (holderPool 250).planPool holderPolicy (holderPool 250).state
      (holderPool 250).adjustments 10).isOk := by decide +kernel
  obtain ⟨built, h⟩ := Except.exists_ok_of_toBool hok
  exact ⟨built.1, built.2, h, built_pool_conserves h⟩

end HarmonyMigration.Allocation
