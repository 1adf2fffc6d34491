import HarmonyMigration.Exchange.Summary
import HarmonyMigration.Lib.SortedBy

/-! When the accounting of an exchange closes. A wallet that the stage policy does not issue keeps its claim in the published
columns and has no planned delivery. -/

namespace HarmonyMigration.ExchangeAccounting

open Decimal Except

/-! ### What an audit row shows of its wallet -/

section Rows

variable {w : Wallet}

def Wallet.totalClaim (w : Wallet) : ℤ := (w.claim.map fun c => c.1.totalClaim).getD 0

/-- All of the wallet's WONE is in its claim. -/
def Wallet.Overlaid (w : Wallet) : Prop := (w.wone : ℤ) = (w.claim.map fun c => c.1.woneAirdrop).getD 0

structure Claimed (w : Wallet) (v : Values) : Prop where
  woneBalance : v .woneBalance = w.wone
  woneAirdrop : v .woneAirdrop = (w.claim.map fun c => c.1.woneAirdrop).getD 0
  totalClaim : v .totalClaim = w.totalClaim
  nativeTotalClaim : v .nativeTotalClaim = (w.claim.map fun c => c.1.nativeTotalClaim).getD 0
  qualification : v .qualificationTotal = v .nativeTotalClaim + v .woneBalance
  walletComponent : v .walletComponent = v .liquidShard0 + v .liquidShard1 + v .pendingCrossShard + v .woneAirdrop
  components : v .walletComponent + v .stakingComponent = v .totalClaim

structure Audited (w : Wallet) (row : Row) : Prop where
  claimed : Claimed w row.values
  submitted : row.reconciliation.submitted = w.normalized.submittedBalance
  planned : row.values .plannedWalletAirdrop + row.values .plannedStakedToVault = row.values .plannedTotalEntitlement
  plannedTotal : row.values .plannedTotalEntitlement = if w.NotIssued then 0 else w.totalClaim
  remaining : row.values .remainingNotAirdropped =
    row.values .qualificationTotal - row.values .plannedTotalEntitlement
  remaining_nonneg : 0 ≤ row.values .remainingNotAirdropped

theorem totalClaim_nonneg (w : Wallet) : 0 ≤ w.totalClaim := by
  unfold Wallet.totalClaim
  cases w.claim with
  | none => exact le_refl 0
  | some c => exact c.2.totalClaim_nonneg

theorem claimValues_ok {address : Text} {v : Values} (h : claimValues address w.claim w.wone = .ok v) : Claimed w v := by
  simp only [claimValues, require_bind_ok] at h
  obtain ⟨-, hqualification, h⟩ := h
  obtain ⟨_, hcomponents, rfl⟩ := of_map_ok h
  have hsum := of_require_ok hcomponents
  constructor
  · cases w.claim <;> simp [baseValues, Function.update]
  · cases w.claim <;> simp [baseValues, Function.update, Claim.values]
  · cases hclaim : w.claim <;> simp [baseValues, hclaim, Function.update, Claim.values, Wallet.totalClaim]
  · cases w.claim <;> simp [baseValues, Function.update, Claim.values]
  · simpa [Function.update] using hqualification
  · simp [Function.update, walletSide]
  · simpa [Function.update] using hsum

/-- A wallet that is not issued has no target; every other one has its whole claim. -/
theorem target_eq (w : Wallet) (v : Values) : target w v = if w.NotIssued then 0 else v .totalClaim := by
  cases hstage : w.stage with
  | none => simp [target, Wallet.NotIssued, hstage]
  | some s =>
    by_cases hs : s.1.treatment = .notIssued
    · simp [target, Wallet.NotIssued, hstage, hs, (s.2.notIssued hs).2]
    · simp [target, Wallet.NotIssued, hstage, hs]

theorem plan_total {v : Values} {tier : Tier} {destinations : Text × Text} {targetWallet : ℤ} :
    (plan w v tier destinations (target w v) targetWallet).2.1.1 +
        (plan w v tier destinations (target w v) targetWallet).2.1.2 = target w v := by
  by_cases hissued : w.NotIssued
  · simp [plan, target_eq, hissued]
  · by_cases hzero : target w v = 0
    · simp [plan, hissued, hzero]
    · simp [plan, hissued, hzero]

theorem submittedReconciliation_ok {submitted : Option ℤ} {claim : Option Claim} {scope : Text} {r : Reconciliation}
    (h : submittedReconciliation submitted claim scope = .ok r) : r.submitted = submitted := by
  cases submitted with
  | none =>
    obtain rfl := Except.ok.inj h
    rfl
  | some value =>
    obtain ⟨_, -, rfl⟩ := of_map_ok h
    rfl

theorem buildAuditRow_ok {p : Policy} {config : Config} {row : Row} (h : buildAuditRow p config w = .ok row) :
    Audited w row := by
  obtain ⟨v, hv, h⟩ := of_bind_ok h
  simp only [require_bind_ok] at h
  obtain ⟨-, -, -, -, -, -, -, hremaining, h⟩ := h
  obtain ⟨r, hr, h⟩ := of_bind_ok h
  obtain ⟨bucket, -, rfl⟩ := of_map_ok h
  have hclaimed := claimValues_ok hv
  constructor
  · exact ⟨hclaimed.woneBalance, hclaimed.woneAirdrop, hclaimed.totalClaim, hclaimed.nativeTotalClaim,
      hclaimed.qualification, hclaimed.walletComponent, hclaimed.components⟩
  · exact submittedReconciliation_ok hr
  · rfl
  · dsimp only
    rw [plan_total, target_eq, hclaimed.totalClaim]
  · rfl
  · exact hremaining

end Rows

/-! ### Sums over the rows -/

section Sums

variable {ws : List Wallet} {rows : List Row}

theorem totals_add {a b c : Component} (h : ∀ row ∈ rows, row.values a + row.values b = row.values c) :
    totals rows a + totals rows b = totals rows c := by
  unfold totals
  rw [← List.sum_map_add]
  exact congrArg List.sum (List.map_congr_left h)

/-- Two sums, one below the other term by term, are equal exactly where every term is. -/
theorem sum_eq_sum_iff {ι : Type*} {f g : ι → ℤ} {l : List ι} (h : ∀ x ∈ l, g x ≤ f x) :
    (l.map g).sum = (l.map f).sum ↔ ∀ x ∈ l, g x = f x := by
  induction l with
  | nil => simp
  | cons x l ih =>
    have hx := h x (List.mem_cons_self ..)
    have hrest : ∀ y ∈ l, g y ≤ f y := fun y hy => h y (List.mem_cons_of_mem _ hy)
    have hle := List.sum_le_sum hrest
    rw [List.map_cons, List.map_cons, List.sum_cons, List.sum_cons, List.forall_mem_cons, ← ih hrest]
    omega

/-- A sum taken group by group. -/
theorem sum_groupBy {ι κ : Type} [DecidableEq κ] (key : ι → κ) (f : ι → ℤ) (l : List ι) :
    ((Dict.groupBy key l).entries.map fun e => (e.2.map f).sum).sum = (l.map f).sum := by
  have hgroup : (Dict.groupBy key l).entries.map (fun e => (e.2.map f).sum) =
      (Dict.groupBy key l).keys.map fun k => ((l.filter fun x => key x = k).map f).sum := by
    unfold Dict.keys
    rw [List.map_map]
    refine List.map_congr_left fun e he => ?_
    rw [(Dict.mem_entries_groupBy.mp he).1]
    rfl
  have hkeys : ∀ x ∈ l, key x ∈ (Dict.groupBy key l).keys := fun x hx => Dict.mem_keys_groupBy.mpr ⟨x, hx, rfl⟩
  have hsum := Dict.sum_by_key (Dict.groupBy key l).nodup (P := fun _ => true) (v := f) hkeys
  rw [hgroup]
  simpa [Dict.keys] using hsum

/-- The groups' totals are the totals of the planned rows. -/
theorem deliveryGroups_total (h : ∀ row ∈ rows, row.values .walletComponent + row.values .stakingComponent =
    row.values .totalClaim) : ((deliveryGroups rows).map DeliveryGroup.total).sum =
      totals (rows.filter fun row => ¬row.Unplanned) .totalClaim := by
  have hgroup : ∀ e ∈ (Dict.groupBy Row.groupKey (rows.filter fun row => ¬row.Unplanned)).entries,
      (DeliveryGroup.total ∘ deliveryGroup) e = (e.2.map fun row => row.values .totalClaim).sum := by
    intro e he
    have hmem : ∀ row ∈ e.2, row.values .walletComponent + row.values .stakingComponent = row.values .totalClaim := by
      intro row hrow
      rw [(Dict.mem_entries_groupBy.mp he).1] at hrow
      exact h row (List.mem_filter.mp (List.mem_filter.mp hrow).1).1
    exact totals_add hmem
  unfold deliveryGroups
  rw [List.map_map]
  refine (((List.perm_insertionSort _ _).map _).sum_eq).trans ?_
  rw [List.map_congr_left hgroup]
  exact sum_groupBy Row.groupKey (fun row => row.values .totalClaim) _

theorem amountStatistics_ok {values : List ℤ} :
    (∃ s, amountStatistics values = .ok s) ↔ ∀ value ∈ values, 0 ≤ value := by
  have hsorted : (values.insertionSort (· ≤ ·)).Pairwise (· ≤ ·) := SortedBy.pairwise_insertionSort (fun a => a) values
  have hperm := List.perm_insertionSort (· ≤ ·) values
  unfold amountStatistics
  cases hcons : values.insertionSort (· ≤ ·) with
  | nil =>
    rw [hcons] at hperm
    simp [hperm.nil_eq.symm]
  | cons first rest =>
    rw [hcons] at hperm hsorted
    have hall : (∀ value ∈ values, 0 ≤ value) ↔ 0 ≤ first := by
      constructor
      · exact fun h => h first (hperm.mem_iff.mp (List.mem_cons_self ..))
      · intro h value hvalue
        rcases List.mem_cons.mp (hperm.mem_iff.mpr hvalue) with rfl | hrest
        · exact h
        · exact h.trans ((List.pairwise_cons.mp hsorted).1 value hrest)
    rw [hall]
    constructor
    · intro ⟨s, hs⟩
      obtain ⟨_, hfirst, -⟩ := of_map_ok hs
      exact of_require_ok hfirst
    · intro h
      simp [require, h, Except.map]

end Sums

/-! ### An exchange -/

/-- What its wallets and its inventory must satisfy. -/
structure Settled (e : Exchange) (ws : List Wallet) : Prop where
  notIssued : ∀ w ∈ ws, w.NotIssued → w.totalClaim = 0
  native : ∀ w ∈ ws, ¬w.NotIssued → ∀ c ∈ w.claim, 0 < c.1.totalClaim →
    c.1.nativeTotalClaim = c.1.nativeWalletAirdrop + c.1.stakedToVault
  submitted : ∀ w ∈ ws, ∀ balance ∈ w.normalized.submittedBalance, 0 ≤ balance
  rolledBack : e.normalization.rolledBackDeposits ≠ [] →
    e.normalization.rolledBackTotal = e.normalization.rolledBackDeposits.sum

/-- The sums of a summary agree. -/
structure Closes (s : Summary) : Prop where
  groups : (s.deliveryGroups.map DeliveryGroup.total).sum = s.totals .plannedTotalEntitlement
  residual : s.remainingNative + s.remainingWone = s.totals .remainingNotAirdropped
  columns : liquidCrossShard s.totals + s.totals .woneAirdrop + s.totals .stakingComponent =
    s.totals .plannedTotalEntitlement

section Exchange

variable {w : Wallet} {row : Row} {ws : List Wallet} {rows : List Row} {e : Exchange}

/-- What the residual columns count of a row. -/
def Row.residual (row : Row) : ℤ :=
  if row.Unplanned then row.values .nativeTotalClaim + row.values .woneBalance
  else row.values .woneBalance - row.values .woneAirdrop

theorem residual_sum (rows : List Row) : remainingNative rows + remainingWone rows = (rows.map Row.residual).sum := by
  unfold remainingNative remainingWone
  rw [Dict.sum_filter_eq, ← List.sum_map_add]
  refine congrArg List.sum (List.map_congr_left fun row _ => ?_)
  unfold Row.residual
  split_ifs
  · rfl
  · exact zero_add _

theorem Audited.unplanned_iff (h : Audited w row) : row.Unplanned ↔ w.NotIssued ∨ w.totalClaim = 0 := by
  unfold Row.Unplanned
  rw [h.plannedTotal]
  split_ifs with hissued <;> simp [hissued]

/-- A row's residual is what the columns count, or more where a planned claim is not all of its native value. -/
theorem Audited.residual_le (h : Audited w row) (hwone : w.Overlaid) :
    row.residual ≤ row.values .remainingNotAirdropped ∧
      (row.residual = row.values .remainingNotAirdropped ↔ (¬w.NotIssued → ∀ c ∈ w.claim, 0 < c.1.totalClaim →
        c.1.nativeTotalClaim = c.1.nativeWalletAirdrop + c.1.stakedToVault)) := by
  have hqualification := h.claimed.qualification
  have hremaining := h.remaining
  have htotal := h.plannedTotal
  by_cases hplanned : row.Unplanned
  · have hzero : row.values .plannedTotalEntitlement = 0 := hplanned
    have heq : row.residual = row.values .remainingNotAirdropped := by
      unfold Row.residual
      rw [if_pos hplanned]
      omega
    refine ⟨heq.le, fun _ hissued c hc hpositive => ?_, fun _ => heq⟩
    rcases h.unplanned_iff.mp hplanned with hnot | hclaim
    · exact absurd hnot hissued
    · have hclaimed : w.totalClaim = c.1.totalClaim := by simp [Wallet.totalClaim, Option.mem_def.mp hc]
      omega
  · have hsome : ¬(w.NotIssued ∨ w.totalClaim = 0) := fun hor => hplanned (h.unplanned_iff.mpr hor)
    rw [not_or] at hsome
    cases hclaim : w.claim with
    | none => exact absurd (by simp [Wallet.totalClaim, hclaim]) hsome.2
    | some c =>
      have hclaimed : w.totalClaim = c.1.totalClaim := by simp [Wallet.totalClaim, hclaim]
      have hbalance := h.claimed.woneBalance
      have hairdrop := h.claimed.woneAirdrop
      have hnative := h.claimed.nativeTotalClaim
      unfold Wallet.Overlaid at hwone
      rw [hclaim, Option.map_some, Option.getD_some] at hairdrop hnative hwone
      have hresidual : row.residual = 0 := by
        unfold Row.residual
        rw [if_neg hplanned]
        omega
      have hnonneg := h.remaining_nonneg
      have hpositive : 0 < c.1.totalClaim := lt_of_le_of_ne c.2.totalClaim_nonneg fun hzero => hsome.2 (by omega)
      have hsum := c.2.totalClaim_eq
      have hwallet := c.2.walletAirdrop_eq
      rw [if_neg hsome.1] at htotal
      refine ⟨by omega, fun heq _ c' hc' _ => ?_, fun hall => ?_⟩
      · obtain rfl := Option.some.inj hc'
        omega
      · have hcloses := hall hsome.1 c rfl hpositive
        omega

theorem Audited.planned_le (h : Audited w row) :
    row.values .plannedTotalEntitlement ≤ row.values .totalClaim ∧
      (row.values .plannedTotalEntitlement = row.values .totalClaim ↔ (w.NotIssued → w.totalClaim = 0)) := by
  have hnonneg := totalClaim_nonneg w
  rw [h.plannedTotal, h.claimed.totalClaim]
  split_ifs with hissued
  · exact ⟨hnonneg, fun heq _ => heq.symm, fun hzero => (hzero hissued).symm⟩
  · exact ⟨le_refl _, fun _ hnot => absurd hnot hissued, fun _ => rfl⟩

theorem forall_rows_iff (h : List.Forall₂ Audited ws rows) {P : Row → Prop} {Q : Wallet → Prop}
    (hPQ : ∀ w ∈ ws, ∀ row, Audited w row → (P row ↔ Q w)) : (∀ row ∈ rows, P row) ↔ ∀ w ∈ ws, Q w := by
  induction h with
  | nil => simp
  | @cons w row ws rows hrow _ ih =>
    rw [List.forall_mem_cons, List.forall_mem_cons, hPQ w (List.mem_cons_self ..) row hrow,
      ih fun w hw => hPQ w (List.mem_cons_of_mem _ hw)]

theorem forall_audited (h : List.Forall₂ Audited ws rows) {P : Row → Prop}
    (hP : ∀ w ∈ ws, ∀ row, Audited w row → P row) : ∀ row ∈ rows, P row := by
  intro row hrow
  obtain ⟨w, hw, haudited⟩ := ok_of_mem_right h hrow
  exact hP w hw row haudited

/-- The published columns are the claims of all the rows. -/
theorem columns_eq (h : List.Forall₂ Audited ws rows) :
    liquidCrossShard (totals rows) + totals rows .woneAirdrop + totals rows .stakingComponent =
      totals rows .totalClaim := by
  rw [← totals_add (forall_audited h fun _ _ row haudited => haudited.claimed.components)]
  unfold liquidCrossShard totals
  rw [← List.sum_map_add, ← List.sum_map_add, ← List.sum_map_add]
  congr 1
  refine congrArg List.sum (List.map_congr_left (forall_audited h fun _ _ row haudited => ?_))
  exact haudited.claimed.walletComponent.symm

theorem planned_eq_iff (h : List.Forall₂ Audited ws rows) :
    totals rows .plannedTotalEntitlement = totals rows .totalClaim ↔ ∀ w ∈ ws, w.NotIssued → w.totalClaim = 0 := by
  unfold totals
  rw [sum_eq_sum_iff (forall_audited h fun _ _ row haudited => haudited.planned_le.1)]
  exact forall_rows_iff h fun _ _ row haudited => haudited.planned_le.2

theorem residual_eq_iff (h : List.Forall₂ Audited ws rows) (hwone : ∀ w ∈ ws, w.Overlaid) :
    remainingNative rows + remainingWone rows = totals rows .remainingNotAirdropped ↔
      ∀ w ∈ ws, ¬w.NotIssued → ∀ c ∈ w.claim, 0 < c.1.totalClaim →
        c.1.nativeTotalClaim = c.1.nativeWalletAirdrop + c.1.stakedToVault := by
  rw [residual_sum]
  unfold totals
  rw [sum_eq_sum_iff (forall_audited h fun w hw row haudited => (haudited.residual_le (hwone w hw)).1)]
  exact forall_rows_iff h fun w hw row haudited => (haudited.residual_le (hwone w hw)).2

/-- The delivery groups hold all that is planned, whatever the wallets. -/
theorem groups_eq (h : List.Forall₂ Audited ws rows) :
    ((deliveryGroups rows).map DeliveryGroup.total).sum = totals rows .plannedTotalEntitlement := by
  rw [deliveryGroups_total (forall_audited h fun _ _ row haudited => haudited.claimed.components)]
  unfold totals
  rw [Dict.sum_filter_eq fun row : Row => ¬row.Unplanned]
  refine congrArg List.sum (List.map_congr_left (forall_audited h fun w _ row haudited => ?_))
  by_cases hplanned : row.Unplanned
  · rw [if_neg (not_not.mpr hplanned)]
    exact hplanned.symm
  · have hsome : ¬w.NotIssued := fun hnot => hplanned (haudited.unplanned_iff.mpr (.inl hnot))
    rw [if_pos hplanned, haudited.plannedTotal, if_neg hsome, haudited.claimed.totalClaim]

theorem incompleteWone_eq (h : List.Forall₂ Audited ws rows) (hwone : ∀ w ∈ ws, w.Overlaid) :
    incompleteWone rows = [] := by
  unfold incompleteWone
  rw [List.map_eq_nil_iff, List.filter_eq_nil_iff]
  refine forall_audited h fun w hw row haudited => ?_
  have heq : row.values .woneBalance = row.values .woneAirdrop := by
    rw [haudited.claimed.woneBalance, haudited.claimed.woneAirdrop]
    exact hwone w hw
  simp [heq]

theorem submitted_iff (h : List.Forall₂ Audited ws rows) :
    (∀ value ∈ submittedValues rows, 0 ≤ value) ↔ ∀ w ∈ ws, ∀ balance ∈ w.normalized.submittedBalance, 0 ≤ balance := by
  unfold submittedValues
  rw [← forall_rows_iff h (P := fun row => ∀ balance ∈ row.reconciliation.submitted, 0 ≤ balance)
    fun w _ row haudited => by rw [haudited.submitted]]
  constructor
  · exact fun hall row hrow balance hbalance => hall balance (List.mem_filterMap.mpr ⟨row, hrow, hbalance⟩)
  · intro hall value hvalue
    obtain ⟨row, hrow, hbalance⟩ := List.mem_filterMap.mp hvalue
    exact hall row hrow value hbalance

theorem rolledBackClaim_ok {n : Normalization} :
    (∃ r, rolledBackClaim n = .ok r) ↔ (n.rolledBackDeposits ≠ [] → n.rolledBackTotal = n.rolledBackDeposits.sum) := by
  unfold rolledBackClaim
  split_ifs with hnil
  · simp [hnil]
  · constructor
    · intro ⟨r, hr⟩ _
      obtain ⟨_, heq, -⟩ := of_map_ok hr
      exact of_require_ok heq
    · intro heq
      simp [require, heq hnil, Except.map]

/-- The summary of audited rows exists exactly where the residual closes and no balance or deposit contradicts. -/
theorem summarizeExchange_ok (h : List.Forall₂ Audited ws rows) (hwone : ∀ w ∈ ws, w.Overlaid) :
    (∃ s, summarizeExchange e rows = .ok s) ↔
      remainingNative rows + remainingWone rows = totals rows .remainingNotAirdropped ∧
      (∀ value ∈ submittedValues rows, 0 ≤ value) ∧
      (e.normalization.rolledBackDeposits ≠ [] →
        e.normalization.rolledBackTotal = e.normalization.rolledBackDeposits.sum) := by
  have hplanned := totals_add (forall_audited h fun _ _ row haudited => haudited.planned)
  have hqualification : ∀ value ∈ rows.map fun row => row.values .qualificationTotal, 0 ≤ value := by
    refine List.forall_mem_map.mpr (forall_audited h fun w _ row haudited => ?_)
    have hremaining := haudited.remaining
    have hnonneg := haudited.remaining_nonneg
    have htotal := haudited.plannedTotal
    have hclaim := totalClaim_nonneg w
    split_ifs at htotal <;> omega
  have hrouted : ∀ value ∈ rows.map fun row => row.values .plannedTotalEntitlement, 0 ≤ value := by
    refine List.forall_mem_map.mpr (forall_audited h fun w _ row haudited => ?_)
    have htotal := haudited.plannedTotal
    have hclaim := totalClaim_nonneg w
    split_ifs at htotal <;> omega
  constructor
  · rintro ⟨s, hs⟩
    simp only [summarizeExchange, require_bind_ok] at hs
    obtain ⟨-, hresidual, -, hs⟩ := hs
    obtain ⟨r, hr, hs⟩ := of_bind_ok hs
    obtain ⟨statistics, hstatistics, -⟩ := of_bind_ok hs
    exact ⟨hresidual, amountStatistics_ok.mp ⟨statistics, hstatistics⟩, rolledBackClaim_ok.mp ⟨r, hr⟩⟩
  · rintro ⟨hresidual, hsubmitted, hrolledBack⟩
    obtain ⟨r, hr⟩ := rolledBackClaim_ok.mpr hrolledBack
    obtain ⟨submitted, hsubmitted⟩ := amountStatistics_ok.mpr hsubmitted
    obtain ⟨qualification, hqualification⟩ := amountStatistics_ok.mpr hqualification
    obtain ⟨routed, hrouted⟩ := amountStatistics_ok.mpr hrouted
    simp only [summarizeExchange, require_bind_ok, hr, hsubmitted, hqualification, hrouted, bind_ok_left]
    exact ⟨_, hplanned, hresidual, incompleteWone_eq h hwone, rfl⟩

/-- The amounts that a summary holds are those of the rows. -/
theorem summarizeExchange_amounts {s : Summary} (hs : summarizeExchange e rows = .ok s) :
    s.totals = totals rows ∧ s.deliveryGroups = deliveryGroups rows ∧ s.remainingNative = remainingNative rows ∧
      s.remainingWone = remainingWone rows := by
  simp only [summarizeExchange, require_bind_ok] at hs
  obtain ⟨-, -, -, hs⟩ := hs
  obtain ⟨r, -, hs⟩ := of_bind_ok hs
  obtain ⟨submitted, -, hs⟩ := of_bind_ok hs
  obtain ⟨qualification, -, hs⟩ := of_bind_ok hs
  obtain ⟨routed, -, rfl⟩ := of_map_ok hs
  exact ⟨rfl, rfl, rfl, rfl⟩

theorem closes_iff_columns (h : List.Forall₂ Audited ws rows) {s : Summary}
    (hs : summarizeExchange e rows = .ok s) :
    Closes s ↔ ∀ w ∈ ws, w.NotIssued → w.totalClaim = 0 := by
  obtain ⟨htotals, hgroups, hnative, hremainingWone⟩ := summarizeExchange_amounts hs
  rw [← planned_eq_iff h, ← columns_eq h]
  constructor
  · intro hcloses
    have hcolumns := hcloses.columns
    rw [htotals] at hcolumns
    exact hcolumns.symm
  · intro heq
    constructor
    · rw [hgroups, htotals]
      exact groups_eq h
    · simp only [summarizeExchange, require_bind_ok] at hs
      rw [hnative, hremainingWone, htotals]
      exact hs.2.1
    · rw [htotals]
      exact heq.symm

theorem summary_closes_iff (h : List.Forall₂ Audited ws rows) (hwone : ∀ w ∈ ws, w.Overlaid) :
    (∃ s, summarizeExchange e rows = .ok s ∧ Closes s) ↔ Settled e ws := by
  constructor
  · intro ⟨s, hs, hcloses⟩
    obtain ⟨hresidual, hsubmitted, hrolledBack⟩ := (summarizeExchange_ok h hwone).mp ⟨s, hs⟩
    exact ⟨(closes_iff_columns h hs).mp hcloses, (residual_eq_iff h hwone).mp hresidual, (submitted_iff h).mp hsubmitted,
      hrolledBack⟩
  · intro hsettled
    obtain ⟨s, hs⟩ := (summarizeExchange_ok (e := e) h hwone).mpr
      ⟨(residual_eq_iff h hwone).mpr hsettled.native, (submitted_iff h).mpr hsettled.submitted, hsettled.rolledBack⟩
    exact ⟨s, hs, (closes_iff_columns h hs).mpr hsettled.notIssued⟩

end Exchange

/-! ### A run over exchanges -/

/-- An exchange with its wallets and their audit rows. -/
structure Account where
  exchange : Exchange
  wallets : List Wallet
  rows : List Row

def Account.Built (p : Policy) (a : Account) : Prop :=
  a.wallets.mapM (buildAuditRow p a.exchange.config) = .ok a.rows

/-- Every exchange has a summary that closes, and the report of their summaries is rendered. -/
structure Closed (accounts : List Account) : Prop where
  summarized : ∀ a ∈ accounts, ∃ s, summarizeExchange a.exchange a.rows = .ok s ∧ Closes s
  rendered : ∀ summaries : Dict Text Summary,
    (∀ a ∈ accounts, ∃ s, summarizeExchange a.exchange a.rows = .ok s ∧
      summaries.get? a.exchange.config.id = some s) →
    ∃ report, renderSummaryReport (accounts.map fun a => a.exchange.config) summaries = .ok report

theorem Account.Built.audited {p : Policy} {a : Account} (h : a.Built p) : List.Forall₂ Audited a.wallets a.rows :=
  (forall₂_of_mapM_ok h).imp fun _ _ hrow => buildAuditRow_ok hrow

theorem exchangeReport_ok {summaries : Dict Text Summary} {config : Config} {s : Summary}
    (hs : summaries.get? config.id = some s) (hcloses : Closes s) :
    ∃ report, exchangeReport summaries config = .ok report := by
  unfold exchangeReport deliveryLine
  simp [hs, ofOption, require, hcloses.columns, Except.bind, Except.map]

/-- The accounting of exchanges closes exactly where every not-issued wallet has no claim, every issued one claims all of
its native value, no submitted balance is negative and the rolled-back deposits sum. -/
theorem accounting_closes_iff (p : Policy) (accounts : List Account) (hbuilt : ∀ a ∈ accounts, a.Built p)
    (hwone : ∀ a ∈ accounts, ∀ w ∈ a.wallets, w.Overlaid) :
    Closed accounts ↔ ∀ a ∈ accounts, Settled a.exchange a.wallets := by
  constructor
  · intro hclosed a ha
    exact (summary_closes_iff (hbuilt a ha).audited (hwone a ha)).mp (hclosed.summarized a ha)
  · intro hsettled
    have hsummarized : ∀ a ∈ accounts, ∃ s, summarizeExchange a.exchange a.rows = .ok s ∧ Closes s :=
      fun a ha => (summary_closes_iff (hbuilt a ha).audited (hwone a ha)).mpr (hsettled a ha)
    refine ⟨hsummarized, fun summaries hsummaries => exists_mapM_ok_iff.mpr ?_⟩
    refine List.forall_mem_map.mpr fun a ha => ?_
    obtain ⟨s, hs, hcloses⟩ := hsummarized a ha
    obtain ⟨s', hs', hget⟩ := hsummaries a ha
    obtain rfl := Except.ok.inj (hs.symm.trans hs')
    exact exchangeReport_ok hget hcloses

/-! ### One wallet -/

def onePolicy : Policy := ⟨1, ⟨0, fun _ => 0⟩, false, true⟩

def oneExchange : Exchange where
  config := ⟨"binance".toList, "Binance".toList, "manual_from_reserve".toList, .aggregate, true, none⟩
  normalization := ⟨true, ['d'], [], true, none, none, none, none, 0, 0, none, [], 0⟩

/-- A liquid claim of five. -/
def liquidClaim : Claim :=
  ⟨⟨5, 0, 0, 0, 0, 0, 5, 0, 0, 5, 0, 5, 5, 5⟩,
    ⟨by decide, by decide, by decide, by decide, by decide, by decide, rfl, rfl, rfl, rfl, rfl⟩⟩

def issueRecord : StageRecord :=
  ⟨⟨.deferred, .issue, 5⟩, ⟨by decide, by decide, by decide, fun _ => by decide, nofun⟩⟩

def notIssuedRecord : StageRecord :=
  ⟨⟨.blank, .notIssued, 0⟩, ⟨by decide, by decide, by decide, nofun, fun _ => by decide⟩⟩

def liquidWallet (record : StageRecord) : Wallet :=
  ⟨⟨['a'], [], [], none, ['d'], [], [], [], []⟩, some liquidClaim, 0, some ⟨none, [], [], []⟩, none, some record⟩

/-- A wallet that the stage policy does not issue, with a claim: the rows are built, the report is not. -/
theorem not_issued_wallet_raises : ∃ rows, (Account.mk oneExchange [liquidWallet notIssuedRecord] rows).Built onePolicy ∧
    (∃ s, summarizeExchange oneExchange rows = .ok s ∧
      renderSummaryReport [oneExchange.config] (Dict.empty.insert oneExchange.config.id s) =
        .error (.deliveryColumns oneExchange.config.id)) ∧
    ¬Closed [⟨oneExchange, [liquidWallet notIssuedRecord], rows⟩] := by
  have hrun : ([liquidWallet notIssuedRecord].mapM (buildAuditRow onePolicy oneExchange.config)).toOption.map
      (fun rows => (summarizeExchange oneExchange rows).toOption.map fun s =>
        match renderSummaryReport [oneExchange.config] (Dict.empty.insert oneExchange.config.id s) with
        | .error e => some e
        | .ok _ => none) = some (some (some (.deliveryColumns oneExchange.config.id))) := by decide +kernel
  obtain ⟨rows, hrows, hsummary⟩ := Except.exists_ok_of_map hrun
  refine ⟨rows, hrows, ?_, fun hclosed => ?_⟩
  · obtain ⟨s, hs, hraised⟩ := Except.exists_ok_of_map hsummary
    refine ⟨s, hs, ?_⟩
    cases hreport : renderSummaryReport [oneExchange.config] (Dict.empty.insert oneExchange.config.id s) with
    | error e => simpa [hreport] using hraised
    | ok report => simp [hreport] at hraised
  · obtain ⟨s, hs, hcloses⟩ := hclosed.summarized _ (List.mem_singleton_self _)
    have haudited := (forall₂_of_mapM_ok hrows).imp fun _ _ hrow => buildAuditRow_ok hrow
    have hzero := (closes_iff_columns haudited hs).mp hcloses _ (List.mem_singleton_self _) (by decide)
    exact absurd hzero (by decide)

theorem closes_issued_wallet : ∃ rows, (Account.mk oneExchange [liquidWallet issueRecord] rows).Built onePolicy ∧
    Closed [⟨oneExchange, [liquidWallet issueRecord], rows⟩] := by
  have hrun : ([liquidWallet issueRecord].mapM (buildAuditRow onePolicy oneExchange.config)).toBool = true := by
    decide +kernel
  obtain ⟨rows, hrows⟩ := Except.exists_ok_of_toBool hrun
  refine ⟨rows, hrows, (accounting_closes_iff onePolicy [⟨oneExchange, [liquidWallet issueRecord], rows⟩] ?_ ?_).mpr ?_⟩
  · exact fun a ha => List.mem_singleton.mp ha ▸ hrows
  · intro a ha w hw
    obtain rfl := List.mem_singleton.mp ha
    obtain rfl := List.mem_singleton.mp hw
    rfl
  · intro a ha
    obtain rfl := List.mem_singleton.mp ha
    constructor
    · intro w hw hissued
      obtain rfl := List.mem_singleton.mp hw
      exact absurd hissued (by decide)
    · intro w hw _ c hc _
      obtain rfl := List.mem_singleton.mp hw
      obtain rfl := Option.some.inj hc
      rfl
    · intro w hw balance hbalance
      obtain rfl := List.mem_singleton.mp hw
      cases hbalance
    · exact fun h => absurd rfl h

end HarmonyMigration.ExchangeAccounting
