import HarmonyMigration.Routing.Conservation

/-! A stage that `apply-routes.py` reports ready: nothing of it is held, and which pending decisions can still govern it. -/

namespace HarmonyMigration.Routing

open Erc20 Except Claims

variable {K : Keys} {i : Input} {o : Output}

/-! ### When a stage is ready -/

theorem readiness_ready {pending : List String} {c : Compiled} {governors : List GovernorException}
    {vaults : List VaultStageRow} {stage : Stage} :
    (readiness pending c governors vaults stage).status = .ready ↔
      (stageTotals c stage).heldWallet + (stageTotals c stage).heldStaked = 0 ∧
      heldGovernorAssets governors vaults stage = 0 ∧ (∀ d ∈ pending, stage ∉ policyDecisionStageScope d) ∧
      (stage = .initial ∨ stage = .exchangeManual) := by
  have hgates : ((pending.filter fun d => stage ∈ policyDecisionStageScope d).insertionSort (· ≤ ·)).map ("policy:" ++ ·) = [] ↔
      ∀ d ∈ pending, stage ∉ policyDecisionStageScope d := by
    rw [List.map_eq_nil_iff, ← List.length_eq_zero_iff, List.length_insertionSort, List.length_eq_zero_iff,
      List.filter_eq_nil_iff]
    simp only [decide_eq_true_eq]
  have hstatus : (readiness pending c governors vaults stage).status = .ready ↔
      (readiness pending c governors vaults stage).blockers = [] := by
    unfold readiness
    dsimp only
    split_ifs <;> simp_all
  rw [hstatus]
  unfold readiness
  dsimp only
  rw [List.append_eq_nil_iff, List.append_eq_nil_iff, List.append_eq_nil_iff, hgates]
  split_ifs <;> simp_all

/-- The assets of a vault that `held_governor_assets` counts for a stage. -/
def VaultStageRow.assetsAt (v : VaultStageRow) : Stage → ℤ
  | .initial => v.initial
  | .exchangeManual => v.exchangeManual
  | .nextStage => v.nextStage
  | .deferred => v.qualifiedDeferred + v.uncompiledDeferred
  | .manualReview => v.manualReview
  | .blank => 0

theorem heldGovernorAssets_eq (governors : List GovernorException) (vaults : List VaultStageRow) (stage : Stage) :
    heldGovernorAssets governors vaults stage =
      ((governors.filter fun g => g.governor.status = .hold).map fun g =>
        ((vaults.find? fun v => v.validatorAddress = g.validatorAddress).map fun v => v.assetsAt stage).getD 0).sum := by
  unfold heldGovernorAssets
  congr 1
  apply List.map_congr_left
  intro g _
  cases vaults.find? fun v => v.validatorAddress = g.validatorAddress with
  | none => rfl
  | some v => cases stage <;> rfl

/-- Where the vaults differ and owe nothing negative, a sum of zero is zero at each held governor. -/
theorem heldGovernorAssets_zero {governors : List GovernorException} {vaults : List VaultStageRow} {stage : Stage}
    (hnd : (vaults.map VaultStageRow.validatorAddress).Nodup) (hnonneg : ∀ v ∈ vaults, 0 ≤ v.assetsAt stage) :
    heldGovernorAssets governors vaults stage = 0 ↔
      ∀ g ∈ governors, g.governor.status = .hold → ∀ v ∈ vaults, v.validatorAddress = g.validatorAddress → v.assetsAt stage = 0 := by
  have hfind : ∀ g : GovernorException, ∀ v ∈ vaults, v.validatorAddress = g.validatorAddress →
      vaults.find? (fun v => decide (v.validatorAddress = g.validatorAddress)) = some v := by
    intro g v hv haddress
    cases hw : vaults.find? fun v => decide (v.validatorAddress = g.validatorAddress) with
    | none => exact absurd haddress (by simpa using List.find?_eq_none.mp hw v hv)
    | some w =>
      have hsame : w.validatorAddress = g.validatorAddress := by simpa using List.find?_some hw
      rw [List.inj_on_of_nodup_map hnd (List.mem_of_find?_eq_some hw) hv (hsame.trans haddress.symm)]
  rw [heldGovernorAssets_eq]
  constructor
  · intro hsum g hg hhold v hv haddress
    have hterms : ∀ x ∈ (governors.filter fun g => g.governor.status = .hold).map fun g =>
        ((vaults.find? fun v => v.validatorAddress = g.validatorAddress).map fun v => v.assetsAt stage).getD 0, 0 ≤ x := by
      intro x hx
      obtain ⟨g, -, rfl⟩ := List.mem_map.mp hx
      cases hw : vaults.find? fun v => v.validatorAddress = g.validatorAddress with
      | none => exact le_refl 0
      | some w => exact hnonneg w (List.mem_of_find?_eq_some hw)
    have hterm := List.all_zero_of_le_zero_le_of_sum_eq_zero hterms hsum
      (List.mem_map_of_mem (List.mem_filter.mpr ⟨hg, decide_eq_true hhold⟩))
    rw [hfind g v hv haddress] at hterm
    exact hterm
  · intro hzero
    apply List.sum_eq_zero
    intro x hx
    obtain ⟨g, hg, rfl⟩ := List.mem_map.mp hx
    obtain ⟨hg, hhold⟩ := List.mem_filter.mp hg
    cases hw : vaults.find? fun v => v.validatorAddress = g.validatorAddress with
    | none => rfl
    | some w =>
      have hsame : w.validatorAddress = g.validatorAddress := by simpa using List.find?_some hw
      exact hzero g hg (of_decide_eq_true hhold) w (List.mem_of_find?_eq_some hw) hsame

theorem eq_nil_of_sum_eq_zero {l : List ℤ} (hpos : ∀ x ∈ l, 0 < x) (hsum : l.sum = 0) : l = [] := by
  by_contra hne
  have hlt := List.sum_pos l hpos hne
  omega

/-- Positive amounts: nothing is held if and only if no issued row is. -/
theorem held_zero {c : Compiled} {stage : Stage} (hwallet : ∀ r ∈ c.walletRows, 0 < r.amount)
    (hshare : ∀ r ∈ c.shareRows, 0 < r.amount) :
    (stageTotals c stage).heldWallet + (stageTotals c stage).heldStaked = 0 ↔
      (∀ r ∈ c.walletRows, r.delivery.issued → r.delivery.stage = stage → r.delivery.destinationStatus ≠ .hold) ∧
      ∀ r ∈ c.shareRows, r.delivery.issued → r.delivery.stage = stage → r.delivery.destinationStatus ≠ .hold := by
  have hwallets : ∀ x ∈ ((c.walletRows.filter fun r => r.delivery.issued ∧ r.delivery.stage = stage).filter fun r =>
      r.delivery.destinationStatus = .hold).map WalletRow.amount, 0 < x := by
    intro x hx
    obtain ⟨r, hr, rfl⟩ := List.mem_map.mp hx
    exact hwallet r (List.mem_of_mem_filter (List.mem_of_mem_filter hr))
  have hshares : ∀ x ∈ ((c.shareRows.filter fun r => r.delivery.issued ∧ r.delivery.stage = stage).filter fun r =>
      r.delivery.destinationStatus = .hold).map CompiledShare.amount, 0 < x := by
    intro x hx
    obtain ⟨r, hr, rfl⟩ := List.mem_map.mp hx
    exact hshare r (List.mem_of_mem_filter (List.mem_of_mem_filter hr))
  constructor
  · intro hsum
    have hw := List.sum_nonneg fun x hx => (hwallets x hx).le
    have hs := List.sum_nonneg fun x hx => (hshares x hx).le
    dsimp only [stageTotals] at hsum
    have hwnil := eq_nil_of_sum_eq_zero hwallets (by omega)
    have hsnil := eq_nil_of_sum_eq_zero hshares (by omega)
    rw [List.map_eq_nil_iff, List.filter_eq_nil_iff] at hwnil hsnil
    refine ⟨?_, ?_⟩
    · intro r hr hissued hstage hhold
      exact hwnil r (List.mem_filter.mpr ⟨hr, by simp [hissued, hstage]⟩) (decide_eq_true hhold)
    · intro r hr hissued hstage hhold
      exact hsnil r (List.mem_filter.mpr ⟨hr, by simp [hissued, hstage]⟩) (decide_eq_true hhold)
  · rintro ⟨hwnone, hsnone⟩
    have hwnil : ((c.walletRows.filter fun r => r.delivery.issued ∧ r.delivery.stage = stage).filter fun r =>
        r.delivery.destinationStatus = .hold) = [] := by
      apply List.filter_eq_nil_iff.mpr
      intro r hr hhold
      obtain ⟨hr, hboth⟩ := List.mem_filter.mp hr
      obtain ⟨hissued, hstage⟩ := of_decide_eq_true hboth
      exact hwnone r hr hissued hstage (of_decide_eq_true hhold)
    have hsnil : ((c.shareRows.filter fun r => r.delivery.issued ∧ r.delivery.stage = stage).filter fun r =>
        r.delivery.destinationStatus = .hold) = [] := by
      apply List.filter_eq_nil_iff.mpr
      intro r hr hhold
      obtain ⟨hr, hboth⟩ := List.mem_filter.mp hr
      obtain ⟨hissued, hstage⟩ := of_decide_eq_true hboth
      exact hsnone r hr hissued hstage (of_decide_eq_true hhold)
    dsimp only [stageTotals]
    rw [hwnil, hsnil]
    rfl

/-! ### What must not be outstanding -/

def exchangeDecision : String := "exchange-manual-reserve-delivery"

/-- A decision governs the stages of its scope, and the exchange decision the exchange stage. -/
def Governs (decision : String) (stage : Stage) : Prop :=
  stage ∈ policyDecisionStageScope decision ∨ decision = exchangeDecision ∧ stage = .exchangeManual

/-- What is issued is ready, and what is delivered from the reserve is ready for that. -/
def DeliveryDone (d : Delivery) : Prop :=
  (d.treatment = .issue → d.destinationStatus = .ready) ∧ (d.treatment = .manualFromReserve → d.destinationStatus = .exchangeManual)

/-- Nothing of the stage is outstanding. -/
structure NothingOutstanding (o : Output) (stage : Stage) : Prop where
  wallet : ∀ r ∈ o.compiled.walletRows, r.delivery.stage = stage → DeliveryDone r.delivery
  share : ∀ r ∈ o.compiled.shareRows, r.delivery.stage = stage → DeliveryDone r.delivery
  governor : ∀ g ∈ o.governorExceptions, g.governor.status = .hold →
    ∀ v ∈ o.vaultStages, v.validatorAddress = g.validatorAddress → v.assetsAt stage = 0
  decision : ∀ d ∈ o.loaded.pending, ¬Governs d stage

/-- A row of the exchange stage waits for its destination. -/
def exchangeHeld (d : Delivery) : Bool := d.issued ∧ d.stage = .exchangeManual ∧ d.destinationStatus = .hold

/-- The exchange stage is held for a reason of its own: a row, or the assets of a vault whose governor waits. -/
def ExchangeHeld (o : Output) : Prop :=
  (∃ r ∈ o.compiled.walletRows, exchangeHeld r.delivery) ∨ (∃ r ∈ o.compiled.shareRows, exchangeHeld r.delivery) ∨
    ∃ g ∈ o.governorExceptions, g.governor.status = .hold ∧
      ∃ v ∈ o.vaultStages, v.validatorAddress = g.validatorAddress ∧ v.exchangeManual ≠ 0

theorem deliveryDone_of_checkDelivery {d : Delivery} (h : checkDelivery d = .ok ()) (hhold : d.issued → d.destinationStatus ≠ .hold) :
    DeliveryDone d := by
  obtain ⟨treatment, -, h⟩ := of_bind_ok h
  rw [require_bind_ok, require_bind_ok] at h
  have hready := of_require_ok h.2.2
  refine ⟨?_, ?_⟩
  · intro htreatment
    have hissued : d.issued = true := by
      rw [Delivery.issued, htreatment]
      rfl
    have hstatus := of_decide_eq_true ((hready hissued).resolve_right (hhold hissued))
    rw [htreatment] at hstatus
    exact (Option.some.inj hstatus).symm
  · intro htreatment
    have hissued : d.issued = true := by
      rw [Delivery.issued, htreatment]
      rfl
    have hstatus := of_decide_eq_true ((hready hissued).resolve_right (hhold hissued))
    rw [htreatment] at hstatus
    exact (Option.some.inj hstatus).symm

theorem exchangeManual_not_mem_scope (d : String) : Stage.exchangeManual ∉ policyDecisionStageScope d := by
  unfold policyDecisionStageScope
  split_ifs
  · decide
  · decide

namespace MainRun

theorem vaultAssets_nonneg (r : MainRun K i o) (stage : Stage) : ∀ v ∈ o.vaultStages, 0 ≤ v.assetsAt stage := by
  intro v hv
  obtain ⟨-, hinitial, hexchange, hnext, hqualified, hmanual, huncompiled, -⟩ := r.vaultStage_conserved hv
  cases stage with
  | initial => exact hinitial
  | exchangeManual => exact hexchange
  | nextStage => exact hnext
  | deferred => exact add_nonneg hqualified huncompiled
  | manualReview => exact hmanual
  | blank => exact le_refl 0

theorem nodup_vaultStages (r : MainRun K i o) : (o.vaultStages.map VaultStageRow.validatorAddress).Nodup := by
  have hbase := r.baseVaults_ok
  rw [loadBaseVaults, require_bind_ok] at hbase
  exact (vaultStages_addresses r.vaults_ok).nodup_iff.mpr (of_require_ok hbase.2)

/-- A stage of a run is ready when nothing of it is held and no decision is pending in its scope. -/
theorem ready_iff (r : MainRun K i o) (hl : LiquidNonneg i) (stage : Stage) :
    (readiness o.loaded.pending o.compiled o.governorExceptions o.vaultStages stage).status = .ready ↔
      ((∀ row ∈ o.compiled.walletRows, row.delivery.issued → row.delivery.stage = stage → row.delivery.destinationStatus ≠ .hold) ∧
        ∀ row ∈ o.compiled.shareRows, row.delivery.issued → row.delivery.stage = stage → row.delivery.destinationStatus ≠ .hold) ∧
      (∀ g ∈ o.governorExceptions, g.governor.status = .hold →
        ∀ v ∈ o.vaultStages, v.validatorAddress = g.validatorAddress → v.assetsAt stage = 0) ∧
      (∀ d ∈ o.loaded.pending, stage ∉ policyDecisionStageScope d) ∧ (stage = .initial ∨ stage = .exchangeManual) := by
  rw [readiness_ready, held_zero (fun row hrow => (r.compile.walletRow_pos hl hrow).1) fun row hrow => (r.compile.shareRow_pos hrow).1,
    heldGovernorAssets_zero r.nodup_vaultStages (r.vaultAssets_nonneg stage)]

theorem nothingOutstanding_of_ready (r : MainRun K i o) (hl : LiquidNonneg i) {stage : Stage}
    (hexchange : exchangeDecision ∈ o.loaded.pending → ExchangeHeld o)
    (hready : (readiness o.loaded.pending o.compiled o.governorExceptions o.vaultStages stage).status = .ready) :
    NothingOutstanding o stage := by
  obtain ⟨⟨hwallet, hshare⟩, hgovernor, hscope, -⟩ := (r.ready_iff hl stage).mp hready
  have htotals := totalsOk_of_checkTotals r.totals_ok
  refine ⟨?_, ?_, hgovernor, ?_⟩
  · intro row hrow hstage
    exact deliveryDone_of_checkDelivery (htotals.walletRow row hrow) fun hissued => hwallet row hrow hissued hstage
  · intro row hrow hstage
    exact deliveryDone_of_checkDelivery (htotals.shareRow row hrow).1 fun hissued => hshare row hrow hissued hstage
  · rintro d hd (hmem | ⟨rfl, rfl⟩)
    · exact hscope d hd hmem
    · -- the exchange decision has no place in the scopes; only what the stage holds itself can stop it
      rcases hexchange hd with ⟨row, hrow, hheld⟩ | ⟨row, hrow, hheld⟩ | ⟨g, hg, hhold, v, hv, haddress, hassets⟩
      · obtain ⟨hissued, hstage, hhold⟩ := of_decide_eq_true hheld
        exact hwallet row hrow hissued hstage hhold
      · obtain ⟨hissued, hstage, hhold⟩ := of_decide_eq_true hheld
        exact hshare row hrow hissued hstage hhold
      · exact hassets (hgovernor g hg hhold v hv haddress)

/-- Nothing of its own holds the exchange stage: it is ready, whatever is pending. -/
theorem exchange_ready (r : MainRun K i o) (hl : LiquidNonneg i) (h : ¬ExchangeHeld o) :
    (readiness o.loaded.pending o.compiled o.governorExceptions o.vaultStages .exchangeManual).status = .ready := by
  rw [r.ready_iff hl]
  refine ⟨⟨?_, ?_⟩, ?_, fun d _ => exchangeManual_not_mem_scope d, Or.inr rfl⟩
  · intro row hrow hissued hstage hhold
    exact h (Or.inl ⟨row, hrow, decide_eq_true ⟨hissued, hstage, hhold⟩⟩)
  · intro row hrow hissued hstage hhold
    exact h (Or.inr (Or.inl ⟨row, hrow, decide_eq_true ⟨hissued, hstage, hhold⟩⟩))
  · intro g hg hhold v hv haddress
    by_contra hassets
    exact h (Or.inr (Or.inr ⟨g, hg, hhold, v, hv, haddress, hassets⟩))

end MainRun

/-- Every stage that a run reports ready has nothing outstanding, if and only if the exchange decision is not pending, or the
exchange stage is held for a reason of its own. -/
theorem ready_nothing_outstanding_iff (h : main K i = .ok o) (hl : LiquidNonneg i) :
    (∀ p ∈ o.stageReadiness, p.2.status = .ready → NothingOutstanding o p.1) ↔
      (exchangeDecision ∈ o.loaded.pending → ExchangeHeld o) := by
  obtain ⟨r⟩ := mainRun_of_main h
  rw [r.readiness_eq]
  constructor
  · intro hall hpending
    by_contra hheld
    have hdone := hall (.exchangeManual, _) (List.mem_map_of_mem (by decide)) (r.exchange_ready hl hheld)
    exact hdone.decision exchangeDecision hpending (Or.inr ⟨rfl, rfl⟩)
  · intro hexchange p hp hready
    obtain ⟨stage, -, rfl⟩ := List.mem_map.mp hp
    exact r.nothingOutstanding_of_ready hl hexchange hready

/-- A claim whose wallet an exchange is paid from the reserve, while the decision on that delivery is pending. -/
def undecidedExchange : Input :=
  { partialNonIssuance with
    routes :=
      [[⟨"rest", 200, 0x10#160, "exchange", none, none, .all, .walletFirstProRataVault, exchangeRouteReason, "", none⟩],
        [⟨"part", 100, 0x10#160, "not-issuing", none, some .notIssuing, .exact 120, .walletFirstProRataVault, "", "",
          none⟩]]
    destinations := [[⟨"exchange", some 0x20#160, .exchangeManual⟩, ⟨"not-issuing", none, .notIssuing⟩]]
    policyDecisions := requiredPolicyDecisions.map fun id => ⟨id, id = exchangeDecision, "decided"⟩ }

/-- The exchange stage is reported ready, and the decision that governs it is pending. -/
theorem exchange_ready_undecided :
    ∃ o, main addressKeys undecidedExchange = .ok o ∧
      ¬∀ p ∈ o.stageReadiness, p.2.status = .ready → NothingOutstanding o p.1 := by
  have hrun : (main addressKeys undecidedExchange).toOption.any (fun o =>
      exchangeDecision ∈ o.loaded.pending && o.stageReadiness.any fun p => p.1 = .exchangeManual && p.2.status = .ready) = true := by
    decide +kernel
  obtain ⟨o, hmain, hchecked⟩ := Except.exists_ok_of_any hrun
  obtain ⟨hpending, hready⟩ := Bool.and_eq_true_iff.mp hchecked
  obtain ⟨p, hp, hready⟩ := List.any_eq_true.mp hready
  rw [Bool.and_eq_true] at hready
  refine ⟨o, hmain, ?_⟩
  intro hall
  have hdone := hall p hp (of_decide_eq_true hready.2)
  exact hdone.decision exchangeDecision (of_decide_eq_true hpending) (Or.inr ⟨rfl, of_decide_eq_true hready.1⟩)

theorem ready_nothing_outstanding_partial :
    ∃ o, main addressKeys partialNonIssuance = .ok o ∧ ∀ p ∈ o.stageReadiness, p.2.status = .ready → NothingOutstanding o p.1 := by
  have hrun : (main addressKeys partialNonIssuance).toOption.any (fun o => exchangeDecision ∉ o.loaded.pending) = true := by
    decide +kernel
  obtain ⟨o, hmain, hdecided⟩ := Except.exists_ok_of_any hrun
  have hliquid : LiquidNonneg partialNonIssuance := by
    intro row hrow n hn
    simp [partialNonIssuance] at hrow
    simp [hrow] at hn
  exact ⟨o, hmain, (ready_nothing_outstanding_iff hmain hliquid).mpr fun hpending =>
    absurd hpending (of_decide_eq_true hdecided)⟩

end HarmonyMigration.Routing
