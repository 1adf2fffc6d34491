import HarmonyMigration.Routing.Draws

/-! The checks of `apply-routes.py` on its totals. Compiled rows always pass most of them; what the others
ask is said of the claims and their draws. -/

namespace HarmonyMigration.Routing

open Erc20 Except Claims Claims.StagePolicy

variable {K : Keys} {i : Input} {l : Loaded} {c : Compiled} {vaults : List VaultStageRow}

/-- What the checks after the first file ask of the claims and of the draws on them. -/
structure Closes (path : String) (l : Loaded) : Prop where
  /-- A wallet with WONE in it is kept back only where the stage policy has the contract not issued. -/
  woneHolders : ∀ s ∈ l.sources.values, 0 < s.wone → ∀ d ∈ l.draws path s, d.wallet ≠ 0 →
    d.delivery.destinationStatus = .notIssuing →
      ∃ e, l.stages.get? s.address = some e ∧ e.classification = .genuineContract ∧ e.treatment = .notIssued
  /-- What is redistributed is the WONE of all claims. -/
  redistributed : (l.sources.values.map fun s =>
      drawnWallet (fun d => d.destinationStatus = .redistributed) (l.draws path s)).sum =
    (l.sources.values.map fun s => s.wone).sum
  /-- Nothing is issued from a wallet without a stage. -/
  staged : ∀ s ∈ l.sources.values, ∀ d ∈ l.draws path s, d.wallet ≠ 0 → d.delivery.issued → d.delivery.stage ≠ .blank
  /-- What is issued is the allocation of the stage policy. -/
  policy : ∀ s ∈ l.sources.values, ∀ e, l.stages.get? s.address = some e →
    drawnWallet (fun d => d.issued) (l.draws path s) = e.wallet ∧
      drawnStaked (fun d => d.issued) (l.draws path s) = e.staked

/-! ### The columns of a row -/

theorem status_of_treatment {reason : String} {status : DestinationStatus} {t : Treatment}
    (h : routeTreatment reason status = .ok t) :
    (t = .notIssued ↔ status = .notIssuing) ∧ (t = .redistributed ↔ status = .redistributed) ∧
      (t = .manualFromReserve ↔ reason = exchangeRouteReason) ∧
      (t = .manualFromReserve → status = .exchangeManual ∨ status = .hold) ∧
      (t = .issue → status = .ready ∨ status = .hold) := by
  unfold routeTreatment at h
  split_ifs at h with hreason
  · obtain ⟨u, hstatus, rfl⟩ := of_map_ok h
    rcases of_require_ok hstatus with hs | hs <;> simp [hs, hreason]
  · cases hs : status <;> rw [hs] at h <;> first | (obtain rfl := Except.ok.inj h; simp [hreason]) | cases h

/-- What the columns of every row of a run have in common. -/
structure Delivery.Sound (d : Delivery) : Prop where
  treatment : routeTreatment d.reason d.destinationStatus = .ok d.treatment
  exception : d.treatment ≠ .issue → d.exceptionType ≠ .blank
  reserve : d.treatment = .manualFromReserve ↔ d.stage = .exchangeManual

namespace Delivery.Sound
variable {d : Delivery}

theorem issued_status (h : d.Sound) (hissued : d.issued) : d.ready ∨ d.destinationStatus = .hold := by
  obtain ⟨-, -, -, hreserve, hissue⟩ := status_of_treatment h.treatment
  unfold Delivery.issued at hissued
  unfold Delivery.ready
  cases ht : d.treatment with
  | issue => rcases hissue ht with hs | hs <;> simp [readyStatus, hs]
  | manualFromReserve => rcases hreserve ht with hs | hs <;> simp [readyStatus, hs]
  | notIssued => simp [ht, readyStatus] at hissued
  | redistributed => simp [ht, readyStatus] at hissued

/-- Of the checks on a row, only the one on its stage can fail. -/
theorem checkDelivery_iff (h : d.Sound) : checkDelivery d = .ok () ↔ (d.issued → d.stage ≠ .blank) := by
  unfold checkDelivery
  rw [h.treatment, bind_ok_left, require_bind_ok, require_bind_ok]
  refine ⟨?_, ?_⟩
  · intro hchecks
    exact hchecks.2.1
  · intro hstage
    exact ⟨rfl, hstage, require_ok h.issued_status⟩

theorem exception_of_status (h : d.Sound) (hs : d.destinationStatus = .notIssuing ∨ d.destinationStatus = .redistributed) :
    d.exceptionType ≠ .blank := by
  obtain ⟨hnot, hre, -⟩ := status_of_treatment h.treatment
  apply h.exception
  rcases hs with hs | hs
  · rw [hnot.mpr hs]
    decide
  · rw [hre.mpr hs]
    decide

end Delivery.Sound

/-! ### The stage policy of a run -/

namespace LoadRun

theorem stage_entry (r : LoadRun K i l) {a : Address} {e : StageEntry} (h : (a, e) ∈ l.stages.entries) :
    (∃ row, stageEntry row = .ok e) ∧ ∃ s ∈ l.sources.values, s.address = a := by
  refine ⟨?_, ?_⟩
  · obtain ⟨-, -, es, hes, heq⟩ := reader_loadMigrationStages.ok_iff.mp r.stages_ok
    have hmem : (a, e) ∈ es := by
      rw [heq] at h
      simpa [Dict.empty] using h
    obtain ⟨row, -, -, hrow⟩ := ok_of_mem_right hes hmem
    exact ⟨row, hrow⟩
  · have hkey := within_iff.mp r.stages_claims.1 a (Dict.mem_keys h)
    obtain ⟨claim, hclaim, rfl⟩ := List.mem_map.mp hkey
    obtain ⟨entry, hentry, rfl⟩ := List.mem_map.mp (List.mem_of_mem_filter hclaim)
    refine ⟨sourceOf (exchangeManualAddresses l.routes) r.validators l.stages entry.2, ?_, rfl⟩
    rw [r.sources_eq, Dict.values_mapValues]
    exact List.mem_map_of_mem (List.mem_map_of_mem hentry)

/-- No claim starts in the stage of the reserve. -/
theorem source_stage (r : LoadRun K i l) {s : Source} (h : s ∈ l.sources.values) : s.stage ≠ .exchangeManual := by
  obtain ⟨claim, -, heq⟩ := r.sources_entry (r.mem_values h)
  rw [heq]
  dsimp only [sourceOf]
  cases he : l.stages.get? claim.address with
  | none => decide
  | some e =>
    obtain ⟨⟨row, hrow⟩, -⟩ := r.stage_entry (Dict.get?_eq_some_iff.mp he)
    unfold stageEntry at hrow
    rw [require_bind_ok] at hrow
    obtain ⟨hstage, hrow⟩ := hrow
    simp only [require_bind_ok] at hrow
    obtain ⟨-, -, -, -, hrow⟩ := hrow
    obtain rfl := Except.ok.inj hrow
    dsimp only [Option.map_some, Option.getD_some]
    intro hexchange
    rw [hexchange] at hstage
    simp at hstage

end LoadRun

/-! ### The rows of a run -/

theorem default_reason (path : String) (s : Source) : (defaultDelivery path s).reason ≠ exchangeRouteReason := by
  dsimp only [defaultDelivery]
  split_ifs
  · decide
  · cases s.category <;> decide

theorem sound_of_delivered {path : String} {s : Source} {routes : List Route} {d : Delivery}
    (h : Delivered path s routes d) (hs : s.stage ≠ .exchangeManual) : d.Sound := by
  rcases h with ⟨route, -, t, ht, rfl⟩ | rfl
  · refine ⟨ht, fun _ => by simp [Route.delivery], ?_⟩
    obtain ⟨-, -, hreserve, -⟩ := status_of_treatment ht
    dsimp only [Route.delivery, routeStage]
    rw [hreserve]
    split_ifs with hreason
    · simp [hreason]
    · simp [hreason, hs]
  · refine ⟨?_, fun h => absurd rfl h, ?_⟩
    · unfold routeTreatment
      rw [if_neg (default_reason path s)]
      dsimp only [defaultDelivery]
      split_ifs <;> rfl
    · dsimp only [defaultDelivery]
      simp [hs]

section rows
variable {P Q : Delivery → Prop} [DecidablePred P] [DecidablePred Q]

theorem rowsWallet_congr {rows : List WalletRow} (h : ∀ row ∈ rows, P row.delivery ↔ Q row.delivery) :
    rowsWallet P rows = rowsWallet Q rows := by
  unfold rowsWallet
  rw [List.filter_congr fun row hrow => decide_eq_decide.mpr (h row hrow)]

theorem rowsStaked_congr {rows : List CompiledShare} (h : ∀ row ∈ rows, P row.delivery ↔ Q row.delivery) :
    rowsStaked P rows = rowsStaked Q rows := by
  unfold rowsStaked
  rw [List.filter_congr fun row hrow => decide_eq_decide.mpr (h row hrow)]

/-- What is never implicit stands in the exceptions. -/
theorem sum_wallet_exceptions (h : ∀ row ∈ c.walletRows, P row.delivery → row.delivery.exceptionType ≠ .blank) :
    (((routingExceptions c).filter fun e => e.component = .walletAirdrop ∧ P e.delivery).map ExceptionRow.amount).sum =
      rowsWallet P c.walletRows := by
  have hwallet : (c.walletRows.filter fun row => row.delivery.exceptionType ≠ .blank ∧
      decide (row.exception.component = .walletAirdrop ∧ P row.exception.delivery) = true) =
        c.walletRows.filter fun row => P row.delivery := by
    refine List.filter_congr fun row hrow => decide_eq_decide.mpr ?_
    rw [decide_eq_true_iff]
    exact ⟨fun hp => hp.2.2, fun hp => ⟨h row hrow hp, rfl, hp⟩⟩
  have hshares : (c.shareRows.filter fun row => row.delivery.exceptionType ≠ .blank ∧
      decide (row.exception.component = .walletAirdrop ∧ P row.exception.delivery) = true) = [] :=
    List.filter_eq_nil_iff.mpr fun row _ => by simp [CompiledShare.exception]
  rw [sum_exceptions, hwallet, hshares]
  exact add_zero _

theorem sum_share_exceptions (h : ∀ row ∈ c.shareRows, P row.delivery → row.delivery.exceptionType ≠ .blank) :
    (((routingExceptions c).filter fun e => e.component = .vaultShares ∧ P e.delivery).map ExceptionRow.amount).sum =
      rowsStaked P c.shareRows := by
  have hshares : (c.shareRows.filter fun row => row.delivery.exceptionType ≠ .blank ∧
      decide (row.exception.component = .vaultShares ∧ P row.exception.delivery) = true) =
        c.shareRows.filter fun row => P row.delivery := by
    refine List.filter_congr fun row hrow => decide_eq_decide.mpr ?_
    rw [decide_eq_true_iff]
    exact ⟨fun hp => hp.2.2, fun hp => ⟨h row hrow hp, rfl, hp⟩⟩
  have hwallet : (c.walletRows.filter fun row => row.delivery.exceptionType ≠ .blank ∧
      decide (row.exception.component = .vaultShares ∧ P row.exception.delivery) = true) = [] :=
    List.filter_eq_nil_iff.mpr fun row _ => by simp [WalletRow.exception]
  rw [sum_exceptions, hwallet, hshares]
  exact zero_add _

end rows

/-- What the vault table is, and what it has checked of the share rows. -/
theorem vaultStages_ok {rows : List CompiledShare} {base : List VaultRow} (h : vaultStages rows base = .ok vaults) :
    vaults = (base.insertionSort fun a b => a.validatorKey ≤ b.validatorKey).map (vaultStageRow rows) ∧
      (∀ row ∈ rows, row.validatorAddress ∈ base.map VaultRow.validatorAddress) ∧
      ∀ row ∈ rows, row.bucket ≠ .stage .blank ∧ row.delivery.treatment ≠ .redistributed := by
  unfold vaultStages at h
  rw [require_bind_ok, require_bind_ok] at h
  obtain ⟨hknown, hbucket, h⟩ := h
  refine ⟨?_, ?_, hbucket⟩
  · have hmap : (base.insertionSort fun a b => a.validatorKey ≤ b.validatorKey).map (vaultStageRow rows) = vaults.map id :=
      map_eq_of_forall₂ (forall₂_of_mapM_ok h) fun v row hrow => by
        rw [require_bind_ok] at hrow
        obtain ⟨u, -, heq⟩ := of_map_ok hrow.2
        exact heq
    rw [hmap, List.map_id]
  · intro row hrow
    simpa using hknown row hrow

/-- The assets of a bucket, vault by vault. -/
theorem sum_stagedAssets {rows : List CompiledShare} {base : List VaultRow}
    (hnd : (base.map VaultRow.validatorAddress).Nodup)
    (hknown : ∀ row ∈ rows, row.validatorAddress ∈ base.map VaultRow.validatorAddress) (b : Bucket) :
    ((base.insertionSort fun a b => a.validatorKey ≤ b.validatorKey).map
        fun v => stagedAssets rows v.validatorAddress b).sum =
      ((rows.filter fun row => row.bucket = b).map CompiledShare.amount).sum := by
  have hkeys := Dict.sum_by_key hnd (P := fun _ => true) (k := CompiledShare.validatorAddress) (v := CompiledShare.amount)
    (l := rows.filter fun row => row.bucket = b) fun row hrow => hknown row (List.mem_of_mem_filter hrow)
  rw [List.filter_eq_self.mpr fun a _ => rfl, List.filter_eq_self.mpr fun row _ => rfl, List.map_map] at hkeys
  rw [← hkeys, ((List.perm_insertionSort (fun a b : VaultRow => a.validatorKey ≤ b.validatorKey) base).map _).sum_eq]
  refine congrArg List.sum (List.map_congr_left fun v _ => ?_)
  unfold stagedAssets
  rw [Function.comp_apply, List.filter_filter]
  simp

namespace CompileRun

theorem walletRow_sound (r : CompileRun K i l c) {row : WalletRow} (h : row ∈ c.walletRows) : row.delivery.Sound := by
  obtain ⟨s, hs, -, hd⟩ := r.wallet_delivered h
  exact sound_of_delivered hd (r.load.source_stage hs)

theorem shareRow_sound (r : CompileRun K i l c) {row : CompiledShare} (h : row ∈ c.shareRows) : row.delivery.Sound := by
  obtain ⟨s, hs, -, -, hd⟩ := r.share_delivered h
  exact sound_of_delivered hd (r.load.source_stage hs)

/-- The components of the rows are those of the claims. -/
theorem components_close (r : CompileRun K i l c) :
    (l.sources.values.map fun s => s.wallet).sum = (c.walletRows.map WalletRow.amount).sum ∧
      (l.sources.values.map fun s => s.staked).sum = (c.shareRows.map CompiledShare.amount).sum := by
  refine ⟨?_, ?_⟩
  · rw [(r.walletRows_perm.map WalletRow.amount).sum_eq, List.map_flatten, List.sum_flatten, List.map_map, List.map_map]
    refine (r.sum_sources fun s _ rows hbody => ?_).symm
    exact (r.sourceRows hbody).wallet.symm
  · rw [(r.shareRows_perm.map CompiledShare.amount).sum_eq, List.map_flatten, List.sum_flatten, List.map_map, List.map_map]
    refine (r.sum_sources fun s hs rows hbody => ?_).symm
    exact (r.load.staked_ok s hs).symm.trans (r.sourceRows hbody).staked.symm

theorem exceptionAmount_wallet (r : CompileRun K i l c) {status : DestinationStatus}
    (h : status = .notIssuing ∨ status = .redistributed) :
    exceptionAmount (routingExceptions c) .walletAirdrop status =
      rowsWallet (fun d => d.destinationStatus = status) c.walletRows := by
  apply sum_wallet_exceptions (P := fun d => d.destinationStatus = status)
  intro row hrow hstatus
  exact (r.walletRow_sound hrow).exception_of_status (hstatus.symm ▸ h)

theorem exceptionAmount_share (r : CompileRun K i l c) {status : DestinationStatus}
    (h : status = .notIssuing ∨ status = .redistributed) :
    exceptionAmount (routingExceptions c) .vaultShares status =
      rowsStaked (fun d => d.destinationStatus = status) c.shareRows := by
  apply sum_share_exceptions (P := fun d => d.destinationStatus = status)
  intro row hrow hstatus
  exact (r.shareRow_sound hrow).exception_of_status (hstatus.symm ▸ h)

/-- The totals of the treatments are those of the exceptions. -/
theorem treatments_close (r : CompileRun K i l c) :
    treatmentWallet c.walletRows .notIssued = exceptionAmount (routingExceptions c) .walletAirdrop .notIssuing ∧
      treatmentStaked c.shareRows .notIssued = exceptionAmount (routingExceptions c) .vaultShares .notIssuing ∧
      treatmentWallet c.walletRows .redistributed = exceptionAmount (routingExceptions c) .walletAirdrop .redistributed ∧
      treatmentStaked c.shareRows .redistributed = exceptionAmount (routingExceptions c) .vaultShares .redistributed ∧
      treatmentWallet c.walletRows .manualFromReserve = exchangeAmount (routingExceptions c) .walletAirdrop ∧
      treatmentStaked c.shareRows .manualFromReserve = exchangeAmount (routingExceptions c) .vaultShares := by
  refine ⟨?_, ?_, ?_, ?_, ?_, ?_⟩
  · rw [r.exceptionAmount_wallet (Or.inl rfl)]
    exact rowsWallet_congr (P := fun d => d.treatment = .notIssued) fun row hrow =>
      (status_of_treatment (r.walletRow_sound hrow).treatment).1
  · rw [r.exceptionAmount_share (Or.inl rfl)]
    exact rowsStaked_congr (P := fun d => d.treatment = .notIssued) fun row hrow =>
      (status_of_treatment (r.shareRow_sound hrow).treatment).1
  · rw [r.exceptionAmount_wallet (Or.inr rfl)]
    exact rowsWallet_congr (P := fun d => d.treatment = .redistributed) fun row hrow =>
      (status_of_treatment (r.walletRow_sound hrow).treatment).2.1
  · rw [r.exceptionAmount_share (Or.inr rfl)]
    exact rowsStaked_congr (P := fun d => d.treatment = .redistributed) fun row hrow =>
      (status_of_treatment (r.shareRow_sound hrow).treatment).2.1
  · refine (sum_wallet_exceptions (P := fun d => d.treatment = .manualFromReserve) ?_).symm
    intro row hrow htreatment
    apply (r.walletRow_sound hrow).exception
    rw [htreatment]
    decide
  · refine (sum_share_exceptions (P := fun d => d.treatment = .manualFromReserve) ?_).symm
    intro row hrow htreatment
    apply (r.shareRow_sound hrow).exception
    rw [htreatment]
    decide

theorem bucket_notIssued (row : CompiledShare) : row.bucket = .notIssued ↔ row.delivery.treatment = .notIssued := by
  unfold CompiledShare.bucket
  cases row.delivery.treatment <;> simp

theorem bucket_exchange {row : CompiledShare} (h : row.delivery.Sound) :
    row.bucket = .stage .exchangeManual ↔ row.delivery.treatment = .manualFromReserve := by
  have hreserve := h.reserve
  unfold CompiledShare.bucket
  cases ht : row.delivery.treatment <;> simp_all

/-- The columns of the vault table add up, and to the exceptions. -/
theorem vaults_close (r : CompileRun K i l c) (hbase : loadBaseVaults K i.baseVaultDeposits = .ok ())
    (hvaults : vaultStages c.shareRows i.baseVaultDeposits = .ok vaults) :
    (vaults.map VaultStageRow.base).sum - (vaults.map VaultStageRow.notIssued).sum -
        (vaults.map VaultStageRow.exchangeManual).sum = (vaults.map VaultStageRow.postPolicy).sum ∧
      (vaults.map VaultStageRow.notIssued).sum = exceptionAmount (routingExceptions c) .vaultShares .notIssuing ∧
      (vaults.map VaultStageRow.exchangeManual).sum = exchangeAmount (routingExceptions c) .vaultShares := by
  obtain ⟨rfl, hknown, -⟩ := vaultStages_ok hvaults
  rw [loadBaseVaults, require_bind_ok] at hbase
  have hnd := of_require_ok hbase.2
  obtain ⟨-, hnotIssued, -, -, -, hexchange⟩ := r.treatments_close
  refine ⟨?_, ?_, ?_⟩
  · have hrow : ∀ v, (vaultStageRow c.shareRows v).base = (vaultStageRow c.shareRows v).notIssued +
        (vaultStageRow c.shareRows v).exchangeManual + (vaultStageRow c.shareRows v).postPolicy := by
      intro v
      dsimp only [vaultStageRow]
      ring
    simp only [List.map_map, Function.comp_def, hrow, List.sum_map_add]
    ring
  · rw [← hnotIssued, List.map_map]
    refine (sum_stagedAssets hnd hknown .notIssued).trans ?_
    rw [List.filter_congr fun row _ => decide_eq_decide.mpr (bucket_notIssued row)]
    rfl
  · rw [← hexchange, List.map_map]
    refine (sum_stagedAssets hnd hknown (.stage .exchangeManual)).trans ?_
    rw [List.filter_congr fun row hrow => decide_eq_decide.mpr (bucket_exchange (r.shareRow_sound hrow))]
    rfl

/-- The check on the WONE holders, on the draws. -/
theorem checkWoneNonIssuance_iff (r : CompileRun K i l c) : checkWoneNonIssuance l (routingExceptions c) = .ok () ↔
    ∀ s ∈ l.sources.values, 0 < s.wone → ∀ d ∈ l.draws i.validatorPath s, d.wallet ≠ 0 →
      d.delivery.destinationStatus = .notIssuing →
        ∃ e, l.stages.get? s.address = some e ∧ e.classification = .genuineContract ∧ e.treatment = .notIssued := by
  have hreviewed : ∀ a, ((l.stages.get? a).any fun e => e.classification = .genuineContract ∧ e.treatment = .notIssued) =
      true ↔ ∃ e, l.stages.get? a = some e ∧ e.classification = .genuineContract ∧ e.treatment = .notIssued := by
    intro a
    simp [Option.any_eq_true]
  unfold checkWoneNonIssuance
  refine ⟨?_, ?_⟩
  · intro h s hs hwone d hd hne hstatus
    obtain ⟨row, hrow, haddress, hdelivery⟩ := r.walletRow_of_draw hs hd hne
    rw [← hdelivery] at hstatus
    have hexception := mem_routingExceptions.mpr
      (Or.inl ⟨_, hrow, (r.walletRow_sound hrow).exception_of_status (Or.inl hstatus), rfl⟩)
    have hholder : ((l.sources.get? row.exception.sourceAddress).any fun s => 0 < s.wone) = true := by
      rw [WalletRow.exception, haddress, Dict.get?_eq_some_iff.mpr (r.load.mem_values hs)]
      exact decide_eq_true hwone
    rw [← haddress]
    exact (hreviewed _).mp (of_require_ok h _ hexception rfl hstatus hholder)
  · intro h
    apply require_ok
    intro e he hcomponent hstatus hwone
    apply (hreviewed _).mpr
    rcases mem_routingExceptions.mp he with ⟨row, hrow, -, rfl⟩ | ⟨row, -, -, rfl⟩
    · obtain ⟨s, hs, haddress, d, hd, hne, hdelivery⟩ := r.draw_of_walletRow hrow
      dsimp only [WalletRow.exception] at hwone hstatus ⊢
      rw [haddress, Dict.get?_eq_some_iff.mpr (r.load.mem_values hs)] at hwone
      rw [haddress]
      exact h s hs (of_decide_eq_true hwone) d hd hne (hdelivery ▸ hstatus)
    · cases hcomponent

/-- The check on the stages of the wallet rows, on the draws. -/
theorem checkWalletRows_iff (r : CompileRun K i l c) :
    (∃ us, (c.walletRows.mapM fun row => checkDelivery row.delivery) = .ok us) ↔
      ∀ s ∈ l.sources.values, ∀ d ∈ l.draws i.validatorPath s, d.wallet ≠ 0 → d.delivery.issued →
        d.delivery.stage ≠ .blank := by
  rw [exists_mapM_ok_iff]
  refine ⟨?_, ?_⟩
  · intro h s hs d hd hne
    obtain ⟨row, hrow, -, hdelivery⟩ := r.walletRow_of_draw hs hd hne
    obtain ⟨u, hu⟩ := h row hrow
    rw [← hdelivery]
    exact (r.walletRow_sound hrow).checkDelivery_iff.mp hu
  · intro h row hrow
    refine ⟨(), (r.walletRow_sound hrow).checkDelivery_iff.mpr ?_⟩
    obtain ⟨s, hs, -, d, hd, hne, hdelivery⟩ := r.draw_of_walletRow hrow
    rw [hdelivery]
    exact h s hs d hd hne

/-- The vault table has checked the share rows already. -/
theorem checkShareRows_ok (r : CompileRun K i l c) (hvaults : vaultStages c.shareRows i.baseVaultDeposits = .ok vaults) :
    ∃ us, (c.shareRows.mapM fun row => (checkDelivery row.delivery).bind fun _ =>
      require (row.delivery.treatment ≠ .redistributed) Error.redistributedShares) = .ok us := by
  obtain ⟨-, -, hbucket⟩ := vaultStages_ok hvaults
  rw [exists_mapM_ok_iff]
  intro row hrow
  obtain ⟨hblank, htreatment⟩ := hbucket row hrow
  have hsound := r.shareRow_sound hrow
  have hcheck : checkDelivery row.delivery = .ok () := by
    apply hsound.checkDelivery_iff.mpr
    intro hissued hstage
    unfold CompiledShare.bucket at hblank
    have hreserve := hsound.reserve
    cases ht : row.delivery.treatment <;> simp_all [Delivery.issued, readyStatus]
  refine ⟨(), ?_⟩
  rw [hcheck, bind_ok_left]
  exact require_ok htreatment

/-- The check against the stage policy, on the draws. -/
theorem policy_iff (r : CompileRun K i l c) :
    (∀ p ∈ l.stages.entries, compiledWallet c p.1 + compiledStaked c p.1 = p.2.allocation ∧
      compiledWallet c p.1 = p.2.wallet ∧ compiledStaked c p.1 = p.2.staked) ↔
    ∀ s ∈ l.sources.values, ∀ e, l.stages.get? s.address = some e →
      drawnWallet (fun d => d.issued) (l.draws i.validatorPath s) = e.wallet ∧
        drawnStaked (fun d => d.issued) (l.draws i.validatorPath s) = e.staked := by
  have hdraws : ∀ s ∈ l.sources.values, compiledWallet c s.address =
      drawnWallet (fun d => d.issued) (l.draws i.validatorPath s) ∧ compiledStaked c s.address =
        drawnStaked (fun d => d.issued) (l.draws i.validatorPath s) := by
    intro s hs
    obtain ⟨rows, hbody⟩ := r.body_ok hs
    obtain ⟨hwallet, hstaked⟩ := r.body_written hs hbody
    rw [r.compiledWallet_eq hs hbody, r.compiledStaked_eq hs hbody]
    refine ⟨?_, ?_⟩
    · rw [← rowsWallet_flatMap (fun d => d.issued) s, ← hwallet]
      simp [issuedWallet, rowsWallet]
    · rw [← hstaked fun d => d.issued]
      simp [issuedStaked, rowsStaked]
  refine ⟨?_, ?_⟩
  · intro h s hs e he
    obtain ⟨-, hwallet, hstaked⟩ := h (s.address, e) (Dict.get?_eq_some_iff.mp he)
    rw [← (hdraws s hs).1, ← (hdraws s hs).2]
    exact ⟨hwallet, hstaked⟩
  · rintro h ⟨a, e⟩ he
    obtain ⟨⟨row, hrow⟩, s, hs, rfl⟩ := r.load.stage_entry he
    obtain ⟨hwallet, hstaked⟩ := h s hs e (Dict.get?_eq_some_iff.mpr he)
    dsimp only
    rw [(hdraws s hs).1, (hdraws s hs).2]
    refine ⟨?_, hwallet, hstaked⟩
    -- the reader of the policy has checked that the components make up the allocation
    unfold stageEntry at hrow
    simp only [require_bind_ok] at hrow
    obtain ⟨-, -, ⟨-, hsum⟩, -, -, hrow⟩ := hrow
    obtain rfl := Except.ok.inj hrow
    rw [hwallet, hstaked]
    exact hsum

/-- The checks on the totals of compiled rows pass exactly when the claims and their draws close. -/
theorem checkTotals_iff (r : CompileRun K i l c) (hbase : loadBaseVaults K i.baseVaultDeposits = .ok ())
    (hvaults : vaultStages c.shareRows i.baseVaultDeposits = .ok vaults) :
    checkTotals l c (routingExceptions c) vaults = .ok () ↔ Closes i.validatorPath l := by
  have hredistributed := r.exceptionAmount_wallet (Or.inr rfl)
  rw [r.rowsWallet_eq] at hredistributed
  unfold checkTotals
  rw [require_bind_ok]
  refine ⟨?_, ?_⟩
  · rintro ⟨-, h⟩
    obtain ⟨u, hwone, h⟩ := of_bind_ok h
    rw [require_bind_ok, require_bind_ok] at h
    obtain ⟨-, hsum, h⟩ := h
    obtain ⟨us, hwallet, h⟩ := of_bind_ok h
    obtain ⟨us', -, h⟩ := of_bind_ok h
    rw [require_bind_ok] at h
    exact ⟨r.checkWoneNonIssuance_iff.mp hwone, hredistributed.symm.trans hsum, r.checkWalletRows_iff.mp ⟨us, hwallet⟩,
      r.policy_iff.mp h.1⟩
  · intro h
    refine ⟨r.components_close, ?_⟩
    rw [r.checkWoneNonIssuance_iff.mpr h.woneHolders, bind_ok_left, require_bind_ok, require_bind_ok]
    refine ⟨?_, hredistributed.trans h.redistributed, ?_⟩
    · -- a redistributed share row is no bucket of a vault
      rw [r.exceptionAmount_share (Or.inr rfl), rowsStaked, List.filter_eq_nil_iff.mpr]
      · rfl
      · intro row hrow hstatus
        obtain ⟨-, -, hbucket⟩ := vaultStages_ok hvaults
        have htreatment := (status_of_treatment (r.shareRow_sound hrow).treatment).2.1
        exact (hbucket row hrow).2 (htreatment.mpr (of_decide_eq_true hstatus))
    · obtain ⟨us, hwallet⟩ := r.checkWalletRows_iff.mpr h.staged
      obtain ⟨us', hshares⟩ := r.checkShareRows_ok hvaults
      rw [hwallet, bind_ok_left, hshares, bind_ok_left, require_bind_ok, require_bind_ok]
      exact ⟨r.policy_iff.mpr h.policy, r.treatments_close, require_ok (r.vaults_close hbase hvaults)⟩

end CompileRun

end HarmonyMigration.Routing
