import HarmonyMigration.Routing.LoadFacts
import HarmonyMigration.Routing.Main
import HarmonyMigration.Routing.SourceRun

/-! A successful run of `apply-routes.py`, and whose each compiled row is. -/

namespace HarmonyMigration.Routing

open Erc20 Except Claims

variable {K : Keys} {i : Input} {l : Loaded} {c : Compiled} {o : Output}

/-- A successful routing loop after a successful load. -/
structure CompileRun (K : Keys) (i : Input) (l : Loaded) (c : Compiled) where
  load : LoadRun K i l
  rows : List (List WalletRow × List CompiledShare)
  compile_ok : compileAll i.validatorPath l = .ok rows
  compiled_eq : c = sortRows rows

/-- Every claim row that the run reads has a liquid column of at least zero, if any. -/
def LiquidNonneg (i : Input) : Prop :=
  ∀ row ∈ i.allClaims ++ i.automaticClaims ++ i.contractClaims ++ i.excludedClaims,
    ∀ n, row.liquidShard0 = some n → 0 ≤ n

namespace CompileRun

/-- The body of the routing loop for a source. -/
def body (i : Input) (l : Loaded) (s : Source) : Except Error (List WalletRow × List CompiledShare) :=
  compileSource i.validatorPath s (routesOf l.routes s.address) (positionsOf l.positions s.address)

theorem bodies (r : CompileRun K i l c) :
    List.Forall₂ (fun s rows => body i l s = .ok rows) (sortedSources l) r.rows :=
  forall₂_of_mapM_ok r.compile_ok

theorem mem_sortedSources {l : Loaded} {s : Source} : s ∈ sortedSources l ↔ s ∈ l.sources.values :=
  List.mem_insertionSort _

theorem addresses_nodup (r : CompileRun K i l c) : ((sortedSources l).map fun s => s.address).Nodup := by
  have hperm := (List.perm_insertionSort (fun a b : Source => a.key ≤ b.key) l.sources.values).map
    fun s => s.address
  exact hperm.nodup_iff.mpr (r.load.values_address ▸ l.sources.nodup)

theorem walletRows_perm (r : CompileRun K i l c) : c.walletRows.Perm (r.rows.map Prod.fst).flatten := by
  obtain ⟨-, rows, -, rfl⟩ := r
  exact List.perm_insertionSort _ _

theorem shareRows_perm (r : CompileRun K i l c) : c.shareRows.Perm (r.rows.map Prod.snd).flatten := by
  obtain ⟨-, rows, -, rfl⟩ := r
  exact List.perm_insertionSort _ _

theorem mem_rows_of_categoryRows {x : Category × ClaimRow} (h : x ∈ categoryRows i) :
    x.2 ∈ i.allClaims ++ i.automaticClaims ++ i.contractClaims ++ i.excludedClaims := by
  simp only [categoryRows, List.mem_append, List.mem_map] at h
  rcases h with (⟨y, hy, rfl⟩ | ⟨y, hy, rfl⟩) | ⟨y, hy, rfl⟩ <;> simp [hy]

/-- The sources are claims of the ledger: nothing below zero, but perhaps the liquid column. -/
theorem source_nonneg (r : CompileRun K i l c) {s : Source} (h : s ∈ l.sources.values) :
    0 ≤ s.wone ∧ s.wone ≤ s.wallet ∧ 0 ≤ s.staked := by
  obtain ⟨x, -, -, hread⟩ := r.load.source_row (r.load.mem_values h)
  exact (readClaim_ok hread).2.2.2.2.2.2.2

theorem source_liquid (r : CompileRun K i l c) (hl : LiquidNonneg i) {s : Source} (h : s ∈ l.sources.values) :
    ∀ n, s.liquidShard0 = some n → 0 ≤ n := by
  obtain ⟨x, hx, -, hread⟩ := r.load.source_row (r.load.mem_values h)
  have hrow : x.2 ∈ i.allClaims ++ i.automaticClaims ++ i.contractClaims ++ i.excludedClaims := by
    rcases List.mem_append.mp hx with hx | hx
    · exact mem_rows_of_categoryRows hx
    · obtain ⟨y, hy, rfl⟩ := List.mem_map.mp hx
      have hm : y ∈ i.allClaims := (mem_firstWanted hy).1
      simp [hm]
  intro n hn
  exact hl _ hrow n ((readClaim_ok hread).2.2.2.2.2.1 ▸ hn)

theorem routes_positive (r : CompileRun K i l c) (hl : LiquidNonneg i) {s : Source} (h : s ∈ l.sources.values) :
    ∀ route ∈ routesOf l.routes s.address, Positive s route := fun route hroute =>
  ⟨(loadRoutes_ok r.load.routes_ok).2.2.1 route (List.mem_of_mem_filter hroute), r.source_liquid hl h⟩

theorem positions_nonneg (r : CompileRun K i l c) (a : Address) :
    ∀ p ∈ positionsOf l.positions a, 0 ≤ p.remaining := fun _ hp =>
  (r.load.position_ok ((LoadRun.mem_positionsOf _ _ _).mp hp).1).2.2.1.le

/-- The rows of every source. -/
theorem sourceRows (r : CompileRun K i l c) {s : Source} {rows : List WalletRow × List CompiledShare}
    (hbody : body i l s = .ok rows) :
    SourceRows i.validatorPath s (routesOf l.routes s.address) (positionsOf l.positions s.address) rows :=
  sourceRows_of_compileSource hbody (r.positions_nonneg _)

theorem walletRow_source (r : CompileRun K i l c) {row : WalletRow} (h : row ∈ c.walletRows) :
    ∃ s ∈ l.sources.values, ∃ rows, body i l s = .ok rows ∧ row ∈ rows.1 := by
  obtain ⟨part, hpart, hrow⟩ := List.mem_flatten.mp (r.walletRows_perm.mem_iff.mp h)
  obtain ⟨rows, hrows, rfl⟩ := List.mem_map.mp hpart
  obtain ⟨s, hs, hbody⟩ := ok_of_mem_right r.bodies hrows
  exact ⟨s, mem_sortedSources.mp hs, rows, hbody, hrow⟩

theorem shareRow_source (r : CompileRun K i l c) {row : CompiledShare} (h : row ∈ c.shareRows) :
    ∃ s ∈ l.sources.values, ∃ rows, body i l s = .ok rows ∧ row ∈ rows.2 := by
  obtain ⟨part, hpart, hrow⟩ := List.mem_flatten.mp (r.shareRows_perm.mem_iff.mp h)
  obtain ⟨rows, hrows, rfl⟩ := List.mem_map.mp hpart
  obtain ⟨s, hs, hbody⟩ := ok_of_mem_right r.bodies hrows
  exact ⟨s, mem_sortedSources.mp hs, rows, hbody, hrow⟩

/-- A share row is its source's. -/
theorem delegator_of_cutFrom (r : CompileRun K i l c) {a : Address} {row : CompiledShare}
    (h : CutFrom (positionsOf l.positions a) row) :
    row.delegatorAddress = a ∧ row.delegatorKey = K.key a ∧ row.validatorKey = K.key row.validatorAddress := by
  obtain ⟨p, hp, h1, h2, h3, h4, -⟩ := h
  obtain ⟨hmem, rfl⟩ := (LoadRun.mem_positionsOf _ _ _).mp hp
  obtain ⟨hv, hd, -⟩ := r.load.position_ok hmem
  exact ⟨h4, h3.trans hd, h1.trans (hv.trans (h2 ▸ rfl))⟩

theorem body_ok (r : CompileRun K i l c) {s : Source} (h : s ∈ l.sources.values) : ∃ rows, body i l s = .ok rows := by
  obtain ⟨rows, -, hrows⟩ := ok_of_mem_left r.bodies (mem_sortedSources.mpr h)
  exact ⟨rows, hrows⟩

/-- Of all wallet rows, those that only one source can have are its own. -/
theorem filter_walletRows (r : CompileRun K i l c) {s : Source} (h : s ∈ l.sources.values)
    {rows : List WalletRow × List CompiledShare} (hbody : body i l s = .ok rows) {P : WalletRow → Bool}
    (hother : ∀ s' ∈ l.sources.values, ∀ rows', body i l s' = .ok rows' → s'.address ≠ s.address →
      rows'.1.filter P = []) :
    (c.walletRows.filter P).Perm (rows.1.filter P) := by
  have hR : List.Forall₂ (fun s rows => s ∈ l.sources.values ∧ body i l s = .ok rows)
      (sortedSources l) r.rows :=
    (List.forall₂_and_left _ _).mpr ⟨fun _ => mem_sortedSources.mp, r.bodies⟩
  obtain ⟨rows', ⟨-, hrows'⟩, heq⟩ := filter_flatten_of_forall₂ (g := Prod.fst) (P := P) hR r.addresses_nodup
    (fun s' rows' hs' hne => hother s' hs'.1 rows' hs'.2 hne) (mem_sortedSources.mpr h) rfl
  obtain rfl : rows = rows' := Except.ok.inj (hbody.symm.trans hrows')
  exact heq ▸ r.walletRows_perm.filter P

theorem filter_shareRows (r : CompileRun K i l c) {s : Source} (h : s ∈ l.sources.values)
    {rows : List WalletRow × List CompiledShare} (hbody : body i l s = .ok rows) {P : CompiledShare → Bool}
    (hother : ∀ s' ∈ l.sources.values, ∀ rows', body i l s' = .ok rows' → s'.address ≠ s.address →
      rows'.2.filter P = []) :
    (c.shareRows.filter P).Perm (rows.2.filter P) := by
  have hR : List.Forall₂ (fun s rows => s ∈ l.sources.values ∧ body i l s = .ok rows)
      (sortedSources l) r.rows :=
    (List.forall₂_and_left _ _).mpr ⟨fun _ => mem_sortedSources.mp, r.bodies⟩
  obtain ⟨rows', ⟨-, hrows'⟩, heq⟩ := filter_flatten_of_forall₂ (g := Prod.snd) (P := P) hR r.addresses_nodup
    (fun s' rows' hs' hne => hother s' hs'.1 rows' hs'.2 hne) (mem_sortedSources.mpr h) rfl
  obtain rfl : rows = rows' := Except.ok.inj (hbody.symm.trans hrows')
  exact heq ▸ r.shareRows_perm.filter P

end CompileRun

/-- A successful run, with what it computed on the way. -/
structure MainRun (K : Keys) (i : Input) (o : Output) where
  compile : CompileRun K i o.loaded o.compiled
  overrides : Dict Address Governor
  exceptions_eq : o.exceptions = routingExceptions o.compiled
  represented : ∀ s ∈ o.loaded.sources.values, s.codeBearing →
    o.exceptions.any fun e => e.sourceCodeBearing && e.sourceAddress = s.address
  overrides_ok : loadGovernors o.loaded.destinations i.governors .empty = .ok overrides
  baseVaults_ok : loadBaseVaults K i.baseVaultDeposits = .ok ()
  active : within overrides.keys (i.baseVaultDeposits.map VaultRow.validatorAddress)
  governors_eq : o.governorExceptions = governorExceptions overrides o.loaded.routes i.baseVaultDeposits
  unresolved_eq : o.unresolved = unresolvedRows o.exceptions overrides o.loaded.routes i.baseVaultDeposits
  vaults_ok : vaultStages o.compiled.shareRows i.baseVaultDeposits = .ok o.vaultStages
  totals_ok : checkTotals o.loaded o.compiled o.exceptions o.vaultStages = .ok ()
  readiness_eq : o.stageReadiness = [Stage.initial, .exchangeManual, .nextStage, .deferred, .manualReview].map
    fun stage => (stage, readiness o.loaded.pending o.compiled o.governorExceptions o.vaultStages stage)

theorem mainRun_of_main (h : main K i = .ok o) : Nonempty (MainRun K i o) := by
  unfold main at h
  obtain ⟨l, hload, h⟩ := of_bind_ok h
  obtain ⟨run⟩ := loadRun_of_load hload
  obtain ⟨rows, hrows, h⟩ := of_bind_ok h
  rw [require_bind_ok] at h
  obtain ⟨hrep, h⟩ := h
  obtain ⟨overrides, hover, h⟩ := of_bind_ok h
  obtain ⟨u, hbase, h⟩ := of_bind_ok h
  rw [require_bind_ok] at h
  obtain ⟨hactive, h⟩ := h
  obtain ⟨vaults, hvaults, h⟩ := of_bind_ok h
  obtain ⟨u', htotals, rfl⟩ := of_map_ok h
  exact ⟨⟨run, rows, hrows, rfl⟩, overrides, rfl, hrep, hover, hbase, hactive, rfl, rfl, hvaults, htotals, rfl⟩

/-- What the checks on the totals have established. -/
structure TotalsOk (l : Loaded) (c : Compiled) (exceptions : List ExceptionRow) : Prop where
  redistributed : exceptionAmount exceptions .walletAirdrop .redistributed = (l.sources.values.map fun s => s.wone).sum
  walletRow : ∀ r ∈ c.walletRows, checkDelivery r.delivery = .ok ()
  shareRow : ∀ r ∈ c.shareRows, checkDelivery r.delivery = .ok () ∧ r.delivery.treatment ≠ .redistributed
  policy : ∀ p ∈ l.stages.entries, compiledWallet c p.1 + compiledStaked c p.1 = p.2.allocation ∧
    compiledWallet c p.1 = p.2.wallet ∧ compiledStaked c p.1 = p.2.staked

theorem totalsOk_of_checkTotals {exceptions : List ExceptionRow} {vaults : List VaultStageRow}
    (h : checkTotals l c exceptions vaults = .ok ()) : TotalsOk l c exceptions := by
  unfold checkTotals at h
  rw [require_bind_ok] at h
  obtain ⟨-, h⟩ := h
  obtain ⟨-, -, h⟩ := of_bind_ok h
  rw [require_bind_ok, require_bind_ok] at h
  obtain ⟨-, hredistributed, h⟩ := h
  obtain ⟨us, hwallet, h⟩ := of_bind_ok h
  obtain ⟨us', hshares, h⟩ := of_bind_ok h
  rw [require_bind_ok] at h
  refine ⟨hredistributed, fun r hr => ?_, fun r hr => ?_, h.1⟩
  · obtain ⟨u, -, hu⟩ := ok_of_mem_left (forall₂_of_mapM_ok hwallet) hr
    exact hu
  · obtain ⟨u, -, hu⟩ := ok_of_mem_left (forall₂_of_mapM_ok hshares) hr
    obtain ⟨u', hd, ht⟩ := of_bind_ok hu
    exact ⟨hd, of_require_ok ht⟩

/-- The converse: what a run computes, put together. -/
theorem exists_main {rows : List (List WalletRow × List CompiledShare)} {overrides : Dict Address Governor}
    {vaults : List VaultStageRow} (r : LoadRun K i l) (hc : c = sortRows rows)
    (hrows : compileAll i.validatorPath l = .ok rows)
    (hrep : ∀ s ∈ l.sources.values, s.codeBearing →
      (routingExceptions c).any fun e => e.sourceCodeBearing && e.sourceAddress = s.address)
    (hover : loadGovernors l.destinations i.governors .empty = .ok overrides)
    (hbase : loadBaseVaults K i.baseVaultDeposits = .ok ())
    (hactive : within overrides.keys (i.baseVaultDeposits.map VaultRow.validatorAddress))
    (hvaults : vaultStages c.shareRows i.baseVaultDeposits = .ok vaults)
    (htotals : checkTotals l c (routingExceptions c) vaults = .ok ()) :
    ∃ o, main K i = .ok o ∧ o.loaded = l ∧ o.compiled = c ∧ o.exceptions = routingExceptions c ∧
      o.governorExceptions = governorExceptions overrides l.routes i.baseVaultDeposits ∧ o.vaultStages = vaults ∧
      o.unresolved = unresolvedRows (routingExceptions c) overrides l.routes i.baseVaultDeposits := by
  subst hc
  unfold main
  rw [r.load_eq, bind_ok_left, hrows, bind_ok_left]
  dsimp only
  rw [require, if_pos hrep, bind_ok_left, hover, bind_ok_left, hbase, bind_ok_left, require, if_pos hactive,
    bind_ok_left, hvaults, bind_ok_left, htotals]
  exact ⟨_, rfl, rfl, rfl, rfl, rfl, rfl, rfl⟩

end HarmonyMigration.Routing
