import HarmonyMigration.Routing.MainRun

/-! What a run of `apply-routes.py` conserves: every claim, every vault position and every vault. -/

namespace HarmonyMigration.Routing

open Erc20 Except Claims

variable {K : Keys} {i : Input} {l : Loaded} {c : Compiled} {o : Output}

/-! ### Positions by validator -/

/-- A delegator has one position at a validator. -/
theorem heldAt_position {positions : List Position} (hnd : (positions.map Position.pair).Nodup)
    (hkey : ∀ p ∈ positions, p.delegatorKey = K.key p.delegatorAddress) {p : Position} (hp : p ∈ positions) :
    heldAt (positionsOf positions p.delegatorAddress) p.validatorKey = p.remaining := by
  have hperm : (positionsOf positions p.delegatorAddress).Perm
      (positions.filter fun q => q.delegatorAddress = p.delegatorAddress) :=
    List.perm_insertionSort _ _
  rw [heldAt, ((hperm.filter _).map Position.remaining).sum_eq, List.filter_filter,
    ← Dict.sum_filter_key hnd (v := Position.remaining) hp]
  refine congrArg (fun l => (List.map Position.remaining l).sum) (List.filter_congr fun q hq => ?_)
  simp only [Position.pair, Prod.mk.injEq, Bool.decide_and, hkey q hq, hkey p hp, K.injective.eq_iff]

/-! ### Vault rows -/

theorem vaultStageRow_of_mem {rows : List CompiledShare} {vaults : List VaultRow} {stages : List VaultStageRow}
    (h : vaultStages rows vaults = .ok stages) {v : VaultStageRow} (hv : v ∈ stages) :
    ∃ base ∈ vaults, v = vaultStageRow rows base ∧ 0 ≤ v.uncompiledDeferred ∧
      v.initial + v.nextStage + v.qualifiedDeferred + v.manualReview + v.uncompiledDeferred = v.postPolicy := by
  unfold vaultStages at h
  rw [require_bind_ok, require_bind_ok] at h
  obtain ⟨base, hbase, hrow⟩ := ok_of_mem_right (forall₂_of_mapM_ok h.2.2) hv
  rw [require_bind_ok] at hrow
  obtain ⟨hle, hrow⟩ := hrow
  obtain ⟨u, hclose, rfl⟩ := of_map_ok hrow
  exact ⟨base, (List.mem_insertionSort _).mp hbase, rfl, hle, of_require_ok hclose⟩

/-- Every vault has its row. -/
theorem vaultStages_addresses {rows : List CompiledShare} {vaults : List VaultRow} {stages : List VaultStageRow}
    (h : vaultStages rows vaults = .ok stages) :
    (stages.map VaultStageRow.validatorAddress).Perm (vaults.map VaultRow.validatorAddress) := by
  unfold vaultStages at h
  rw [require_bind_ok, require_bind_ok] at h
  have hrows : (vaults.insertionSort fun a b => a.validatorKey ≤ b.validatorKey).map VaultRow.validatorAddress =
      stages.map VaultStageRow.validatorAddress :=
    map_eq_of_forall₂ (forall₂_of_mapM_ok h.2.2) fun base v hrow => by
      rw [require_bind_ok] at hrow
      obtain ⟨u, -, rfl⟩ := of_map_ok hrow.2
      rfl
  rw [← hrows]
  exact (List.perm_insertionSort _ _).map _

theorem stagedAssets_nonneg {rows : List CompiledShare} (h : ∀ r ∈ rows, 0 < r.amount) (a : Address) (b : Bucket) :
    0 ≤ stagedAssets rows a b := by
  refine List.sum_nonneg fun x hx => ?_
  obtain ⟨r, hr, rfl⟩ := List.mem_map.mp hx
  exact (h r (List.mem_of_mem_filter hr)).le

/-! ### The whole run -/

namespace CompileRun

theorem walletRow_pos (r : CompileRun K i l c) (hl : LiquidNonneg i) {row : WalletRow} (h : row ∈ c.walletRows) :
    0 < row.amount ∧ row.sourceAddress ∈ l.sources.keys := by
  obtain ⟨s, hs, rows, hbody, hrow⟩ := r.walletRow_source h
  have hsource := r.source_nonneg hs
  have hpos := walletPos_of_compileSource hbody (r.routes_positive hl hs) (hsource.1.trans hsource.2.1)
    (r.positions_nonneg _)
  exact ⟨hpos row hrow, ((r.sourceRows hbody).walletRow row hrow).2.1 ▸ Dict.mem_keys (r.load.mem_values hs)⟩

theorem shareRow_pos (r : CompileRun K i l c) {row : CompiledShare} (h : row ∈ c.shareRows) :
    0 < row.amount ∧ ∃ p ∈ l.positions,
      row.validatorKey = p.validatorKey ∧ row.validatorAddress = p.validatorAddress ∧
        row.delegatorKey = p.delegatorKey ∧ row.delegatorAddress = p.delegatorAddress := by
  obtain ⟨s, hs, rows, hbody, hrow⟩ := r.shareRow_source h
  obtain ⟨hpos, p, hp, h1, h2, h3, h4, -⟩ := (r.sourceRows hbody).shareRow row hrow
  exact ⟨hpos, p, ((LoadRun.mem_positionsOf _ _ _).mp hp).1, h1, h2, h3, h4⟩

theorem wallet_conserved (r : CompileRun K i l c) {s : Source} (h : s ∈ l.sources.values) :
    ((c.walletRows.filter fun row => row.sourceAddress = s.address).map WalletRow.amount).sum = s.wallet := by
  obtain ⟨rows, hbody⟩ := r.body_ok h
  have hown := r.sourceRows hbody
  have hperm := r.filter_walletRows h hbody (P := fun row => row.sourceAddress = s.address)
    fun s' hs' rows' hbody' hne => List.filter_eq_nil_iff.mpr fun row hrow => by
      rw [((r.sourceRows hbody').walletRow row hrow).2.1]
      simpa using hne
  have hself : rows.1.filter (fun row => row.sourceAddress = s.address) = rows.1 :=
    List.filter_eq_self.mpr fun row hrow => by simpa using (hown.walletRow row hrow).2.1
  rw [(hperm.map WalletRow.amount).sum_eq, hself, hown.wallet]

theorem shares_conserved (r : CompileRun K i l c) {p : Position} (h : p ∈ l.positions) :
    ((c.shareRows.filter fun row =>
      row.validatorKey = p.validatorKey ∧ row.delegatorKey = p.delegatorKey).map CompiledShare.amount).sum =
        p.remaining := by
  obtain ⟨-, hkey, -, s, hentry, -⟩ := r.load.position_ok h
  have hs : s ∈ l.sources.values := List.mem_map.mpr ⟨_, hentry, rfl⟩
  have haddress := (r.load.source_address hentry).1
  obtain ⟨rows, hbody⟩ := r.body_ok hs
  have hown := r.sourceRows hbody
  have hperm := r.filter_shareRows hs hbody
    (P := fun row => row.validatorKey = p.validatorKey ∧ row.delegatorKey = p.delegatorKey)
    fun s' hs' rows' hbody' hne => List.filter_eq_nil_iff.mpr fun row hrow => by
      have hcut := ((r.sourceRows hbody').shareRow row hrow).2
      have hneq : row.delegatorKey ≠ p.delegatorKey := by
        rw [(r.delegator_of_cutFrom hcut).2.1, hkey, ← haddress]
        exact fun heq => hne (K.injective heq)
      simp [hneq]
  have hmine : rows.2.filter (fun row => row.validatorKey = p.validatorKey ∧ row.delegatorKey = p.delegatorKey) =
      rows.2.filter fun row => row.validatorKey = p.validatorKey :=
    List.filter_congr fun row hrow => by
      have hd := (r.delegator_of_cutFrom (hown.shareRow row hrow).2).2.1
      rw [haddress] at hd
      simp [hd, hkey]
  rw [(hperm.map CompiledShare.amount).sum_eq, hmine]
  have hheld := hown.shares p.validatorKey
  rw [haddress, heldAt_position r.load.positions_eq.2.1 (fun q hq => (r.load.position_ok hq).2.1) h] at hheld
  exact hheld

/-- The rows of a route are its source's. -/
theorem contributed_eq (r : CompileRun K i l c) {s : Source} (h : s ∈ l.sources.values)
    {rows : List WalletRow × List CompiledShare} (hbody : body i l s = .ok rows) {route : Route}
    (hroute : route ∈ routesOf l.routes s.address) :
    contributed c.walletRows c.shareRows route.routeId =
      contributed rows.1 rows.2 route.routeId := by
  have hids := (loadRoutes_ok r.load.routes_ok).1
  obtain ⟨hmem, hsource⟩ := List.mem_filter.mp hroute
  have hother : ∀ s' ∈ l.sources.values, s'.address ≠ s.address → ∀ d,
      Delivered i.validatorPath s' (routesOf l.routes s'.address) d → ¬d.ofRoute route.routeId = true := by
    rintro s' - hne d (⟨route', hroute', t, -, rfl⟩ | rfl)
    · rw [ofRoute_delivery]
      intro heq
      obtain ⟨hmem', hsource'⟩ := List.mem_filter.mp hroute'
      obtain rfl : route' = route := List.inj_on_of_nodup_map hids hmem' hmem heq
      exact hne ((of_decide_eq_true hsource').symm.trans (of_decide_eq_true hsource))
    · rw [defaultDelivery_not_ofRoute]
      simp
  have hwallet := r.filter_walletRows h hbody (P := fun row => row.delivery.ofRoute route.routeId)
    fun s' hs' rows' hbody' hne => List.filter_eq_nil_iff.mpr fun row hrow =>
      hother s' hs' hne _ ((r.sourceRows hbody').walletDelivery row hrow)
  have hshares := r.filter_shareRows h hbody (P := fun row => row.delivery.ofRoute route.routeId)
    fun s' hs' rows' hbody' hne => List.filter_eq_nil_iff.mpr fun row hrow =>
      hother s' hs' hne _ ((r.sourceRows hbody').shareDelivery row hrow)
  rw [contributed, contributed, (hwallet.map WalletRow.amount).sum_eq, (hshares.map CompiledShare.amount).sum_eq]

/-- A route gives the amount that it asks of what the earlier routes of its source left. -/
theorem route_contribution (r : CompileRun K i l c) {s : Source} (h : s ∈ l.sources.values)
    {pre post : List Route} {route : Route} (hroutes : routesOf l.routes s.address = pre ++ route :: post) :
    routeAmount s route
        (s.wallet + s.staked - (pre.map fun e => contributed c.walletRows c.shareRows e.routeId).sum) =
      .ok (contributed c.walletRows c.shareRows route.routeId) := by
  obtain ⟨rows, hbody⟩ := r.body_ok h
  obtain ⟨s1, hrun, hcontributed⟩ := contributed_compileSource hbody
  have hnd : ((routesOf l.routes s.address).map Route.routeId).Nodup :=
    (loadRoutes_ok r.load.routes_ok).1.sublist (List.filter_sublist.map _)
  have hmine : ∀ e ∈ routesOf l.routes s.address,
      contributed c.walletRows c.shareRows e.routeId = contributed s1.walletRows s1.shareRows e.routeId := fun e he =>
    (r.contributed_eq h hbody he).trans (hcontributed _)
  rw [hroutes] at hrun hnd hmine
  have hamount := contributed_of_compileRoutes hrun (balanced_start s (r.positions_nonneg _)) ⟨rfl, rfl⟩ hnd
  rw [Remaining.total, r.load.staked_ok s h] at hamount
  rw [hmine route (by simp), List.map_congr_left fun e he => hmine e (by simp [he])]
  exact hamount

end CompileRun

theorem MainRun.vaultStage_conserved (r : MainRun K i o) {v : VaultStageRow} (h : v ∈ o.vaultStages) :
    v.initial + v.exchangeManual + v.nextStage + v.qualifiedDeferred + v.manualReview + v.uncompiledDeferred +
        v.notIssued = v.base ∧
      0 ≤ v.initial ∧ 0 ≤ v.exchangeManual ∧ 0 ≤ v.nextStage ∧ 0 ≤ v.qualifiedDeferred ∧ 0 ≤ v.manualReview ∧
      0 ≤ v.uncompiledDeferred ∧ 0 ≤ v.notIssued := by
  obtain ⟨base, -, rfl, huncompiled, hclose⟩ := vaultStageRow_of_mem r.vaults_ok h
  have hnonneg := stagedAssets_nonneg (fun row hrow => (r.compile.shareRow_pos hrow).1) base.validatorAddress
  refine ⟨?_, hnonneg _, hnonneg _, hnonneg _, hnonneg _, hnonneg _, huncompiled, hnonneg _⟩
  simp only [vaultStageRow] at hclose ⊢
  omega

/-- Addresses as their own keys. -/
def addressKeys : Keys := ⟨BitVec.toNat, Erc20.address_toNat_injective⟩

def decidedPolicies : List DecisionRow := requiredPolicyDecisions.map fun id => ⟨id, false, "decided"⟩

/-- A claim of 100 in its wallet and 50 at two validators; 120 of it are not issued, the rest goes
to another address. -/
def partialNonIssuance : Input where
  allClaims := []
  automaticClaims := [⟨0x10, 0x10#160, 100, 50, 150, 0, none, emptyCodeHash, ""⟩]
  contractClaims := []
  excludedClaims := []
  priorityShares := [⟨2, 0x2#160, 0x10, 0x10#160, 20⟩, ⟨1, 0x1#160, 0x10, 0x10#160, 30⟩]
  deferredShares := []
  baseVaultDeposits := [⟨1, 0x1#160, 100⟩, ⟨2, 0x2#160, 60⟩]
  validatorAccounts := []
  validatorState := false
  validatorPath := "validators.csv"
  migrationStages :=
    [{ key := 0x10, address := 0x10#160, classification := .wallet, contractCategory := none, group := .wallet,
       routingCategory := .automaticPolicy, stage := .initial, treatment := .issue, qualification := 150, gross := 150,
       existingNonIssuance := 120, historicalRetainedCap := 0, woneSourceOffset := 0, contractNonIssuance := 0,
       contractWalletNonIssuance := 0, contractStakedNonIssuance := 0, wallet := 0, staked := 30, allocation := 30,
       lastActivity := none, reason := "", meetsThreshold := true }]
  routes :=
    [[⟨"rest", 200, 0x10#160, "elsewhere", none, none, .all, .walletFirstProRataVault, "", "", none⟩],
      [⟨"part", 100, 0x10#160, "not-issuing", none, some .notIssuing, .exact 120, .walletFirstProRataVault, "", "",
        none⟩]]
  destinations := [[⟨"elsewhere", some 0x20#160, .ready⟩, ⟨"not-issuing", none, .notIssuing⟩]]
  governors := []
  policyDecisions := decidedPolicies

end HarmonyMigration.Routing
