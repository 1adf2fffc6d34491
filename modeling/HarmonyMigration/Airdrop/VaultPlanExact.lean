import HarmonyMigration.Airdrop.VaultRun
import HarmonyMigration.Lib.ExceptRun

/-! `cmd_build` of `vault_batch.py`: the funding plan places every deposit once, keeps its bounds, is read
back as it was planned, and leaves no approval behind. -/

namespace HarmonyMigration.Airdrop.VaultBatch

open Erc20 Slices

/-! ### From the input to the vaults -/

section Build

variable {args : BuildArgs} {deposits : List Deposit} {vaults vaults' included : List Vault} {art : Artifact} {token : Address}

/-- A vault's address is the one that its deployment gives it. -/
def Derived (art : Artifact) (token : Address) (v : Vault) : Prop :=
  v.address = vaultAddress art token v.validator.1 v.governor.1

theorem checkLimits_ok {u : Unit} (h : checkLimits args = .ok u) :
    (1 ≤ args.deploysPerTx ∧ args.deploysPerTx ≤ maxDeploysPerTx) ∧ Limits args.gasTarget args.maxRows := by
  unfold checkLimits at h
  split_ifs at h with hper htarget hrows
  exact ⟨hper, by omega, by omega⟩

theorem assembleVaults_ok {governorFor : Account → Account} {merge : Bool}
    (h : assembleVaults art token deposits governorFor merge = .ok vaults) : ∀ v ∈ vaults, Derived art token v := by
  intro v hv
  obtain ⟨validator, -, hvault⟩ := Except.ok_of_mem_right (Except.forall₂_of_mapM_ok h) hv
  obtain ⟨merged, -, rfl⟩ := Except.of_map_ok hvault
  exact rfl

theorem readVaults_ok (h : readVaults args vaults = .ok vaults') (hderived : ∀ v ∈ vaults, Derived art token v) :
    ∀ v ∈ vaults', Derived art token v := by
  unfold readVaults at h
  split at h
  · split_ifs at h
    obtain rfl := Except.ok.inj h
    exact hderived
  · rename_i r _
    have hmap : ∀ (f : Vault → List Deposit),
        ∀ v ∈ ((vaults.map fun v => { v with deploy := !r.deployed v.address }).map fun v =>
          { v with deposits := f v }).filter fun v => v.deposits ≠ [], Derived art token v := by
      intro f v hv
      obtain ⟨u, hu, rfl⟩ := List.mem_map.mp (List.mem_of_mem_filter hv)
      obtain ⟨x, hx, rfl⟩ := List.mem_map.mp hu
      exact hderived x hx
    split at h
    · cases h
    · dsimp only at h
      split at h
      · cases h
      · obtain rfl := Except.ok.inj h
        exact hmap _

theorem includeVaults_ok (h : includeVaults args vaults = .ok included) : ∀ v ∈ included, v ∈ vaults := by
  unfold includeVaults at h
  dsimp only at h
  intro v hv
  split at h
  all_goals
    split_ifs at h
    obtain rfl := Except.ok.inj h
    exact List.mem_of_mem_filter hv

/-- What stands behind a build. -/
structure Planned (args : BuildArgs) (b : Build) : Prop where
  perTx : 1 ≤ args.deploysPerTx ∧ args.deploysPerTx ≤ maxDeploysPerTx
  limits : Limits args.gasTarget args.maxRows
  derived : ∀ v ∈ b.included, Derived args.artifact args.token.1 v
  plan : planTransactions args.artifact args.token.1 b.included args.phase args.deploysPerTx args.gasTarget args.maxRows =
    .ok b.txs
  safeTxs : List.Forall₂ (fun tx stx => safeTx tx.calls (multisendFor args.safeVersion) = .ok stx) b.txs b.safeTxs

theorem cmdBuild_ok {b : Build} (h : cmdBuild args deposits = .ok b) : Planned args b := by
  obtain ⟨u, hlimits, h⟩ := Except.of_bind_ok h
  obtain ⟨selected, -, h⟩ := Except.of_bind_ok h
  obtain ⟨vaults, hvaults, h⟩ := Except.of_bind_ok h
  obtain ⟨v, -, h⟩ := Except.of_bind_ok h
  obtain ⟨read, hread, h⟩ := Except.of_bind_ok h
  obtain ⟨included, hincluded, h⟩ := Except.of_bind_ok h
  obtain ⟨txs, htxs, h⟩ := Except.of_bind_ok h
  obtain ⟨safeTxs, hsafe, rfl⟩ := Except.of_map_ok h
  obtain ⟨hper, hlim⟩ := checkLimits_ok hlimits
  refine ⟨hper, hlim, ?_, Except.mapError_ok htxs, Except.forall₂_of_mapM_ok (Except.mapError_ok hsafe)⟩
  intro v hv
  exact readVaults_ok hread (assembleVaults_ok hvaults) v (includeVaults_ok hincluded v hv)

end Build

/-! ### The parts of a plan -/

section Plan

variable {args : BuildArgs} {b : Build}

theorem multisendFor_official (v : SafeVersion) : multisendFor v ∈ officialMultisendCallOnly := by
  cases v <;> decide

/-- The deployments come first, and the rest funds. -/
theorem Planned.split (h : Planned args b) : ∃ deploys funds, b.txs = deploys ++ funds ∧
    (∀ tx ∈ deploys, Deploys args.artifact args.token.1 args.deploysPerTx tx) ∧
    deploys.flatMap PlannedTx.vaults = (if args.phase = .fund then [] else b.included.filter Vault.deploy) ∧
    ((args.phase = .deploy ∧ funds = []) ∨ (args.phase ≠ .deploy ∧
      fundTxs args.token.1 (b.included.filter fun v => v.deposits ≠ []) args.gasTarget args.maxRows = .ok funds)) := by
  obtain ⟨hall, hflat⟩ := deployTxs_ok args.artifact args.token.1 b.included h.perTx.1
  have hplan := h.plan
  unfold planTransactions at hplan
  obtain ⟨funds, hfunds, htxs⟩ := Except.of_map_ok hplan
  refine ⟨_, funds, htxs.symm, ?_, ?_, ?_⟩
  · split_ifs
    · intro tx htx
      cases htx
    · exact hall
  · split_ifs
    · rfl
    · exact hflat
  · split_ifs at hfunds with hphase
    · exact Or.inl ⟨hphase, (Except.ok.inj hfunds).symm⟩
    · exact Or.inr ⟨hphase, hfunds⟩

theorem placed_append (txs txs' : List PlannedTx) : placed (txs ++ txs') = placed txs ++ placed txs' :=
  List.flatMap_append

theorem placed_deploys {txs : List PlannedTx} (h : ∀ tx ∈ txs, tx.deposits = []) : placed txs = [] := by
  apply List.flatMap_eq_nil_iff.mpr
  intro tx htx
  rw [h tx htx, List.zip_nil_right]

theorem flatMap_nonempty (vaults : List Vault) :
    ((vaults.filter fun v => v.deposits ≠ []).flatMap fun v => v.deposits.map fun d => (v, d)) =
      vaults.flatMap fun v => v.deposits.map fun d => (v, d) := by
  induction vaults with
  | nil => rfl
  | cons v vaults ih =>
    rw [List.filter_cons, List.flatMap_cons]
    by_cases hv : v.deposits = []
    · rw [if_neg (by simpa using hv), ih, hv, List.map_nil, List.nil_append]
    · rw [if_pos (by simpa using hv), List.flatMap_cons, ih]

/-- Every deposit of every vault is in one part. -/
theorem Planned.deposits_perm (h : Planned args b) (hphase : args.phase ≠ .deploy) :
    ((placed b.txs).flatMap fun p => p.2.map fun d => (p.1, d)).Perm
      (b.included.flatMap fun v => v.deposits.map fun d => (v, d)) := by
  obtain ⟨deploys, funds, htxs, hdeploys, -, hfunds⟩ := h.split
  rcases hfunds with ⟨hp, -⟩ | ⟨-, hfunds⟩
  · exact absurd hp hphase
  · have hperm := deposits_placed h.limits hfunds
    rw [flatMap_nonempty] at hperm
    rw [htxs, placed_append, placed_deploys fun tx htx => (hdeploys tx htx).deposits_eq, List.nil_append]
    exact hperm

/-- What is known of every transaction of a plan. -/
theorem Planned.cases (h : Planned args b) {tx : PlannedTx} (htx : tx ∈ b.txs) :
    Deploys args.artifact args.token.1 args.deploysPerTx tx ∧ (∀ v ∈ tx.vaults, v ∈ b.included) ∨
      ∃ members, Funds args.token.1 args.gasTarget members tx ∧ (∀ v ∈ tx.vaults, v ∈ b.included) ∧
        ∀ m ∈ members, m.chunk.length ≤ args.maxRows := by
  obtain ⟨deploys, funds, htxs, hdeploys, hflat, hfunds⟩ := h.split
  rw [htxs] at htx
  rcases List.mem_append.mp htx with htx | htx
  · refine Or.inl ⟨hdeploys tx htx, ?_⟩
    intro v hv
    have hmem : v ∈ deploys.flatMap PlannedTx.vaults := List.mem_flatMap.mpr ⟨tx, htx, hv⟩
    rw [hflat] at hmem
    split_ifs at hmem
    · cases hmem
    · exact List.mem_of_mem_filter hmem
  · rcases hfunds with ⟨-, rfl⟩ | ⟨-, hfunds⟩
    · cases htx
    · obtain ⟨groups, hall, hperm⟩ := fundTxs_ok h.limits hfunds
      obtain ⟨members, hmembers, hfund⟩ := Except.ok_of_mem_right hall htx
      have hitems : ∀ m ∈ members, ∃ v ∈ b.included, m ∈ itemsOf args.maxRows v := by
        intro m hm
        have hmem := hperm.mem_iff.mp (List.mem_flatten.mpr ⟨members, hmembers, hm⟩)
        obtain ⟨v, hv, hmv⟩ := List.mem_flatMap.mp hmem
        exact ⟨v, List.mem_of_mem_filter hv, hmv⟩
      refine Or.inr ⟨members, hfund, ?_, ?_⟩
      · intro v hv
        rw [hfund.vaults_eq] at hv
        obtain ⟨m, hm, rfl⟩ := List.mem_map.mp hv
        obtain ⟨v, hv, hmv⟩ := hitems m hm
        rw [vault_of_mem_itemsOf hmv]
        exact hv
      · intro m hm
        obtain ⟨v, -, hmv⟩ := hitems m hm
        exact length_chunk_le h.limits.rows_pos hmv

end Plan

/-! ### Exactness -/

section Exact

variable {args : BuildArgs} {b : Build} {deposits : List Deposit}

/-- Every deposit is in the second call of a pair, right behind the approval of the pair's sum. -/
theorem Funds.pairs {token : Address} {gasTarget : ℕ} {members : List Item} {tx : PlannedTx}
    (h : Funds token gasTarget members tx) :
    ∃ bodies, List.Forall₂ (fun (p : Vault × List Deposit) body =>
        decodeDepositBatch body = some (amountsOf p.2, delegatorsOf p.2)) (tx.vaults.zip tx.deposits) bodies ∧
      tx.calls = ((tx.vaults.zip tx.deposits).zip bodies).flatMap fun c =>
        [(token, approveBody c.1.1.address (sumOf c.1.2)), (c.1.1.address, c.2)] := by
  obtain ⟨calls, hcalls, heq⟩ := h.calls_eq
  rw [zip_vaults_deposits h, heq]
  have hall := Except.forall₂_of_mapM_ok hcalls
  clear hcalls heq h
  induction hall with
  | nil => exact ⟨[], List.Forall₂.nil, rfl⟩
  | @cons m calls members callss hm _ ih =>
    obtain ⟨bodies, hbodies, hflat⟩ := ih
    obtain ⟨-, body, hbody, rfl⟩ := fundCalls_ok hm
    refine ⟨body :: bodies, List.Forall₂.cons hbody hbodies, ?_⟩
    rw [List.flatten_cons, hflat, List.map_cons, List.zip_cons_cons, List.flatMap_cons]

/-- What parts give, deposit by deposit. -/
theorem planned_eq (parts : List (Vault × List Deposit)) (vault delegator : Address) :
    planned parts vault delegator =
      ((parts.flatMap fun p => p.2.map fun d => (p.1, d)).map fun q =>
        if q.1.address = vault ∧ q.2.delegator.1 = delegator then q.2.amount else 0).sum := by
  induction parts with
  | nil => rfl
  | cons p parts ih =>
    rw [List.flatMap_cons, List.map_append, List.sum_append, ← ih, planned, List.map_cons, List.sum_cons, ← planned]
    congr 1
    rw [List.map_map, amountFor, sumOf, amountsOf]
    by_cases hv : p.1.address = vault
    · rw [if_pos hv]
      induction p.2 with
      | nil => rfl
      | cons d chunk ihc =>
        rw [List.map_cons, List.sum_cons, ← ihc, List.filter_cons]
        by_cases hd : d.delegator.1 = delegator
        · simp [hv, hd]
        · simp [hd]
    · rw [if_neg hv]
      symm
      apply List.sum_eq_zero
      intro n hn
      obtain ⟨d, -, rfl⟩ := List.mem_map.mp hn
      simp [hv]

theorem planned_perm {parts parts' : List (Vault × List Deposit)}
    (h : (parts.flatMap fun p => p.2.map fun d => (p.1, d)).Perm (parts'.flatMap fun p => p.2.map fun d => (p.1, d)))
    (vault delegator : Address) : planned parts vault delegator = planned parts' vault delegator := by
  rw [planned_eq, planned_eq]
  exact (h.map _).sum_eq

/-- A transaction of the plan is read back as it was planned. -/
theorem Planned.decoded (h : Planned args b) (hapart : Apart args.token.1 b.included) :
    List.Forall₂ (fun tx stx => decodeVaultTx stx args.artifact args.token.1 = ⟨deployEntries tx, depositEntries tx, []⟩)
      b.txs b.safeTxs := by
  have hall : ∀ tx ∈ b.txs, ∀ stx, safeTx tx.calls (multisendFor args.safeVersion) = .ok stx →
      decodeVaultTx stx args.artifact args.token.1 = ⟨deployEntries tx, depositEntries tx, []⟩ := by
    intro tx htx stx hstx
    rw [decodeVaultTx_safeTx args.artifact args.token.1 (multisendFor_official _) hstx]
    rcases h.cases htx with ⟨hdeploys, hmem⟩ | ⟨members, hfunds, hmem, -⟩
    · exact scanCalls_deploy hdeploys fun v hv => h.derived v (hmem v hv)
    · have hsub : Apart args.token.1 tx.vaults := ⟨hapart.token_ne, fun v hv => hapart.vault_ne_factory v (hmem v hv),
        fun v hv => hapart.vault_ne_token v (hmem v hv)⟩
      have hkind : deployEntries tx = [] := by
        rw [deployEntries, hfunds.kind_eq]
        rfl
      rw [hkind]
      exact scanCalls_fund hfunds hsub
  apply List.Forall₂.imp _ ((List.forall₂_and_left _ _).mpr ⟨hall, h.safeTxs⟩)
  intro tx stx htx
  exact htx.1 stx htx.2

variable {T : Tokens} {strict : Address → Bool} {w w' : Chain}

/-- A transaction of the plan leaves the approvals alone, and credits its parts. -/
theorem Planned.effect (h : Planned args b) (hapart : Apart args.token.1 b.included) {tx : PlannedTx} (htx : tx ∈ b.txs)
    (hzero : ∀ v ∈ b.included, w.ledger.allowance (args.token.1, args.safe.1, v.address) = 0) (hready : Ready w tx)
    (hexec : execTx T strict args.artifact args.token.1 args.safe.1 w tx = some w') :
    Effect w w' (tx.vaults.zip tx.deposits) := by
  rcases h.cases htx with ⟨hdeploys, -⟩ | ⟨members, hfunds, hmem, -⟩
  · rw [hdeploys.deposits_eq, List.zip_nil_right]
    rw [execTx, hdeploys.calls_eq] at hexec
    refine exec_deploys ?_ hexec
    intro c hc
    obtain ⟨v, -, rfl⟩ := List.mem_map.mp hc
    rfl
  · obtain ⟨calls, hcalls, heq⟩ := hfunds.calls_eq
    have hvault : ∀ m ∈ members, m.vault ∈ tx.vaults := by
      intro m hm
      rw [hfunds.vaults_eq]
      exact List.mem_map_of_mem hm
    rw [zip_vaults_deposits hfunds]
    rw [execTx, heq] at hexec
    apply exec_pairs hapart.token_ne (Except.forall₂_of_mapM_ok hcalls) _ _ _ _ hexec
    · exact fun m hm => hapart.vault_ne_factory _ (hmem _ (hvault m hm))
    · exact fun m hm => hapart.vault_ne_token _ (hmem _ (hvault m hm))
    · exact fun m hm => hready hfunds.kind_eq _ (hvault m hm)
    · exact fun m hm => hzero _ (hmem _ (hvault m hm))

/-- So does a run of its transactions, in any order. -/
theorem Planned.run (h : Planned args b) (hapart : Apart args.token.1 b.included) {executed : List PlannedTx}
    (hexec : Executes T strict args.artifact args.token.1 args.safe.1 w executed w') (hsub : ∀ tx ∈ executed, tx ∈ b.txs)
    (hzero : ∀ v ∈ b.included, w.ledger.allowance (args.token.1, args.safe.1, v.address) = 0) :
    Effect w w' (placed executed) := by
  induction hexec with
  | nil w => exact Effect.refl w
  | @cons w w₁ w₂ tx txs hready htx _ ih =>
    have hfirst := h.effect hapart (hsub tx List.mem_cons_self) hzero hready htx
    rw [placed, List.flatMap_cons, ← placed]
    apply hfirst.trans
    apply ih
    · exact fun tx' htx' => hsub tx' (List.mem_cons_of_mem tx htx')
    · intro v hv
      rw [hfirst.allowance_eq]
      exact hzero v hv

theorem Planned.deploys_eq (h : Planned args b) (hphase : args.phase ≠ .fund) :
    b.txs.flatMap deployEntries =
      (b.included.filter Vault.deploy).map fun v => (v.validator.1, v.governor.1, v.address) := by
  obtain ⟨deploys, funds, htxs, hdeploys, hflat, hfunds⟩ := h.split
  rw [if_neg hphase] at hflat
  have hfirst : ∀ tx ∈ deploys, deployEntries tx = tx.vaults.map fun v => (v.validator.1, v.governor.1, v.address) := by
    intro tx htx
    rw [deployEntries, (hdeploys tx htx).kind_eq, if_pos rfl]
  have hrest : ∀ tx ∈ funds, deployEntries tx = [] := by
    intro tx htx
    rcases hfunds with ⟨-, rfl⟩ | ⟨-, hfunds⟩
    · cases htx
    · obtain ⟨groups, hall, -⟩ := fundTxs_ok h.limits hfunds
      obtain ⟨members, -, hfund⟩ := Except.ok_of_mem_right hall htx
      rw [deployEntries, hfund.kind_eq, if_neg (by decide)]
  rw [htxs, List.flatMap_append, List.flatMap_eq_nil_iff.mpr hrest, List.append_nil, List.flatMap_congr hfirst, ← hflat,
    List.map_flatMap]

theorem planned_included (included : List Vault) :
    ((included.map fun v => (v, v.deposits)).flatMap fun p => p.2.map fun d => (p.1, d)) =
      included.flatMap fun v => v.deposits.map fun d => (v, d) := by
  rw [List.flatMap_map]

/-- The plan places every deposit in one call and every new vault in one deployment, keeps its bounds, is read back
as it was planned, and executed in any part and order, vaults before their funds, it leaves no approval and credits
what it holds. -/
theorem cmdBuild_exact (h : cmdBuild args deposits = .ok b) (hapart : Apart args.token.1 b.included) (T : Tokens)
    (strict : Address → Bool) :
    (args.phase ≠ .deploy → ((placed b.txs).flatMap fun p => p.2.map fun d => (p.1, d)).Perm
      (b.included.flatMap fun v => v.deposits.map fun d => (v, d))) ∧
    (args.phase ≠ .fund → b.txs.flatMap deployEntries =
      (b.included.filter Vault.deploy).map fun v => (v.validator.1, v.governor.1, v.address)) ∧
    (∀ tx ∈ b.txs,
      (∀ chunk ∈ tx.deposits, chunk.length ≤ args.maxRows) ∧
      (tx.kind = .deploy → tx.estimatedGas ≤ deployBaseGas + deployGas * args.deploysPerTx) ∧
      (tx.kind = .fund → tx.estimatedGas ≤ args.gasTarget ∧
        ∃ bodies, List.Forall₂ (fun (p : Vault × List Deposit) body =>
            decodeDepositBatch body = some (amountsOf p.2, delegatorsOf p.2)) (tx.vaults.zip tx.deposits) bodies ∧
          tx.calls = ((tx.vaults.zip tx.deposits).zip bodies).flatMap fun c =>
            [(args.token.1, approveBody c.1.1.address (sumOf c.1.2)), (c.1.1.address, c.2)])) ∧
    List.Forall₂ (fun tx stx => decodeVaultTx stx args.artifact args.token.1 = ⟨deployEntries tx, depositEntries tx, []⟩)
      b.txs b.safeTxs ∧
    (∀ w executed w', executed.Subperm b.txs →
      (∀ v ∈ b.included, w.ledger.allowance (args.token.1, args.safe.1, v.address) = 0) →
      Executes T strict args.artifact args.token.1 args.safe.1 w executed w' →
        w'.ledger.allowance = w.ledger.allowance ∧
          ∀ vault delegator, w'.credit vault delegator = w.credit vault delegator + planned (placed executed) vault delegator) ∧
    (args.phase ≠ .deploy → ∀ vault delegator,
      planned (placed b.txs) vault delegator = planned (b.included.map fun v => (v, v.deposits)) vault delegator) := by
  have hplan := cmdBuild_ok h
  refine ⟨hplan.deposits_perm, hplan.deploys_eq, ?_, hplan.decoded hapart, ?_, ?_⟩
  · intro tx htx
    rcases hplan.cases htx with ⟨hdeploys, -⟩ | ⟨members, hfunds, -, hrows⟩
    · refine ⟨?_, ?_, ?_⟩
      · intro chunk hchunk
        rw [hdeploys.deposits_eq] at hchunk
        cases hchunk
      · intro _
        rw [hdeploys.gas_eq]
        exact Nat.add_le_add_left (Nat.mul_le_mul_left _ hdeploys.vaults_le) _
      · intro hkind
        rw [hdeploys.kind_eq] at hkind
        cases hkind
    · refine ⟨?_, ?_, ?_⟩
      · intro chunk hchunk
        rw [hfunds.deposits_eq] at hchunk
        obtain ⟨m, hm, rfl⟩ := List.mem_map.mp hchunk
        exact hrows m hm
      · intro hkind
        rw [hfunds.kind_eq] at hkind
        cases hkind
      · intro _
        exact ⟨hfunds.gas_le, hfunds.pairs⟩
  · intro w executed w' hsub hzero hexec
    have heffect := hplan.run hapart hexec (fun tx htx => hsub.subset htx) hzero
    exact ⟨heffect.allowance_eq, heffect.credit_eq⟩
  · intro hphase vault delegator
    apply planned_perm
    rw [planned_included]
    exact hplan.deposits_perm hphase

/-! ### At the bounds -/

/-- Two validators, one with two deposits, and room for two rows a call. -/
def twoDeposits : List Deposit :=
  [⟨⟨5, by decide⟩, ⟨7, by decide⟩, 10⟩, ⟨⟨5, by decide⟩, ⟨8, by decide⟩, 20⟩, ⟨⟨6, by decide⟩, ⟨7, by decide⟩, 30⟩]

def twoArgs (token : Account) : BuildArgs where
  artifact := ⟨[]⟩
  safe := ⟨1, by decide⟩
  token := token
  safeVersion := .v1_4_1
  deploysPerTx := 2
  gasTarget := 1000000
  maxRows := 2
  minVault := 0
  only := []
  skip := []
  merge := false
  skipFunded := false
  allowExistingCredits := false
  phase := .all
  governorFor := id
  reads := none

def plainTokens : Tokens := ⟨fun _ => true, fun _ => .isTrue, fun _ => .reverts, fun _ _ => false⟩

/-- Nothing is approved, deployed or credited. -/
def newChain : Chain := ⟨⟨fun _ => 100, fun _ => 0, fun _ => 0, []⟩, fun _ => false, fun _ _ => 0⟩

/-- Both vaults in one deployment, and a funding transaction before it. -/
def earlyFund (args : BuildArgs) (b : Build) : Bool :=
  (b.txs.any fun tx => args.gasTarget < tx.estimatedGas) &&
  (b.txs.any fun tx =>
    ((execTx plainTokens (fun _ => false) args.artifact args.token.1 args.safe.1 newChain tx).any fun w' =>
      b.included.any fun v => w'.ledger.allowance (args.token.1, args.safe.1, v.address) ≠ 0)) &&
  b.included.all fun v => v.address ≠ factory ∧ v.address ≠ args.token.1

def twoToken : Account := ⟨2, by decide⟩

/-- The validators of the deposits. -/
def accountFive : Account := ⟨5, by decide⟩

def accountSix : Account := ⟨6, by decide⟩

/-- The vaults of the two validators, with the addresses that their deployments give them. -/
def twoVaults : List Vault :=
  [⟨accountFive, accountFive, 0x1ed442f46da92b4129052637879edab104fc7459#160,
      twoDeposits.filter fun d => d.validator = accountFive, true⟩,
    ⟨accountSix, accountSix, 0xcd30970cdb01a9f3193781073e121b388d81569f#160,
      twoDeposits.filter fun d => d.validator = accountSix, true⟩]

theorem vaultAddress_five : vaultAddress ⟨[]⟩ twoToken.1 accountFive.1 accountFive.1 =
    0x1ed442f46da92b4129052637879edab104fc7459#160 := by decide +kernel

theorem vaultAddress_six : vaultAddress ⟨[]⟩ twoToken.1 accountSix.1 accountSix.1 =
    0xcd30970cdb01a9f3193781073e121b388d81569f#160 := by decide +kernel

theorem merged_two {k : Account} (hk : k = accountFive ∨ k = accountSix) :
    (((Dict.groupBy Deposit.validator twoDeposits).getD k []).foldlM (mergeRow false) .empty).map Dict.values =
      .ok (twoDeposits.filter fun d => d.validator = k) := by
  rcases hk with rfl | rfl
  · decide +kernel
  · decide +kernel

/-- The digests are evaluated once, in the two addresses. -/
theorem assembleVaults_two : assembleVaults ⟨[]⟩ twoToken.1 twoDeposits id false = .ok twoVaults := by
  have hkeys : sortAccounts (Dict.groupBy Deposit.validator twoDeposits).keys = [accountFive, accountSix] := by
    decide +kernel
  obtain ⟨five, hfive, hdeposits⟩ := Except.of_map_ok (merged_two (Or.inl rfl))
  obtain ⟨six, hsix, hdeposits'⟩ := Except.of_map_ok (merged_two (Or.inr rfl))
  unfold assembleVaults
  dsimp only
  rw [hkeys, List.mapM_cons, List.mapM_cons, List.mapM_nil, hfive, hsix]
  simp only [id_eq, vaultAddress_five, vaultAddress_six, hdeposits, hdeposits', Except.map]
  rfl

theorem exists_earlyFund : ∃ b, cmdBuild (twoArgs twoToken) twoDeposits = .ok b ∧ earlyFund (twoArgs twoToken) b = true := by
  have hrun : ∃ b, cmdBuild (twoArgs twoToken) twoDeposits = .ok b ∧
      ((b.txs.any fun tx => 1000000 < tx.estimatedGas) &&
        (b.txs[1]?.any fun tx => (execTx plainTokens (fun _ => false) ⟨[]⟩ 2 1 newChain tx).any fun w' =>
          b.included.any fun v => w'.ledger.allowance (2, 1, v.address) ≠ 0) &&
        b.included.all fun v => v.address ≠ factory ∧ v.address ≠ 2) = true := by
    have hlimits : checkLimits (twoArgs twoToken) = .ok () := by decide +kernel
    have hselect : selectDeposits (twoArgs twoToken) twoDeposits = .ok twoDeposits := by decide +kernel
    have hassemble : assembleVaults (twoArgs twoToken).artifact (twoArgs twoToken).token.1 twoDeposits
        (twoArgs twoToken).governorFor (twoArgs twoToken).merge = .ok twoVaults := assembleVaults_two
    unfold cmdBuild
    rw [hlimits, Except.bind_ok_left, hselect, Except.bind_ok_left, hassemble, Except.bind_ok_left]
    apply Except.exists_ok_of_map
    decide +kernel
  obtain ⟨b, hb, hcheck⟩ := hrun
  obtain ⟨hfirst, hapart⟩ := Bool.and_eq_true_iff.mp hcheck
  obtain ⟨hgas, hfund⟩ := Bool.and_eq_true_iff.mp hfirst
  obtain ⟨tx, htx, hleft⟩ := (Option.any_eq_true _ _).mp hfund
  refine ⟨b, hb, ?_⟩
  rw [earlyFund, Bool.and_eq_true, Bool.and_eq_true]
  exact ⟨⟨hgas, List.any_eq_true.mpr ⟨tx, List.mem_of_getElem? htx, hleft⟩⟩, hapart⟩

/-- The token is the deployer itself. -/
def factoryToken : Account := ⟨factory, by decide⟩

theorem exists_misread : ∃ b, cmdBuild (twoArgs factoryToken) (twoDeposits.take 1) = .ok b ∧
    (b.txs.any fun tx => (scanCalls ⟨[]⟩ factory [] (tx.calls.map plainCall)).problems ≠ []) = true := by
  apply Except.exists_ok_of_map
  decide +kernel

theorem cmdBuild_exact_two : ∃ b, cmdBuild (twoArgs twoToken) twoDeposits = .ok b ∧
    ((placed b.txs).flatMap fun p => p.2.map fun d => (p.1, d)).Perm
      (b.included.flatMap fun v => v.deposits.map fun d => (v, d)) := by
  obtain ⟨b, hb, hcheck⟩ := exists_earlyFund
  obtain ⟨-, hall⟩ := Bool.and_eq_true_iff.mp hcheck
  have happart : Apart twoToken.1 b.included := by
    refine ⟨by decide, ?_, ?_⟩
    · intro v hv
      exact (of_decide_eq_true (List.all_eq_true.mp hall v hv)).1
    · intro v hv
      exact (of_decide_eq_true (List.all_eq_true.mp hall v hv)).2
  exact ⟨b, hb, (cmdBuild_exact hb happart plainTokens fun _ => false).1 (by decide)⟩

/-- The target bounds no deployment, a vault must be deployed before its funds, and a token that is the deployer is
misread. -/
theorem cmdBuild_not_exact :
    (∃ b, cmdBuild (twoArgs twoToken) twoDeposits = .ok b ∧ (∃ tx ∈ b.txs, 1000000 < tx.estimatedGas) ∧
      ∃ tx ∈ b.txs, ∃ w', execTx plainTokens (fun _ => false) ⟨[]⟩ 2 1 newChain tx = some w' ∧
        ∃ v ∈ b.included, newChain.ledger.allowance (2, 1, v.address) = 0 ∧ w'.ledger.allowance (2, 1, v.address) ≠ 0) ∧
    ∃ b, cmdBuild (twoArgs factoryToken) (twoDeposits.take 1) = .ok b ∧
      ∃ stx ∈ b.safeTxs, (decodeVaultTx stx ⟨[]⟩ factory).problems ≠ [] := by
  constructor
  · obtain ⟨b, hb, hcheck⟩ := exists_earlyFund
    obtain ⟨hfirst, -⟩ := Bool.and_eq_true_iff.mp hcheck
    obtain ⟨hgas, hearly⟩ := Bool.and_eq_true_iff.mp hfirst
    obtain ⟨tx, htx, hlt⟩ := List.any_eq_true.mp hgas
    obtain ⟨tx', htx', hleft⟩ := List.any_eq_true.mp hearly
    obtain ⟨w', hexec, hany⟩ := (Option.any_eq_true _ _).mp hleft
    obtain ⟨v, hv, hne⟩ := List.any_eq_true.mp hany
    exact ⟨b, hb, ⟨tx, htx, of_decide_eq_true hlt⟩, tx', htx', w', hexec, v, hv, rfl, of_decide_eq_true hne⟩
  · obtain ⟨b, hb, hcheck⟩ := exists_misread
    obtain ⟨tx, htx, hne⟩ := List.any_eq_true.mp hcheck
    obtain ⟨stx, hmem, hstx⟩ := Except.ok_of_mem_left (cmdBuild_ok hb).safeTxs htx
    refine ⟨b, hb, stx, hmem, ?_⟩
    rw [decodeVaultTx_safeTx ⟨[]⟩ factory (multisendFor_official _) hstx]
    exact of_decide_eq_true hne

end Exact

end HarmonyMigration.Airdrop.VaultBatch
