import HarmonyMigration.Claims.VaultShares
import HarmonyMigration.Routing.Conservation
import HarmonyMigration.Routing.FileOrder

/-! A successful run of `build-vault-share-allocation.py`, and a run of `apply-routes.py` on its files:
the stake of every delegation stays where it is accounted for. -/

namespace HarmonyMigration.Claims.VaultShares

open Erc20 Except Routing

variable {K : Keys} {b : Input} {s : Output} {claims claims' : Dict ℕ LedgerClaim} {assignments : Dict ℕ Category}

/-! ### The readers -/

theorem loadAllClaims_entries {rows : List LedgerRow} {previous : Option ℕ}
    (h : loadAllClaims rows previous claims = .ok claims') :
    claims'.entries = claims.entries ++ rows.map fun row => (row.key, row.claim) := by
  induction rows generalizing previous claims with
  | nil =>
    obtain rfl := Except.ok.inj h
    simp
  | cons row rest ih =>
    rw [loadAllClaims, require_bind_ok, require_bind_ok] at h
    obtain ⟨-, hnew, h⟩ := h
    obtain ⟨u, -, h⟩ := of_bind_ok h
    rw [require_bind_ok] at h
    rw [ih h.2, Dict.entries_insert_of_notMem hnew, List.append_assoc]
    rfl

theorem readAssignment_ok {row : ClaimRow} {claim : LedgerClaim} (h : readAssignment K claims row = .ok claim) :
    claims.get? row.key = some claim ∧ K.key row.address = row.key ∧ claim.address = row.address := by
  unfold readAssignment at h
  cases hget : claims.get? row.key with
  | none => simp [hget] at h
  | some expected =>
    rw [hget] at h
    dsimp only at h
    rw [require_bind_ok] at h
    obtain ⟨hkey, h⟩ := h
    obtain ⟨u, -, h⟩ := of_bind_ok h
    obtain ⟨u', hmatch, rfl⟩ := of_map_ok h
    exact ⟨rfl, hkey, (of_require_ok hmatch).2.2.2.1.symm⟩

theorem reader_loadCategory (K : Keys) (claims : Dict ℕ LedgerClaim) (category : Category) :
    Dict.Reader ClaimRow.key (fun row => (readAssignment K claims row).map fun _ => category)
      (loadCategory K claims category) where
  nil _ := rfl
  cons row rest d d' := by
    rw [loadCategory]
    refine ⟨fun h => ?_, ?_⟩
    · obtain ⟨c, hc, h⟩ := of_bind_ok h
      rw [require_bind_ok] at h
      exact ⟨h.1, category, by rw [hc]; rfl, h.2⟩
    · rintro ⟨hnew, v, hv, h⟩
      obtain ⟨c, hc, rfl⟩ := of_map_ok hv
      rw [hc, bind_ok_left, require_bind_ok]
      exact ⟨hnew, h⟩

/-- A row that is assigned to a category. -/
def Assigned (K : Keys) (claims : Dict ℕ LedgerClaim) (row : ClaimRow) : Prop :=
  ∃ claim, claims.get? row.key = some claim ∧ K.key row.address = row.key ∧ claim.address = row.address

theorem loadCategory_keys {category : Category} {rows : List ClaimRow} {d d' : Dict ℕ Category}
    (h : loadCategory K claims category rows d = .ok d') :
    d'.keys = d.keys ++ rows.map ClaimRow.key ∧ ∀ row ∈ rows, Assigned K claims row := by
  obtain ⟨-, -, es, hes, heq⟩ := (reader_loadCategory K claims category).ok_iff.mp h
  refine ⟨?_, fun row hrow => ?_⟩
  · rw [Dict.keys, heq, List.map_append, ← map_eq_of_forall₂ (f := ClaimRow.key) hes fun _ _ hx => hx.1]
    rfl
  · obtain ⟨e, -, -, hread⟩ := ok_of_mem_left hes hrow
    obtain ⟨claim, hclaim, -⟩ := of_map_ok hread
    exact ⟨claim, readAssignment_ok hclaim⟩

/-- The rows of the category files. -/
def categoryRows (b : Input) : List ClaimRow := b.automaticClaims ++ b.contractClaims ++ b.excludedClaims

theorem loadCategories_keys (h : loadCategories K b claims = .ok assignments) :
    assignments.keys = (categoryRows b).map ClaimRow.key ∧ ∀ row ∈ categoryRows b, Assigned K claims row := by
  unfold loadCategories at h
  obtain ⟨d1, h1, h⟩ := of_bind_ok h
  obtain ⟨d2, h2, h3⟩ := of_bind_ok h
  obtain ⟨hk1, hr1⟩ := loadCategory_keys h1
  obtain ⟨hk2, hr2⟩ := loadCategory_keys h2
  obtain ⟨hk3, hr3⟩ := loadCategory_keys h3
  refine ⟨?_, fun row hrow => ?_⟩
  · rw [hk3, hk2, hk1, categoryRows, List.map_append, List.map_append]
    rfl
  · rcases List.mem_append.mp hrow with hrow | hrow
    · rcases List.mem_append.mp hrow with hrow | hrow
      · exact hr1 row hrow
      · exact hr2 row hrow
    · exact hr3 row hrow

/-! ### The loop over the delegations -/

def stakedBy (rows : List ShareRow) (k : ℕ) : ℤ := ((rows.filter fun r => r.delegatorKey = k).map ShareRow.amount).sum

def stakedAt (rows : List ShareRow) (k : ℕ) : ℤ := ((rows.filter fun r => r.validatorKey = k).map ShareRow.amount).sum

theorem stakedBy_append (rows rows' : List ShareRow) (k : ℕ) :
    stakedBy (rows ++ rows') k = stakedBy rows k + stakedBy rows' k := by
  simp [stakedBy]

theorem stakedAt_append (rows rows' : List ShareRow) (k : ℕ) :
    stakedAt (rows ++ rows') k = stakedAt rows k + stakedAt rows' k := by
  simp [stakedAt]

theorem stakedAt_singleton (row : ShareRow) (k : ℕ) :
    stakedAt [row] k = if row.validatorKey = k then row.amount else 0 := by
  unfold stakedAt
  by_cases h : row.validatorKey = k <;> simp [h]

theorem stakedBy_singleton (row : ShareRow) (k : ℕ) :
    stakedBy [row] k = if row.delegatorKey = k then row.amount else 0 := by
  unfold stakedBy
  by_cases h : row.delegatorKey = k <;> simp [h]

theorem stakedAt_eq_zero {rows : List ShareRow} {k : ℕ} (h : ∀ r ∈ rows, r.validatorKey ≠ k) : stakedAt rows k = 0 := by
  rw [stakedAt, List.filter_eq_nil_iff.mpr fun r hr => by simpa using h r hr]
  rfl

/-- A vault holds the delegations of its validator. -/
structure VaultOf (K : Keys) (s : Shares) (done : List ShareRow) (k : ℕ) (v : Vault) : Prop where
  key : v.validatorKey = k
  address : K.key v.validatorAddress = k
  assets : v.assets = stakedAt done k
  priority : v.priorityStaked = stakedAt s.priorityRows k
  deferred : v.deferredStaked = stakedAt s.deferredRows k

/-- What holds after the rows `done`. -/
structure Inv (K : Keys) (claims : Dict ℕ LedgerClaim) (assignments : Dict ℕ Category) (done : List ShareRow)
    (s : Shares) : Prop where
  pairs : s.seenPairs = done.map ShareRow.pair
  nodup : (done.map ShareRow.pair).Nodup
  row : ∀ r ∈ done, K.key r.validatorAddress = r.validatorKey ∧ K.key r.delegatorAddress = r.delegatorKey ∧
    0 < r.amount ∧ ∃ claim, claims.get? r.delegatorKey = some claim ∧ claim.address = r.delegatorAddress
  byDelegator : ∀ k, s.byDelegator.getD k 0 = stakedBy done k
  priority : s.priorityRows = done.filter fun r => r.delegatorKey ∈ assignments.keys
  deferred : s.deferredRows = done.filter fun r => r.delegatorKey ∉ assignments.keys
  vaultKeys : ∀ k, k ∈ s.byValidator.keys ↔ ∃ r ∈ done, r.validatorKey = k
  vault : ∀ k v, s.byValidator.get? k = some v → VaultOf K s done k v

theorem inv_start (K : Keys) (claims : Dict ℕ LedgerClaim) (assignments : Dict ℕ Category) :
    Inv K claims assignments [] ⟨.empty, .empty, [], [], []⟩ where
  pairs := rfl
  nodup := List.nodup_nil
  row := by simp
  byDelegator k := by simp [Dict.getD, Dict.get?, Dict.empty, stakedBy]
  priority := rfl
  deferred := rfl
  vaultKeys k := by simp [Dict.keys, Dict.empty]
  vault k v h := by simp [Dict.get?, Dict.empty] at h

theorem addDelegation_inv {row : ShareRow} {done : List ShareRow} {t t' : Shares}
    (h : addDelegation K claims assignments row t = .ok t') (hi : Inv K claims assignments done t) :
    Inv K claims assignments (done ++ [row]) t' := by
  unfold addDelegation at h
  rw [require_bind_ok, require_bind_ok, require_bind_ok] at h
  obtain ⟨⟨hvkey, hdkey⟩, hnew, hpos, h⟩ := h
  cases hclaim : claims.get? row.delegatorKey with
  | none => simp [hclaim] at h
  | some claim =>
    rw [hclaim] at h
    dsimp only at h
    rw [require_bind_ok] at h
    obtain ⟨haddress, h⟩ := h
    obtain ⟨u, hvault, rfl⟩ := of_map_ok h
    have hvault := of_require_ok hvault
    rw [hi.pairs] at hnew
    have hpriority : (if row.delegatorKey ∈ assignments.keys then t.priorityRows ++ [row] else t.priorityRows) =
        (done ++ [row]).filter fun r => r.delegatorKey ∈ assignments.keys := by
      rw [List.filter_append, ← hi.priority]
      split_ifs with hp <;> simp [hp]
    have hdeferred : (if row.delegatorKey ∈ assignments.keys then t.deferredRows else t.deferredRows ++ [row]) =
        (done ++ [row]).filter fun r => r.delegatorKey ∉ assignments.keys := by
      rw [List.filter_append, ← hi.deferred]
      split_ifs with hp <;> simp [hp]
    refine ⟨?_, ?_, ?_, ?_, ?_, ?_, ?_, ?_⟩
    · rw [hi.pairs, List.map_append]
      rfl
    · rw [List.map_append, List.nodup_append]
      refine ⟨hi.nodup, List.nodup_singleton _, ?_⟩
      rintro a ha c hc rfl
      rw [List.mem_singleton.mp hc] at ha
      exact hnew ha
    · intro r hr
      rcases List.mem_append.mp hr with hr | hr
      · exact hi.row r hr
      · rw [List.mem_singleton.mp hr]
        exact ⟨hvkey, hdkey, hpos, claim, hclaim, haddress⟩
    · intro k
      rw [Dict.add, Dict.getD_insert, stakedBy_append, stakedBy_singleton, ← hi.byDelegator]
      by_cases hk : k = row.delegatorKey
      · simp [hk]
      · simp [hk, Ne.symm hk]
    · simpa only [decide_eq_true_eq] using hpriority
    · simpa only [decide_eq_true_eq] using hdeferred
    · intro k
      rw [Dict.mem_keys_insert, hi.vaultKeys]
      simp only [List.mem_append, List.mem_singleton, or_and_right, exists_or, exists_eq_left]
      rw [or_comm, eq_comm]
    · intro k v hv
      rw [Dict.get?_insert] at hv
      split_ifs at hv with hk
      · -- the validator of the row: its vault so far is one of the delegations before
        subst hk
        have hold : VaultOf K t done row.validatorKey
            (t.byValidator.getD row.validatorKey ⟨row.validatorAddress, row.validatorKey, 0, 0, 0, 0⟩) := by
          cases hget : t.byValidator.get? row.validatorKey with
          | some w =>
            rw [Dict.getD, hget]
            exact hi.vault _ _ hget
          | none =>
            have hnone : ∀ r ∈ done, r.validatorKey ≠ row.validatorKey := fun r hr heq =>
              Dict.get?_eq_none_iff.mp hget ((hi.vaultKeys _).mpr ⟨r, hr, heq⟩)
            rw [Dict.getD, hget]
            refine ⟨rfl, hvkey, (stakedAt_eq_zero hnone).symm, (stakedAt_eq_zero fun r hr => ?_).symm,
              (stakedAt_eq_zero fun r hr => ?_).symm⟩
            · exact hnone r (List.mem_of_mem_filter (hi.priority ▸ hr))
            · exact hnone r (List.mem_of_mem_filter (hi.deferred ▸ hr))
        obtain rfl := Option.some.inj hv
        refine ⟨hold.key, hold.address, ?_, ?_, ?_⟩
        · simp only [Vault.addRow, hold.assets, stakedAt_append, stakedAt_singleton, if_true]
        · simp only [Vault.addRow, hold.priority, decide_eq_true_eq]
          split_ifs with hp
          · rw [stakedAt_append, stakedAt_singleton, if_pos rfl]
          · rfl
        · simp only [Vault.addRow, hold.deferred, decide_eq_true_eq]
          split_ifs with hp
          · rfl
          · rw [stakedAt_append, stakedAt_singleton, if_pos rfl]
      · have hne : row.validatorKey ≠ k := Ne.symm hk
        have hold := hi.vault k v hv
        refine ⟨hold.key, hold.address, ?_, ?_, ?_⟩
        · rw [hold.assets, stakedAt_append, stakedAt_singleton, if_neg hne, add_zero]
        · rw [hold.priority]
          dsimp only
          split_ifs with hp
          · rw [stakedAt_append, stakedAt_singleton, if_neg hne, add_zero]
          · rfl
        · rw [hold.deferred]
          dsimp only
          split_ifs with hp
          · rfl
          · rw [stakedAt_append, stakedAt_singleton, if_neg hne, add_zero]

theorem addDelegations_inv {rows done : List ShareRow} {t t' : Shares}
    (h : addDelegations K claims assignments rows t = .ok t') (hi : Inv K claims assignments done t) :
    Inv K claims assignments (done ++ rows) t' := by
  induction rows generalizing done t with
  | nil =>
    obtain rfl := Except.ok.inj h
    simpa using hi
  | cons row rest ih =>
    obtain ⟨t1, hstep, h⟩ := of_bind_ok h
    have := ih h (addDelegation_inv hstep hi)
    rwa [List.append_assoc, List.singleton_append] at this

/-! ### A whole run -/

structure BuildRun (K : Keys) (b : Input) (s : Output) where
  claims : Dict ℕ LedgerClaim
  assignments : Dict ℕ Category
  shares : Shares
  claims_ok : loadAllClaims b.allClaims none .empty = .ok claims
  assignments_ok : loadCategories K b claims = .ok assignments
  priority_iff : ∀ k, k ∈ assignments.keys ↔ ∃ e ∈ claims.entries, e.1 = k ∧ b.minimum ≤ e.2.qualification
  inv : Inv K claims assignments b.delegations shares
  staked : ∀ e ∈ claims.entries, shares.byDelegator.getD e.1 0 = e.2.staked
  vaults_eq : s.vaults = shares.byValidator.values.insertionSort fun a b => a.validatorKey ≤ b.validatorKey
  priority_perm : s.priorityShares.Perm shares.priorityRows
  deferred_perm : s.deferredShares.Perm shares.deferredRows

theorem buildRun_of_main (h : main K b = .ok s) : Nonempty (BuildRun K b s) := by
  unfold main at h
  obtain ⟨claims, hclaims, h⟩ := of_bind_ok h
  obtain ⟨assignments, hassign, h⟩ := of_bind_ok h
  rw [require_bind_ok] at h
  obtain ⟨⟨h1, h2⟩, h⟩ := h
  obtain ⟨shares, hshares, h⟩ := of_bind_ok h
  rw [require_bind_ok, require_bind_ok] at h
  obtain ⟨hstaked, -, h⟩ := h
  obtain ⟨u, -, rfl⟩ := of_map_ok h
  have hinv := addDelegations_inv hshares (inv_start K claims assignments)
  rw [List.nil_append] at hinv
  have hmem : ∀ k, k ∈ (claims.entries.filter fun e => b.minimum ≤ e.2.qualification).map Prod.fst ↔
      ∃ e ∈ claims.entries, e.1 = k ∧ b.minimum ≤ e.2.qualification := fun k => by
    simp only [List.mem_map, List.mem_filter, decide_eq_true_iff]
    exact ⟨fun ⟨e, ⟨he, hq⟩, hk⟩ => ⟨e, he, hk, hq⟩, fun ⟨e, he, hk, hq⟩ => ⟨e, ⟨he, hq⟩, hk⟩⟩
  exact ⟨claims, assignments, shares, hclaims, hassign,
    fun k => ⟨fun hk => (hmem k).mp (h1 k hk), fun hk => h2 k ((hmem k).mpr hk)⟩, hinv, hstaked, rfl,
    List.perm_insertionSort _ _, List.perm_insertionSort _ _⟩

namespace BuildRun

theorem claims_entries (r : BuildRun K b s) : r.claims.entries = b.allClaims.map fun row => (row.key, row.claim) := by
  have := loadAllClaims_entries r.claims_ok
  simpa [Dict.empty] using this

theorem shares_perm (r : BuildRun K b s) : (s.priorityShares ++ s.deferredShares).Perm b.delegations := by
  refine (r.priority_perm.append r.deferred_perm).trans ?_
  rw [r.inv.priority, r.inv.deferred]
  have := List.filter_append_perm (fun x : ShareRow => decide (x.delegatorKey ∈ r.assignments.keys)) b.delegations
  simpa using this

theorem mem_priority (r : BuildRun K b s) (row : ShareRow) :
    row ∈ s.priorityShares ↔ row ∈ b.delegations ∧ row.delegatorKey ∈ r.assignments.keys := by
  rw [r.priority_perm.mem_iff, r.inv.priority, List.mem_filter, decide_eq_true_iff]

theorem mem_deferred (r : BuildRun K b s) (row : ShareRow) :
    row ∈ s.deferredShares ↔ row ∈ b.delegations ∧ row.delegatorKey ∉ r.assignments.keys := by
  rw [r.deferred_perm.mem_iff, r.inv.deferred, List.mem_filter, decide_eq_true_iff]

/-- The ledger row of a delegator; its qualification decides about the delegation. -/
theorem delegator_row (r : BuildRun K b s) {row : ShareRow} (h : row ∈ b.delegations) :
    ∃ x ∈ b.allClaims, x.key = row.delegatorKey ∧ x.address = row.delegatorAddress ∧
      (row.delegatorKey ∈ r.assignments.keys ↔ b.minimum ≤ x.qualification.getD x.total) := by
  obtain ⟨-, -, -, claim, hclaim, haddress⟩ := r.inv.row row h
  have hentry := Dict.get?_eq_some_iff.mp hclaim
  have hmem := hentry
  rw [r.claims_entries] at hmem
  obtain ⟨x, hx, heq⟩ := List.mem_map.mp hmem
  obtain ⟨hkey, rfl⟩ := Prod.mk.inj heq
  refine ⟨x, hx, hkey, haddress, ?_⟩
  rw [r.priority_iff]
  refine ⟨?_, fun hq => ⟨_, hentry, rfl, hq⟩⟩
  rintro ⟨e, he, hk, hq⟩
  have hget := Dict.get?_eq_some_iff.mpr (show (row.delegatorKey, e.2) ∈ r.claims.entries from hk ▸ he)
  rw [hclaim] at hget
  rw [← Option.some.inj hget] at hq
  exact hq

theorem mem_vaults (r : BuildRun K b s) {v : Vault} (h : v ∈ s.vaults) :
    VaultOf K r.shares b.delegations v.validatorKey v := by
  rw [r.vaults_eq, List.mem_insertionSort] at h
  obtain ⟨e, he, rfl⟩ := List.mem_map.mp h
  have hvault := r.inv.vault _ _ (Dict.get?_eq_some_iff.mpr he)
  rw [hvault.key]
  exact hvault

theorem vault_of_delegation (r : BuildRun K b s) {row : ShareRow} (h : row ∈ b.delegations) :
    ∃ v ∈ s.vaults, v.validatorKey = row.validatorKey := by
  obtain ⟨v, hv⟩ := Dict.exists_of_mem_keys ((r.inv.vaultKeys _).mpr ⟨row, h, rfl⟩)
  refine ⟨v, ?_, (r.inv.vault _ _ (Dict.get?_eq_some_iff.mpr hv)).key⟩
  rw [r.vaults_eq, List.mem_insertionSort]
  exact List.mem_map.mpr ⟨_, hv, rfl⟩

theorem vault_conserved (r : BuildRun K b s) {v : Vault} (h : v ∈ s.vaults) :
    v.assets = v.priorityStaked + v.deferredStaked ∧ v.assets = stakedAt b.delegations v.validatorKey ∧
      v.priorityStaked = stakedAt s.priorityShares v.validatorKey ∧
      v.deferredStaked = stakedAt s.deferredShares v.validatorKey := by
  have hvault := r.mem_vaults h
  have hp : v.priorityStaked = stakedAt s.priorityShares v.validatorKey := by
    rw [hvault.priority, stakedAt, stakedAt, ((r.priority_perm.filter _).map ShareRow.amount).sum_eq]
  have hd : v.deferredStaked = stakedAt s.deferredShares v.validatorKey := by
    rw [hvault.deferred, stakedAt, stakedAt, ((r.deferred_perm.filter _).map ShareRow.amount).sum_eq]
  refine ⟨?_, hvault.assets, hp, hd⟩
  rw [hp, hd, hvault.assets, ← stakedAt_append, stakedAt, stakedAt,
    ((r.shares_perm.filter _).map ShareRow.amount).sum_eq]

theorem delegator_conserved (r : BuildRun K b s) {x : LedgerRow} (h : x ∈ b.allClaims) :
    stakedBy b.delegations x.key = x.staked := by
  rw [← r.inv.byDelegator]
  refine r.staked (x.key, x.claim) ?_
  rw [r.claims_entries]
  exact List.mem_map_of_mem h

/-- Delegators outside the category files are outside by address as well. -/
theorem address_not_mem (r : BuildRun K b s) {row : ShareRow} (h : row ∈ b.delegations)
    (hk : row.delegatorKey ∉ r.assignments.keys) : ∀ x ∈ categoryRows b, x.address ≠ row.delegatorAddress := by
  obtain ⟨hkeys, hassigned⟩ := loadCategories_keys r.assignments_ok
  intro x hx heq
  obtain ⟨-, -, hkey, -⟩ := hassigned x hx
  refine hk ?_
  rw [hkeys, ← (r.inv.row row h).2.1, ← heq, hkey]
  exact List.mem_map_of_mem hx

end BuildRun

/-! ### The routing of the files -/

/-- `apply-routes.py` on the files of a build. -/
structure RoutedFiles (b : Input) (s : Output) (i : Routing.Input) : Prop where
  allClaims : i.allClaims = b.allClaims.map LedgerRow.toClaimRow
  automaticClaims : i.automaticClaims = b.automaticClaims
  contractClaims : i.contractClaims = b.contractClaims
  excludedClaims : i.excludedClaims = b.excludedClaims
  priorityShares : i.priorityShares = s.priorityShares
  deferredShares : i.deferredShares = s.deferredShares
  baseVaultDeposits : i.baseVaultDeposits = s.vaults.map fun v => ⟨v.validatorKey, v.validatorAddress, v.assets⟩

/-- The represented assets of a validator are its loaded positions. -/
theorem representedAssets_eq {i : Routing.Input} {l : Loaded} {c : Compiled} (r : CompileRun K i l c) (a : Address) :
    representedAssets c.shareRows a =
      ((l.positions.filter fun p => p.validatorAddress = a).map Position.remaining).sum := by
  have hbodies := r.bodies
  have hsum : representedAssets c.shareRows a =
      ((sortedSources l).map fun x => heldAt (positionsOf l.positions x.address) (K.key a)).sum := by
    have hkey : ∀ row ∈ c.shareRows, (row.validatorAddress = a ↔ row.validatorKey = K.key a) := fun row hrow => by
      obtain ⟨x, -, rows, hbody, hm⟩ := r.shareRow_source hrow
      rw [(r.delegator_of_cutFrom ((r.sourceRows hbody).shareRow row hm).2).2.2, K.injective.eq_iff]
    have hfilter : (c.shareRows.filter fun row => row.validatorAddress = a) =
        c.shareRows.filter fun row => row.validatorKey = K.key a :=
      List.filter_congr fun row hrow => by rw [decide_eq_decide]; exact hkey row hrow
    rw [representedAssets, hfilter, ((r.shareRows_perm.filter _).map CompiledShare.amount).sum_eq, List.filter_flatten,
      List.map_flatten, List.sum_flatten, List.map_map, List.map_map, List.map_map]
    refine congrArg List.sum (map_eq_of_forall₂ hbodies fun x rows hbody => ?_).symm
    exact ((r.sourceRows hbody).shares (K.key a)).symm
  have hheld : ∀ x : Source, heldAt (positionsOf l.positions x.address) (K.key a) =
      (((l.positions.filter fun p => p.validatorAddress = a).filter fun p => p.delegatorAddress = x.address).map
        Position.remaining).sum := fun x => by
    have hperm : (positionsOf l.positions x.address).Perm (l.positions.filter fun p => p.delegatorAddress = x.address) :=
      List.perm_insertionSort _ _
    rw [heldAt, ((hperm.filter _).map Position.remaining).sum_eq, List.filter_filter, List.filter_filter]
    refine congrArg (fun ps => (List.map Position.remaining ps).sum) (List.filter_congr fun p hp => ?_)
    have hvalidator : p.validatorKey = K.key a ↔ p.validatorAddress = a := by
      rw [(r.load.position_ok hp).1, K.injective.eq_iff]
    simp only [hvalidator, Bool.and_comm]
  have hpartition := Dict.sum_by_key (P := fun _ => true) r.addresses_nodup (k := Position.delegatorAddress)
    (v := Position.remaining) (l := l.positions.filter fun p => p.validatorAddress = a) fun p hp => by
      obtain ⟨-, -, -, x, hx, -⟩ := r.load.position_ok (List.mem_of_mem_filter hp)
      obtain ⟨haddress, -⟩ := r.load.source_address hx
      exact List.mem_map.mpr ⟨x, CompileRun.mem_sortedSources.mpr (List.mem_map.mpr ⟨_, hx, rfl⟩), haddress⟩
  rw [hsum, List.map_congr_left fun x _ => hheld x]
  simpa [List.map_map, Function.comp_def] using hpartition

/-- A deferred delegator is loaded exactly when it has a route. -/
theorem mem_sources_iff {i : Routing.Input} {l : Loaded} (r : BuildRun K b s) (f : RoutedFiles b s i)
    (run : LoadRun K i l) {row : ShareRow} (h : row ∈ s.deferredShares) :
    row.delegatorAddress ∈ l.sources.keys ↔ row.delegatorAddress ∈ i.routes.flatten.map RouteRow.source := by
  obtain ⟨hmem, hk⟩ := (r.mem_deferred row).mp h
  have hnot := r.address_not_mem hmem hk
  have hcat : row.delegatorAddress ∉ (Routing.categoryRows i).map fun x => x.2.address := by
    intro hm
    obtain ⟨x, hx, heq⟩ := List.mem_map.mp hm
    refine hnot x.2 ?_ heq
    simp only [Routing.categoryRows, f.automaticClaims, f.contractClaims, f.excludedClaims, List.mem_append,
      List.mem_map] at hx
    simp only [categoryRows, List.mem_append]
    rcases hx with (⟨y, hy, rfl⟩ | ⟨y, hy, rfl⟩) | ⟨y, hy, rfl⟩
    · exact Or.inl (Or.inl hy)
    · exact Or.inl (Or.inr hy)
    · exact Or.inr hy
  have hkeys : l.sources.keys = (Routing.categoryRows i ++ run.deferredRows.map (Prod.mk Category.deferred)).map
      fun x => x.2.address := by
    rw [run.sources_eq, Dict.keys_mapValues]
    exact keys_of_forall₂ run.claims_entries
  have hdeferred : run.deferredRows = firstWanted i.allClaims run.wanted := rfl
  rw [hkeys, List.map_append, List.mem_append, or_iff_right hcat, hdeferred]
  refine ⟨fun hm => ?_, fun hm => ?_⟩
  · obtain ⟨x, hx, heq⟩ := List.mem_map.mp hm
    obtain ⟨y, hy, rfl⟩ := List.mem_map.mp hx
    exact heq ▸ ((run.mem_wanted _).mp (mem_firstWanted hy).2).1
  · obtain ⟨x, hx, -, haddress, -⟩ := r.delegator_row hmem
    have hall : row.delegatorAddress ∈ i.allClaims.map ClaimRow.address := by
      rw [f.allClaims, List.map_map]
      exact List.mem_map.mpr ⟨x, hx, haddress⟩
    have := address_mem_firstWanted hall ((run.mem_wanted _).mpr ⟨hm, hcat⟩)
    rw [List.map_map]
    exact this

/-- The positions at a validator are the shares there whose delegator has a claim. -/
theorem sum_positions (sources : Dict Address Source) (a : Address) (rows : List ShareRow) :
    (((rows.filterMap (positionOf sources)).filter fun p => p.validatorAddress = a).map Position.remaining).sum =
      ((rows.filter fun r => r.validatorAddress = a ∧ r.delegatorAddress ∈ sources.keys).map ShareRow.amount).sum := by
  induction rows with
  | nil => rfl
  | cons row rest ih =>
    cases hget : sources.get? row.delegatorAddress with
    | none =>
      have hnone : row.delegatorAddress ∉ sources.keys := Dict.get?_eq_none_iff.mp hget
      have hpos : positionOf sources row = none := by rw [positionOf, hget]; rfl
      rw [List.filterMap_cons_none hpos, ih, List.filter_cons_of_neg (by simp [hnone])]
    | some source =>
      have hsome : row.delegatorAddress ∈ sources.keys := Dict.mem_keys (Dict.get?_eq_some_iff.mp hget)
      have hpos : positionOf sources row = some (row.position source) := by rw [positionOf, hget]; rfl
      rw [List.filterMap_cons_some hpos]
      by_cases ha : row.validatorAddress = a
      · rw [List.filter_cons_of_pos (by simp [ShareRow.position, ha]),
          List.filter_cons_of_pos (by simp [ha, hsome]), List.map_cons, List.map_cons, List.sum_cons, List.sum_cons, ih]
        rfl
      · rw [List.filter_cons_of_neg (by simp [ShareRow.position, ha]), List.filter_cons_of_neg (by simp [ha]), ih]

/-- What the routing leaves out at a validator: the deferred shares of the delegators without a route. -/
def unrouted (i : Routing.Input) (s : Output) (a : Address) : ℤ :=
  ((s.deferredShares.filter fun r =>
    r.validatorAddress = a ∧ r.delegatorAddress ∉ i.routes.flatten.map RouteRow.source).map ShareRow.amount).sum

/-- The delegations at a validator are represented, or deferred and without a route. -/
theorem represented_add_unrouted {i : Routing.Input} {l : Loaded} {c : Compiled} (r : BuildRun K b s)
    (f : RoutedFiles b s i) (run : CompileRun K i l c) (a : Address) :
    representedAssets c.shareRows a + unrouted i s a = stakedAt b.delegations (K.key a) := by
  obtain ⟨hpositions, -, hpriority, -⟩ := run.load.positions_eq
  have hdelegations : stakedAt b.delegations (K.key a) =
      (((s.priorityShares ++ s.deferredShares).filter fun r => r.validatorAddress = a).map ShareRow.amount).sum := by
    rw [stakedAt, ← ((r.shares_perm.filter _).map ShareRow.amount).sum_eq]
    refine congrArg (fun rows => (List.map ShareRow.amount rows).sum) (List.filter_congr fun row hrow => ?_)
    rw [← (r.inv.row row (r.shares_perm.mem_iff.mp hrow)).1]
    simp only [K.injective.eq_iff]
  have hunrouted : unrouted i s a = (((s.priorityShares ++ s.deferredShares).filter fun r =>
      r.validatorAddress = a ∧ r.delegatorAddress ∉ l.sources.keys).map ShareRow.amount).sum := by
    have hnil : (s.priorityShares.filter fun r => r.validatorAddress = a ∧ r.delegatorAddress ∉ l.sources.keys) = [] :=
      List.filter_eq_nil_iff.mpr fun row hrow => by
        have hknown := (hpriority row (f.priorityShares ▸ hrow)).known rfl
        simp [hknown]
    rw [List.filter_append, hnil, List.nil_append, unrouted]
    refine congrArg (fun rows => (List.map ShareRow.amount rows).sum) (List.filter_congr fun row hrow => ?_)
    simp only [mem_sources_iff r f run.load hrow]
  rw [representedAssets_eq run, hpositions, f.priorityShares, f.deferredShares, sum_positions, hunrouted, hdelegations]
  have hsplit := (List.filter_append_perm (fun r : ShareRow => decide (r.delegatorAddress ∈ l.sources.keys))
    ((s.priorityShares ++ s.deferredShares).filter fun r => r.validatorAddress = a)).map ShareRow.amount
  rw [← hsplit.sum_eq, List.map_append, List.sum_append, List.filter_filter, List.filter_filter]
  simp only [Bool.decide_and, Bool.and_comm, decide_not]

/-- Every delegation is in one of the two share files, every vault holds the delegations of its
validator, every delegator has its staked claim; and whatever is then routed, a vault keeps exactly the
delegations that are neither withheld nor released to an exchange. -/
theorem stake_conserved (h : main K b = .ok s) :
    (s.priorityShares ++ s.deferredShares).Perm b.delegations ∧ (b.delegations.map ShareRow.pair).Nodup ∧
      (∀ row ∈ b.delegations, ∃ x ∈ b.allClaims, x.address = row.delegatorAddress ∧ x.key = row.delegatorKey ∧
        (row ∈ s.priorityShares ↔ b.minimum ≤ x.qualification.getD x.total) ∧
        (row ∈ s.deferredShares ↔ ¬b.minimum ≤ x.qualification.getD x.total)) ∧
      (∀ row ∈ b.delegations, ∃ v ∈ s.vaults, v.validatorKey = row.validatorKey) ∧
      (∀ v ∈ s.vaults, v.assets = v.priorityStaked + v.deferredStaked ∧
        v.assets = stakedAt b.delegations v.validatorKey ∧
        v.priorityStaked = stakedAt s.priorityShares v.validatorKey ∧
        v.deferredStaked = stakedAt s.deferredShares v.validatorKey) ∧
      (∀ x ∈ b.allClaims, stakedBy b.delegations x.key = x.staked) ∧
      ∀ i o, RoutedFiles b s i → Routing.main K i = .ok o →
        (o.vaultStages.map VaultStageRow.validatorAddress).Perm (s.vaults.map Vault.validatorAddress) ∧
        ∀ v ∈ o.vaultStages, v.uncompiledDeferred = unrouted i s v.validatorAddress ∧
          v.postPolicy = stakedAt b.delegations (K.key v.validatorAddress) -
            stagedAssets o.compiled.shareRows v.validatorAddress .notIssued -
            stagedAssets o.compiled.shareRows v.validatorAddress (.stage .exchangeManual) := by
  obtain ⟨r⟩ := buildRun_of_main h
  refine ⟨r.shares_perm, r.inv.nodup, fun row hrow => ?_, fun row hrow => r.vault_of_delegation hrow,
    fun v hv => r.vault_conserved hv, fun x hx => r.delegator_conserved hx, fun i o f hroute => ?_⟩
  · obtain ⟨x, hx, hkey, haddress, hiff⟩ := r.delegator_row hrow
    refine ⟨x, hx, haddress, hkey, ?_, ?_⟩
    · rw [r.mem_priority, ← hiff]
      exact and_iff_right hrow
    · rw [r.mem_deferred, ← hiff]
      exact and_iff_right hrow
  · obtain ⟨run⟩ := mainRun_of_main hroute
    refine ⟨?_, fun v hv => ?_⟩
    · have := vaultStages_addresses run.vaults_ok
      rwa [f.baseVaultDeposits, List.map_map] at this
    · obtain ⟨base, hbase, rfl, -, -⟩ := vaultStageRow_of_mem run.vaults_ok hv
      rw [f.baseVaultDeposits] at hbase
      obtain ⟨vault, hvault, rfl⟩ := List.mem_map.mp hbase
      have hassets : vault.assets = stakedAt b.delegations (K.key vault.validatorAddress) := by
        rw [(r.mem_vaults hvault).address, (r.vault_conserved hvault).2.1]
      have hsum := represented_add_unrouted r f run.compile vault.validatorAddress
      simp only [vaultStageRow]
      refine ⟨by omega, by rw [hassets]⟩

/-- A claim over the threshold and two under it; the second of these has a route. -/
def threeDelegators : Input where
  allClaims := [⟨⟨0x10, 0x10#160, 100, 50, 150, 0, none, emptyCodeHash, ""⟩, none⟩,
    ⟨⟨0x11, 0x11#160, 0, 7, 7, 0, none, emptyCodeHash, ""⟩, none⟩,
    ⟨⟨0x12, 0x12#160, 0, 9, 9, 0, none, emptyCodeHash, ""⟩, none⟩]
  delegations := [⟨1, 0x1#160, 0x10, 0x10#160, 30⟩, ⟨1, 0x1#160, 0x11, 0x11#160, 7⟩, ⟨1, 0x1#160, 0x12, 0x12#160, 9⟩,
    ⟨2, 0x2#160, 0x10, 0x10#160, 20⟩]
  automaticClaims := [⟨0x10, 0x10#160, 100, 50, 150, 0, none, emptyCodeHash, ""⟩]
  contractClaims := []
  excludedClaims := []
  minimum := 100

/-- The routing of its files, with one route. -/
def threeRouted (s : Output) : Routing.Input where
  allClaims := threeDelegators.allClaims.map LedgerRow.toClaimRow
  automaticClaims := threeDelegators.automaticClaims
  contractClaims := []
  excludedClaims := []
  priorityShares := s.priorityShares
  deferredShares := s.deferredShares
  baseVaultDeposits := s.vaults.map fun v => ⟨v.validatorKey, v.validatorAddress, v.assets⟩
  validatorAccounts := []
  validatorState := false
  validatorPath := "validators.csv"
  migrationStages :=
    [{ key := 0x10, address := 0x10#160, classification := .wallet, contractCategory := none, group := .wallet,
       routingCategory := .automaticPolicy, stage := .initial, treatment := .issue, qualification := 150, gross := 150,
       existingNonIssuance := 0, historicalRetainedCap := 0, woneSourceOffset := 0, contractNonIssuance := 0,
       contractWalletNonIssuance := 0, contractStakedNonIssuance := 0, wallet := 100, staked := 50, allocation := 150,
       lastActivity := none, reason := "", meetsThreshold := true }]
  routes := [[⟨"late", 200, 0x12#160, "elsewhere", none, none, .all, .walletFirstProRataVault, "", "", none⟩]]
  destinations := [[⟨"elsewhere", some 0x20#160, .ready⟩]]
  governors := []
  policyDecisions := decidedPolicies

theorem stake_conserved_three :
    ∃ s o, main addressKeys threeDelegators = .ok s ∧ Routing.main addressKeys (threeRouted s) = .ok o ∧
      (s.priorityShares ++ s.deferredShares).Perm threeDelegators.delegations ∧
      ∀ v ∈ o.vaultStages, v.uncompiledDeferred = unrouted (threeRouted s) s v.validatorAddress := by
  have hrun : ((main addressKeys threeDelegators).toOption.map fun s =>
      (Routing.main addressKeys (threeRouted s)).toBool) = some true := by decide +kernel
  obtain ⟨s, hmain, hrouted⟩ := Except.exists_ok_of_map hrun
  obtain ⟨o, hroute⟩ := Except.exists_ok_of_toBool hrouted
  have hall := stake_conserved hmain
  have hfiles : RoutedFiles threeDelegators s (threeRouted s) := ⟨rfl, rfl, rfl, rfl, rfl, rfl, rfl⟩
  exact ⟨s, o, hmain, hroute, hall.1, fun v hv => ((hall.2.2.2.2.2.2 _ _ hfiles hroute).2 v hv).1⟩

end HarmonyMigration.Claims.VaultShares
