import HarmonyMigration.Allocation.PoolConserved

/-! The exclusions file of `build-bridge-allocations.py`. Its rows are kept by pool and address only, so of
several rows for one account the last one decides, and a row of the pool hides the rows for every pool. -/

namespace HarmonyMigration.Allocation

open Erc20

/-- A row `chain,address,pool_id,reason`. -/
structure ExclusionRow where
  chain : String
  address : Address
  poolId : String
  reason : String

/-- `text or "*"`. -/
def orAny (text : String) : String := if text = "" then "*" else text

def ExclusionRow.key (r : ExclusionRow) : String × Address := (orAny r.poolId, r.address)

def ExclusionRow.exclusion (r : ExclusionRow) : Exclusion := ⟨orAny r.chain, r.reason⟩

/-- The loop of `main` over the file. -/
def loadExclusions (file : List ExclusionRow) : Dict (String × Address) Exclusion :=
  file.foldl (fun d r => d.insert r.key r.exclusion) .empty

/-! ### What the file asks for -/

/-- The row is for any chain, or for this one. -/
def ExclusionRow.OnChain (r : ExclusionRow) (holderChain : String) : Prop :=
  orAny r.chain = "*" ∨ orAny r.chain = holderChain

instance (r : ExclusionRow) (holderChain : String) : Decidable (r.OnChain holderChain) := inferInstanceAs (Decidable (_ ∨ _))

/-- The row excludes the account from the pool. -/
def ExclusionRow.Matches (r : ExclusionRow) (poolId holderChain : String) (account : Address) : Prop :=
  r.address = account ∧ (orAny r.poolId = poolId ∨ orAny r.poolId = "*") ∧ r.OnChain holderChain

/-- The last row under a pool's name and an account. -/
def lastFor (file : List ExclusionRow) (poolId : String) (account : Address) : Option ExclusionRow :=
  (file.filter fun r => r.key = (poolId, account)).getLast?

/-- The row that decides: the last one that names the pool, or else the last one for every pool. -/
def deciding (file : List ExclusionRow) (poolId : String) (account : Address) : Option ExclusionRow :=
  (lastFor file poolId account).or (lastFor file "*" account)

/-! ### What the build makes of it -/

theorem get?_loadExclusions (file : List ExclusionRow) (poolId : String) (account : Address) :
    (loadExclusions file).get? (poolId, account) = (lastFor file poolId account).map ExclusionRow.exclusion := by
  induction file using List.reverseRecOn with
  | nil => rfl
  | append_singleton file r ih =>
    rw [loadExclusions, List.foldl_append, List.foldl_cons, List.foldl_nil, Dict.get?_insert, lastFor, List.filter_append]
    by_cases hr : r.key = (poolId, account)
    · rw [if_pos hr.symm, List.filter_cons_of_pos (by simpa using hr), List.filter_nil, List.getLast?_concat]
      rfl
    · rw [if_neg (Ne.symm hr), List.filter_cons_of_neg (by simpa using hr), List.filter_nil, List.append_nil]
      exact ih

theorem exists_lastFor {file : List ExclusionRow} {r : ExclusionRow} {poolId : String} {account : Address} (hr : r ∈ file)
    (hkey : r.key = (poolId, account)) : ∃ r', lastFor file poolId account = some r' := by
  have hne : (file.filter fun r => r.key = (poolId, account)) ≠ [] :=
    List.ne_nil_of_mem (List.mem_filter.mpr ⟨hr, decide_eq_true hkey⟩)
  exact ⟨_, List.getLast?_eq_some_getLast hne⟩

/-- Where a row matches, some row decides. -/
theorem exists_deciding {file : List ExclusionRow} {r : ExclusionRow} {poolId holderChain : String} {account : Address}
    (hr : r ∈ file) (hmatches : r.Matches poolId holderChain account) : ∃ r', deciding file poolId account = some r' := by
  obtain ⟨haddress, hpool, -⟩ := hmatches
  unfold deciding
  cases h : lastFor file poolId account with
  | some r' => exact ⟨r', rfl⟩
  | none =>
    rcases hpool with hpool | hpool
    · obtain ⟨r', hr'⟩ := exists_lastFor hr (Prod.ext hpool haddress)
      rw [h] at hr'
      cases hr'
    · exact exists_lastFor hr (Prod.ext hpool haddress)

theorem byExclusion_loadExclusions {policy : Policy} {file : List ExclusionRow} (hfile : policy.exclusions = loadExclusions file)
    (poolId holderChain : String) (account : Address) (earlier : Status × String) :
    byExclusion poolId holderChain policy account earlier =
      match deciding file poolId account with
      | some r => if r.OnChain holderChain then (.excludedPolicy, r.reason) else earlier
      | none => earlier := by
  unfold byExclusion deciding
  rw [hfile, get?_loadExclusions, get?_loadExclusions]
  cases lastFor file poolId account with
  | some r => rfl
  | none => cases lastFor file "*" account <;> rfl

theorem statusFor_ne_policy (c : Option AccountClass) (holderChain : String) (claimChain : Option String) :
    (statusFor c holderChain claimChain).1 ≠ .excludedPolicy := by
  unfold statusFor
  split
  all_goals try split_ifs
  all_goals simp

/-- Only an exclusion or an override excludes by policy. -/
theorem bySystem_ne_policy (c : Option AccountClass) (holderChain : String) (claimChain : Option String) (policy : Policy)
    (account : Address) : (bySystem policy account (byClass c holderChain claimChain policy account)).1 ≠ .excludedPolicy := by
  have hclass : (byClass c holderChain claimChain policy account).1 ≠ .excludedPolicy := by
    unfold byClass
    split_ifs
    · cases he : contractElsewhere account holderChain claimChain policy.classes with
      | none => exact statusFor_ne_policy _ _ _
      | some r =>
        obtain ⟨p, -, hp⟩ := List.exists_of_findSome?_eq_some he
        simp only at hp
        split_ifs at hp
        rw [Option.getD_some, ← Option.some.inj hp]
        exact statusFor_ne_policy _ _ _
    · exact statusFor_ne_policy _ _ _
  unfold bySystem
  split
  · simp
  · split
    · simp
    · exact hclass

/-- Scaling neither takes nor gives an exclusion. -/
theorem allocate_excludedPolicy_iff (collateral eligible minimum : ℤ) (row : Row) :
    (allocate collateral eligible minimum row).status = .excludedPolicy ↔ row.status = .excludedPolicy := by
  rcases allocate_status collateral eligible minimum row with ⟨he, hst, -⟩ | ⟨he, hst, -⟩ | ⟨he, heq⟩
  · rw [hst]
    refine ⟨fun h => absurd h (by decide), fun h => ?_⟩
    rw [h] at he
    exact absurd he (by decide)
  · rw [hst]
  · rw [heq]

/-- An account without an override is excluded by policy exactly when the deciding row is for its chain. -/
theorem excludedPolicy_iff {policy : Policy} {file : List ExclusionRow} (hfile : policy.exclusions = loadExclusions file)
    {minimum : ℤ} {i : PoolInput} {s : Summary} {rows : List Row}
    (h : buildPool i.pool i.planPool policy i.state i.adjustments minimum = .ok (s, rows)) {row : Row} (hrow : row ∈ rows)
    (hnone : policy.overrides.get? (i.pool.poolId, row.account) = none ∧ policy.overrides.get? ("*", row.account) = none) :
    row.status = .excludedPolicy ↔
      ∃ r, deciding file i.pool.poolId row.account = some r ∧ r.OnChain i.planPool.claimantChain := by
  obtain ⟨classified, hcl, -, -, rfl, -, -, -, -⟩ := buildPool_ok h
  obtain ⟨before, hbefore, rfl⟩ := List.mem_map.mp hrow
  obtain ⟨a, -, ha⟩ := Except.ok_of_mem_right hcl hbefore
  obtain ⟨haccount, -⟩ := accountRow_account ha
  rw [allocate_account, haccount] at hnone
  rw [allocate_excludedPolicy_iff, allocate_account, haccount]
  obtain ⟨r, hr, rfl⟩ := Except.of_map_ok ha
  unfold decideAccount at hr
  simp only [hnone.1, hnone.2, Option.orElse_eq_orElse, Option.orElse_none, Except.ok.injEq] at hr
  rw [← hr, byExclusion_loadExclusions hfile]
  have hearlier := bySystem_ne_policy (classOf i.planPool.claimantChain policy i.holdings a) i.planPool.claimantChain
    (claimTarget i.pool policy.one).1 policy a
  cases hd : deciding file i.pool.poolId a with
  | none => simpa using hearlier
  | some r =>
    simp only [Option.some.injEq, exists_eq_left']
    by_cases hchain : r.OnChain i.planPool.claimantChain
    · rw [if_pos hchain]
      exact ⟨fun _ => hchain, fun _ => rfl⟩
    · rw [if_neg hchain]
      exact ⟨fun h => absurd h hearlier, fun h => absurd h hchain⟩

/-- An account without an override that a row of the file excludes is excluded by the build exactly when the
deciding row is for its chain. -/
theorem exclusion_effective_iff {policy : Policy} {file : List ExclusionRow}
    (hfile : policy.exclusions = loadExclusions file) {minimum : ℤ} {i : PoolInput} {s : Summary} {rows : List Row}
    (h : buildPool i.pool i.planPool policy i.state i.adjustments minimum = .ok (s, rows)) {row : Row} (hrow : row ∈ rows)
    (hnone : policy.overrides.get? (i.pool.poolId, row.account) = none ∧ policy.overrides.get? ("*", row.account) = none) :
    ((∃ r ∈ file, r.Matches i.pool.poolId i.planPool.claimantChain row.account) → row.status = .excludedPolicy) ↔
      ((∃ r ∈ file, r.Matches i.pool.poolId i.planPool.claimantChain row.account) →
        ∀ r, deciding file i.pool.poolId row.account = some r → r.OnChain i.planPool.claimantChain) := by
  have hiff := excludedPolicy_iff hfile h hrow hnone
  constructor
  · intro heffective hmatches r hr
    obtain ⟨r', hr', hchain⟩ := hiff.mp (heffective hmatches)
    rw [hr] at hr'
    cases hr'
    exact hchain
  · intro hdeciding hmatches
    obtain ⟨r, hr, hm⟩ := hmatches
    obtain ⟨r', hr'⟩ := exists_deciding hr hm
    exact hiff.mpr ⟨r', hr', hdeciding ⟨r, hr, hm⟩ r' hr'⟩

/-! ### The holder of 25 -/

def onEthereum : ExclusionRow := ⟨"ethereum", 0xabcdef, "", "reported theft"⟩

def onBsc : ExclusionRow := ⟨"bsc", 0xabcdef, "", "reported theft"⟩

/-- The statuses of the holder pool under a file of exclusions. -/
def statusesUnder (file : List ExclusionRow) : Option (List (Address × Status)) :=
  (buildPool (holderPool 25).pool (holderPool 25).planPool { holderPolicy with exclusions := loadExclusions file }
    (holderPool 25).state (holderPool 25).adjustments 0).toOption.map fun built =>
      built.2.map fun row => (row.account, row.status)

/-- A second row, for another chain, takes the first one's place. -/
theorem second_exclusion_hides_first :
    ¬∀ (policy : Policy) (file : List ExclusionRow), policy.exclusions = loadExclusions file →
      ∀ (minimum : ℤ) (i : PoolInput) (s : Summary) (rows : List Row),
        buildPool i.pool i.planPool policy i.state i.adjustments minimum = .ok (s, rows) → ∀ row ∈ rows,
          policy.overrides.get? (i.pool.poolId, row.account) = none ∧ policy.overrides.get? ("*", row.account) = none →
          (∃ r ∈ file, r.Matches i.pool.poolId i.planPool.claimantChain row.account) → row.status = .excludedPolicy := by
  intro hall
  have hstatus : statusesUnder [onEthereum, onBsc] = some [(0xabcdef, .claimable)] := by decide +kernel
  obtain ⟨built, h, hrows⟩ := Except.exists_ok_of_map hstatus
  obtain ⟨row, hrow, hstatus⟩ := List.mem_map.mp (hrows ▸ List.mem_singleton_self _)
  obtain ⟨haccount, hclaimable⟩ := Prod.mk.inj hstatus
  have hexcluded := hall _ _ rfl 0 (holderPool 25) built.1 built.2 h row hrow ⟨rfl, rfl⟩
    ⟨onEthereum, by simp, haccount.symm, by decide, by decide⟩
  rw [hclaimable] at hexcluded
  cases hexcluded

/-- One row, for the holder's chain. -/
theorem exclusion_effective_iff_single :
    ∃ s rows, buildPool (holderPool 25).pool (holderPool 25).planPool
        { holderPolicy with exclusions := loadExclusions [onEthereum] } (holderPool 25).state (holderPool 25).adjustments 0 =
          .ok (s, rows) ∧
      ∀ row ∈ rows,
        ((∃ r ∈ [onEthereum], r.Matches "ethereum-one" "ethereum" row.account) → row.status = .excludedPolicy) ↔
          ((∃ r ∈ [onEthereum], r.Matches "ethereum-one" "ethereum" row.account) →
            ∀ r, deciding [onEthereum] "ethereum-one" row.account = some r → r.OnChain "ethereum") := by
  have hstatus : statusesUnder [onEthereum] = some [(0xabcdef, .excludedPolicy)] := by decide +kernel
  obtain ⟨built, h, -⟩ := Except.exists_ok_of_map hstatus
  exact ⟨built.1, built.2, h, fun row hrow => exclusion_effective_iff rfl h hrow ⟨rfl, rfl⟩⟩

end HarmonyMigration.Allocation
