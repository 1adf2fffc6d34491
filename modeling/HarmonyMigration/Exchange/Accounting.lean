import HarmonyMigration.Claims.Basic
import HarmonyMigration.Lib.Decimal
import HarmonyMigration.Lib.Except
import HarmonyMigration.Lib.Group

/-! `build-exchange-accounting.py`: the audit rows of an exchange's wallets, and the totals that are published from them. -/

namespace HarmonyMigration.ExchangeAccounting

open Decimal Except
open Claims (Stage Treatment)

inductive AccountingError
  | woneCensus (address : Text)
  | qualificationTotal
  | destinationComponents
  | balanceScope (scope : Text)
  | missingCategory (address : Text)
  | belowThresholdCategory (address : Text)
  | missingStage (address : Text)
  | allocationExceedsClaim
  | allocationSplit
  | missingActivity (address : Text)
  | activityAfterCutoff
  | plannedComponents
  | plannedExceedsQualification
  | plannedTotals
  | residualSplit
  | omitsWone (addresses : List Text)
  | negativeBalance
  | rolledBackTotal
  | noSummary (exchange : Text)
  | deliveryColumns (exchange : Text)
  deriving DecidableEq

/-- `COMPONENTS`. -/
inductive Component
  | liquidShard0 | liquidShard1 | pendingCrossShard | pendingUndelegation | unclaimedStakingReward
  | nativeWalletAirdrop | woneBalance | woneAirdrop | walletAirdrop | stakedToVault | nativeTotalClaim
  | qualificationTotal | totalClaim | walletComponent | stakingComponent
  | plannedWalletAirdrop | plannedStakedToVault | plannedTotalEntitlement | remainingNotAirdropped
  deriving DecidableEq

abbrev Values := Component → ℤ

/-! ### What is read -/

/-- The amounts of a row of the claims. -/
structure ClaimRow where
  liquidShard0 : ℤ
  liquidShard1 : ℤ
  pendingCrossShard : ℤ
  pendingUndelegation : ℤ
  unclaimedStakingReward : ℤ
  activeStakedOrDelegated : ℤ
  nativeWalletAirdrop : ℤ
  woneBalance : ℤ
  woneAirdrop : ℤ
  walletAirdrop : ℤ
  stakedToVault : ℤ
  nativeTotalClaim : ℤ
  qualificationTotal : ℤ
  totalClaim : ℤ

/-- The arithmetic that `load_claims` checks. -/
structure ClaimRow.Closes (r : ClaimRow) : Prop where
  nativeTotalClaim_nonneg : 0 ≤ r.nativeTotalClaim
  woneBalance_nonneg : 0 ≤ r.woneBalance
  qualificationTotal_nonneg : 0 ≤ r.qualificationTotal
  walletAirdrop_nonneg : 0 ≤ r.walletAirdrop
  stakedToVault_nonneg : 0 ≤ r.stakedToVault
  totalClaim_nonneg : 0 ≤ r.totalClaim
  qualificationTotal_eq : r.qualificationTotal = r.nativeTotalClaim + r.woneBalance
  totalClaim_eq : r.totalClaim = r.walletAirdrop + r.stakedToVault
  nativeWalletAirdrop_eq : r.liquidShard0 + r.liquidShard1 + r.pendingCrossShard + r.pendingUndelegation +
    r.unclaimedStakingReward = r.nativeWalletAirdrop
  active_eq : r.activeStakedOrDelegated = r.stakedToVault
  walletAirdrop_eq : r.walletAirdrop = r.nativeWalletAirdrop + r.woneAirdrop

/-- A row of the claims that is loaded. -/
abbrev Claim := {r : ClaimRow // r.Closes}

structure StageRow where
  stage : Stage
  treatment : Treatment
  allocation : ℤ

/-- What `load_migration_stages` checks. -/
structure StageRow.Valid (r : StageRow) : Prop where
  stage : r.stage ∈ [.blank, .initial, .nextStage, .deferred]
  treatment : r.treatment ∈ [.issue, .notIssued]
  nonneg : 0 ≤ r.allocation
  issue : r.treatment = .issue → r.stage ≠ .blank ∧ 0 < r.allocation
  notIssued : r.treatment = .notIssued → r.stage = .blank ∧ r.allocation = 0

abbrev StageRecord := {r : StageRow // r.Valid}

structure Activity where
  time : Option ℤ
  block : Text
  shard : Text
  type : Text

/-- A row of the normalized inventory of an exchange; a blank balance is `none`. -/
structure Normalized where
  addressHex : Text
  addressOne : Text
  sourceRow : Text
  submittedBalance : Option ℤ
  configuredDestination : Text
  configuredStakingDestination : Text
  configuredDestinationStatus : Text
  authorizationType : Text
  authorizationStatus : Text

/-- A wallet of the inventory with what the other files hold under its address. -/
structure Wallet where
  normalized : Normalized
  claim : Option Claim
  wone : ℕ
  activity : Option Activity
  category : Option Text
  stage : Option StageRecord

inductive Mode
  | aggregate | aggregateSplit | sameAddress | tiered
  deriving DecidableEq

structure Config where
  id : Text
  displayName : Text
  deliveryPolicy : Text
  mode : Mode
  destinationRequired : Bool
  submittedBalanceScope : Option Text

/-- The cutoff time, and `subtract_months` of it. -/
structure Cutoff where
  time : ℤ
  monthsBefore : ℕ → ℤ

/-- What `main` gives to every row. -/
structure Policy where
  threshold : ℤ
  cutoff : Cutoff
  categoriesComplete : Bool
  stagesComplete : Bool

/-! ### The audit row -/

def Claim.values (c : Claim) : Values
  | .liquidShard0 => c.1.liquidShard0
  | .liquidShard1 => c.1.liquidShard1
  | .pendingCrossShard => c.1.pendingCrossShard
  | .pendingUndelegation => c.1.pendingUndelegation
  | .unclaimedStakingReward => c.1.unclaimedStakingReward
  | .nativeWalletAirdrop => c.1.nativeWalletAirdrop
  | .woneAirdrop => c.1.woneAirdrop
  | .walletAirdrop => c.1.walletAirdrop
  | .stakedToVault => c.1.stakedToVault
  | .nativeTotalClaim => c.1.nativeTotalClaim
  | .qualificationTotal => c.1.qualificationTotal
  | .totalClaim => c.1.totalClaim
  | _ => 0

/-- The values of a claim, or of no claim. -/
def baseValues (claim : Option Claim) (wone : ℕ) : Values :=
  match claim with
  | some c => Function.update c.values .woneBalance wone
  | none => Function.update (Function.update 0 .qualificationTotal wone) .woneBalance wone

def walletSide (v : Values) : ℤ := v .liquidShard0 + v .liquidShard1 + v .pendingCrossShard + v .woneAirdrop

def stakingSide (v : Values) : ℤ := v .stakedToVault + v .pendingUndelegation + v .unclaimedStakingReward

def claimValues (address : Text) (claim : Option Claim) (wone : ℕ) : Except AccountingError Values :=
  let v := baseValues claim wone
  (require (∀ c ∈ claim, c.1.woneBalance = wone) (.woneCensus address)).bind fun _ =>
  (require (v .qualificationTotal = v .nativeTotalClaim + v .woneBalance) .qualificationTotal).bind fun _ =>
  (require (walletSide v + stakingSide v = v .totalClaim) .destinationComponents).map fun _ =>
    Function.update (Function.update v .walletComponent (walletSide v)) .stakingComponent (stakingSide v)

inductive Tier
  | sameAddress | aggregate | aggregateSplit | tierPending | sameAddressInitial | aggregatedNonInitial
  deriving DecidableEq

def Tier.text : Tier → Text
  | .sameAddress => "same_address".toList
  | .aggregate => "aggregate".toList
  | .aggregateSplit => "aggregate_split".toList
  | .tierPending => "tier_pending".toList
  | .sameAddressInitial => "same_address_initial".toList
  | .aggregatedNonInitial => "aggregated_non_initial".toList

inductive Status
  | notIssued | woneNotInMigrationClaim | noCutoffClaim | tierPending | manualDestinationHold | exchangeManual
  deriving DecidableEq

def Status.text : Status → Text
  | .notIssued => "not_issued".toList
  | .woneNotInMigrationClaim => "wone_not_in_migration_claim".toList
  | .noCutoffClaim => "no_cutoff_claim".toList
  | .tierPending => "tier_pending".toList
  | .manualDestinationHold => "manual_destination_hold".toList
  | .exchangeManual => "exchange_manual".toList

/-- The stage policy does not issue the wallet. -/
def Wallet.NotIssued (w : Wallet) : Prop := ∃ s ∈ w.stage, s.1.treatment = .notIssued

instance (w : Wallet) : Decidable w.NotIssued := inferInstanceAs (Decidable (∃ _ ∈ _, _))

/-- `target_allocation`: a wallet that is not issued has the policy's allocation, every other one its whole claim. -/
def target (w : Wallet) (v : Values) : ℤ :=
  match w.stage with
  | some s => if s.1.treatment = .notIssued then s.1.allocation else v .totalClaim
  | none => v .totalClaim

/-- The delivery tier, and the wallet and staking destinations. -/
def delivery (config : Config) (stagesComplete : Bool) (w : Wallet) : Tier × Text × Text :=
  let own := w.normalized.addressHex
  let configured := w.normalized.configuredDestination
  match config.mode with
  | .sameAddress => (.sameAddress, own, own)
  | .aggregate => (.aggregate, configured, configured)
  | .aggregateSplit => (.aggregateSplit, configured, w.normalized.configuredStakingDestination)
  | .tiered =>
    if stagesComplete = false then (.tierPending, [], [])
    else if (∃ s ∈ w.stage, s.1.stage = .initial) ∧ ¬w.NotIssued then (.sameAddressInitial, own, own)
    else (.aggregatedNonInitial, configured, configured)

/-- The status, the planned wallet and staked amounts and the two destinations. -/
def plan (w : Wallet) (v : Values) (tier : Tier) (destinations : Text × Text) (allocation targetWallet : ℤ) :
    Status × (ℤ × ℤ) × Text × Text :=
  if w.NotIssued then (.notIssued, (0, 0), [], [])
  else if allocation = 0 then (if w.wone = 0 then .noCutoffClaim else .woneNotInMigrationClaim, (0, 0), [], [])
  else
    let status : Status :=
      if tier = .tierPending then .tierPending
      else if destinations.1 = [] ∨ 0 < v .stakingComponent ∧ destinations.2 = [] then .manualDestinationHold
      else .exchangeManual
    (status, (targetWallet, allocation - targetWallet), destinations)

inductive ActivityStatus
  | found | notFound | notCollected
  deriving DecidableEq

def ActivityStatus.text : ActivityStatus → Text
  | .found => "found".toList
  | .notFound => "not_found".toList
  | .notCollected => "not_collected".toList

def activityBuckets : List (ℕ × Text) :=
  [(3, "within_3_months".toList), (6, "3_to_6_months".toList), (12, "6_to_12_months".toList),
    (24, "12_to_24_months".toList), (36, "24_to_36_months".toList), (48, "36_to_48_months".toList)]

def activityBucket (cutoff : Cutoff) (time : ℤ) : Except AccountingError Text :=
  (require (time ≤ cutoff.time) .activityAfterCutoff).map fun _ =>
    match activityBuckets.find? fun b => cutoff.monthsBefore b.1 ≤ time with
    | some b => b.2
    | none => "older_than_48_months".toList

/-- The balance that the exchange submitted, against the claim in the scope. -/
structure Reconciliation where
  submitted : Option ℤ
  status : Text
  delta : Option ℤ

def liquidShard0Scope : Text := "liquid_shard0".toList

def liquidTotalScope : Text := "liquid_total".toList

def submittedReconciliation (submitted : Option ℤ) (claim : Option Claim) (scope : Text) :
    Except AccountingError Reconciliation :=
  match submitted with
  | none => .ok ⟨none, "not_provided".toList, none⟩
  | some value =>
    (require (scope = liquidShard0Scope ∨ scope = liquidTotalScope) (.balanceScope scope)).map fun _ =>
      let cutoffValue := match claim with
        | none => 0
        | some c => if scope = liquidShard0Scope then c.1.liquidShard0 else c.1.liquidShard0 + c.1.liquidShard1
      let delta := cutoffValue - value
      let status := if claim.isNone then "claim_not_found".toList
        else if delta = 0 then "exact_".toList ++ scope ++ "_match".toList
        else if 0 < delta then "cutoff_".toList ++ scope ++ "_higher".toList
        else "submitted_balance_higher".toList
      ⟨some value, status, some delta⟩

structure Row where
  exchangeId : Text
  addressHex : Text
  addressOne : Text
  sourceRow : Text
  claimPresent : Bool
  qualified : Bool
  policyCategory : Text
  migrationStage : Text
  notIssued : Bool
  deliveryPolicy : Text
  mode : Mode
  tier : Tier
  configuredDestination : Text
  configuredStakingDestination : Text
  configuredDestinationStatus : Text
  plannedWalletDestination : Text
  plannedStakingDestination : Text
  status : Status
  activity : Option Activity
  activityStatus : ActivityStatus
  activityAgeBucket : Text
  submittedScope : Text
  reconciliation : Reconciliation
  authorizationType : Text
  authorizationStatus : Text
  values : Values

def Status.Planned (s : Status) : Prop := s ∈ [.exchangeManual, .manualDestinationHold, .tierPending]

instance : DecidablePred Status.Planned := fun _ => inferInstanceAs (Decidable (_ ∈ _))

def exchangeStage : Text := "exchange_manual".toList

/-- `build_audit_row`. -/
def buildAuditRow (p : Policy) (config : Config) (w : Wallet) : Except AccountingError Row :=
  let address := w.normalized.addressHex
  (claimValues address w.claim w.wone).bind fun v =>
  let qualifies : Bool := p.threshold ≤ v .qualificationTotal
  (require (¬(qualifies ∧ w.category = none ∧ p.categoriesComplete)) (.missingCategory address)).bind fun _ =>
  (require (¬(¬qualifies ∧ w.category ≠ none)) (.belowThresholdCategory address)).bind fun _ =>
  (require (¬(qualifies ∧ p.stagesComplete ∧ w.stage = none)) (.missingStage address)).bind fun _ =>
  let allocation := target w v
  let deduction := v .totalClaim - allocation
  (require (0 ≤ deduction) .allocationExceedsClaim).bind fun _ =>
  let targetWallet := max (v .walletAirdrop - deduction) 0
  let targetStaked := allocation - targetWallet
  (require (0 ≤ targetStaked ∧ targetStaked ≤ v .stakedToVault) .allocationSplit).bind fun _ =>
  let activityStatus : ActivityStatus :=
    match w.activity with
    | none => .notCollected
    | some a => if a.time.isSome then .found else .notFound
  (require (¬(qualifies ∧ w.activity.isNone)) (.missingActivity address)).bind fun _ =>
  let (tier, destinations) := delivery config p.stagesComplete w
  let (status, (plannedWallet, plannedStaked), walletDestination, stakingDestination) :=
    plan w v tier destinations allocation targetWallet
  let plannedTotal := plannedWallet + plannedStaked
  (require (plannedTotal = if status.Planned then allocation else 0) .plannedComponents).bind fun _ =>
  let remaining := v .qualificationTotal - plannedTotal
  (require (0 ≤ remaining) .plannedExceedsQualification).bind fun _ =>
  let scope := config.submittedBalanceScope.getD liquidShard0Scope
  (submittedReconciliation w.normalized.submittedBalance w.claim scope).bind fun reconciliation =>
  (match w.activity.bind Activity.time with
    | some time => activityBucket p.cutoff time
    | none => .ok activityStatus.text).map fun bucket =>
    { exchangeId := config.id
      addressHex := address
      addressOne := w.normalized.addressOne
      sourceRow := w.normalized.sourceRow
      claimPresent := w.claim.isSome
      qualified := qualifies
      policyCategory := w.category.getD []
      migrationStage := if 0 < allocation then exchangeStage else []
      notIssued := w.NotIssued
      deliveryPolicy := config.deliveryPolicy
      mode := config.mode
      tier, status
      configuredDestination := w.normalized.configuredDestination
      configuredStakingDestination := w.normalized.configuredStakingDestination
      configuredDestinationStatus := w.normalized.configuredDestinationStatus
      plannedWalletDestination := walletDestination
      plannedStakingDestination := stakingDestination
      activity := w.activity
      activityStatus
      activityAgeBucket := bucket
      submittedScope := if w.normalized.submittedBalance.isSome then scope else []
      reconciliation
      authorizationType := w.normalized.authorizationType
      authorizationStatus := w.normalized.authorizationStatus
      values := fun
        | .plannedWalletAirdrop => plannedWallet
        | .plannedStakedToVault => plannedStaked
        | .plannedTotalEntitlement => plannedTotal
        | .remainingNotAirdropped => remaining
        | c => v c }

end HarmonyMigration.ExchangeAccounting
