import HarmonyMigration.Routing.Apply

/-! The checks of `apply-routes.py` on the compiled totals, the readiness of each stage, and `main`. -/

namespace HarmonyMigration.Routing

open Erc20 Except Claims

/-! ### The totals -/

def exceptionAmount (exceptions : List ExceptionRow) (component : Component) (status : DestinationStatus) : ℤ :=
  ((exceptions.filter fun e => e.component = component ∧ e.delivery.destinationStatus = status).map
    ExceptionRow.amount).sum

/-- The exceptions delivered from the reserve. -/
def exchangeAmount (exceptions : List ExceptionRow) (component : Component) : ℤ :=
  ((exceptions.filter fun e => e.component = component ∧ e.delivery.treatment = .manualFromReserve).map
    ExceptionRow.amount).sum

def treatmentWallet (rows : List WalletRow) (treatment : Treatment) : ℤ :=
  ((rows.filter fun r => r.delivery.treatment = treatment).map WalletRow.amount).sum

def treatmentStaked (rows : List CompiledShare) (treatment : Treatment) : ℤ :=
  ((rows.filter fun r => r.delivery.treatment = treatment).map CompiledShare.amount).sum

/-- `ready_statuses`: the ready status of the treatments that deliver. -/
def readyStatus : Treatment → Option DestinationStatus
  | .issue => some .ready
  | .manualFromReserve => some .exchangeManual
  | .notIssued => none
  | .redistributed => none

def Delivery.issued (d : Delivery) : Bool := (readyStatus d.treatment).isSome

def Delivery.ready (d : Delivery) : Bool := readyStatus d.treatment = some d.destinationStatus

/-- The checks on one row. -/
def checkDelivery (d : Delivery) : Except Error Unit :=
  (routeTreatment d.reason d.destinationStatus).bind fun treatment =>
  (require (d.treatment = treatment) .treatmentContradicts).bind fun _ =>
  (require (d.issued → d.stage ≠ .blank) .issuedWithoutStage).bind fun _ =>
  require (d.issued → d.ready ∨ d.destinationStatus = .hold) .terminalStatus

/-- `compiled_wallet_by_address`. -/
def compiledWallet (c : Compiled) (a : Address) : ℤ :=
  ((c.walletRows.filter fun r => r.sourceAddress = a ∧ r.delivery.issued).map WalletRow.amount).sum

/-- `compiled_staked_by_address`. -/
def compiledStaked (c : Compiled) (a : Address) : ℤ :=
  ((c.shareRows.filter fun r => r.delegatorAddress = a ∧ r.delivery.issued).map CompiledShare.amount).sum

/-- The claims with an issued row that waits for a stage. -/
def pendingStageReviewClaims (c : Compiled) (l : Loaded) : ℕ :=
  l.sources.values.countP fun s =>
    (c.walletRows.any fun r => r.sourceAddress = s.address && r.delivery.issued && r.delivery.stage == .manualReview) ||
      c.shareRows.any fun r => r.delegatorAddress = s.address && r.delivery.issued && r.delivery.stage == .manualReview

/-- No exception withholds the wallet of a WONE recipient that the policy issues to. -/
def checkWoneNonIssuance (l : Loaded) (exceptions : List ExceptionRow) : Except Error Unit :=
  require (∀ e ∈ exceptions, e.component = .walletAirdrop → e.delivery.destinationStatus = .notIssuing →
    ((l.sources.get? e.sourceAddress).any fun s => 0 < s.wone) →
      (l.stages.get? e.sourceAddress).any fun s => s.classification = .genuineContract ∧ s.treatment = .notIssued)
    .woneNonIssuance

def checkTotals (l : Loaded) (c : Compiled) (exceptions : List ExceptionRow) (vaults : List VaultStageRow) :
    Except Error Unit :=
  (require ((l.sources.values.map fun s => s.wallet).sum = (c.walletRows.map WalletRow.amount).sum ∧
    (l.sources.values.map fun s => s.staked).sum = (c.shareRows.map CompiledShare.amount).sum)
    .componentsDoNotClose).bind fun _ =>
  (checkWoneNonIssuance l exceptions).bind fun _ =>
  (require (exceptionAmount exceptions .vaultShares .redistributed = 0) .redistributedShares).bind fun _ =>
  (require (exceptionAmount exceptions .walletAirdrop .redistributed = (l.sources.values.map fun s => s.wone).sum)
    .redistributedMismatch).bind fun _ =>
  (c.walletRows.mapM fun r => checkDelivery r.delivery).bind fun _ =>
  (c.shareRows.mapM fun r => (checkDelivery r.delivery).bind fun _ =>
    require (r.delivery.treatment ≠ .redistributed) .redistributedShares).bind fun _ =>
  (require (∀ p ∈ l.stages.entries, compiledWallet c p.1 + compiledStaked c p.1 = p.2.allocation ∧
    compiledWallet c p.1 = p.2.wallet ∧ compiledStaked c p.1 = p.2.staked) .stagePolicyMismatch).bind fun _ =>
  (require (treatmentWallet c.walletRows .notIssued = exceptionAmount exceptions .walletAirdrop .notIssuing ∧
    treatmentStaked c.shareRows .notIssued = exceptionAmount exceptions .vaultShares .notIssuing ∧
    treatmentWallet c.walletRows .redistributed = exceptionAmount exceptions .walletAirdrop .redistributed ∧
    treatmentStaked c.shareRows .redistributed = exceptionAmount exceptions .vaultShares .redistributed ∧
    treatmentWallet c.walletRows .manualFromReserve = exchangeAmount exceptions .walletAirdrop ∧
    treatmentStaked c.shareRows .manualFromReserve = exchangeAmount exceptions .vaultShares) .treatmentTotals).bind
    fun _ =>
  require ((vaults.map VaultStageRow.base).sum - (vaults.map VaultStageRow.notIssued).sum -
      (vaults.map VaultStageRow.exchangeManual).sum = (vaults.map VaultStageRow.postPolicy).sum ∧
    (vaults.map VaultStageRow.notIssued).sum = exceptionAmount exceptions .vaultShares .notIssuing ∧
    (vaults.map VaultStageRow.exchangeManual).sum = exchangeAmount exceptions .vaultShares) .vaultTotals

/-! ### Readiness -/

/-- `POLICY_DECISION_STAGE_SCOPE`. -/
def policyDecisionStageScope (decision : String) : List Stage :=
  if decision = "layerzero-nativeoft-reconciliation" then [.nextStage]
  else [.initial, .nextStage, .deferred, .manualReview]

/-- `held_governor_assets`: the stage's assets in vaults whose governor waits. -/
def heldGovernorAssets (governors : List GovernorException) (vaults : List VaultStageRow) (stage : Stage) : ℤ :=
  ((governors.filter fun g => g.governor.status = .hold).map fun g =>
    match vaults.find? fun v => v.validatorAddress = g.validatorAddress with
    | none => 0
    | some v =>
      match stage with
      | .initial => v.initial
      | .exchangeManual => v.exchangeManual
      | .nextStage => v.nextStage
      | .deferred => v.qualifiedDeferred + v.uncompiledDeferred
      | .manualReview => v.manualReview
      | .blank => 0).sum

structure StageTotals where
  wallet : ℤ
  staked : ℤ
  readyWallet : ℤ
  readyStaked : ℤ
  heldWallet : ℤ
  heldStaked : ℤ
  deriving DecidableEq

/-- `stage_totals`: an issued row is ready or held. -/
def stageTotals (c : Compiled) (stage : Stage) : StageTotals :=
  let wallet := c.walletRows.filter fun r => r.delivery.issued ∧ r.delivery.stage = stage
  let staked := c.shareRows.filter fun r => r.delivery.issued ∧ r.delivery.stage = stage
  { wallet := (wallet.map WalletRow.amount).sum
    staked := (staked.map CompiledShare.amount).sum
    readyWallet := ((wallet.filter fun r => r.delivery.ready).map WalletRow.amount).sum
    readyStaked := ((staked.filter fun r => r.delivery.ready).map CompiledShare.amount).sum
    heldWallet := ((wallet.filter fun r => r.delivery.destinationStatus = .hold).map WalletRow.amount).sum
    heldStaked := ((staked.filter fun r => r.delivery.destinationStatus = .hold).map CompiledShare.amount).sum }

inductive Status where
  | ready | hold
  deriving DecidableEq, Repr

structure Readiness where
  totals : StageTotals
  heldGovernorAssets : ℤ
  pendingPolicyDecisions : List String
  releaseAuthorized : Bool
  status : Status
  blockers : List String
  deriving DecidableEq

def readiness (pending : List String) (c : Compiled) (governors : List GovernorException)
    (vaults : List VaultStageRow) (stage : Stage) : Readiness :=
  let totals := stageTotals c stage
  let governorHold := heldGovernorAssets governors vaults stage
  let gates := (pending.filter fun d => stage ∈ policyDecisionStageScope d).insertionSort (· ≤ ·)
  let authorized := stage = .initial ∨ stage = .exchangeManual
  let blockers := (if totals.heldWallet + totals.heldStaked ≠ 0 then ["unresolved_delivery"] else []) ++
    (if governorHold ≠ 0 then ["unresolved_validator_governor"] else []) ++
    gates.map ("policy:" ++ ·) ++ if authorized then [] else ["stage_release_not_authorized"]
  { totals
    heldGovernorAssets := governorHold
    pendingPolicyDecisions := gates
    releaseAuthorized := authorized
    status := if blockers = [] then .ready else .hold
    blockers }

/-! ### `main` -/

/-- The four files, and of the summary the readiness of the stages and the status; the compiled rows
are not written. -/
structure Output where
  loaded : Loaded
  compiled : Compiled
  exceptions : List ExceptionRow
  governorExceptions : List GovernorException
  vaultStages : List VaultStageRow
  unresolved : List UnresolvedRow
  stageReadiness : List (Stage × Readiness)
  status : Status

def unresolvedAmount (unresolved : List UnresolvedRow) (component : Component) : ℤ :=
  ((unresolved.filter fun u => u.component = component).map UnresolvedRow.amount).sum

def main (K : Keys) (i : Input) : Except Error Output :=
  (load K i).bind fun l =>
  (compileAll i.validatorPath l).bind fun rows =>
  let c := sortRows rows
  let exceptions := routingExceptions c
  (require (∀ s ∈ l.sources.values, s.codeBearing →
    exceptions.any fun e => e.sourceCodeBearing && e.sourceAddress = s.address) .codeBearingNotRepresented).bind fun _ =>
  (loadGovernors l.destinations i.governors .empty).bind fun overrides =>
  (loadBaseVaults K i.baseVaultDeposits).bind fun _ =>
  (require (within overrides.keys (i.baseVaultDeposits.map VaultRow.validatorAddress)) .inactiveGovernor).bind fun _ =>
  let governors := governorExceptions overrides l.routes i.baseVaultDeposits
  let unresolved := unresolvedRows exceptions overrides l.routes i.baseVaultDeposits
  (vaultStages c.shareRows i.baseVaultDeposits).bind fun vaults =>
  (checkTotals l c exceptions vaults).map fun _ =>
    { loaded := l
      compiled := c
      exceptions
      governorExceptions := governors
      vaultStages := vaults
      unresolved
      stageReadiness := [Stage.initial, .exchangeManual, .nextStage, .deferred, .manualReview].map fun stage =>
        (stage, readiness l.pending c governors vaults stage)
      status :=
        if unresolvedAmount unresolved .walletAirdrop = 0 ∧ unresolvedAmount unresolved .vaultShares = 0 ∧
          (∀ u ∈ unresolved, u.component ≠ .validatorGovernor) ∧ (∀ r ∈ l.routes, r.source ∈ l.sources.keys) ∧
          l.pending = [] ∧ pendingStageReviewClaims c l = 0 then .ready else .hold }

end HarmonyMigration.Routing
