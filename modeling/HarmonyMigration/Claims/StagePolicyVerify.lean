import HarmonyMigration.Airdrop.One1
import HarmonyMigration.Claims.StagePolicy
import HarmonyMigration.Lib.ExceptRun

/-! `verify-migration-stage-policy.py`: the rows of the stage policy, and their closure with the summary
and the compiled routing. -/

namespace HarmonyMigration.Claims.StagePolicyVerify

open Airdrop.One1 Decimal Except

def walletText : Text := "wallet".toList
def validatorWalletText : Text := "validator_wallet".toList
def genuineContractText : Text := "genuine_contract".toList
def issueText : Text := "issue".toList
def notIssuedText : Text := "not_issued".toList
def initialText : Text := "initial".toList
def nextStageText : Text := "next_stage".toList
def deferredText : Text := "deferred".toList
def exchangeManualText : Text := "exchange_manual".toList
def automaticPolicyText : Text := "automatic_policy".toList
def exchangeOrManualText : Text := "exchange_or_manual".toList
def readyText : Text := "ready".toList

/-- The status that a summary may have. -/
def statuses : List Text := ["passed".toList, readyText, "hold".toList]

structure Amounts where
  gross : ℤ
  existingNonIssuance : ℤ
  historicalRetainedCap : ℤ
  woneSourceOffset : ℤ
  contractNonIssuance : ℤ
  contractWalletNonIssuance : ℤ
  contractStakedNonIssuance : ℤ
  wallet : ℤ
  staked : ℤ
  allocation : ℤ
  deriving DecidableEq

def Amounts.values (a : Amounts) : List ℤ :=
  [a.gross, a.existingNonIssuance, a.historicalRetainedCap, a.woneSourceOffset, a.contractNonIssuance,
    a.contractWalletNonIssuance, a.contractStakedNonIssuance, a.wallet, a.staked, a.allocation]

/-- One row of the stage policy; its labels are free texts. -/
structure Row where
  address : Text
  classification : Text
  group : Text
  routingCategory : Text
  stage : Text
  treatment : Text
  qualification : ℤ
  amounts : Amounts
  lastActivity : Option ℤ
  deriving DecidableEq

inductive Error where
  | invalidStatus
  | duplicateAddress
  | belowThreshold
  | negativeAmount
  | deductionClosure
  | componentClosure
  | contractComponentClosure
  | issuedInvalidStage
  | issuedNoAmount
  | notIssuedHasStage
  | invalidTreatment
  | invalidInitialRow
  | activeWalletDeferred
  | contractInitial
  | rowCountMismatch
  | stageLabelsMismatch
  | stageCountMismatch
  | treatmentCountMismatch
  | groupMissing
  | groupMismatch
  | initialCompositionMismatch
  | globalAllocation
  | stageAllocation
  | invalidOverride
  | exchangeStageMismatch
  | exchangeNotReady
  | allocationMismatch
  | stageTotalMissing
  | compiledMismatch
  | nonIssuanceMismatch
  | treatmentTotalMismatch
  | vaultMismatch
  deriving DecidableEq

/-! ### One row -/

namespace Row
variable (row : Row)

def isWallet : Prop := row.classification ∈ [walletText, validatorWalletText]

instance : Decidable row.isWallet := by unfold isWallet; infer_instance

/-- Incident and reviewed deductions apply before the threshold. -/
def netQualification : ℤ :=
  row.qualification - row.amounts.existingNonIssuance - row.amounts.historicalRetainedCap

def meetsThreshold : Prop := minimumAtto ≤ row.netQualification

instance : Decidable row.meetsThreshold := by unfold meetsThreshold; infer_instance

/-- An activity time at or after the start of the initial window. -/
def active (since : ℤ) : Prop := row.lastActivity.any fun time => since ≤ time

instance (since : ℤ) : Decidable (row.active since) := by unfold active; infer_instance

def deductionsClose : Prop :=
  row.amounts.gross - row.amounts.existingNonIssuance - row.amounts.historicalRetainedCap -
    row.amounts.woneSourceOffset - row.amounts.contractNonIssuance = row.amounts.allocation

instance : Decidable row.deductionsClose := by unfold deductionsClose; infer_instance

def checkAmounts : Except Error Unit :=
  (require (minimumAtto ≤ row.qualification) .belowThreshold).bind fun _ =>
  (require (∀ v ∈ row.amounts.values, 0 ≤ v) .negativeAmount).bind fun _ =>
  (require row.deductionsClose .deductionClosure).bind fun _ =>
  (require (row.amounts.wallet + row.amounts.staked = row.amounts.allocation) .componentClosure).bind fun _ =>
  require (row.amounts.contractWalletNonIssuance + row.amounts.contractStakedNonIssuance =
    row.amounts.contractNonIssuance) .contractComponentClosure

def checkTreatment : Except Error Unit :=
  if row.treatment = issueText then
    (require (row.stage ∈ [initialText, nextStageText, deferredText]) .issuedInvalidStage).bind fun _ =>
    require (0 < row.amounts.allocation) .issuedNoAmount
  else if row.treatment = notIssuedText then
    require (row.stage = [] ∧ row.amounts.allocation = 0) .notIssuedHasStage
  else .error .invalidTreatment

def checkStage (since : ℤ) : Except Error Unit :=
  if row.stage = initialText then
    require (row.isWallet ∧ row.active since ∧ row.meetsThreshold) .invalidInitialRow
  else
    require (¬(row.stage = deferredText ∧ row.isWallet ∧ row.active since ∧ row.meetsThreshold))
      .activeWalletDeferred

def checkContract : Except Error Unit :=
  require (¬(row.classification = genuineContractText ∧ row.stage = initialText)) .contractInitial

end Row

/-! ### The loop over the rows -/

/-- The totals of a group of genuine contracts. -/
structure Group where
  addresses : ℕ
  allocation : ℤ
  wallet : ℤ
  staked : ℤ
  notIssued : ℤ
  notIssuedWallet : ℤ
  notIssuedStaked : ℤ
  deriving DecidableEq

def Group.add (g : Group) (a : Amounts) : Group where
  addresses := g.addresses + 1
  allocation := g.allocation + a.allocation
  wallet := g.wallet + a.wallet
  staked := g.staked + a.staked
  notIssued := g.notIssued + a.contractNonIssuance
  notIssuedWallet := g.notIssuedWallet + a.contractWalletNonIssuance
  notIssuedStaked := g.notIssuedStaked + a.contractStakedNonIssuance

structure State where
  seen : List Text
  stages : Dict Text (ℕ × ℤ)
  treatments : Dict Text ℕ
  groups : Dict Text Group
  initialRouting : Dict Text ℕ
  initialValidators : ℕ

def State.start : State := ⟨[], .empty, .empty, .empty, .empty, 0⟩

/-- What a row that passes its checks adds to the totals. -/
def State.count (u : Lower) (s : State) (row : Row) : State where
  seen := u.lower row.address :: s.seen
  stages := if row.stage = [] then s.stages else s.stages.add row.stage (1, row.amounts.allocation)
  treatments := s.treatments.add row.treatment 1
  groups :=
    if row.classification = genuineContractText then
      s.groups.update row.group fun g => (g.getD ⟨0, 0, 0, 0, 0, 0, 0⟩).add row.amounts
    else s.groups
  initialRouting := if row.stage = initialText then s.initialRouting.add row.routingCategory 1 else s.initialRouting
  initialValidators :=
    if row.stage = initialText ∧ row.classification = validatorWalletText then s.initialValidators + 1
    else s.initialValidators

def step (u : Lower) (since : ℤ) (s : State) (row : Row) : Except Error State :=
  (require (u.lower row.address ∉ s.seen) .duplicateAddress).bind fun _ =>
  row.checkAmounts.bind fun _ =>
  row.checkTreatment.bind fun _ =>
  (row.checkStage since).bind fun _ =>
  row.checkContract.map fun _ => s.count u row

/-! ### The summaries -/

/-- The fields of the stage summary that are read; `initialSince` is the start of the initial window. -/
structure Summary where
  status : Text
  initialSince : ℤ
  qualifiedRows : ℕ
  stageRows : Dict Text ℕ
  treatmentRows : Dict Text ℕ
  groups : Dict Text Group
  automaticPolicyAddresses : ℕ
  manualRoutingAddresses : ℕ
  initialValidators : ℕ
  totalMigration : ℤ
  grossNativeSnapshot : ℤ
  totalExclusions : ℤ
  initialWallets : ℤ
  nextStageContracts : ℤ
  deferredWallets : ℤ

structure Override where
  sourceStage : Text
  targetStage : Text
  wallet : ℤ
  staked : ℤ
  total : ℤ
  addresses : ℤ

structure Readiness where
  status : Text
  releaseAuthorized : Bool

/-- The fields of the routing summary that are read. -/
structure Routing where
  status : Text
  stageOverrides : Dict Text Override
  stageTotals : Dict Text ℤ
  stageReadiness : Dict Text Readiness
  notIssuedTotal : ℤ
  treatmentNotIssuedTotal : ℤ
  vaultNotIssuedAssets : ℤ
  notIssuedStakedToVault : ℤ
  initialStageStatus : Text

/-- The sha256 texts of the files are taken to match. -/
structure Input where
  rows : List Row
  summary : Summary
  routing : Routing

def sameKeys {ν μ : Type} (d : Dict Text ν) (e : Dict Text μ) : Prop :=
  (∀ k ∈ d.keys, k ∈ e.keys) ∧ ∀ k ∈ e.keys, k ∈ d.keys

instance {ν μ : Type} (d : Dict Text ν) (e : Dict Text μ) : Decidable (sameKeys d e) := by
  unfold sameKeys; infer_instance

def countChecks (s : State) (m : Summary) : Except Error Unit :=
  (require (s.seen.length = m.qualifiedRows) .rowCountMismatch).bind fun _ =>
  (require (sameKeys s.stages m.stageRows) .stageLabelsMismatch).bind fun _ =>
  (require (∀ e ∈ s.stages.entries, m.stageRows.get? e.1 = some e.2.1) .stageCountMismatch).bind fun _ =>
  (require (sameKeys s.treatments m.treatmentRows ∧
    ∀ e ∈ s.treatments.entries, m.treatmentRows.get? e.1 = some e.2) .treatmentCountMismatch).bind fun _ =>
  (require (∀ k ∈ s.groups.keys, k ∈ m.groups.keys) .groupMissing).bind fun _ =>
  (require (∀ e ∈ s.groups.entries, m.groups.get? e.1 = some e.2) .groupMismatch).bind fun _ =>
  (require (s.initialRouting.getD automaticPolicyText 0 = m.automaticPolicyAddresses ∧
    s.initialRouting.getD exchangeOrManualText 0 = m.manualRoutingAddresses ∧
    s.initialValidators = m.initialValidators) .initialCompositionMismatch).bind fun _ =>
  (require (m.grossNativeSnapshot - m.totalExclusions = m.totalMigration) .globalAllocation).bind fun _ =>
  require (m.initialWallets + m.nextStageContracts + m.deferredWallets = m.totalMigration) .stageAllocation

def Override.valid (label : Text) (o : Override) : Prop :=
  o.targetStage = exchangeManualText ∧ (0 ≤ o.wallet ∧ 0 ≤ o.staked ∧ 0 ≤ o.total) ∧
    o.wallet + o.staked = o.total ∧ label = o.sourceStage ++ "_to_".toList ++ o.targetStage

instance (label : Text) (o : Override) : Decidable (o.valid label) := by unfold Override.valid; infer_instance

namespace Routing
variable (r : Routing)

/-- `override_totals`. -/
def overrideTotals : Dict Text ℤ :=
  r.stageOverrides.values.foldl (fun d o => d.add o.sourceStage o.total) .empty

def exchangeOverrideTotal : ℤ := (r.stageOverrides.values.map Override.total).sum

def checkExchange : Except Error Readiness :=
  (require (∀ e ∈ r.stageOverrides.entries, e.2.valid e.1) .invalidOverride).bind fun _ =>
  (require (r.stageTotals.get? exchangeManualText = some r.exchangeOverrideTotal) .exchangeStageMismatch).bind fun _ =>
  (ofOption (r.stageReadiness.get? exchangeManualText) .exchangeNotReady).bind fun readiness =>
  (require (readiness.status = readyText ∧ readiness.releaseAuthorized) .exchangeNotReady).map fun _ => readiness

/-- The compiled total of a stage is the expected one less what moved to the manual stage. -/
def checkCompiled (stage : Text) (expected : ℤ) : Except Error ℤ :=
  (ofOption (r.stageTotals.get? stage) .stageTotalMissing).bind fun total =>
  (require (total = expected - r.overrideTotals.getD stage 0) .compiledMismatch).map fun _ => total

end Routing

def State.allocation (s : State) (stage : Text) : ℤ := (s.stages.getD stage 0).2

structure Result where
  qualifiedRows : ℕ
  stageRows : Dict Text ℕ
  treatmentRows : Dict Text ℕ
  initialAddresses : ℕ
  automaticPolicyAddresses : ℕ
  manualRoutingAddresses : ℕ
  validatorWrapperAddresses : ℕ
  initialAllocation : ℤ
  compiledInitialAddresses : ℤ
  compiledInitialAllocation : ℤ
  exchangeAddresses : ℤ
  exchangeAllocation : ℤ
  readiness : Readiness
  stageOverrides : Dict Text Override
  nextStageAllocation : ℤ
  deferredAllocation : ℤ
  totalMigration : ℤ
  totalExclusions : ℤ
  initialStageStatus : Text

/-- Reading a stage total enters the stage with zero rows. -/
def State.readStages (s : State) : Dict Text (ℕ × ℤ) :=
  ((s.stages.setdefault initialText 0).setdefault nextStageText 0).setdefault deferredText 0

def result (s : State) (i : Input) (readiness : Readiness) (compiledInitial : ℤ) : Result where
  qualifiedRows := s.seen.length
  stageRows := s.readStages.mapValues Prod.fst
  treatmentRows := s.treatments
  initialAddresses := (s.stages.getD initialText 0).1
  automaticPolicyAddresses := s.initialRouting.getD automaticPolicyText 0
  manualRoutingAddresses := s.initialRouting.getD exchangeOrManualText 0
  validatorWrapperAddresses := s.initialValidators
  initialAllocation := s.allocation initialText
  compiledInitialAddresses := (s.stages.getD initialText 0).1 -
    ((i.routing.stageOverrides.get? "initial_to_exchange_manual".toList).map Override.addresses).getD 0
  compiledInitialAllocation := compiledInitial
  exchangeAddresses := (i.routing.stageOverrides.values.map Override.addresses).sum
  exchangeAllocation := i.routing.exchangeOverrideTotal
  readiness
  stageOverrides := i.routing.stageOverrides
  nextStageAllocation := s.allocation nextStageText
  deferredAllocation := s.allocation deferredText
  totalMigration := i.summary.totalMigration
  totalExclusions := i.summary.totalExclusions
  initialStageStatus := i.routing.initialStageStatus

def main (u : Lower) (i : Input) : Except Error Result :=
  let m := i.summary
  let r := i.routing
  (require (m.status ∈ statuses) .invalidStatus).bind fun _ =>
  (require (r.status ∈ statuses) .invalidStatus).bind fun _ =>
  (i.rows.foldlM (step u m.initialSince) .start).bind fun s =>
  (countChecks s m).bind fun _ =>
  r.checkExchange.bind fun readiness =>
  (require (s.allocation initialText = m.initialWallets) .allocationMismatch).bind fun _ =>
  (r.checkCompiled initialText m.initialWallets).bind fun compiledInitial =>
  (require (s.allocation nextStageText = m.nextStageContracts) .allocationMismatch).bind fun _ =>
  (r.checkCompiled nextStageText m.nextStageContracts).bind fun _ =>
  (r.checkCompiled deferredText (s.allocation deferredText)).bind fun _ =>
  (require (r.notIssuedTotal = m.totalExclusions) .nonIssuanceMismatch).bind fun _ =>
  (require (r.treatmentNotIssuedTotal = r.notIssuedTotal) .treatmentTotalMismatch).bind fun _ =>
  (require (r.vaultNotIssuedAssets = r.notIssuedStakedToVault) .vaultMismatch).map fun _ =>
    result s i readiness compiledInitial

end HarmonyMigration.Claims.StagePolicyVerify
