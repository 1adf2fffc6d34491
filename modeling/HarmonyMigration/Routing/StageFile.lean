import HarmonyMigration.Claims.StagePolicy

/-! The two readers of the stage policy: `load_migration_stages` of `apply-routes.py`, and
`load_stage_policy` with `route_policy` of `build-contract-policy-routes.py`. -/

namespace HarmonyMigration.Routing

open Erc20 Except Claims Claims.StagePolicy

inductive StageError where
  | duplicateAddress
  | invalidStage
  | invalidTreatment
  | invalidComponents
  | issuedWithoutStage
  | notIssuedWithStage
  deriving DecidableEq

structure StageEntry where
  stage : Stage
  treatment : Treatment
  allocation : ℤ
  wallet : ℤ
  staked : ℤ
  classification : Classification
  deriving DecidableEq

/-- One row of `load_migration_stages`. -/
def stageEntry (row : PolicyRow) : Except StageError StageEntry :=
  (require (row.stage ∈ [.blank, .initial, .nextStage, .deferred]) .invalidStage).bind fun _ =>
  (require (row.treatment ∈ [.issue, .notIssued]) .invalidTreatment).bind fun _ =>
  (require (0 ≤ min row.allocation (min row.wallet row.staked) ∧ row.wallet + row.staked = row.allocation)
    .invalidComponents).bind fun _ =>
  (require (¬(row.treatment = .issue ∧ (row.stage = .blank ∨ row.allocation ≤ 0))) .issuedWithoutStage).bind fun _ =>
  (require (¬(row.treatment = .notIssued ∧ (row.stage ≠ .blank ∨ row.allocation ≠ 0)))
    .notIssuedWithStage).bind fun _ =>
  .ok ⟨row.stage, row.treatment, row.allocation, row.wallet, row.staked, row.classification⟩

def loadMigrationStages : List PolicyRow → Dict Address StageEntry → Except StageError (Dict Address StageEntry)
  | [], stages => .ok stages
  | row :: rest, stages =>
    (require (row.address ∉ stages.keys) .duplicateAddress).bind fun _ =>
    (stageEntry row).bind fun entry => loadMigrationStages rest (stages.insert row.address entry)

inductive ContractError where
  | negativeAmount
  | componentMismatch
  | notClassified
  | notIssuedHasStage
  | notIssuedHasAllocation
  | notIssuedHasNoDeduction
  | unsupportedPolicy
  | unrecognizedPolicy
  deriving DecidableEq

/-- One row of `load_stage_policy`. -/
def contractEntry (row : PolicyRow) : Except ContractError PolicyRow :=
  (require (0 ≤ row.allocation ∧ 0 ≤ row.wallet ∧ 0 ≤ row.staked ∧ 0 ≤ row.contractNonIssuance ∧
    0 ≤ row.contractWalletNonIssuance ∧ 0 ≤ row.contractStakedNonIssuance) .negativeAmount).bind fun _ =>
  (require (row.wallet + row.staked = row.allocation ∧
    row.contractWalletNonIssuance + row.contractStakedNonIssuance = row.contractNonIssuance)
    .componentMismatch).bind fun _ =>
  .ok row

/-- The destination and reason of a contract's route; `none` where a dedicated route exists. -/
def routePolicy (address : Address) (category : PrimaryCategory) (policy : PolicyRow) :
    Except ContractError (Option (String × String)) :=
  (require (policy.classification = .genuineContract) .notClassified).bind fun _ =>
  if policy.treatment = .notIssued then
    (require (policy.stage = .blank) .notIssuedHasStage).bind fun _ =>
    (require (policy.allocation = 0) .notIssuedHasAllocation).bind fun _ =>
    (require (0 < policy.contractNonIssuance) .notIssuedHasNoDeduction).bind fun _ =>
    .ok (some ("not-issuing", "reviewed_contract_allocation_not_issued"))
  else
    (require (policy.treatment = .issue ∧ policy.stage = .nextStage ∧ policy.contractNonIssuance = 0)
      .unsupportedPolicy).bind fun _ =>
    if category = .multisigWallet ∧ policy.group = .multisig then .ok (some ("", "next_stage_multisig_recovery"))
    else if category = .onewallet ∧ policy.group = .onewallet then
      .ok (some ("onewallet-recovery-multisig", "next_stage_onewallet_recovery_multisig"))
    else if address ∈ layerzeroAddresses ∧ policy.group = .layerzeroBridgeCollateral then .ok none
    else .error .unrecognizedPolicy

/-- A row of the stage policy that every reader takes. -/
def Consumable (row : PolicyRow) : Prop :=
  (∃ entry, stageEntry row = .ok entry) ∧
    (row.classification = .genuineContract →
      ∃ category route, row.contractCategory = some category ∧
        (contractEntry row).bind (routePolicy row.address category) = .ok route)

end HarmonyMigration.Routing
