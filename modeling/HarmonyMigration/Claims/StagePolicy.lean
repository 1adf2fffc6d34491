import HarmonyMigration.Claims.Basic

/-! `build-migration-stage-policy.py`: the stage, treatment and allocation of every qualified row,
and the totals that are published with them. -/

namespace HarmonyMigration.Claims.StagePolicy

open Erc20 Except

inductive Error where
  | summaryNotPassed (label : String)
  | staleActivitySummary
  | windowAbsent
  | windowMismatch
  | invalidAmount
  | inventoryOverlap
  | mixedPolicyState
  | reserveSplit
  | keysNotIncreasing
  | duplicateAddress
  | belowThreshold
  | allocationMismatch
  | deductionsExceedClaim
  | invalidComponentInput
  | componentsDoNotClose
  | countMismatch
  | reviewMismatch
  | manualMismatch
  | initialMismatch
  | thresholdExceedsTotal
  | stagesDoNotClose
  deriving DecidableEq

def splitFinalComponents (wallet staked finalAllocation : ℤ) : Except Error (ℤ × ℤ) :=
  let gross := wallet + staked
  if min (min wallet staked) finalAllocation < 0 ∨ gross < finalAllocation then .error .invalidComponentInput
  else
    let deduction := gross - finalAllocation
    let finalWallet := max (wallet - deduction) 0
    let finalStaked := finalAllocation - finalWallet
    if finalStaked < 0 ∨ staked < finalStaked then .error .componentsDoNotClose
    else .ok (finalWallet, finalStaked)

/-- Stage, reason and threshold membership of a wallet row. -/
def walletStage (allocation netQualification : ℤ) (activityTime : Option ℤ) (initialSince : ℤ) (months : ℕ) :
    Stage × String × Bool :=
  if allocation = 0 then (.blank, "prior reviewed non-issuance consumes allocation", false)
  else if netQualification < minimumAtto then (.deferred, "below 1,000 ONE after incident deductions", false)
  else match activityTime with
    | some time =>
      if initialSince ≤ time then (.initial, s!"wallet activity within {months} months", true)
      else (.deferred, "wallet activity predates initial window", true)
    | none => (.deferred, "no indexed wallet activity", true)

def contractPolicy (address : Address) : PrimaryCategory → Option (PolicyGroup × Stage)
  | .validatorAccount => none
  | .multisigWallet => some (.multisig, .nextStage)
  | .onewallet => some (.onewallet, .nextStage)
  | category =>
    if address ∈ layerzeroAddresses then some (.layerzeroBridgeCollateral, .nextStage)
    else if category = .smartvaultWallet then some (.smartvault, .blank)
    else some (.otherReviewedContract, .blank)

/-- One row of the qualified activity file. -/
structure QualifiedRow where
  key : ℕ
  address : Address
  qualification : ℤ
  wallet : ℤ
  staked : ℤ
  total : ℤ
  lastActivity : Option ℤ
  deriving DecidableEq

/-- One row of the output; `meets_threshold`, which is no column, is kept with it. -/
structure PolicyRow where
  key : ℕ
  address : Address
  classification : Classification
  contractCategory : Option PrimaryCategory
  group : PolicyGroup
  routingCategory : RoutingCategory
  stage : Stage
  treatment : Treatment
  qualification : ℤ
  gross : ℤ
  existingNonIssuance : ℤ
  historicalRetainedCap : ℤ
  woneSourceOffset : ℤ
  contractNonIssuance : ℤ
  contractWalletNonIssuance : ℤ
  contractStakedNonIssuance : ℤ
  wallet : ℤ
  staked : ℤ
  allocation : ℤ
  lastActivity : Option ℤ
  reason : String
  meetsThreshold : Bool
  deriving DecidableEq

/-- What the row policy reads besides the row. -/
structure Context where
  existing : Dict Address ℤ
  historical : Dict Address ℤ
  identities : Dict Address PrimaryCategory
  manualWallets : List Address
  reserve : ℤ
  initialSince : ℤ
  months : ℕ

namespace Context
variable (c : Context)

def woneOffset (address : Address) : ℤ := if address = woneAddress then c.reserve else 0

/-- `before_contract_policy`. -/
def beforeContractPolicy (row : QualifiedRow) : ℤ :=
  row.total - c.existing.getD row.address 0 - c.historical.getD row.address 0 - c.woneOffset row.address

def policy (address : Address) : Option (PolicyGroup × Stage) :=
  (c.identities.get? address).bind (contractPolicy address)

/-- A wallet: `policy is None`. -/
def walletRow (row : QualifiedRow) (before : ℤ) (components : ℤ × ℤ) : PolicyRow :=
  let existing := c.existing.getD row.address 0
  let historical := c.historical.getD row.address 0
  let validator := c.identities.get? row.address = some .validatorAccount
  let (stage, reason, meetsThreshold) :=
    walletStage before (row.qualification - existing - historical) row.lastActivity c.initialSince c.months
  { key := row.key, address := row.address,
    classification := if validator then .validatorWallet else .wallet,
    contractCategory := none, group := if validator then .validatorWallet else .wallet,
    routingCategory := if row.address ∈ c.manualWallets then .exchangeOrManual else .automaticPolicy,
    stage, treatment := if 0 < before then .issue else .notIssued, qualification := row.qualification,
    gross := row.total, existingNonIssuance := existing, historicalRetainedCap := historical,
    woneSourceOffset := c.woneOffset row.address, contractNonIssuance := 0,
    contractWalletNonIssuance := 0, contractStakedNonIssuance := 0, wallet := components.1,
    staked := components.2, allocation := before, lastActivity := row.lastActivity, reason,
    meetsThreshold }

/-- A reviewed contract of `group`; without a stage nothing of it is issued. -/
def contractRow (row : QualifiedRow) (group : PolicyGroup) (stage : Stage) (before : ℤ)
    (beforeComponents components : ℤ × ℤ) : PolicyRow :=
  let issued := stage ≠ .blank
  let allocation := if issued then before else 0
  { key := row.key, address := row.address, classification := .genuineContract,
    contractCategory := c.identities.get? row.address, group, routingCategory := .contractPolicy, stage,
    treatment := if 0 < allocation then .issue else .notIssued, qualification := row.qualification,
    gross := row.total, existingNonIssuance := c.existing.getD row.address 0,
    historicalRetainedCap := c.historical.getD row.address 0, woneSourceOffset := c.woneOffset row.address,
    contractNonIssuance := if issued then 0 else before,
    contractWalletNonIssuance := if issued then 0 else beforeComponents.1,
    contractStakedNonIssuance := if issued then 0 else beforeComponents.2,
    wallet := components.1, staked := components.2, allocation, lastActivity := row.lastActivity,
    reason := if issued then "reviewed contract allocation reserved for next stage"
      else "reviewed contract allocation retained in 2050 premint reserve",
    meetsThreshold := true }

/-- The body of the loop over the qualified rows. -/
def rowPolicy (row : QualifiedRow) : Except Error PolicyRow :=
  (require (minimumAtto ≤ row.qualification) .belowThreshold).bind fun _ =>
  (require (0 ≤ min row.total (min row.wallet row.staked) ∧ row.wallet + row.staked = row.total)
    .allocationMismatch).bind fun _ =>
  let before := c.beforeContractPolicy row
  (require (0 ≤ before) .deductionsExceedClaim).bind fun _ =>
  (splitFinalComponents row.wallet row.staked before).bind fun beforeComponents =>
  match c.policy row.address with
  | none =>
    (splitFinalComponents row.wallet row.staked before).map fun components =>
      c.walletRow row before components
  | some (group, stage) =>
    (splitFinalComponents row.wallet row.staked (if stage ≠ .blank then before else 0)).map fun components =>
      c.contractRow row group stage before beforeComponents components

end Context

/-! ### The files -/

structure ReviewRow where
  address : Address
  primaryCategory : PrimaryCategory
  policyState : ℤ × String × String
  deriving DecidableEq

/-- The fields of the activity summary that are read. -/
structure ActivitySummary where
  passed : Bool
  inputSha256 : String
  windows : List (ℕ × ℤ)
  candidates : ℕ
  exactThresholdRows : ℕ
  totalClaim : ℤ

/-- The fields of the migration summary that are read. -/
structure MigrationSummary where
  passed : Bool
  woneReserve : ℤ
  redistributedToRecipients : Option ℤ
  redistributedToPriority : ℤ
  retainedNotIssued : ℤ
  nativeTotalClaim : ℤ

/-- `initialSince` is the cutoff less the calendar months of the initial window. -/
structure Input where
  qualified : List QualifiedRow
  qualifiedSha256 : String
  activity : ActivitySummary
  migration : MigrationSummary
  review : List ReviewRow
  existingFiles : List (List (Address × ℤ))
  historicalFiles : List (List (Address × ℤ))
  manualWallets : List Address
  initialMonths : ℕ
  initialSince : ℤ

def loadAmounts (rows : List (Address × ℤ)) : Except Error (Dict Address ℤ) :=
  (require ((rows.map Prod.fst).Nodup ∧ ∀ r ∈ rows, 0 ≤ r.2) .invalidAmount).map fun _ => Dict.ofList rows

/-- An address may appear in only one non-issuance inventory. -/
def mergeExisting : List (List (Address × ℤ)) → Dict Address ℤ → Except Error (Dict Address ℤ)
  | [], existing => .ok existing
  | file :: rest, existing =>
    (loadAmounts file).bind fun amounts =>
    (require (apart amounts.keys existing.keys) .inventoryOverlap).bind fun _ =>
    mergeExisting rest (amounts.entries.foldl (fun d p => d.insert p.1 p.2) existing)

/-- Retained caps of one address add up. -/
def mergeHistorical : List (List (Address × ℤ)) → Dict Address ℤ → Except Error (Dict Address ℤ)
  | [], historical => .ok historical
  | file :: rest, historical =>
    (loadAmounts file).bind fun amounts =>
    mergeHistorical rest (amounts.entries.foldl (fun d p => d.add p.1 p.2) historical)

def loadContractReview (rows : List ReviewRow) : Except Error (Dict Address PrimaryCategory) :=
  (require ((rows.map ReviewRow.address).Nodup) .duplicateAddress).bind fun _ =>
  (require (∀ r ∈ rows, ∀ r' ∈ rows, r.policyState = r'.policyState) .mixedPolicyState).map fun _ =>
    Dict.ofList (rows.map fun r => (r.address, r.primaryCategory))

/-! ### Totals -/

/-- `wallet_rows`: positive wallets that meet the threshold. -/
def walletRows (rows : List PolicyRow) : List PolicyRow :=
  rows.filter fun r => r.classification ≠ .genuineContract ∧ 0 < r.allocation ∧ r.meetsThreshold

/-- `below_after_deductions`. -/
def belowRows (rows : List PolicyRow) : List PolicyRow :=
  rows.filter fun r => r.classification ≠ .genuineContract ∧ 0 < r.allocation ∧ ¬r.meetsThreshold

def contractRows (rows : List PolicyRow) : List PolicyRow :=
  rows.filter fun r => r.classification = .genuineContract

def total (f : PolicyRow → ℤ) (rows : List PolicyRow) : ℤ := (rows.map f).sum

def policyGroups : List PolicyGroup :=
  [.multisig, .onewallet, .layerzeroBridgeCollateral, .smartvault, .otherReviewedContract]

def groupRows (g : PolicyGroup) (rows : List PolicyRow) : List PolicyRow :=
  (contractRows rows).filter fun r => r.group = g

structure Report where
  rows : List PolicyRow
  existingTotal : ℤ
  historicalTotal : ℤ
  retainedWone : ℤ
  contractNonIssuance : ℤ
  totalMigration : ℤ
  approvedContracts : ℤ
  initialWallets : ℤ
  belowThreshold : ℤ
  belowAfterDeductions : ℤ
  older : ℤ
  noActivity : ℤ
  deferredWallets : ℤ

/-- What `main` computes from the policy rows. -/
def report (c : Context) (m : MigrationSummary) (rows : List PolicyRow) : Report :=
  let wallets := walletRows rows
  let existingTotal := c.existing.values.sum
  let historicalTotal := c.historical.values.sum
  let contractNonIssuance := total PolicyRow.contractNonIssuance (contractRows rows)
  let approved := total PolicyRow.allocation (contractRows rows)
  let exclusions := existingTotal + historicalTotal + m.retainedNotIssued + contractNonIssuance
  let totalMigration := m.nativeTotalClaim - exclusions
  let belowThreshold := totalMigration - (total PolicyRow.allocation wallets + approved)
  let older := total PolicyRow.allocation
    (wallets.filter fun r => r.lastActivity.any fun time => time < c.initialSince)
  let noActivity := total PolicyRow.allocation (wallets.filter fun r => r.lastActivity.isNone)
  { rows, existingTotal, historicalTotal, retainedWone := m.retainedNotIssued, contractNonIssuance,
    totalMigration, approvedContracts := approved,
    initialWallets := total PolicyRow.allocation (wallets.filter fun r => r.stage = .initial),
    belowThreshold, belowAfterDeductions := total PolicyRow.allocation (belowRows rows), older, noActivity,
    deferredWallets := belowThreshold + older + noActivity }

/-- The initial rows are those of the initial activity window. -/
def initialMatches (since : ℤ) (rows : List PolicyRow) : Prop :=
  let initial := (walletRows rows).filter fun r => r.stage = .initial
  let selected := (walletRows rows).filter fun r => r.lastActivity.any fun time => since ≤ time
  initial.length = selected.length ∧ total PolicyRow.allocation initial = total PolicyRow.allocation selected

instance (since : ℤ) (rows : List PolicyRow) : Decidable (initialMatches since rows) := by
  unfold initialMatches; infer_instance

/-- `group`'s components close; a row without a stage adds nothing to the wallet and staked columns. -/
def groupCloses (g : PolicyGroup) (rows : List PolicyRow) : Prop :=
  let group := groupRows g rows
  let staged := group.filter fun r => r.stage ≠ .blank
  total PolicyRow.wallet staged + total PolicyRow.staked staged = total PolicyRow.allocation group ∧
    total PolicyRow.contractWalletNonIssuance group + total PolicyRow.contractStakedNonIssuance group =
      total PolicyRow.contractNonIssuance group

instance (g : PolicyGroup) (rows : List PolicyRow) : Decidable (groupCloses g rows) := by
  unfold groupCloses; infer_instance

def Input.context (i : Input) (existing historical : Dict Address ℤ) (identities : Dict Address PrimaryCategory) :
    Context where
  existing
  historical
  identities
  manualWallets := i.manualWallets
  reserve := i.migration.woneReserve
  initialSince := i.initialSince
  months := i.initialMonths

/-- The reviewed addresses of the given kind. -/
def reviewed (identities : Dict Address PrimaryCategory) (validator : Bool) : List Address :=
  (identities.entries.filter fun e => (e.2 = .validatorAccount) = validator).map Prod.fst

def seenAs (rows : List PolicyRow) (cls : Classification) : List Address :=
  (rows.filter fun r => r.classification = cls).map PolicyRow.address

/-- The checks after the loop. -/
def checks (i : Input) (c : Context) (rows : List PolicyRow) : Except Error Unit :=
  let contracts := reviewed c.identities false
  let validators := reviewed c.identities true
  let out := report c i.migration rows
  (require (rows.length = i.activity.candidates ∧
    (rows.filter fun r => r.qualification = minimumAtto).length = i.activity.exactThresholdRows)
    .countMismatch).bind fun _ =>
  (require (within (seenAs rows .genuineContract) contracts ∧ within contracts (seenAs rows .genuineContract) ∧
    within (seenAs rows .validatorWallet) validators ∧ within validators (seenAs rows .validatorWallet) ∧
    within layerzeroAddresses contracts)
    .reviewMismatch).bind fun _ =>
  (require (apart i.manualWallets contracts ∧ within i.manualWallets (rows.map PolicyRow.address))
    .manualMismatch).bind fun _ =>
  (require (initialMatches i.initialSince rows) .initialMismatch).bind fun _ =>
  (require (0 ≤ out.belowThreshold) .thresholdExceedsTotal).bind fun _ =>
  (require (out.initialWallets + out.approvedContracts + out.deferredWallets = out.totalMigration)
    .stagesDoNotClose).bind fun _ =>
  (require (total PolicyRow.gross rows = i.activity.totalClaim) .countMismatch).bind fun _ =>
  require (∀ g ∈ policyGroups, groupCloses g rows) .componentsDoNotClose

def main (i : Input) : Except Error Report :=
  (require i.activity.passed (.summaryNotPassed "activity summary")).bind fun _ =>
  (require i.migration.passed (.summaryNotPassed "migration summary")).bind fun _ =>
  (require (i.activity.inputSha256 = i.qualifiedSha256) .staleActivitySummary).bind fun _ =>
  let windows := Dict.ofList i.activity.windows
  (require (i.initialMonths ∈ windows.keys) .windowAbsent).bind fun _ =>
  (require (windows.get? i.initialMonths = some i.initialSince) .windowMismatch).bind fun _ =>
  (mergeExisting i.existingFiles .empty).bind fun existing =>
  (mergeHistorical i.historicalFiles .empty).bind fun historical =>
  (require (apart existing.keys historical.keys) .inventoryOverlap).bind fun _ =>
  (require i.manualWallets.Nodup .duplicateAddress).bind fun _ =>
  (loadContractReview i.review).bind fun identities =>
  let m := i.migration
  (require (m.woneReserve = m.redistributedToRecipients.getD m.redistributedToPriority + m.retainedNotIssued)
    .reserveSplit).bind fun _ =>
  let c := i.context existing historical identities
  (require ((i.qualified.map QualifiedRow.key).Pairwise (· < ·)) .keysNotIncreasing).bind fun _ =>
  (require ((i.qualified.map QualifiedRow.address).Nodup) .duplicateAddress).bind fun _ =>
  (i.qualified.mapM c.rowPolicy).bind fun rows =>
  (checks i c rows).map fun _ => report c m rows

/-! ### What a successful run has checked -/

section Accepted
variable {i : Input} {out : Report}

theorem main_ok (h : main i = .ok out) :
    ∃ existing historical identities rows,
      mergeExisting i.existingFiles .empty = .ok existing ∧
      mergeHistorical i.historicalFiles .empty = .ok historical ∧
      loadContractReview i.review = .ok identities ∧
      i.migration.woneReserve = i.migration.redistributedToRecipients.getD i.migration.redistributedToPriority +
        i.migration.retainedNotIssued ∧
      (i.qualified.map QualifiedRow.address).Nodup ∧
      i.qualified.mapM (i.context existing historical identities).rowPolicy = .ok rows ∧
      (∃ u, checks i (i.context existing historical identities) rows = .ok u) ∧
      out = report (i.context existing historical identities) i.migration rows := by
  unfold main at h
  simp only [require_bind_ok] at h
  obtain ⟨-, -, -, -, -, h⟩ := h
  obtain ⟨existing, hexisting, h⟩ := of_bind_ok h
  obtain ⟨historical, hhistorical, h⟩ := of_bind_ok h
  simp only [require_bind_ok] at h
  obtain ⟨-, -, h⟩ := h
  obtain ⟨identities, hidentities, h⟩ := of_bind_ok h
  simp only [require_bind_ok] at h
  obtain ⟨hreserve, -, hnodup, h⟩ := h
  obtain ⟨rows, hrows, h⟩ := of_bind_ok h
  obtain ⟨u, hchecks, rfl⟩ := of_map_ok h
  exact ⟨existing, historical, identities, rows, hexisting, hhistorical, hidentities, hreserve, hnodup, hrows,
    ⟨u, hchecks⟩, rfl⟩

end Accepted

theorem loadAmounts_ok {rows : List (Address × ℤ)} {d : Dict Address ℤ} (h : loadAmounts rows = .ok d) :
    d.entries = rows ∧ (rows.map Prod.fst).Nodup ∧ ∀ r ∈ rows, 0 ≤ r.2 := by
  unfold loadAmounts at h
  obtain ⟨u, hu, rfl⟩ := of_map_ok h
  obtain ⟨hnd, hpos⟩ := of_require_ok hu
  exact ⟨Dict.entries_ofList hnd, hnd, hpos⟩

/-- An inventory's amount for an address is the sum over its files. -/
theorem mergeExisting_ok {files : List (List (Address × ℤ))} {d e : Dict Address ℤ}
    (h : mergeExisting files d = .ok e) (a : Address) : e.getD a 0 = d.getD a 0 + Dict.sumAt files.flatten a := by
  induction files generalizing d with
  | nil =>
    obtain rfl := Except.ok.inj h
    simp [Dict.sumAt]
  | cons file rest ih =>
    unfold mergeExisting at h
    obtain ⟨amounts, hamounts, h⟩ := of_bind_ok h
    obtain ⟨hentries, hnd, -⟩ := loadAmounts_ok hamounts
    rw [require_bind_ok] at h
    obtain ⟨hnew, h⟩ := h
    rw [hentries] at h
    have hnew' : ∀ p ∈ file, p.1 ∉ d.keys := fun p hp =>
      apart_iff.mp hnew p.1 (by rw [Dict.keys, hentries]; exact List.mem_map_of_mem hp)
    rw [ih h, Dict.getD_foldl_insert file d hnd hnew', List.flatten_cons, Dict.sumAt_append, add_assoc]

theorem mergeHistorical_ok {files : List (List (Address × ℤ))} {d e : Dict Address ℤ}
    (h : mergeHistorical files d = .ok e) (a : Address) : e.getD a 0 = d.getD a 0 + Dict.sumAt files.flatten a := by
  induction files generalizing d with
  | nil =>
    obtain rfl := Except.ok.inj h
    simp [Dict.sumAt]
  | cons file rest ih =>
    unfold mergeHistorical at h
    obtain ⟨amounts, hamounts, h⟩ := of_bind_ok h
    obtain ⟨hentries, -, -⟩ := loadAmounts_ok hamounts
    rw [hentries] at h
    rw [ih h, Dict.getD_foldl_add, List.flatten_cons, Dict.sumAt_append, add_assoc]

/-- What the inventories, the retained caps and the WONE offset take from an address. -/
def Input.deduction (i : Input) (a : Address) : ℤ :=
  Dict.sumAt i.existingFiles.flatten a + Dict.sumAt i.historicalFiles.flatten a +
    if a = woneAddress then i.migration.woneReserve else 0

theorem beforeContractPolicy_eq {i : Input} {existing historical : Dict Address ℤ}
    {identities : Dict Address PrimaryCategory} (he : mergeExisting i.existingFiles .empty = .ok existing)
    (hh : mergeHistorical i.historicalFiles .empty = .ok historical) (q : QualifiedRow) :
    (i.context existing historical identities).beforeContractPolicy q = q.total - i.deduction q.address := by
  have hzero : (Dict.empty : Dict Address ℤ).getD q.address 0 = 0 := rfl
  unfold Context.beforeContractPolicy Context.woneOffset Input.deduction
  dsimp only [Input.context]
  rw [mergeExisting_ok he, mergeHistorical_ok hh, hzero]
  ring

end HarmonyMigration.Claims.StagePolicy
