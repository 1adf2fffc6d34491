import HarmonyMigration.Exchange.Accounting
import Mathlib.Data.Char
import Mathlib.Data.List.Lex
import Mathlib.Data.List.Sort
import Mathlib.Data.Prod.Lex

/-! `build-exchange-accounting.py`: `summarize_exchange`, and the columns that `render_summary_report` publishes. -/

namespace HarmonyMigration.ExchangeAccounting

open Decimal Except

/-- `add_components` over the rows. -/
def totals (rows : List Row) : Values := fun c => (rows.map fun row => row.values c).sum

/-! ### Statistics -/

inductive BalanceBucket
  | zeroOrNoCutoffValue | over0Under1 | atLeast1Under10 | atLeast10Under100 | atLeast100Under1000 | atLeast1000
  deriving DecidableEq

def BalanceBucket.text : BalanceBucket → Text
  | .zeroOrNoCutoffValue => "zero_or_no_cutoff_value".toList
  | .over0Under1 => "over_0_under_1".toList
  | .atLeast1Under10 => "at_least_1_under_10".toList
  | .atLeast10Under100 => "at_least_10_under_100".toList
  | .atLeast100Under1000 => "at_least_100_under_1000".toList
  | .atLeast1000 => "at_least_1000".toList

/-- The index in `BALANCE_BUCKET_ORDER`. -/
def BalanceBucket.index : BalanceBucket → ℕ
  | .zeroOrNoCutoffValue => 0
  | .over0Under1 => 1
  | .atLeast1Under10 => 2
  | .atLeast10Under100 => 3
  | .atLeast100Under1000 => 4
  | .atLeast1000 => 5

def attoPerOne : ℤ := 10 ^ 18

def balanceBucket (value : ℤ) : BalanceBucket :=
  if value = 0 then .zeroOrNoCutoffValue
  else if value < attoPerOne then .over0Under1
  else if value < 10 * attoPerOne then .atLeast1Under10
  else if value < 100 * attoPerOne then .atLeast10Under100
  else if value < 1000 * attoPerOne then .atLeast100Under1000
  else .atLeast1000

structure Statistics where
  rows : ℕ
  positiveRows : ℕ
  zeroRows : ℕ
  total : ℤ
  minimum : Option ℤ
  minimumPositive : Option ℤ
  mean : Option ℤ
  median : Option ℤ
  maximum : Option ℤ

def amountStatistics (values : List ℤ) : Except AccountingError Statistics :=
  match values.insertionSort (· ≤ ·) with
  | [] => .ok ⟨0, 0, 0, 0, none, none, none, none, none⟩
  | first :: rest =>
    let sorted := first :: rest
    (require (0 ≤ first) .negativeBalance).map fun _ =>
      let total := sorted.sum
      let positive := sorted.filter (0 < ·)
      let middle := sorted.length / 2
      let numerator :=
        if sorted.length % 2 = 1 then sorted.getD middle 0 * 2 else sorted.getD (middle - 1) 0 + sorted.getD middle 0
      { rows := sorted.length
        positiveRows := positive.length
        zeroRows := sorted.length - positive.length
        total
        minimum := some first
        minimumPositive := positive.head?
        mean := some ((total + sorted.length / 2) / sorted.length)
        median := some ((numerator + 1) / 2)
        maximum := sorted.getLast? }

structure GroupedStats (κ : Type) where
  label : κ
  rows : ℕ
  components : Values

/-- `grouped_stats`: the rows and the totals of each label, by the label's text. -/
def groupedStats {κ : Type} [DecidableEq κ] (text : κ → Text) (label : Row → κ) (rows : List Row) : List (GroupedStats κ) :=
  ((Dict.groupBy label rows).entries.insertionSort fun e f => text e.1 ≤ text f.1).map fun e =>
    ⟨e.1, e.2.length, totals e.2⟩

def orNone (label : Text) : Text := if label = [] then "none".toList else label

/-- `amount_bucket_stats`: the rows and the total of each bucket. -/
def amountBucketStats (values : List ℤ) : List (BalanceBucket × ℕ × ℤ) :=
  ((Dict.groupBy balanceBucket values).entries.insertionSort fun e f => e.1.index ≤ f.1.index).map fun e =>
    (e.1, e.2.length, e.2.sum)

/-! ### The summary of an exchange -/

/-- What the normalization of an exchange's inventory records. -/
structure Normalization where
  inventoryReceived : Bool
  configuredDestination : Text
  configuredStakingDestination : Text
  destinationConfigured : Bool
  authorizationDesignated : Option ℤ
  authorizationFailed : Option ℤ
  authorizationNotDesignated : Option ℤ
  authorizationProvided : Option ℤ
  authorizationVerified : ℤ
  submittedBalanceRows : ℤ
  submittedBalanceScope : Option Text
  rolledBackDeposits : List ℤ
  rolledBackTotal : ℤ

structure Exchange where
  config : Config
  normalization : Normalization

inductive MemoStatus
  | awaitingWalletInventory | holdMissingDestination | stagePolicyPending | ready
  deriving DecidableEq

structure DeliveryGroup where
  tier : Tier
  walletDestination : Text
  stakingDestination : Text
  wallets : ℕ
  walletComponent : ℤ
  wone : ℤ
  stakingComponent : ℤ
  total : ℤ

structure Summary where
  displayName : Text
  deliveryPolicy : Text
  mode : Mode
  memoStatus : MemoStatus
  deliveryGroups : List DeliveryGroup
  sameAddressRows : ℕ
  aggregatedRows : ℕ
  rolledBackClaim : Option (ℕ × ℤ × List ℤ)
  walletRows : ℕ
  claimsFound : ℕ
  claimsNotFound : ℕ
  qualifiedRows : ℕ
  belowThresholdRows : ℕ
  manualRows : ℕ
  heldRows : ℕ
  destination : Text
  stakingDestination : Text
  destinationConfigured : Bool
  authorizationDesignated : ℤ
  authorizationFailed : ℤ
  authorizationNotDesignated : ℤ
  authorizationProvided : ℤ
  authorizationVerified : ℤ
  verifiedQualifiedRows : ℕ
  unverifiedQualifiedRows : ℕ
  submittedBalanceRows : ℤ
  submittedBalanceScope : Text
  submittedExactRows : ℕ
  reconciliations : List (Text × ℕ)
  submittedStatistics : Statistics
  qualificationStatistics : Statistics
  routedStatistics : Statistics
  remainingNative : ℤ
  remainingWone : ℤ
  plannedWallet : ℤ
  plannedStaked : ℤ
  totals : Values
  activity : List (GroupedStats ActivityStatus)
  activityAge : List (GroupedStats Text)
  migrationStages : List (GroupedStats Text)
  balanceBuckets : List (GroupedStats BalanceBucket)
  submittedBuckets : List (BalanceBucket × ℕ × ℤ)
  deliveryStatuses : List (GroupedStats Status)

/-- The planned delivery of a row is zero. -/
def Row.Unplanned (row : Row) : Prop := row.values .plannedTotalEntitlement = 0

instance : DecidablePred Row.Unplanned := fun _ => inferInstanceAs (Decidable (_ = _))

def remainingNative (rows : List Row) : ℤ :=
  ((rows.filter fun row => row.Unplanned).map fun row => row.values .nativeTotalClaim).sum

def remainingWone (rows : List Row) : ℤ :=
  (rows.map fun row =>
    if row.Unplanned then row.values .woneBalance else row.values .woneBalance - row.values .woneAirdrop).sum

/-- The addresses whose WONE is not delivered. -/
def incompleteWone (rows : List Row) : List Text :=
  (rows.filter fun row => row.values .woneBalance ≠ row.values .woneAirdrop ∧ row.notIssued = false).map Row.addressHex

/-- The key of a delivery group, in the order of its texts. -/
def groupOrder (key : Tier × Text × Text) : Text ×ₗ Text ×ₗ Text := toLex (key.1.text, toLex (key.2.1, key.2.2))

def Row.groupKey (row : Row) : Tier × Text × Text :=
  (row.tier, row.plannedWalletDestination, row.plannedStakingDestination)

abbrev Group := (Tier × Text × Text) × List Row

def deliveryGroup (e : Group) : DeliveryGroup :=
  { tier := e.1.1
    walletDestination := e.1.2.1
    stakingDestination := e.1.2.2
    wallets := e.2.length
    walletComponent := totals e.2 .walletComponent
    wone := totals e.2 .woneAirdrop
    stakingComponent := totals e.2 .stakingComponent
    total := totals e.2 .walletComponent + totals e.2 .stakingComponent }

def deliveryGroups (rows : List Row) : List DeliveryGroup :=
  let groups := Dict.groupBy Row.groupKey (rows.filter fun row => ¬row.Unplanned)
  (groups.entries.insertionSort fun e f : Group => groupOrder e.1 ≤ groupOrder f.1).map deliveryGroup

def memoStatus (exchange : Exchange) (rows : List Row) : MemoStatus :=
  if exchange.normalization.inventoryReceived = false then .awaitingWalletInventory
  else if exchange.config.destinationRequired ∧ exchange.normalization.destinationConfigured = false then
    .holdMissingDestination
  else if ∃ row ∈ rows, row.status = .tierPending then .stagePolicyPending
  else .ready

def rolledBackClaim (n : Normalization) : Except AccountingError (Option (ℕ × ℤ × List ℤ)) :=
  if n.rolledBackDeposits = [] then .ok none
  else (require (n.rolledBackTotal = n.rolledBackDeposits.sum) .rolledBackTotal).map fun _ =>
    some (n.rolledBackDeposits.length, n.rolledBackTotal, n.rolledBackDeposits)

def reconciliationCounts (rows : List Row) : List (Text × ℕ) :=
  ((Dict.groupBy (fun row : Row => row.reconciliation.status) rows).entries.insertionSort fun e f => e.1 ≤ f.1).map
    fun e => (e.1, e.2.length)

def submittedValues (rows : List Row) : List ℤ := rows.filterMap fun row => row.reconciliation.submitted

def Row.positive (row : Row) : Bool := 0 < row.values .plannedTotalEntitlement

def verifiedText : Text := "verified".toList

/-- `summarize_exchange`. -/
def summarizeExchange (exchange : Exchange) (rows : List Row) : Except AccountingError Summary :=
  let t := totals rows
  let n := exchange.normalization
  (require (t .plannedWalletAirdrop + t .plannedStakedToVault = t .plannedTotalEntitlement) .plannedTotals).bind fun _ =>
  (require (remainingNative rows + remainingWone rows = t .remainingNotAirdropped) .residualSplit).bind fun _ =>
  (require (incompleteWone rows = []) (.omitsWone (incompleteWone rows))).bind fun _ =>
  (rolledBackClaim n).bind fun rolledBack =>
  (amountStatistics (submittedValues rows)).bind fun submitted =>
  (amountStatistics (rows.map fun row => row.values .qualificationTotal)).bind fun qualification =>
  (amountStatistics (rows.map fun row => row.values .plannedTotalEntitlement)).map fun routed =>
    { displayName := exchange.config.displayName
      deliveryPolicy := exchange.config.deliveryPolicy
      mode := exchange.config.mode
      memoStatus := memoStatus exchange rows
      deliveryGroups := deliveryGroups rows
      sameAddressRows := rows.countP fun row => row.tier ∈ [.sameAddress, .sameAddressInitial] ∧ row.positive
      aggregatedRows := rows.countP fun row =>
        row.tier ∈ [.aggregate, .aggregateSplit, .aggregatedNonInitial] ∧ row.positive
      rolledBackClaim := rolledBack
      walletRows := rows.length
      claimsFound := rows.countP (·.claimPresent)
      claimsNotFound := rows.countP (!·.claimPresent)
      qualifiedRows := rows.countP (·.qualified)
      belowThresholdRows := rows.countP (!·.qualified)
      manualRows := rows.countP (·.status = .exchangeManual)
      heldRows := rows.countP (·.status ∈ [.manualDestinationHold, .tierPending])
      destination := n.configuredDestination
      stakingDestination := n.configuredStakingDestination
      destinationConfigured := n.destinationConfigured
      authorizationDesignated := n.authorizationDesignated.getD n.authorizationVerified
      authorizationFailed := n.authorizationFailed.getD 0
      authorizationNotDesignated := n.authorizationNotDesignated.getD (rows.length - n.authorizationVerified)
      authorizationProvided := n.authorizationProvided.getD n.authorizationVerified
      authorizationVerified := n.authorizationVerified
      verifiedQualifiedRows := rows.countP fun row => row.qualified ∧ row.authorizationStatus = verifiedText
      unverifiedQualifiedRows := rows.countP fun row => row.qualified ∧ row.authorizationStatus ≠ verifiedText
      submittedBalanceRows := n.submittedBalanceRows
      submittedBalanceScope := n.submittedBalanceScope.getD (exchange.config.submittedBalanceScope.getD liquidShard0Scope)
      submittedExactRows := rows.countP fun row => "exact_".toList <+: row.reconciliation.status
      reconciliations := reconciliationCounts rows
      submittedStatistics := submitted
      qualificationStatistics := qualification
      routedStatistics := routed
      remainingNative := remainingNative rows
      remainingWone := remainingWone rows
      plannedWallet := t .plannedWalletAirdrop
      plannedStaked := t .plannedStakedToVault
      totals := t
      activity := groupedStats ActivityStatus.text Row.activityStatus rows
      activityAge := groupedStats id (fun row => orNone row.activityAgeBucket) rows
      migrationStages := groupedStats id (fun row => orNone row.migrationStage) rows
      balanceBuckets := groupedStats BalanceBucket.text (fun row => balanceBucket (row.values .qualificationTotal)) rows
      submittedBuckets := amountBucketStats (submittedValues rows)
      deliveryStatuses := groupedStats Status.text Row.status rows }

/-! ### The published report -/

/-- A line of the delivery summary, with its amounts before they are displayed. -/
structure DeliveryLine where
  displayName : Text
  mode : Mode
  memoStatus : MemoStatus
  walletRows : ℕ
  liquidCrossShard : ℤ
  wone : ℤ
  staking : ℤ
  manualTotal : ℤ
  destination : Text
  deriving DecidableEq

def orHold (text : Text) : Text := if text = [] then "hold".toList else text

def destinationText (s : Summary) : Text :=
  match s.mode with
  | .sameAddress => "same addresses".toList
  | .tiered => "initial-criteria wallets: same addresses; others: ".toList ++ orHold s.destination
  | .aggregateSplit =>
    "wallet: ".toList ++ orHold s.destination ++ "; staking: ".toList ++ orHold s.stakingDestination
  | .aggregate => orHold s.destination

def liquidCrossShard (t : Values) : ℤ := t .liquidShard0 + t .liquidShard1 + t .pendingCrossShard

def deliveryLine (config : Config) (s : Summary) : Except AccountingError DeliveryLine :=
  (require (liquidCrossShard s.totals + s.totals .woneAirdrop + s.totals .stakingComponent =
      s.totals .plannedTotalEntitlement) (.deliveryColumns config.id)).map fun _ =>
    { displayName := config.displayName
      mode := s.mode
      memoStatus := s.memoStatus
      walletRows := s.walletRows
      liquidCrossShard := liquidCrossShard s.totals
      wone := s.totals .woneAirdrop
      staking := s.totals .stakingComponent
      manualTotal := s.totals .plannedTotalEntitlement
      destination := destinationText s }

/-- What the report says of one exchange. -/
structure ExchangeReport where
  delivery : DeliveryLine
  submittedScope : Text
  submitted : Statistics
  qualification : Statistics
  signatures : ℤ × ℤ × ℤ × ℤ × ℤ
  breakdown : List (BalanceBucket × ℕ × ℤ)
  inventoryPending : Bool
  destinationHeld : Bool
  rolledBack : Option (ℕ × ℤ × List ℤ)

def exchangeReport (summaries : Dict Text Summary) (config : Config) : Except AccountingError ExchangeReport :=
  (ofOption (summaries.get? config.id) (.noSummary config.id)).bind fun s =>
  (deliveryLine config s).map fun line =>
    { delivery := line
      submittedScope := s.submittedBalanceScope
      submitted := s.submittedStatistics
      qualification := s.qualificationStatistics
      signatures := (s.authorizationDesignated, s.authorizationProvided, s.authorizationVerified, s.authorizationFailed,
        s.authorizationNotDesignated)
      breakdown := (s.balanceBuckets.insertionSort fun g h => g.label.index ≤ h.label.index).map fun g =>
        (g.label, g.rows, g.components .qualificationTotal)
      inventoryPending := s.memoStatus = .awaitingWalletInventory
      destinationHeld := config.destinationRequired ∧ s.destinationConfigured = false
      rolledBack := s.rolledBackClaim }

/-- `render_summary_report`, as the data of its tables. -/
def renderSummaryReport (configs : List Config) (summaries : Dict Text Summary) :
    Except AccountingError (List ExchangeReport) :=
  configs.mapM (exchangeReport summaries)

end HarmonyMigration.ExchangeAccounting
