import HarmonyMigration.Claims.Basic

/-! `apply-wone-qualification.py`: every holder's WONE is added to the native claim ledger. -/

namespace HarmonyMigration.Claims.Wone

open Erc20 Except

inductive Error where
  | inconsistentSummary
  | holdersNotIncreasing
  | invalidAmount
  | duplicateMetadata
  | missingCodeHash
  | unknownNewHolder
  | woneMismatch
  | neitherQualifiedNorSelected
  | keysNotIncreasing
  | keyExists
  | claimArithmetic
  | invalidPrice
  | lacksAuthorization
  | reserveMismatch
  | contractMissing
  | metadataOverlap
  | metadataIncomplete
  | totalsDoNotClose
  | exceedsReserve
  deriving DecidableEq

/-- `valuation_price_usd_per_one`: its digits and how many stand behind the point. -/
structure Price where
  numerator : ℤ
  scale : ℕ
  deriving DecidableEq

/-- A row of the native ledger; `price` is `none` where its text is no decimal number. -/
structure NativeRow where
  key : ℕ
  address : Address
  wallet : ℤ
  staked : ℤ
  total : ℤ
  liquidShard0 : ℤ
  liquidShard1 : ℤ
  liquidTotal : ℤ
  price : Option Price
  codeHashShard0 : String
  codeHashShard1 : String
  deriving DecidableEq

/-- A row of the overlaid ledger. -/
structure ClaimRow where
  key : ℕ
  address : Address
  staked : ℤ
  liquidShard0 : ℤ
  nativeWallet : ℤ
  woneBalance : ℤ
  woneAirdrop : ℤ
  wallet : ℤ
  qualificationTotal : ℤ
  nativeTotal : ℤ
  total : ℤ
  walletUsd : ℤ × ℤ
  totalUsd : ℤ × ℤ
  codeHashShard0 : String
  codeHashShard1 : String
  deriving DecidableEq

/-- Whole dollars and the fraction's digits. -/
def usd (p : Price) (amount : ℤ) : ℤ × ℤ :=
  (amount * p.numerator / 10 ^ (18 + p.scale), amount * p.numerator % 10 ^ (18 + p.scale))

def applyOverlay (row : NativeRow) (wone : ℤ) (threshold : ℕ) (aggregateDelivery : Bool) : Except Error ClaimRow :=
  let qualificationTotal := row.total + wone
  let woneAirdrop := if (threshold : ℤ) ≤ qualificationTotal ∨ aggregateDelivery then wone else 0
  let wallet := row.wallet + woneAirdrop
  let total := row.total + woneAirdrop
  match row.price with
  | none => .error .invalidPrice
  | some price => .ok
    { key := row.key, address := row.address, staked := row.staked, liquidShard0 := row.liquidShard0,
      nativeWallet := row.wallet, woneBalance := wone, woneAirdrop, wallet, qualificationTotal,
      nativeTotal := row.total, total, walletUsd := usd price wallet, totalUsd := usd price total,
      codeHashShard0 := row.codeHashShard0, codeHashShard1 := row.codeHashShard1 }

/-- A row of the holder file; `textMatches` says that the decimal column spells the same amount. -/
structure HolderRow where
  address : Address
  amount : ℤ
  textMatches : Bool
  deriving DecidableEq

structure MetadataRow where
  address : Address
  woneBalance : ℤ
  claimRowPresent : Bool
  codeHashShard0 : String
  deriving DecidableEq

/-- The fields of the holder scan's summary that are read. -/
structure ScanSummary where
  passed : Bool
  cutoffBlock : ℤ
  contract : Address
  reserveMinusSupply : ℤ
  totalSupply : ℤ
  nativeReserve : ℤ
  outputSha256 : String
  holderCount : ℕ
  totalHolderBalance : ℤ

structure Input where
  native : List NativeRow
  holders : List HolderRow
  holdersSha256 : String
  summary : ScanSummary
  metadata : List MetadataRow
  excludeAddresses : List Address
  aggregateRequested : List Address
  minimumOne : ℕ

namespace Input
variable (i : Input)

def excluded : List Address := woneAddress :: i.excludeAddresses

/-- The wallets whose WONE is delivered whatever its amount. -/
def aggregate (a : Address) : Bool := a ∈ i.aggregateRequested ∧ a ∉ i.excluded

def holderTotal : ℤ := (i.holders.map HolderRow.amount).sum

end Input

def loadWone (rows : List HolderRow) (excluded : List Address) : Except Error (Dict Address ℤ) :=
  (require ((rows.map fun r => r.address.toNat).Pairwise (· < ·)) .holdersNotIncreasing).bind fun _ =>
  (require (∀ r ∈ rows, 0 < r.amount ∧ r.textMatches) .invalidAmount).map fun _ =>
    .ofList ((rows.filter fun r => r.address ∉ excluded).map fun r => (r.address, r.amount))

def loadNewHolderMetadata (rows : List MetadataRow) : Except Error (List MetadataRow) :=
  let records := rows.filter fun r => ¬r.claimRowPresent
  (require ((records.map MetadataRow.address).Nodup) .duplicateMetadata).bind fun _ =>
  (require (∀ r ∈ records, r.codeHashShard0 ≠ "") .missingCodeHash).map fun _ => records

/-- A ledger row for a holder without one. -/
def blankRow (K : Keys) (r : MetadataRow) : NativeRow where
  key := K.key r.address
  address := r.address
  wallet := 0
  staked := 0
  total := 0
  liquidShard0 := 0
  liquidShard1 := 0
  liquidTotal := 0
  price := some ⟨74801, 8⟩
  codeHashShard0 := r.codeHashShard0
  codeHashShard1 := ""

def newHolderRow (K : Keys) (i : Input) (holders : Dict Address ℤ) (r : MetadataRow) : Except Error ClaimRow :=
  match holders.get? r.address with
  | none => .error .unknownNewHolder
  | some wone =>
    (require (r.woneBalance = wone) .woneMismatch).bind fun _ =>
    (require ((i.minimumOne : ℤ) ≤ wone ∨ i.aggregate r.address) .neitherQualifiedNorSelected).bind fun _ =>
    applyOverlay (blankRow K r) wone i.minimumOne (i.aggregate r.address)

/-- What the merge accumulates. -/
structure Totals where
  rows : List ClaimRow := []
  nativeRows : ℕ := 0
  baselineQualified : ℕ := 0
  qualified : ℕ := 0
  newlyQualifiedWoneOnly : ℕ := 0
  newlyQualifiedExisting : ℕ := 0
  deliveredHolders : ℕ := 0
  delivered : ℤ := 0
  thresholdHolders : ℕ := 0
  threshold : ℤ := 0
  aggregateHolders : ℕ := 0
  aggregate : ℤ := 0
  nativeWallet : ℤ := 0
  nativeTotal : ℤ := 0
  wallet : ℤ := 0
  staked : ℤ := 0
  total : ℤ := 0
  candidates : List Address := []
  contractSeen : Bool := false

/-- Write a row of a holder without a native claim. -/
def emitNew (minimumOne : ℕ) (s : Totals) (r : ClaimRow) : Totals :=
  let qualifies := (minimumOne : ℤ) ≤ r.qualificationTotal
  { s with
    rows := s.rows ++ [r]
    qualified := s.qualified + if qualifies then 1 else 0
    newlyQualifiedWoneOnly := s.newlyQualifiedWoneOnly + if qualifies then 1 else 0
    deliveredHolders := s.deliveredHolders + 1
    delivered := s.delivered + r.woneAirdrop
    thresholdHolders := s.thresholdHolders + if qualifies then 1 else 0
    threshold := s.threshold + if qualifies then r.woneAirdrop else 0
    aggregateHolders := s.aggregateHolders + if qualifies then 0 else 1
    aggregate := s.aggregate + if qualifies then 0 else r.woneAirdrop
    wallet := s.wallet + r.woneAirdrop
    total := s.total + r.woneAirdrop }

/-- `validate_native_row`. -/
def validNative (row : NativeRow) : Prop :=
  0 ≤ row.wallet ∧ 0 ≤ row.staked ∧ 0 ≤ row.total ∧ 0 ≤ row.liquidTotal ∧ row.wallet + row.staked = row.total ∧
    row.liquidShard0 + row.liquidShard1 = row.liquidTotal

instance (row : NativeRow) : Decidable (validNative row) := by unfold validNative; infer_instance

/-- Overlay and write a native row. -/
def emitNative (i : Input) (holders : Dict Address ℤ) (reserve : ℤ) (s : Totals) (row : NativeRow) :
    Except Error Totals :=
  let wone := holders.getD row.address 0
  let aggregateDelivery := i.aggregate row.address
  (require (validNative row) .claimArithmetic).bind fun _ =>
  (applyOverlay row wone i.minimumOne aggregateDelivery).bind fun r =>
  let baseline := (i.minimumOne : ℤ) ≤ row.total
  let qualifies := (i.minimumOne : ℤ) ≤ r.qualificationTotal
  let delivers := r.woneAirdrop ≠ 0
  (require (¬delivers ∨ qualifies ∨ aggregateDelivery) .lacksAuthorization).bind fun _ =>
  (require (row.address = woneAddress → row.liquidShard0 = reserve) .reserveMismatch).bind fun _ =>
  .ok { s with
    rows := s.rows ++ [r]
    nativeRows := s.nativeRows + 1
    baselineQualified := s.baselineQualified + if baseline then 1 else 0
    qualified := s.qualified + if qualifies then 1 else 0
    newlyQualifiedExisting := s.newlyQualifiedExisting + if qualifies ∧ ¬baseline then 1 else 0
    deliveredHolders := s.deliveredHolders + if delivers then 1 else 0
    delivered := s.delivered + r.woneAirdrop
    thresholdHolders := s.thresholdHolders + if delivers ∧ qualifies then 1 else 0
    threshold := s.threshold + if delivers ∧ qualifies then r.woneAirdrop else 0
    aggregateHolders := s.aggregateHolders + if delivers ∧ ¬qualifies then 1 else 0
    aggregate := s.aggregate + if delivers ∧ ¬qualifies then r.woneAirdrop else 0
    nativeWallet := s.nativeWallet + row.wallet
    nativeTotal := s.nativeTotal + row.total
    wallet := s.wallet + r.wallet
    staked := s.staked + row.staked
    total := s.total + r.total
    candidates := if (i.minimumOne : ℤ) ≤ wone ∨ aggregateDelivery then row.address :: s.candidates
      else s.candidates
    contractSeen := s.contractSeen || row.address = woneAddress }

/-- The streaming merge of the native ledger with the new rows, both by secure key. -/
def merge (i : Input) (holders : Dict Address ℤ) (reserve : ℤ) :
    List NativeRow → Option ℕ → List ClaimRow → Totals → Except Error Totals
  | [], _, new, s => .ok (new.foldl (emitNew i.minimumOne) s)
  | row :: rest, previous, new, s =>
    (require (∀ k ∈ previous, k < row.key) .keysNotIncreasing).bind fun _ =>
    let s := (new.takeWhile fun r => r.key < row.key).foldl (emitNew i.minimumOne) s
    let new := new.dropWhile fun r => r.key < row.key
    (require (new.head?.map ClaimRow.key ≠ some row.key) .keyExists).bind fun _ =>
    (emitNative i holders reserve s row).bind fun s => merge i holders reserve rest (some row.key) new s

/-- `require_complete_new_holder_metadata`: the metadata are those of every delivery without a claim. -/
def completeMetadata (i : Input) (holders : Dict Address ℤ) (candidates metadata : List Address) : Prop :=
  let expected := (holders.entries.filter fun e =>
    ((i.minimumOne : ℤ) ≤ e.2 ∨ i.aggregate e.1) ∧ e.1 ∉ candidates).map Prod.fst
  within metadata expected ∧ within expected metadata

instance (i : Input) (holders : Dict Address ℤ) (candidates metadata : List Address) :
    Decidable (completeMetadata i holders candidates metadata) := by unfold completeMetadata; infer_instance

structure Output where
  totals : Totals
  reserve : ℤ
  retained : ℤ

def Input.summaryConsistent (i : Input) : Prop :=
  i.summary.passed ∧ i.summary.cutoffBlock = 93623067 ∧ i.summary.contract = woneAddress ∧
    i.summary.reserveMinusSupply = 0 ∧ i.summary.totalSupply = i.summary.nativeReserve ∧
    i.holdersSha256 = i.summary.outputSha256 ∧ i.holders.length = i.summary.holderCount ∧
    i.holderTotal = i.summary.totalHolderBalance

instance (i : Input) : Decidable i.summaryConsistent := by unfold Input.summaryConsistent; infer_instance

def main (K : Keys) (i : Input) : Except Error Output :=
  (require i.summaryConsistent .inconsistentSummary).bind fun _ =>
  (loadWone i.holders i.excluded).bind fun holders =>
  let reserve := i.holderTotal
  (loadNewHolderMetadata i.metadata).bind fun metadata =>
  (metadata.mapM (newHolderRow K i holders)).bind fun new =>
  (merge i holders reserve i.native none (new.insertionSort fun a b => a.key ≤ b.key) {}).bind fun s =>
  let addresses := metadata.map MetadataRow.address
  (require s.contractSeen .contractMissing).bind fun _ =>
  (require (apart addresses s.candidates) .metadataOverlap).bind fun _ =>
  (require (completeMetadata i holders s.candidates addresses) .metadataIncomplete).bind fun _ =>
  (require (s.wallet + s.staked = s.total ∧ s.nativeTotal - s.nativeWallet = s.staked ∧
    s.total = s.nativeTotal + s.delivered) .totalsDoNotClose).bind fun _ =>
  (require (s.delivered ≤ reserve) .exceedsReserve).bind fun _ =>
  .ok ⟨s, reserve, reserve - s.delivered⟩

end HarmonyMigration.Claims.Wone
