import HarmonyMigration.Claims.WoneRows

/-! `verify-wone-allocation.py`: the native ledger, the overlaid one and the threshold file are
walked side by side, and every row of the overlay is worked out again. -/

namespace HarmonyMigration.Claims.WoneAllocation

open Erc20 Except Decimal Wone Verify

inductive Error where
  | invalidAddress
  | invalidKey
  | notCanonical (f : Field)
  | notCanonicalMetadata
  | keysNotIncreasing
  | addressKeyMismatch
  | addressOrSecureKeyMismatch
  | notResolved
  | fixedMismatch (c : Component)
  | liquidMismatch
  | walletMismatch
  | vaultMismatch
  | totalMismatch
  | invalidPrice
  | usdMismatch
  | metadataNotIncreasing
  | claimRowPresent
  | invalidDeliveryAmount
  | excludedHasMetadata
  | balanceMismatch
  | invalidHash
  | codeStatus
  | notChecksummed
  | keyMismatch
  | cutoffMismatch
  | metadataMismatch
  | nonzeroComponent (c : Component)
  | duplicateNative
  | metadataMissing
  | duplicateMetadata
  | unknownHolder
  | addressMismatch
  | notPreserved
  | unexpectedAmount (c : Component)
  | arithmeticMismatch
  | thresholdExtra
  | thresholdMissing
  | thresholdNotCopy
  | thresholdSelected
  | nativeMissing
  | notAuthorized
  | duplicateSpecial
  | specialWoneOnly
  | metadataIncomplete
  | specialMissing
  deriving DecidableEq

def minimum : ℤ := 1000 * 10 ^ 18

def emptyCodeHash : Text := "0xc5d2460186f7233c927e7db2dcc703c0e500b653ca82273b7bfad8045d85a470".toList

/-! ### The texts of a row -/

def normalizeAddress (t : Text) : Option Address := (Hex.parseMixed 40 t).map (BitVec.ofNat 160)

/-- A key, as the number its text orders by. -/
def normalizeKey (t : Text) : Option ℕ := Hex.parse 64 t

/-- An amount, once its text is known to be canonical. -/
def value (row : Row) (c : Component) : ℕ := (parseCanonical (row (.atto c))).getD 0

def canonicalUint (row : Row) (f : Field) : Except Error ℕ := ofOption (parseCanonical (row f)) (.notCanonical f)

/-- `parse_price`: a canonical whole part, and digits behind the point. -/
def parsePriceStrict (t : Text) : Option Price :=
  if (parseCanonical (t.takeWhile (· ≠ '.'))).isSome ∧ '.' ∈ t then parsePrice t else none

def checkUsd (row : Row) (f : Field) (amount : ℤ) : Except Error Unit :=
  match parsePriceStrict (row .valuationPriceUsdPerOne) with
  | none => .error .invalidPrice
  | some price => require (row f = usdText price.scale (usd price amount)) .usdMismatch

def checkComponent (row : Row) (c : Component) : Except Error Unit :=
  (canonicalUint row (.atto c)).bind fun amount => require (row (.one c) = fixed 18 amount) (.fixedMismatch c)

/-- `validate_native_row`: the address; the amounts are those of `value`. -/
def validateNativeRow (H : Keccak) (row : Row) : Except Error Address :=
  (ofOption (normalizeAddress (row .address)) .invalidAddress).bind fun address =>
  (require (normalizeKey (row .secureKey)).isSome .invalidKey).bind fun _ =>
  (require (row .secureKey = secureKeyText H address) .addressKeyMismatch).bind fun _ =>
  (require (row .addressOrSecureKey = row .address) .addressOrSecureKeyMismatch).bind fun _ =>
  (require (row .addressResolved = "true".toList) .notResolved).bind fun _ =>
  (componentNames.mapM (checkComponent row)).bind fun _ =>
  (require (value row .liquidShard0 + value row .liquidShard1 = value row .liquidTotal) .liquidMismatch).bind fun _ =>
  (require (value row .walletAirdrop = value row .liquidShard0 + value row .liquidShard1 +
    value row .pendingUndelegation + value row .unclaimedStakingReward + value row .pendingCrossShard)
    .walletMismatch).bind fun _ =>
  (require (value row .stakedToVault = value row .activeStakedOrDelegated) .vaultMismatch).bind fun _ =>
  (require (value row .walletAirdrop + value row .stakedToVault = value row .totalClaim) .totalMismatch).bind fun _ =>
  (checkUsd row .walletAirdropUsd (value row .walletAirdrop)).bind fun _ =>
  (checkUsd row .totalUsd (value row .totalClaim)).map fun _ => address

/-! ### What the walk is given -/

/-- `metadata`, by address. -/
abbrev Metadata := Dict Address MetadataText

structure Context where
  keccak : Keccak
  exclusions : List Address
  aggregateDelivery : List Address
  metadata : Metadata
  cutoffBlock : ℕ

/-- One row of the metadata, after those up to `previous`. -/
def loadMetadataRow (holders : Dict Address ℤ) (exclusions aggregateDelivery : List Address) (previous : Option Address)
    (row : MetadataText) : Except Error Address :=
  (ofOption (normalizeAddress row.address) .invalidAddress).bind fun address =>
  (require (previous.all fun a => a.toNat < address.toNat) .metadataNotIncreasing).bind fun _ =>
  (require (row.claimRowPresent = "false".toList) .claimRowPresent).bind fun _ =>
  (ofOption (parseCanonical row.woneBalanceAtto) .notCanonicalMetadata).bind fun amount =>
  (ofOption (parseCanonical row.combinedTotalAtto) .notCanonicalMetadata).bind fun combined =>
  (require ((minimum ≤ amount ∨ address ∈ aggregateDelivery) ∧ combined = amount) .invalidDeliveryAmount).bind fun _ =>
  (require (address ∉ exclusions) .excludedHasMetadata).bind fun _ =>
  (require (holders.get? address = some (amount : ℤ)) .balanceMismatch).bind fun _ =>
  (require (parseCanonical row.nonceShard0).isSome .notCanonicalMetadata).bind fun _ =>
  (require (Hex.parse 64 (lower row.codeHashShard0)).isSome .invalidHash).bind fun _ =>
  (require (row.codeStatus =
    (if lower row.codeHashShard0 = emptyCodeHash then "code_less" else "code_bearing").toList) .codeStatus).map fun _ =>
  address

def loadMetadataRows (holders : Dict Address ℤ) (exclusions aggregateDelivery : List Address) :
    List MetadataText → Option Address → Except Error (List (Address × MetadataText))
  | [], _ => .ok []
  | row :: rest, previous =>
    (loadMetadataRow holders exclusions aggregateDelivery previous row).bind fun address =>
    (loadMetadataRows holders exclusions aggregateDelivery rest (some address)).map fun l => (address, row) :: l

def loadMetadata (holders : Dict Address ℤ) (exclusions aggregateDelivery : List Address) (rows : List MetadataText) :
    Except Error Metadata :=
  (loadMetadataRows holders exclusions aggregateDelivery rows none).map Dict.ofList

/-! ### Readers -/

/-- A row that was read, with its key. -/
structure Item where
  row : Row
  key : ℕ
  read : normalizeKey (row .secureKey) = some key

def readItem (previous : Option ℕ) (row : Row) : Except Error Item :=
  match h : normalizeKey (row .secureKey) with
  | none => .error .invalidKey
  | some key => (require (∀ k ∈ previous, k < key) .keysNotIncreasing).map fun _ => ⟨row, key, h⟩

/-- A reader that holds the row it has just read, and the rows behind it. -/
structure Cursor where
  current : Option Item
  rest : List Row

def pop (previous : Option ℕ) : List Row → Except Error Cursor
  | [] => .ok ⟨none, []⟩
  | row :: rest => (readItem previous row).map fun item => ⟨some item, rest⟩

/-- The next row; the key of the last one is that of the row the cursor holds. -/
def Cursor.next (c : Cursor) : Except Error Cursor := pop (c.current.map Item.key) c.rest

/-- `ThresholdCursor.compare`. -/
def Cursor.compare (c : Cursor) (item : Item) (qualifies : Bool) : Except Error Cursor :=
  (require (∀ t ∈ c.current, ¬t.key < item.key) .thresholdExtra).bind fun _ =>
  if qualifies then
    match c.current with
    | none => .error .thresholdMissing
    | some t =>
      (require (t.key = item.key) .thresholdMissing).bind fun _ =>
      (require (∀ f ∈ migrationFields, t.row f = item.row f) .thresholdNotCopy).bind fun _ => c.next
  else (require (∀ t ∈ c.current, t.key ≠ item.key) .thresholdSelected).map fun _ => c

/-- `ThresholdCursor.finish`. -/
def Cursor.finish (c : Cursor) : Except Error Unit := require (c.current.isNone) .thresholdExtra

/-! ### A row of the overlay -/

/-- What a row of the overlay amounts to. -/
structure Values where
  address : Address
  key : ℕ
  nativePresent : Bool
  actualWone : ℤ
  aggregateDelivery : Bool
  nativeWallet : ℤ
  woneBalance : ℤ
  woneAirdrop : ℤ
  wallet : ℤ
  staked : ℤ
  qualification : ℤ
  nativeTotal : ℤ
  total : ℤ
  liquidShard0 : ℕ
  liquidShard1 : ℕ

/-- The components of `expected`, with their values. -/
def Values.expected (v : Values) : List (Component × ℤ) :=
  [(.nativeWalletAirdrop, v.nativeWallet), (.woneBalance, v.woneBalance), (.woneAirdrop, v.woneAirdrop),
    (.walletAirdrop, v.wallet), (.stakedToVault, v.staked), (.qualificationTotal, v.qualification),
    (.nativeTotalClaim, v.nativeTotal), (.totalClaim, v.total)]

def zeroComponents : List Component :=
  [.liquidShard0, .liquidShard1, .liquidTotal, .activeStakedOrDelegated, .pendingUndelegation, .unclaimedStakingReward,
    .pendingCrossShard]

def checkZero (row : Row) (c : Component) : Except Error Unit :=
  (canonicalUint row (.atto c)).bind fun amount =>
  (require (amount = 0) (.nonzeroComponent c)).bind fun _ =>
  require (row (.one c) = fixed 18 0) (.fixedMismatch c)

/-- `validate_wone_only_static`, for the address of the row and its metadata. -/
def validateWoneOnlyStatic (ctx : Context) (row : Row) (address : Address) (m : MetadataText) : Except Error Unit :=
  (require (row .address = toChecksum ctx.keccak address) .notChecksummed).bind fun _ =>
  (require (row .addressOrSecureKey = row .address) .addressOrSecureKeyMismatch).bind fun _ =>
  (require (row .addressResolved = "true".toList) .notResolved).bind fun _ =>
  (require (row .secureKey = secureKeyText ctx.keccak address) .keyMismatch).bind fun _ =>
  (canonicalUint row .claimsShard0Block).bind fun block =>
  (require (block = ctx.cutoffBlock) .cutoffMismatch).bind fun _ =>
  (canonicalUint row .claimsShard1Block).bind fun _ =>
  (canonicalUint row .valuationPriceReferenceShard0Block).bind fun _ =>
  (require (parsePriceStrict (row .valuationPriceUsdPerOne)).isSome .invalidPrice).bind fun _ =>
  (require (row .nonceShard0 = m.nonceShard0 ∧ lower (row .codeHashShard0) = lower m.codeHashShard0 ∧
    row .nonceShard1 = [] ∧ row .codeHashShard1 = []) .metadataMismatch).bind fun _ =>
  (zeroComponents.mapM (checkZero row)).map fun _ => ()

/-- `holder_amount_for_native`: the balance, which is negated so that it is not given twice. -/
def holderAmountForNative (holders : Dict Address ℤ) (address : Address) : Except Error (ℤ × Dict Address ℤ) :=
  match holders.get? address with
  | none => .ok (0, holders)
  | some signed =>
    (require (¬signed < 0) .duplicateNative).map fun _ => (signed, holders.insert address (-signed))

/-- What a row's own native claim and balance are. -/
structure Base where
  nativeWallet : ℤ
  staked : ℤ
  nativeTotal : ℤ
  actualWone : ℤ
  holders : Dict Address ℤ
  seenMetadata : List Address

/-- A row without a native one. -/
def woneOnlyBase (ctx : Context) (holders : Dict Address ℤ) (seen : List Address) (row : Row) (address : Address) :
    Except Error Base :=
  match ctx.metadata.get? address with
  | none => .error .metadataMissing
  | some m =>
    (validateWoneOnlyStatic ctx row address m).bind fun _ =>
    (require (address ∉ seen) .duplicateMetadata).bind fun _ =>
    match holders.get? address with
    | none => .error .unknownHolder
    | some wone => .ok ⟨0, 0, 0, wone, holders, address :: seen⟩

/-- The native columns that the overlay writes anew. -/
def mutatedNativeFields : List Field :=
  [.atto .walletAirdrop, .atto .totalClaim, .one .walletAirdrop, .one .totalClaim, .walletAirdropUsd, .totalUsd]

/-- A row with a native one. -/
def nativeBase (ctx : Context) (holders : Dict Address ℤ) (seen : List Address) (item native : Item) (address : Address) :
    Except Error Base :=
  (validateNativeRow ctx.keccak native.row).bind fun nativeAddress =>
  (require (item.key = native.key) .keyMismatch).bind fun _ =>
  (require (address = nativeAddress) .addressMismatch).bind fun _ =>
  (require (∀ f ∈ nativeFields, f ∉ mutatedNativeFields → item.row f = native.row f) .notPreserved).bind fun _ =>
  (holderAmountForNative holders address).map fun (wone, holders) =>
    ⟨value native.row .walletAirdrop, value native.row .stakedToVault, value native.row .totalClaim, wone, holders, seen⟩

def valuesOf (ctx : Context) (item : Item) (address : Address) (nativePresent : Bool) (b : Base)
    (liquidShard0 liquidShard1 : ℕ) : Values :=
  let effectiveWone := if address ∈ ctx.exclusions then 0 else b.actualWone
  let qualification := b.nativeTotal + effectiveWone
  let woneAirdrop := if minimum ≤ qualification ∨ address ∈ ctx.aggregateDelivery then effectiveWone else 0
  { address, key := item.key, nativePresent, actualWone := b.actualWone,
    aggregateDelivery := address ∈ ctx.aggregateDelivery, nativeWallet := b.nativeWallet, woneBalance := effectiveWone,
    woneAirdrop, wallet := b.nativeWallet + woneAirdrop, staked := b.staked, qualification, nativeTotal := b.nativeTotal,
    total := b.nativeTotal + woneAirdrop, liquidShard0, liquidShard1 }

def checkAmount (row : Row) (e : Component × ℤ) : Except Error Unit :=
  (canonicalUint row (.atto e.1)).bind fun amount => require ((amount : ℤ) = e.2) (.unexpectedAmount e.1)

/-- `validate_fixed_overlay`. -/
def validateFixedOverlay (row : Row) (v : Values) : Except Error Unit :=
  (v.expected.mapM fun e => require (row (.one e.1) = fixed 18 e.2) (Error.fixedMismatch e.1)).bind fun _ =>
  (checkUsd row .walletAirdropUsd v.wallet).bind fun _ => checkUsd row .totalUsd v.total

def validateMigrationRow (ctx : Context) (holders : Dict Address ℤ) (seen : List Address) (item : Item)
    (native : Option Item) : Except Error (Values × Base) :=
  let row := item.row
  (ofOption (normalizeAddress (row .address)) .invalidAddress).bind fun address =>
  (match native with
    | none => woneOnlyBase ctx holders seen row address
    | some native => nativeBase ctx holders seen item native address).bind fun b =>
  let v := valuesOf ctx item address native.isSome b (value row .liquidShard0) (value row .liquidShard1)
  (v.expected.mapM (checkAmount row)).bind fun _ =>
  (require (value row .nativeWalletAirdrop + value row .stakedToVault = value row .nativeTotalClaim ∧
    value row .qualificationTotal = value row .nativeTotalClaim + value row .woneBalance ∧
    value row .walletAirdrop = value row .nativeWalletAirdrop + value row .woneAirdrop ∧
    value row .walletAirdrop + value row .stakedToVault = value row .totalClaim) Error.arithmeticMismatch).bind fun _ =>
  (validateFixedOverlay row v).bind fun _ =>
  (canonicalUint row (.atto .liquidShard0)).bind fun _ =>
  (canonicalUint row (.atto .liquidShard1)).map fun _ => (v, b)

/-! ### The walk -/

structure Metrics where
  nativeRows : ℕ := 0
  migrationRows : ℕ := 0
  woneOnlyRows : ℕ := 0
  baselineQualifiedRows : ℕ := 0
  newlyQualifiedExistingNativeRows : ℕ := 0
  qualifiedRows : ℕ := 0
  exactThresholdRows : ℕ := 0
  priorityWoneHolderRows : ℕ := 0
  priorityWone : ℤ := 0
  ordinaryThresholdWoneHolderRows : ℕ := 0
  ordinaryThresholdWone : ℤ := 0
  aggregateDeliveryWoneHolderRows : ℕ := 0
  aggregateDeliveryWone : ℤ := 0
  newlyQualifiedWoneOnlyRows : ℕ := 0
  nativeWallet : ℤ := 0
  nativeTotal : ℤ := 0
  wallet : ℤ := 0
  staked : ℤ := 0
  total : ℤ := 0
  thresholdWallet : ℤ := 0
  thresholdStaked : ℤ := 0
  thresholdTotal : ℤ := 0
  thresholdWone : ℤ := 0

def Metrics.add (m : Metrics) (v : Values) : Metrics :=
  let qualifies := minimum ≤ v.qualification
  let baseline := minimum ≤ v.nativeTotal
  let delivers := v.woneAirdrop ≠ 0
  { nativeRows := m.nativeRows + if v.nativePresent then 1 else 0
    migrationRows := m.migrationRows + 1
    woneOnlyRows := m.woneOnlyRows + if v.nativePresent then 0 else 1
    baselineQualifiedRows := m.baselineQualifiedRows + if v.nativePresent ∧ baseline then 1 else 0
    newlyQualifiedExistingNativeRows :=
      m.newlyQualifiedExistingNativeRows + if v.nativePresent ∧ qualifies ∧ ¬baseline then 1 else 0
    qualifiedRows := m.qualifiedRows + if qualifies then 1 else 0
    exactThresholdRows := m.exactThresholdRows + if v.qualification = minimum then 1 else 0
    priorityWoneHolderRows := m.priorityWoneHolderRows + if delivers then 1 else 0
    priorityWone := m.priorityWone + v.woneAirdrop
    ordinaryThresholdWoneHolderRows := m.ordinaryThresholdWoneHolderRows + if delivers ∧ qualifies then 1 else 0
    ordinaryThresholdWone := m.ordinaryThresholdWone + if delivers ∧ qualifies then v.woneAirdrop else 0
    aggregateDeliveryWoneHolderRows := m.aggregateDeliveryWoneHolderRows + if delivers ∧ ¬qualifies then 1 else 0
    aggregateDeliveryWone := m.aggregateDeliveryWone + if delivers ∧ ¬qualifies then v.woneAirdrop else 0
    newlyQualifiedWoneOnlyRows := m.newlyQualifiedWoneOnlyRows + if ¬v.nativePresent ∧ qualifies then 1 else 0
    nativeWallet := m.nativeWallet + if v.nativePresent then v.nativeWallet else 0
    nativeTotal := m.nativeTotal + if v.nativePresent then v.nativeTotal else 0
    wallet := m.wallet + v.wallet
    staked := m.staked + v.staked
    total := m.total + v.total
    thresholdWallet := m.thresholdWallet + if qualifies then v.wallet else 0
    thresholdStaked := m.thresholdStaked + if qualifies then v.staked else 0
    thresholdTotal := m.thresholdTotal + if qualifies then v.total else 0
    thresholdWone := m.thresholdWone + if qualifies then v.woneAirdrop else 0 }

/-- What the loop keeps. -/
structure State where
  holders : Dict Address ℤ
  seenMetadata : List Address
  metrics : Metrics
  woneRecipients : List Address
  special : Dict Address Values

def requiredSpecial : List Address := woneAddress :: layerzeroAddresses

/-- The row is counted. -/
def account (s : State) (v : Values) : Except Error State :=
  let delivers := v.woneAirdrop ≠ 0
  (require (delivers → minimum ≤ v.qualification ∨ v.aggregateDelivery) .notAuthorized).map fun _ =>
    { s with
      metrics := s.metrics.add v
      woneRecipients := if delivers then v.address :: s.woneRecipients else s.woneRecipients }

/-- The claims that the routes need are kept. -/
def keepSpecial (s : State) (v : Values) : Except Error State :=
  if v.address ∈ requiredSpecial then
    (require (v.address ∉ s.special.keys) .duplicateSpecial).bind fun _ =>
    (require (v.nativePresent = true) .specialWoneOnly).map fun _ => { s with special := s.special.insert v.address v }
  else .ok s

/-- The loop, row by row of the overlay behind the key `previous`. -/
def walk (ctx : Context) :
    List Row → Option ℕ → Cursor → Cursor → State → Except Error (Cursor × State)
  | [], _, native, threshold, s => (require (native.current.isNone) .nativeMissing).map fun _ => (threshold, s)
  | row :: rest, previous, native, threshold, s =>
    (readItem previous row).bind fun item =>
    (require (∀ n ∈ native.current, ¬n.key < item.key) .nativeMissing).bind fun _ =>
    let matched := native.current.filter fun n => ¬item.key < n.key
    (validateMigrationRow ctx s.holders s.seenMetadata item matched).bind fun (v, b) =>
    (threshold.compare item (minimum ≤ v.qualification)).bind fun threshold =>
    (account { s with holders := b.holders, seenMetadata := b.seenMetadata } v).bind fun s =>
    (if matched.isSome then native.next else .ok native).bind fun native =>
    (keepSpecial s v).bind fun s =>
    walk ctx rest (some item.key) native threshold s

/-- The holders that no native row was met for and that are delivered. -/
def expectedMetadata (ctx : Context) (holders : Dict Address ℤ) : List Address :=
  (holders.entries.filter fun e =>
    0 < e.2 ∧ (minimum ≤ e.2 ∨ e.1 ∈ ctx.aggregateDelivery) ∧ e.1 ∉ ctx.exclusions).map Prod.fst

def sameSet (l l' : List Address) : Bool := within l l' && within l' l

def verifyClaimLedgers (ctx : Context) (holders : Dict Address ℤ) (native migration threshold : List Row) :
    Except Error (Metrics × Dict Address Values × List Address) :=
  (pop none threshold).bind fun threshold =>
  (pop none native).bind fun native =>
  (walk ctx migration none native threshold ⟨holders, [], {}, [], .empty⟩).bind fun (threshold, s) =>
  threshold.finish.bind fun _ =>
  (require (sameSet ctx.metadata.keys (expectedMetadata ctx s.holders) ∧
    sameSet s.seenMetadata (expectedMetadata ctx s.holders)) .metadataIncomplete).bind fun _ =>
  (require (sameSet s.special.keys requiredSpecial) .specialMissing).map fun _ =>
  (s.metrics, s.special, s.woneRecipients)

end HarmonyMigration.Claims.WoneAllocation
