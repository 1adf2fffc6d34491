import HarmonyMigration.Lib.Dict
import HarmonyMigration.Lib.Erc20
import HarmonyMigration.Lib.Except

/-! `build-bridge-allocations.py`: one pool's collateral split over its holders. -/

namespace HarmonyMigration.Allocation

open Erc20

/-! ### Accounts -/

/-- The classes `status_for` tells apart; any other text is `other`. -/
inductive AccountClass where
  | eoa | eoa7702 | validatorWrapper | adjustmentTarget
  | safe | multisig | onewallet | contract | smartvault
  | other (name : String)
  deriving DecidableEq, Repr

def AccountClass.name : AccountClass → String
  | .eoa => "eoa"
  | .eoa7702 => "eoa_7702"
  | .validatorWrapper => "validator_wrapper"
  | .adjustmentTarget => "adjustment_target"
  | .safe => "safe"
  | .multisig => "multisig"
  | .onewallet => "onewallet"
  | .contract => "contract"
  | .smartvault => "smartvault"
  | .other name => name

/-- `KEY_CONTROLLED`. -/
def AccountClass.keyControlled : AccountClass → Bool
  | .eoa | .eoa7702 | .validatorWrapper | .adjustmentTarget => true
  | _ => false

inductive Status where
  | claimable | heldMultisig | heldOnewallet | heldContract | heldUnclassified | heldReview
  | excludedSystem | excludedPolicy | belowMinimum
  deriving DecidableEq, Repr

/-- `status.startswith("held_")`. -/
def Status.held : Status → Bool
  | .heldMultisig | .heldOnewallet | .heldContract | .heldUnclassified | .heldReview => true
  | _ => false

/-- `status.startswith("excluded_")`. -/
def Status.excluded : Status → Bool
  | .excludedSystem | .excludedPolicy => true
  | _ => false

/-- `status in ELIGIBLE`. -/
def Status.eligible (s : Status) : Bool := s = .claimable || s.held

def statusFor (accountClass : Option AccountClass) (holderChain : String)
    (claimChain : Option String) : Status × String :=
  match accountClass with
  | some .eoa | some .eoa7702 | some .validatorWrapper | some .adjustmentTarget => (.claimable, "")
  | some .safe | some .multisig =>
    if some holderChain = claimChain then (.claimable, "same contract on the claim chain")
    else (.heldMultisig, "multisig needs an approved claim-chain destination")
  | some .onewallet => (.heldOnewallet, "1wallet needs an approved claim-chain destination")
  | some .contract | some .smartvault => (.heldContract, "contract holder needs review")
  | some (.other _) | none => (.heldUnclassified, "account was not classified")

/-- `chain_classes.get(account, {})`: the account's classes by chain. -/
def chainClasses (classes : Dict (String × Address) AccountClass) (account : Address) :
    List (String × AccountClass) :=
  classes.entries.filterMap fun p => if p.1.2 = account then some (p.1.1, p.2) else none

def contractElsewhere (account : Address) (holderChain : String) (claimChain : Option String)
    (classes : Dict (String × Address) AccountClass) : Option (Status × String) :=
  let sorted := (chainClasses classes account).mergeSort fun p q => decide (p.1 ≤ q.1)
  sorted.findSome? fun p =>
    let chain := p.1
    let other := p.2
    if chain = holderChain ∨ other.keyControlled then none
    else
      let (status, reason) := statusFor (some other) chain claimChain
      if status ≠ .claimable then
        some (status, other.name ++ " on " ++ chain ++ ", no code on " ++ holderChain ++ ": " ++ reason)
      else none

/-- The forty hexadecimal digits of an address. -/
def hexDigits (account : Address) : List ℕ :=
  (List.range 40).map fun i => account.toNat / 16 ^ i % 16

def reservedAddressReason (account : Address) : Option String :=
  if account.toNat ≤ 0xFFFF then some "reserved low address (precompile or system contract)"
  else if (hexDigits account).dedup.length = 1 then
    some "placeholder address with one repeated digit"
  else none

/-! ### Inputs -/

inductive Kind where
  | harmonyOrigin | remoteEscrow
  deriving DecidableEq, Repr

inductive ClaimAsset where
  | escrow | one | unsupported
  deriving DecidableEq, Repr

/-- A token address, or the chain's coin. -/
inductive Asset where
  | native
  | token (address : Address)
  deriving DecidableEq

structure Pool where
  poolId : String
  kind : Kind
  chain : String
  symbol : String
  decimals : ℕ
  claimAsset : ClaimAsset
  remoteToken : Asset

/-- `config["one_claims"]`, as far as allocations read it. -/
structure OneClaims where
  claimChain : String
  claimToken : Address

/-- A holder snapshot and its summary file. -/
structure HolderFile where
  stem : String
  passed : Bool
  hashMatches : Bool
  block : ℕ
  rows : List (Address × ℤ)

structure PlanPool where
  claimantChain : String
  snapshotLabel : String
  snapshotBlock : ℕ
  tokens : List HolderFile

/-- What a Harmony proxy held at the cutoff. -/
structure HarmonyCutoff where
  token : Asset
  nativeBalance : ℕ
  woneBalance : Option ℕ
  proxyTokenBalance : Option ℕ

/-- The state file's entry of one pool: the escrow and its predecessors, and the proxies. -/
structure PoolState where
  escrowBalance : Option ℕ
  previousAdapterBalances : List (Option ℕ)
  harmony : List HarmonyCutoff

structure Exclusion where
  chain : String
  reason : String

/-- An override's action; a destination that is no address is `none`. -/
inductive Action where
  | claim
  | redirect (destination : Option Address)
  | hold
  | exclude
  | unknown (action : String)
  deriving DecidableEq

structure Override where
  action : Action
  reason : String

/-- What every pool of a run shares. Keys are pool and address, the pool `*` for any. -/
structure Policy where
  one : OneClaims
  classes : Dict (String × Address) AccountClass
  roles : Dict Address String
  exclusions : Dict (String × Address) Exclusion
  overrides : Dict (String × Address) Override

inductive BuildError where
  | holderSnapshotFailed (stem : String)
  | holderHashMismatch (stem : String)
  | holderBlockMismatch (stem : String)
  | escrowBalanceUnreadable (poolId : String)
  | invalidOverrideAddress
  | unknownOverrideAction (action : String)
  deriving DecidableEq, Repr

/-! ### The build -/

def claimTarget (pool : Pool) (one : OneClaims) : Option String × Option Asset :=
  match pool.claimAsset with
  | .escrow => (some pool.chain, some pool.remoteToken)
  | .one => (some one.claimChain, some (.token one.claimToken))
  | .unsupported => (none, none)

def loadToken (snapshotBlock : ℕ) (holdings : Dict Address ℤ) (token : HolderFile) :
    Except BuildError (Dict Address ℤ) :=
  if ¬token.passed then .error (.holderSnapshotFailed token.stem)
  else if ¬token.hashMatches then .error (.holderHashMismatch token.stem)
  else if token.block ≠ snapshotBlock then .error (.holderBlockMismatch token.stem)
  else .ok (token.rows.foldl (fun h row => h.add row.1 row.2) holdings)

def loadHoldings (planPool : PlanPool) : Except BuildError (Dict Address ℤ) :=
  planPool.tokens.foldlM (loadToken planPool.snapshotBlock) .empty

def collateralFor (pool : Pool) (state : PoolState) : Except BuildError (ℕ × String) :=
  match pool.kind with
  | .remoteEscrow =>
    let values := state.escrowBalance :: state.previousAdapterBalances
    if values.any Option.isNone then .error (.escrowBalanceUnreadable pool.poolId)
    else .ok ((values.filterMap id).sum, pool.chain ++ " escrow and previous escrows at state block")
  | .harmonyOrigin =>
    .ok ((state.harmony.map fun entry => match entry.token with
      | .native => entry.nativeBalance + entry.woneBalance.getD 0
      | .token _ => entry.proxyTokenBalance.getD 0).sum, "Harmony lock at cutoff (native ONE plus WONE)")

/-- One line of `allocations.csv`. -/
structure Row where
  poolId : String
  claimChain : Option String
  claimToken : Option Asset
  holderChain : String
  snapshotBlock : ℕ
  account : Address
  holding : ℤ
  adjustment : ℤ
  gross : ℤ
  unrecovered : ℤ
  accountClass : Option AccountClass
  status : Status
  payee : Address
  allocation : ℤ
  reason : String

/-- `classes.get((holder_chain, account))`, where an account without holdings needs no class. -/
def classOf (holderChain : String) (policy : Policy) (holdings : Dict Address ℤ) (account : Address) :
    Option AccountClass :=
  let found := policy.classes.get? (holderChain, account)
  if found = none ∧ holdings.get? account = none then some .adjustmentTarget else found

def byClass (accountClass : Option AccountClass) (holderChain : String) (claimChain : Option String)
    (policy : Policy) (account : Address) : Status × String :=
  let plain := statusFor accountClass holderChain claimChain
  if accountClass = some .eoa ∨ accountClass = some .adjustmentTarget then
    (contractElsewhere account holderChain claimChain policy.classes).getD plain
  else plain

/-- System addresses and addresses no key controls are excluded, whatever their class. -/
def bySystem (policy : Policy) (account : Address) (earlier : Status × String) : Status × String :=
  match policy.roles.get? account with
  | some role => (.excludedSystem, role)
  | none => match reservedAddressReason account with
    | some reason => (.excludedSystem, reason)
    | none => earlier

def byExclusion (poolId holderChain : String) (policy : Policy) (account : Address)
    (earlier : Status × String) : Status × String :=
  match policy.exclusions.get? (poolId, account) <|> policy.exclusions.get? ("*", account) with
  | some e => if e.chain = "*" ∨ e.chain = holderChain then (.excludedPolicy, e.reason) else earlier
  | none => earlier

/-- Class, status, payee and reason of an account, before the amounts are scaled. -/
def decideAccount (pool : Pool) (planPool : PlanPool) (policy : Policy) (holdings : Dict Address ℤ)
    (account : Address) : Except BuildError (Option AccountClass × Status × Address × String) :=
  let claimChain := (claimTarget pool policy.one).1
  let holderChain := planPool.claimantChain
  let accountClass := classOf holderChain policy holdings account
  let (status, reason) := byExclusion pool.poolId holderChain policy account
    (bySystem policy account (byClass accountClass holderChain claimChain policy account))
  match policy.overrides.get? (pool.poolId, account) <|> policy.overrides.get? ("*", account) with
  | none => .ok (accountClass, status, account, reason)
  | some override => match override.action with
    | .claim => .ok (accountClass, .claimable, account, override.reason)
    | .redirect (some destination) => .ok (accountClass, .claimable, destination, override.reason)
    | .redirect none => .error .invalidOverrideAddress
    | .hold => .ok (accountClass, .heldReview, account, override.reason)
    | .exclude => .ok (accountClass, .excludedPolicy, account, override.reason)
    | .unknown action => .error (.unknownOverrideAction action)

def accountRow (pool : Pool) (planPool : PlanPool) (policy : Policy) (holdings adjustments : Dict Address ℤ)
    (account : Address) : Except BuildError Row :=
  let (claimChain, claimToken) := claimTarget pool policy.one
  let holding := holdings.getD account 0
  let adjustment := adjustments.getD account 0
  let gross := holding + adjustment
  (decideAccount pool planPool policy holdings account).map fun (accountClass, status, payee, reason) => {
    poolId := pool.poolId, claimChain, claimToken, holderChain := planPool.claimantChain,
    snapshotBlock := planPool.snapshotBlock, account, holding, adjustment, gross := max 0 gross,
    unrecovered := if gross < 0 then -gross else 0, accountClass, status, payee, allocation := 0, reason }

/-- `sorted(set(holdings) | set(adjustments))`. -/
def accounts (holdings adjustments : Dict Address ℤ) : List Address :=
  (holdings.keys ++ adjustments.keys).dedup.mergeSort fun a b => decide (a ≤ b)

/-- Numerator and denominator: amounts shrink when the eligible total exceeds the collateral. -/
def scale (collateral eligible : ℤ) : ℤ × ℤ :=
  if eligible > collateral then (collateral, eligible) else (1, 1)

def scaled (collateral eligible gross : ℤ) : ℤ :=
  gross * (scale collateral eligible).1 / (scale collateral eligible).2

/-- The second loop: an eligible row gets its amount, or falls below the minimum. -/
def allocate (collateral eligible minimum : ℤ) (row : Row) : Row :=
  if ¬row.status.eligible then row
  else
    let allocation := scaled collateral eligible row.gross
    if row.status = .claimable ∧ allocation < minimum then
      { row with status := .belowMinimum, reason := "allocation below " ++ toString minimum }
    else { row with allocation }

/-- One line of `pools.csv`. -/
structure Summary where
  poolId : String
  kind : Kind
  chain : String
  symbol : String
  decimals : ℕ
  claimAsset : ClaimAsset
  claimChain : Option String
  claimToken : Option Asset
  snapshotChain : String
  snapshotLabel : String
  snapshotBlock : ℕ
  collateralSource : String
  collateral : ℤ
  holders : ℕ
  holding : ℤ
  adjustment : ℤ
  excluded : ℤ
  eligible : ℤ
  scaleNumerator : ℤ
  scaleDenominator : ℤ
  claimable : ℤ
  held : ℤ
  belowMinimum : ℤ
  retained : ℤ
  surplus : ℤ
  shortfall : ℤ
  unrecovered : ℤ
  claimableAccounts : ℕ
  heldAccounts : ℕ

/-- `sum(f(row) for row in rows if p(row["status"]))`. -/
def sumIf (p : Status → Bool) (f : Row → ℤ) (rows : List Row) : ℤ :=
  ((rows.filter fun row => p row.status).map f).sum

def buildPool (pool : Pool) (planPool : PlanPool) (policy : Policy) (state : PoolState)
    (adjustments : Dict Address ℤ) (minimum : ℤ) : Except BuildError (Summary × List Row) := do
  let (claimChain, claimToken) := claimTarget pool policy.one
  let holdings ← loadHoldings planPool
  let (collateral, collateralSource) ← collateralFor pool state
  let classified ← (accounts holdings adjustments).mapM
    (accountRow pool planPool policy holdings adjustments)
  let eligible := sumIf Status.eligible Row.gross classified
  let rows := classified.map (allocate collateral eligible minimum)
  let claimable := sumIf (· = .claimable) Row.allocation rows
  let held := sumIf Status.held Row.allocation rows
  return ({
    poolId := pool.poolId, kind := pool.kind, chain := pool.chain, symbol := pool.symbol,
    decimals := pool.decimals, claimAsset := pool.claimAsset, claimChain, claimToken,
    snapshotChain := planPool.claimantChain, snapshotLabel := planPool.snapshotLabel,
    snapshotBlock := planPool.snapshotBlock, collateralSource, collateral,
    holders := holdings.keys.length, holding := holdings.values.sum,
    adjustment := adjustments.values.sum, excluded := sumIf Status.excluded Row.gross rows,
    eligible, scaleNumerator := (scale collateral eligible).1,
    scaleDenominator := (scale collateral eligible).2, claimable, held,
    belowMinimum := sumIf (· = .belowMinimum) (fun row => scaled collateral eligible row.gross) rows,
    retained := collateral - claimable - held,
    surplus := max 0 (collateral - eligible), shortfall := max 0 (eligible - collateral),
    unrecovered := (rows.map Row.unrecovered).sum,
    claimableAccounts := (rows.filter fun row => row.status = .claimable).length,
    heldAccounts := (rows.filter fun row => row.status.held).length }, rows)

end HarmonyMigration.Allocation
