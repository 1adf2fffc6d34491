import HarmonyMigration.Routing.Load

/-! `main` of `apply-routes.py`: the routing loop over all claims, the rows it writes and the checks
on their totals. -/

namespace HarmonyMigration.Routing

open Erc20 Except Claims

/-! ### The compiled rows -/

def WalletRow.order (r : WalletRow) : ℕ ×ₗ ℤ ×ₗ String :=
  toLex (r.sourceKey, toLex (r.delivery.priority, r.delivery.routeId))

def CompiledShare.order (r : CompiledShare) : ℕ ×ₗ ℕ ×ₗ ℤ ×ₗ String :=
  toLex (r.validatorKey, toLex (r.delegatorKey, toLex (r.delivery.priority, r.delivery.routeId)))

/-- `routes_by_key`. -/
def routesOf (routes : List Route) (a : Address) : List Route := routes.filter fun r => r.source = a

def sortedSources (l : Loaded) : List Source := l.sources.values.insertionSort fun a b => a.key ≤ b.key

/-- The routing loop: the rows of one claim after the other. -/
def compileAll (path : String) (l : Loaded) : Except Error (List (List WalletRow × List CompiledShare)) :=
  (sortedSources l).mapM fun s =>
    compileSource path s (routesOf l.routes s.address) (positionsOf l.positions s.address)

structure Compiled where
  walletRows : List WalletRow
  shareRows : List CompiledShare

def sortRows (rows : List (List WalletRow × List CompiledShare)) : Compiled where
  walletRows := (rows.map Prod.fst).flatten.insertionSort fun a b => a.order ≤ b.order
  shareRows := (rows.map Prod.snd).flatten.insertionSort fun a b => a.order ≤ b.order

/-! ### Exceptions -/

/-- The components in the order of their names. -/
inductive Component where
  | validatorGovernor | vaultShares | walletAirdrop
  deriving DecidableEq, Repr

def Component.rank : Component → ℕ
  | .validatorGovernor => 0
  | .vaultShares => 1
  | .walletAirdrop => 2

/-- The validator of a wallet row is blank. -/
structure ExceptionRow where
  component : Component
  sourceKey : ℕ
  sourceAddress : Address
  sourceCategory : SourceCategory
  sourceCodeBearing : Bool
  validator : Option (ℕ × Address)
  amount : ℤ
  delivery : Delivery
  deriving DecidableEq

def WalletRow.exception (r : WalletRow) : ExceptionRow :=
  ⟨.walletAirdrop, r.sourceKey, r.sourceAddress, r.sourceCategory, r.sourceCodeBearing, none, r.amount, r.delivery⟩

def CompiledShare.exception (r : CompiledShare) : ExceptionRow :=
  ⟨.vaultShares, r.delegatorKey, r.delegatorAddress, r.sourceCategory, r.sourceCodeBearing,
    some (r.validatorKey, r.validatorAddress), r.amount, r.delivery⟩

/-- A blank validator comes before every other. -/
def ExceptionRow.order (e : ExceptionRow) : ℕ ×ₗ ℕ ×ₗ ℕ ×ₗ ℤ ×ₗ String :=
  toLex (e.sourceKey, toLex (e.component.rank, toLex ((e.validator.map fun v => v.1 + 1).getD 0,
    toLex (e.delivery.priority, e.delivery.routeId))))

/-- The rows that are not implicit, before they are sorted. -/
def exceptionsOf (c : Compiled) : List ExceptionRow :=
  ((c.walletRows.filter fun r => r.delivery.exceptionType ≠ .blank).map WalletRow.exception) ++
    (c.shareRows.filter fun r => r.delivery.exceptionType ≠ .blank).map CompiledShare.exception

def routingExceptions (c : Compiled) : List ExceptionRow :=
  (exceptionsOf c).insertionSort fun a b => a.order ≤ b.order

/-! ### Governors -/

structure Governor where
  destinationId : String
  destination : Option Address
  status : DestinationStatus
  exceptionType : ExceptionType
  reason : String
  evidence : String
  deriving DecidableEq

def loadGovernors (destinations : Dict String Destination) :
    List GovernorRow → Dict Address Governor → Except Error (Dict Address Governor)
  | [], overrides => .ok overrides
  | row :: rest, overrides =>
    (require (row.validator ∉ overrides.keys) .duplicateGovernor).bind fun _ =>
    (resolveDestination row.destinationAddress row.destinationId row.status destinations).bind fun d =>
    (require (d.2.2 ≠ .notIssuing ∧ d.2.2 ≠ .redistributed) .terminalGovernor).bind fun _ =>
    loadGovernors destinations rest (overrides.insert row.validator
      ⟨d.1, d.2.1, d.2.2, .explicitGovernorRoute, row.reason, row.evidence⟩)

/-- An override, or the validator itself; a validator with a claim route waits for a decision. -/
def governorOf (overrides : Dict Address Governor) (routes : List Route) (validator : Address) : Governor :=
  match overrides.get? validator with
  | some governor => governor
  | none =>
    if (routes.map Route.source).contains validator then
      ⟨"", none, .hold, .claimRouteGovernorHold, "explicit claim route requires governor decision", ""⟩
    else ⟨"", some validator, .ready, .blank, "same validator key", ""⟩

structure GovernorException where
  validatorAddress : Address
  validatorKey : ℕ
  vaultAssets : ℤ
  governor : Governor
  deriving DecidableEq

def loadBaseVaults (K : Keys) (rows : List VaultRow) : Except Error Unit :=
  (require (∀ row ∈ rows, K.key row.validatorAddress = row.validatorKey) .keyMismatch).bind fun _ =>
  require ((rows.map VaultRow.validatorAddress).Nodup) .duplicateValidator

def governorExceptions (overrides : Dict Address Governor) (routes : List Route) (vaults : List VaultRow) :
    List GovernorException :=
  ((vaults.map fun v => (⟨v.validatorAddress, v.validatorKey, v.assets,
    governorOf overrides routes v.validatorAddress⟩ : GovernorException)).filter
      fun e => e.governor.exceptionType ≠ .blank).insertionSort fun a b => a.validatorKey ≤ b.validatorKey

/-! ### Unresolved rows -/

structure UnresolvedRow where
  component : Component
  sourceAddress : Address
  sourceCategory : SourceCategory
  stage : Stage
  treatment : Treatment
  validatorAddress : Option Address
  amount : ℤ
  exceptionType : ExceptionType
  routeId : String
  destinationId : String
  destinationAddress : Option Address
  destinationStatus : DestinationStatus
  reason : String
  evidence : String
  deriving DecidableEq

def ExceptionRow.unresolved (e : ExceptionRow) : UnresolvedRow :=
  ⟨e.component, e.sourceAddress, e.sourceCategory, e.delivery.stage, e.delivery.treatment,
    e.validator.map Prod.snd, e.amount, e.delivery.exceptionType, e.delivery.routeId, e.delivery.destinationId,
    e.delivery.destinationAddress, e.delivery.destinationStatus, e.delivery.reason, e.delivery.evidence⟩

def VaultRow.unresolved (v : VaultRow) (g : Governor) : UnresolvedRow :=
  ⟨.validatorGovernor, v.validatorAddress, .validatorAccount, .manualReview, .issue, some v.validatorAddress,
    v.assets, g.exceptionType, "", g.destinationId, g.destination, g.status, g.reason, g.evidence⟩

def UnresolvedRow.order (u : UnresolvedRow) : ℕ ×ₗ ℕ ×ₗ ℕ ×ₗ String :=
  toLex (u.component.rank, toLex (u.sourceAddress.toNat,
    toLex ((u.validatorAddress.map fun a => a.toNat + 1).getD 0, u.routeId)))

def unresolvedRows (exceptions : List ExceptionRow) (overrides : Dict Address Governor) (routes : List Route)
    (vaults : List VaultRow) : List UnresolvedRow :=
  (((exceptions.filter fun e => e.delivery.destinationStatus = .hold).map ExceptionRow.unresolved) ++
    (vaults.filter fun v => (governorOf overrides routes v.validatorAddress).status = .hold).map fun v =>
      v.unresolved (governorOf overrides routes v.validatorAddress)).insertionSort fun a b => a.order ≤ b.order

/-! ### Vault stages -/

inductive Bucket where
  | notIssued
  | stage (stage : Stage)
  deriving DecidableEq

def CompiledShare.bucket (r : CompiledShare) : Bucket :=
  match r.delivery.treatment with
  | .notIssued => .notIssued
  | .manualFromReserve => .stage .exchangeManual
  | _ => .stage r.delivery.stage

/-- `represented_vault_stages[validator][bucket]`. -/
def stagedAssets (rows : List CompiledShare) (validator : Address) (bucket : Bucket) : ℤ :=
  ((rows.filter fun r => r.validatorAddress = validator ∧ r.bucket = bucket).map CompiledShare.amount).sum

/-- `sum(stages.values())`. -/
def representedAssets (rows : List CompiledShare) (validator : Address) : ℤ :=
  ((rows.filter fun r => r.validatorAddress = validator).map CompiledShare.amount).sum

structure VaultStageRow where
  validatorAddress : Address
  validatorKey : ℕ
  base : ℤ
  initial : ℤ
  exchangeManual : ℤ
  nextStage : ℤ
  qualifiedDeferred : ℤ
  manualReview : ℤ
  uncompiledDeferred : ℤ
  notIssued : ℤ
  postPolicy : ℤ
  deriving DecidableEq

def vaultStageRow (rows : List CompiledShare) (v : VaultRow) : VaultStageRow :=
  let stages := stagedAssets rows v.validatorAddress
  { validatorAddress := v.validatorAddress
    validatorKey := v.validatorKey
    base := v.assets
    initial := stages (.stage .initial)
    exchangeManual := stages (.stage .exchangeManual)
    nextStage := stages (.stage .nextStage)
    qualifiedDeferred := stages (.stage .deferred)
    manualReview := stages (.stage .manualReview)
    uncompiledDeferred := v.assets - representedAssets rows v.validatorAddress
    notIssued := stages .notIssued
    postPolicy := v.assets - stages .notIssued - stages (.stage .exchangeManual) }

def vaultStages (rows : List CompiledShare) (vaults : List VaultRow) : Except Error (List VaultStageRow) :=
  (require (∀ r ∈ rows, (vaults.map VaultRow.validatorAddress).contains r.validatorAddress) .unknownVault).bind
    fun _ =>
  (require (∀ r ∈ rows, r.bucket ≠ .stage .blank ∧ r.delivery.treatment ≠ .redistributed) .invalidVaultStage).bind
    fun _ =>
  (vaults.insertionSort fun a b => a.validatorKey ≤ b.validatorKey).mapM fun v =>
    let row := vaultStageRow rows v
    (require (0 ≤ row.uncompiledDeferred) .sharesExceedVault).bind fun _ =>
    (require (row.initial + row.nextStage + row.qualifiedDeferred + row.manualReview + row.uncompiledDeferred =
      row.postPolicy) .vaultStagesDoNotClose).map fun _ => row

end HarmonyMigration.Routing
