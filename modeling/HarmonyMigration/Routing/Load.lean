import HarmonyMigration.Routing.Compile

/-! The files of `apply-routes.py` and the checks it makes while it reads them. -/

namespace HarmonyMigration.Routing

open Erc20 Except Claims Claims.StagePolicy

/-- `validatorState` says that the validator file has the policy-state columns. -/
structure Input where
  allClaims : List ClaimRow
  automaticClaims : List ClaimRow
  contractClaims : List ClaimRow
  excludedClaims : List ClaimRow
  priorityShares : List ShareRow
  deferredShares : List ShareRow
  baseVaultDeposits : List VaultRow
  validatorAccounts : List ValidatorRow
  validatorState : Bool
  validatorPath : String
  migrationStages : List PolicyRow
  routes : List (List RouteRow)
  destinations : List (List DestinationRow)
  governors : List GovernorRow
  policyDecisions : List DecisionRow

/-! ### Claims -/

def emptyCodeHash : String := "0xc5d2460186f7233c927e7db2dcc703c0e500b653ca82273b7bfad8045d85a470"

def codeBearing (row : ClaimRow) : Option Bool :=
  if row.codeHashShard0 = "" then none
  else some (([row.codeHashShard0, row.codeHashShard1].filter (· ≠ "")).any (· ≠ emptyCodeHash))

/-- The checks on one claim row. -/
def readClaim (K : Keys) (category : Category) (row : ClaimRow) : Except Error Claim :=
  (require (K.key row.address = row.key) .keyMismatch).bind fun _ =>
  (require (0 ≤ min (min row.wallet row.wone) (min row.staked row.total) ∧ row.wone ≤ row.wallet ∧
    row.wallet + row.staked = row.total) .claimMismatch).bind fun _ =>
  match codeBearing row with
  | none => .error .unresolvedCode
  | some code => .ok ⟨row.key, row.address, row.wallet, row.wone, row.staked, row.total, row.liquidShard0, category, code⟩

def loadClaimFile (K : Keys) (category : Category) :
    List ClaimRow → Dict Address Claim → Except Error (Dict Address Claim)
  | [], claims => .ok claims
  | row :: rest, claims =>
    (readClaim K category row).bind fun claim =>
    (require (row.address ∉ claims.keys) .duplicateClaim).bind fun _ =>
    loadClaimFile K category rest (claims.insert row.address claim)

def loadClaims (K : Keys) (i : Input) : Except Error (Dict Address Claim) :=
  (loadClaimFile K .automatic i.automaticClaims .empty).bind fun claims =>
  (loadClaimFile K .contractReview i.contractClaims claims).bind fun claims =>
  loadClaimFile K .excluded i.excludedClaims claims

/-- The first row of every wanted address; the file is left when none is wanted any more. -/
def loadRoutedDeferredClaims (K : Keys) :
    List ClaimRow → List Address → Dict Address Claim → Except Error (Dict Address Claim)
  | [], _, claims => .ok claims
  | row :: rest, wanted, claims =>
    if wanted = [] then .ok claims
    else if row.address ∉ wanted then loadRoutedDeferredClaims K rest wanted claims
    else (readClaim K .deferred row).bind fun claim =>
      loadRoutedDeferredClaims K rest (wanted.filter (· ≠ row.address)) (claims.insert row.address claim)

/-! ### Destinations and routes -/

def readDestination (row : DestinationRow) : Except Error Destination :=
  (require (row.status = .ready ∨ row.status = .exchangeManual → row.address ≠ none) .addressRequired).bind fun _ =>
  (require (row.status = .notIssuing → row.address = none ∧ row.id = notIssuingDestinationId)
    .invalidTerminalDestination).bind fun _ =>
  (require (row.id = notIssuingDestinationId → row.status = .notIssuing) .invalidTerminalDestination).bind fun _ =>
  (require (row.status = .redistributed → row.address = none ∧ row.id = redistributedDestinationId)
    .invalidTerminalDestination).bind fun _ =>
  (require (row.id = redistributedDestinationId → row.status = .redistributed) .invalidTerminalDestination).map
    fun _ => ⟨row.address, row.status⟩

def loadDestinations : List DestinationRow → Dict String Destination → Except Error (Dict String Destination)
  | [], destinations => .ok destinations
  | row :: rest, destinations =>
    (require (row.id ≠ "" ∧ row.id ∉ destinations.keys) .invalidDestinationId).bind fun _ =>
    (readDestination row).bind fun destination => loadDestinations rest (destinations.insert row.id destination)

/-- The id, address and status of a route's or a governor's destination. -/
def resolveDestination (direct : Option Address) (id : String) (explicit : Option DestinationStatus)
    (destinations : Dict String Destination) : Except Error (String × Option Address × DestinationStatus) :=
  let placed := explicit = some .ready ∨ explicit = some .notIssuing ∨ explicit = some .redistributed ∨
    explicit = some .exchangeManual
  match direct with
  | some address =>
    (require (explicit ≠ some .notIssuing ∧ explicit ≠ some .redistributed) .statusWithAddress).map fun _ =>
      (id, some address, explicit.getD .ready)
  | none =>
    if id = "" then (require (¬placed) .statusWithoutDestination).map fun _ => ("", none, .hold)
    else match destinations.get? id with
      | none => (require (¬placed) .undefinedDestination).map fun _ => (id, none, .hold)
      | some destination =>
        (require (explicit = some .notIssuing → destination.status = .notIssuing) .statusDiffers).bind fun _ =>
        (require (explicit = some .redistributed → destination.status = .redistributed) .statusDiffers).bind fun _ =>
        (require (explicit = some .exchangeManual →
          destination.status = .exchangeManual ∨ destination.status = .hold) .statusDiffers).map fun _ =>
        (id, destination.address, if explicit = some .hold then .hold else destination.status)

def readRoute (destinations : Dict String Destination) (row : RouteRow) : Except Error Route :=
  (require (∀ n ∈ (match row.amount with | .exact n => some n | _ => none), 0 < n) .invalidRouteAmount).bind fun _ =>
  (resolveDestination row.destinationAddress row.destinationId row.status destinations).map fun d =>
    ⟨row.routeId, row.priority, row.source, d.1, d.2.1, d.2.2, row.amount, row.method, row.reason, row.evidence,
      row.policyState⟩

/-- The key of `routes.sort`. -/
def Route.order (r : Route) : ℤ ×ₗ String := toLex (r.priority, r.routeId)

def loadRoutes (rows : List RouteRow) (destinations : Dict String Destination) : Except Error (List Route) :=
  (require (∀ row ∈ rows, row.routeId ≠ "") .duplicateRouteId).bind fun _ =>
  (require ((rows.map RouteRow.routeId).Nodup) .duplicateRouteId).bind fun _ =>
  (rows.mapM (readRoute destinations)).bind fun routes =>
  (require (((routes.filter fun r => r.amount = .all).map Route.source).Nodup) .twoAllRoutes).map fun _ =>
    routes.insertionSort fun a b => a.order ≤ b.order

/-! ### Policy decisions and states -/

def requiredPolicyDecisions : List String :=
  ["initial-wallet-activity-stage", "layerzero-nativeoft-reconciliation", "exchange-manual-reserve-delivery",
    "reviewed-contract-migration-policy", "rollback-exploit-proceeds", "wone-holder-redistribution"]

/-- The pending decisions. -/
def loadPolicyDecisions (rows : List DecisionRow) : Except Error (List String) :=
  (require ((∀ row ∈ rows, row.id ≠ "") ∧ (rows.map DecisionRow.id).Nodup) .invalidDecisionId).bind fun _ =>
  (require (∀ row ∈ rows, ¬row.pending → row.decision ≠ "") .undecided).bind fun _ =>
  (require (∀ d ∈ requiredPolicyDecisions, d ∈ rows.map DecisionRow.id) .missingDecision).map fun _ =>
    (rows.filter fun row => row.pending).map DecisionRow.id

/-- `csv_policy_state`: the one state of the validator file, if it has the columns. -/
def csvPolicyState (i : Input) : Except Error (Option PolicyState) :=
  if ¬i.validatorState then .ok none
  else match i.validatorAccounts with
    | [] => .error .policyStateNotUnique
    | row :: rest =>
      (require (∀ r ∈ row :: rest, r.state = row.state ∧ r.state.2.1 ≠ "" ∧ r.state.2.2 ≠ "")
        .policyStateNotUnique).map fun _ => some row.state

/-- The routes of reviewed contracts: their destinations and their common policy state. -/
def checkContractPolicy (i : Input) (routes : List Route) : Except Error Unit :=
  let policy := routes.filter fun r => (contractPolicyDestination r.reason).isSome
  (require (∀ r ∈ policy, contractPolicyDestination r.reason = some r.destinationId) .wrongContractDestination).bind
    fun _ =>
  (require (∀ r ∈ policy, r.policyState.isSome ∧ ∀ r' ∈ policy, r.policyState = r'.policyState)
    .contractPolicyState).bind fun _ =>
  match policy with
  | [] => .ok ()
  | r :: _ =>
    (csvPolicyState i).bind fun state => require (state = r.policyState) .contractPolicyState

/-! ### Validators, stages and positions -/

def loadValidatorAccounts (rows : List ValidatorRow) (claims : Dict Address Claim) : Except Error (List Address) :=
  (require ((rows.map ValidatorRow.address).Nodup) .duplicateValidator).bind fun _ =>
  (require (∀ row ∈ rows, (claims.get? row.address).any fun c => c.category = .automatic) .validatorNotAutomatic).bind
    fun _ =>
  (require (∀ row ∈ rows, (claims.get? row.address).any fun c => c.codeBearing) .validatorNotCodeBearing).bind fun _ =>
  (require (∀ c ∈ claims.values, c.category = .automatic → c.codeBearing →
    (rows.map ValidatorRow.address).contains c.address) .codeBearingNotValidator).map fun _ =>
    rows.map ValidatorRow.address

/-- The claims of the three category files. -/
def priorityAddresses (claims : Dict Address Claim) : List Address :=
  (claims.values.filter fun c => c.category ≠ .deferred).map Claim.address

def sourceOf (exchange validators : List Address) (stages : Dict Address StageEntry) (c : Claim) : Source :=
  { c with
    routingCategory :=
      if c.address ∈ exchange then .exchangeManual
      else match c.category with
        | .automatic => if c.address ∈ validators then .validatorAccount else .ordinaryEoa
        | .contractReview => .contractReview
        | .excluded => .excluded
        | .deferred => .deferred
    stage := ((stages.get? c.address).map StageEntry.stage).getD .manualReview }

/-- The positions of one share file; without a claim the deferred file's row is passed over. -/
def loadShares (K : Keys) (sources : Dict Address Source) (required : Bool) :
    List ShareRow → List Position → Except Error (List Position)
  | [], positions => .ok positions
  | row :: rest, positions =>
    (require (K.key row.delegatorAddress = row.delegatorKey) .keyMismatch).bind fun _ =>
    match sources.get? row.delegatorAddress with
    | none =>
      (require (¬required) .unknownDelegator).bind fun _ => loadShares K sources required rest positions
    | some source =>
      (require (K.key row.validatorAddress = row.validatorKey) .keyMismatch).bind fun _ =>
      (require ((row.validatorKey, row.delegatorKey) ∉ positions.map fun p => (p.validatorKey, p.delegatorKey))
        .duplicatePosition).bind fun _ =>
      (require (0 < row.amount) .nonPositiveShares).bind fun _ =>
      loadShares K sources required rest (positions ++ [⟨row.validatorKey, row.validatorAddress, row.delegatorKey,
        row.delegatorAddress, source.routingCategory, source.codeBearing, row.amount⟩])

/-- A source's positions by validator key. -/
def positionsOf (positions : List Position) (a : Address) : List Position :=
  (positions.filter fun p => p.delegatorAddress = a).insertionSort fun p q => p.validatorKey ≤ q.validatorKey

/-- Everything the routing loop works on. -/
structure Loaded where
  stages : Dict Address StageEntry
  destinations : Dict String Destination
  pending : List String
  routes : List Route
  sources : Dict Address Source
  positions : List Position

def exchangeManualAddresses (routes : List Route) : List Address :=
  (routes.filter fun r => r.reason = exchangeRouteReason).map Route.source

def load (K : Keys) (i : Input) : Except Error Loaded :=
  (loadClaims K i).bind fun claims =>
  ((loadMigrationStages i.migrationStages .empty).mapError .stage).bind fun stages =>
  (loadDestinations i.destinations.flatten .empty).bind fun destinations =>
  (loadPolicyDecisions i.policyDecisions).bind fun pending =>
  (loadRoutes i.routes.flatten destinations).bind fun routes =>
  (checkContractPolicy i routes).bind fun _ =>
  let wanted := (routes.map Route.source).dedup.filter fun a => a ∉ claims.keys
  (loadRoutedDeferredClaims K i.allClaims wanted claims).bind fun claims =>
  (loadValidatorAccounts i.validatorAccounts claims).bind fun validators =>
  (require (within stages.keys (priorityAddresses claims) ∧ within (priorityAddresses claims) stages.keys)
    .stagesNotClaims).bind fun _ =>
  let sources := claims.mapValues (sourceOf (exchangeManualAddresses routes) validators stages)
  (loadShares K sources true i.priorityShares []).bind fun positions =>
  (loadShares K sources false i.deferredShares positions).bind fun positions =>
  (require (∀ s ∈ sources.values, vaultRemaining (positionsOf positions s.address) = s.staked) .stakedMismatch).map
    fun _ => ⟨stages, destinations, pending, routes, sources, positions⟩

end HarmonyMigration.Routing
