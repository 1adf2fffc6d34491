import HarmonyMigration.Routing.ProRata

/-! The routing loop of `apply-routes.py`: the routes of one source, in their order, and the default
delivery of what they leave. -/

namespace HarmonyMigration.Routing

open Erc20 Except Claims

def routeStage (source : Source) (reason : String) : Stage :=
  if reason = exchangeRouteReason then .exchangeManual else source.stage

def routeTreatment (reason : String) (status : DestinationStatus) : Except Error Treatment :=
  if reason = exchangeRouteReason then
    (require (status = .exchangeManual ∨ status = .hold) .exchangeRouteStatus).map fun _ => .manualFromReserve
  else match status with
    | .exchangeManual => .error .statusNeedsExchangeRoute
    | .notIssuing => .ok .notIssued
    | .redistributed => .ok .redistributed
    | .ready => .ok .issue
    | .hold => .ok .issue

def Route.delivery (r : Route) (stage : Stage) (treatment : Treatment) : Delivery where
  stage
  treatment
  exceptionType := .explicitRoute
  routeId := r.routeId
  priority := r.priority
  destinationId := r.destinationId
  destinationAddress := r.destinationAddress
  destinationStatus := r.destinationStatus
  reason := r.reason
  evidence := r.evidence

/-- `append_wallet`: nothing is written for nothing. -/
def walletRows (source : Source) (amount : ℤ) (delivery : Delivery) : List WalletRow :=
  if amount = 0 then []
  else [⟨source.key, source.address, source.routingCategory, source.codeBearing, amount, delivery⟩]

/-- `append_shares`. -/
def shareRows (allocations : List (Position × ℤ)) (delivery : Delivery) : List CompiledShare :=
  allocations.map fun x => ⟨x.1.validatorKey, x.1.validatorAddress, x.1.delegatorKey, x.1.delegatorAddress,
    x.1.sourceCategory, x.1.sourceCodeBearing, x.2, delivery⟩

/-- What is left of a source, and the rows written so far. -/
structure Remaining where
  wallet : ℤ
  positions : List Position
  walletRows : List WalletRow
  shareRows : List CompiledShare

def Remaining.total (s : Remaining) : ℤ := s.wallet + vaultRemaining s.positions

def routeAmount (source : Source) (route : Route) (remaining : ℤ) : Except Error ℤ :=
  match route.amount with
  | .all => .ok remaining
  | .shard0Liquid =>
    match source.liquidShard0 with
    | none => .error .needsLiquidShard0
    | some liquid => .ok liquid
  | .exact amount => .ok amount

/-- The wallet and the vault part of an amount. -/
def components (method : Method) (wallet amount : ℤ) : Except Error (ℤ × ℤ) :=
  match method with
  | .walletFirstProRataVault => .ok (min wallet amount, amount - min wallet amount)
  | .walletOnly => (require (amount ≤ wallet) .exceedsWallet).map fun _ => (amount, 0)
  | .vaultOnlyProRata => .ok (0, amount)

def routeStep (source : Source) (route : Route) (s : Remaining) : Except Error Remaining :=
  (routeTreatment route.reason route.destinationStatus).bind fun treatment =>
  (routeAmount source route s.total).bind fun amount =>
  (require (amount ≤ s.total) .exceedsRemaining).bind fun _ =>
  (require (amount ≠ 0) .compilesToZero).bind fun _ =>
  (components route.method s.wallet amount).bind fun part =>
  (proRata part.2 s.positions).map fun split =>
    let delivery := route.delivery (routeStage source route.reason) treatment
    { wallet := s.wallet - part.1
      positions := split.1
      walletRows := s.walletRows ++ walletRows source part.1 delivery
      shareRows := s.shareRows ++ shareRows split.2 delivery }

def compileRoutes (source : Source) : List Route → Remaining → Except Error Remaining
  | [], s => .ok s
  | route :: rest, s => (routeStep source route s).bind (compileRoutes source rest)

/-- Where what no route takes goes; `path` is the validator file's. -/
def defaultDelivery (path : String) (source : Source) : Delivery where
  stage := source.stage
  treatment := .issue
  exceptionType :=
    if source.routingCategory = .validatorAccount then .validatorWrapperSameAddress
    else if source.category = .automatic then .blank
    else .hold source.category
  routeId := "default-" ++ keyHex source.key
  priority := 1000000
  destinationId := ""
  destinationAddress := if source.category = .automatic then some source.address else none
  destinationStatus := if source.category = .automatic then .ready else .hold
  reason :=
    if source.routingCategory = .validatorAccount then "verified validator wrapper same-address"
    else match source.category with
      | .automatic => "implicit code-less EOA same-address"
      | .contractReview => "contract_review"
      | .excluded => "excluded"
      | .deferred => "deferred"
  evidence := if source.routingCategory = .validatorAccount then path else ""

def compileDefault (path : String) (source : Source) (s : Remaining) : Except Error Remaining :=
  (proRata (vaultRemaining s.positions) s.positions).map fun split =>
    { wallet := 0
      positions := split.1
      walletRows := s.walletRows ++ walletRows source s.wallet (defaultDelivery path source)
      shareRows := s.shareRows ++ shareRows split.2 (defaultDelivery path source) }

/-- The body of the loop over the claims. -/
def compileSource (path : String) (source : Source) (routes : List Route) (positions : List Position) :
    Except Error (List WalletRow × List CompiledShare) :=
  (compileRoutes source routes ⟨source.wallet, positions, [], []⟩).bind fun s =>
  (compileDefault path source s).map fun s => (s.walletRows, s.shareRows)

end HarmonyMigration.Routing
