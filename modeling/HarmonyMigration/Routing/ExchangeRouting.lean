import HarmonyMigration.Airdrop.One1
import HarmonyMigration.Lib.ExceptRun
import HarmonyMigration.Lib.Loader

/-! `verify-exchange-routing.py`: the exchange plans, the routes and the compiled exceptions, each checked against the one
before. -/

namespace HarmonyMigration.ExchangeRouting

open Airdrop.One1 Decimal Except

inductive RoutingError
  | notANumber (text : Text)
  | noFile (exchange : Text)
  | missingFields (exchange : Text)
  | duplicateAddress (address : Text)
  | negativeAmount (address : Text)
  | deliveryPolicy (address : Text)
  | nonExchangeRoute (route : Text)
  | noAddress (route : Text)
  | unknownExchange (exchange : Text)
  | noPlannedAmount (route : Text)
  | notManual (route : Text)
  | invalidReason (route : Text)
  | contradictsAudit (route : Text)
  | invalidWholeClaim (route : Text)
  | invalidMethod (route : Text)
  | notTheSource (route : Text)
  | invalidAggregate (route : Text)
  | invalidSplitWallet (route : Text)
  | invalidSplitStaking (route : Text)
  | unexpectedShape (route : Text)
  | duplicateRoute (route : Text)
  | noDestination (route : Text)
  | routeSet
  | nonPositive (route : Text)
  | unknownRoutes (routes : List Text)
  | missingRoutes (routes : List Text)
  | walletMismatch (route : Text)
  | stakingMismatch (route : Text)
  | amountMismatch (route : Text)
  | statusMismatch (route : Text)
  | stageMismatch (route : Text)
  | treatmentMismatch (route : Text)
  | destinationMismatch (route : Text)
  deriving DecidableEq

/-- `int(text)`. -/
def int (text : Text) : Except RoutingError ℤ := ofOption (parseInt text) (.notANumber text)

def routePrefix : Text := "exchange-".toList

def stakingSuffix : Text := "-staking".toList

def walletSuffix : Text := "-wallet".toList

def routeReason : Text := "exchange_manual_reserve_delivery".toList

def exchangeStage : Text := "exchange_manual".toList

def exchangeTreatment : Text := "manual_from_reserve".toList

def exchangeStatus : Text := "exchange_manual".toList

def holdText : Text := "hold".toList

def allText : Text := "ALL".toList

def wholeMethod : Text := "wallet_first_pro_rata_vault".toList

def walletOnly : Text := "wallet_only".toList

def sameAddressTiers : List Text := ["same_address".toList, "same_address_initial".toList]

/-! ### The plans -/

structure AuditRow where
  addressHex : Text
  migrationStage : Text
  issuanceTreatment : Text
  plannedTotalEntitlementAtto : Text
  walletComponentAtto : Text
  stakingComponentAtto : Text
  plannedWalletDestination : Text
  plannedStakingDestination : Text
  plannedDeliveryStatus : Text
  deliveryTier : Text
  deliveryPolicy : Text

/-- An audit file: whether its header has the required fields, and its rows. -/
structure AuditFile where
  complete : Bool
  rows : List AuditRow

structure Policy where
  exchanges : List Text
  manualRoutePriority : Text

structure Planned where
  amount : ℤ
  walletComponent : ℤ
  stakingComponent : ℤ
  stage : Text
  treatment : Text
  tier : Text
  status : Text
  walletDestination : Text
  stakingDestination : Text
  deriving DecidableEq

def Planned.Held (p : Planned) : Prop := p.status ≠ exchangeStatus

instance : DecidablePred Planned.Held := fun _ => inferInstanceAs (Decidable (_ ≠ _))

def Planned.SameAddress (p : Planned) : Prop := p.tier ∈ sameAddressTiers

instance : DecidablePred Planned.SameAddress := fun _ => inferInstanceAs (Decidable (_ ∈ _))

section Load

variable (u : Lower)

def readAudit (row : AuditRow) : Except RoutingError Planned :=
  (int row.plannedTotalEntitlementAtto).bind fun amount =>
  (require (0 ≤ amount) (.negativeAmount row.addressHex)).bind fun _ =>
  (require (row.deliveryPolicy = exchangeTreatment) (.deliveryPolicy row.addressHex)).bind fun _ =>
  (int row.walletComponentAtto).bind fun walletComponent =>
  (int row.stakingComponentAtto).map fun stakingComponent =>
    { amount, walletComponent, stakingComponent, stage := row.migrationStage, treatment := row.issuanceTreatment,
      tier := row.deliveryTier, status := row.plannedDeliveryStatus,
      walletDestination := u.lower row.plannedWalletDestination,
      stakingDestination := u.lower row.plannedStakingDestination }

def loadSources : List AuditRow → Dict Text Planned → Except RoutingError (Dict Text Planned)
  | [], sources => .ok sources
  | row :: rest, sources =>
    (require (u.lower row.addressHex ∉ sources.keys) (.duplicateAddress row.addressHex)).bind fun _ =>
    (readAudit u row).bind fun planned => loadSources rest (sources.insert (u.lower row.addressHex) planned)

/-- The sources of each exchange. -/
def loadExpected (policy : Policy) (audits : Text → Option AuditFile) : Except RoutingError (Dict Text (Dict Text Planned)) :=
  policy.exchanges.foldlM (fun expected exchange =>
    (ofOption (audits exchange) (.noFile exchange)).bind fun file =>
    (require (file.complete = true) (.missingFields exchange)).bind fun _ =>
    (loadSources u file.rows .empty).map fun sources => expected.insert exchange sources) .empty

/-! ### The routes -/

structure RouteRow where
  routeId : Text
  sourceAddress : Text
  reason : Text
  status : Text
  priority : Text
  amountAtto : Text
  allocationMethod : Text
  destinationId : Text
  destinationAddress : Text

structure Route where
  exchangeId : Text
  address : Text
  suffix : Text
  planned : Planned
  status : Text
  destinationId : Text
  expectedDestination : Text
  deriving DecidableEq

/-- `text.index(pattern)`. -/
def indexOf (pattern text : Text) : Option ℕ := (List.range (text.length + 1)).find? fun i => pattern <+: text.drop i

/-- `route_id[len("exchange-") : i - 1]`; the slice ends before the last character where `i` is zero. -/
def exchangeAt (routeId : Text) (i : ℕ) : Text :=
  (routeId.take (if i = 0 then routeId.length - 1 else i - 1)).drop routePrefix.length

/-- The checks of the shape of a route: its suffix, its amount and its destination. -/
def checkShape (base : ℤ) (exchange address : Text) (planned : Planned) (suffix : Text) (row : RouteRow) :
    Except RoutingError Unit :=
  let direct := u.lower row.destinationAddress
  let wallet := routePrefix ++ exchange
  let staking := wallet ++ stakingSuffix
  if suffix = [] then
    (int row.priority).bind fun priority =>
    (require (priority = base ∧ row.amountAtto = allText) (.invalidWholeClaim row.routeId)).bind fun _ =>
    (require (row.allocationMethod = wholeMethod) (.invalidMethod row.routeId)).bind fun _ =>
    if planned.SameAddress then require (row.destinationId = [] ∧ direct = address) (.notTheSource row.routeId)
    else require (row.destinationId ∈ [wallet, staking] ∧ direct = []) (.invalidAggregate row.routeId)
  else if suffix = walletSuffix then
    (int row.priority).bind fun priority =>
    (require (priority = base ∧ row.allocationMethod = walletOnly) (.invalidSplitWallet row.routeId)).bind fun _ =>
    (int row.amountAtto).bind fun amount =>
    require (amount = planned.walletComponent ∧ row.destinationId = wallet ∧ direct = []) (.invalidSplitWallet row.routeId)
  else if suffix = stakingSuffix then
    (int row.priority).bind fun priority =>
    require (priority = base + 1 ∧ row.allocationMethod = wholeMethod ∧ row.amountAtto = allText ∧
      row.destinationId = staking ∧ direct = []) (.invalidSplitStaking row.routeId)
  else .error (.unexpectedShape row.routeId)

/-- The destination that a route must compile to. -/
def expectedDestination (address : Text) (planned : Planned) (destinationId : Text) : Text :=
  if planned.SameAddress then address
  else if stakingSuffix <:+ destinationId then planned.stakingDestination
  else planned.walletDestination

def readRoute (base : ℤ) (expected : Dict Text (Dict Text Planned)) (row : RouteRow) : Except RoutingError Route :=
  (require (routePrefix <+: row.routeId) (.nonExchangeRoute row.routeId)).bind fun _ =>
  let address := u.lower row.sourceAddress
  (ofOption (indexOf (address.drop 2) row.routeId) (.noAddress row.routeId)).bind fun i =>
  let exchange := exchangeAt row.routeId i
  (ofOption (expected.get? exchange) (.unknownExchange exchange)).bind fun sources =>
  (ofOption (sources.get? address) (.noPlannedAmount row.routeId)).bind fun planned =>
  (require (0 < planned.amount) (.noPlannedAmount row.routeId)).bind fun _ =>
  (require (planned.treatment = exchangeTreatment) (.notManual row.routeId)).bind fun _ =>
  (require (row.reason = routeReason) (.invalidReason row.routeId)).bind fun _ =>
  (require (row.status = if planned.Held then holdText else exchangeStatus) (.contradictsAudit row.routeId)).bind fun _ =>
  let suffix := row.routeId.drop (routePrefix ++ exchange ++ '-' :: address.drop 2).length
  (checkShape u base exchange address planned suffix row).bind fun _ =>
  let destination := expectedDestination address planned row.destinationId
  (require (planned.Held ∨ destination ≠ []) (.noDestination row.routeId)).map fun _ =>
    ⟨exchange, address, suffix, planned, row.status, row.destinationId, destination⟩

def readRoutes (base : ℤ) (expected : Dict Text (Dict Text Planned)) :
    List RouteRow → Dict Text Route → Except RoutingError (Dict Text Route)
  | [], routes => .ok routes
  | row :: rest, routes =>
    (readRoute u base expected row).bind fun route =>
    (require (row.routeId ∉ routes.keys) (.duplicateRoute row.routeId)).bind fun _ =>
    readRoutes base expected rest (routes.insert row.routeId route)

/-- Exchange and address of the sources with a positive planned amount. -/
def expectedPairs (expected : Dict Text (Dict Text Planned)) : List (Text × Text) :=
  expected.entries.flatMap fun e => (e.2.entries.filter fun s => 0 < s.2.amount).map fun s => (e.1, s.1)

def Route.pair (route : Route) : Text × Text := (route.exchangeId, route.address)

def loadRoutes (policy : Policy) (expected : Dict Text (Dict Text Planned)) (rows : List RouteRow) :
    Except RoutingError (Dict Text Route) :=
  (int policy.manualRoutePriority).bind fun base =>
  (readRoutes u base expected rows .empty).bind fun routes =>
  let actual := routes.values.map Route.pair
  (require (actual ⊆ expectedPairs expected ∧ expectedPairs expected ⊆ actual) .routeSet).map fun _ => routes

/-! ### The compiled exceptions -/

structure ExceptionRow where
  routeId : Text
  amountAtto : Text
  destinationStatus : Text
  migrationStage : Text
  issuanceTreatment : Text
  destinationAddress : Text

/-- A compiled row of an exchange route. -/
structure Compiled where
  routeId : Text
  pair : Text × Text
  amount : ℤ
  status : Text
  stage : Text
  treatment : Text
  destination : Text
  deriving DecidableEq

inductive ReadRow
  | other
  | unknown (routeId : Text)
  | compiled (row : Compiled)

def readCompiled (routes : Dict Text Route) (row : ExceptionRow) : Except RoutingError ReadRow :=
  if ¬routePrefix <+: row.routeId then .ok .other
  else match routes.get? row.routeId with
    | none => .ok (.unknown row.routeId)
    | some route =>
      (int row.amountAtto).bind fun amount =>
      (require (0 < amount) (.nonPositive row.routeId)).map fun _ => .compiled
        ⟨row.routeId, route.pair, amount, row.destinationStatus, row.migrationStage, row.issuanceTreatment,
          u.lower row.destinationAddress⟩

def ReadRow.compiled? : ReadRow → Option Compiled
  | .compiled row => some row
  | _ => none

def ReadRow.unknown? : ReadRow → Option Text
  | .unknown id => some id
  | _ => none

/-- The amount of the rows that satisfy `p`. -/
def amountWhere (p : Compiled → Prop) [DecidablePred p] (rows : List Compiled) : ℤ :=
  ((rows.filter fun row => p row).map Compiled.amount).sum

/-- The set of what the rows of a route hold is exactly `{value}`. -/
def Only (rows : List Compiled) (id : Text) (f : Compiled → Text) (value : Text) : Prop :=
  ((rows.filter fun row => row.routeId = id).map f).dedup = [value]

instance (rows : List Compiled) (id : Text) (f : Compiled → Text) (value : Text) : Decidable (Only rows id f value) :=
  inferInstanceAs (Decidable (_ = _))

def checkRoute (rows : List Compiled) (e : Text × Route) : Except RoutingError Unit :=
  let (id, route) := e
  let amount := amountWhere (·.routeId = id) rows
  (require (route.suffix = walletSuffix → amount = route.planned.walletComponent) (.walletMismatch id)).bind fun _ =>
  (require (route.suffix = stakingSuffix → amount = route.planned.stakingComponent) (.stakingMismatch id)).bind fun _ =>
  (require (amountWhere (·.pair = route.pair) rows = route.planned.amount) (.amountMismatch id)).bind fun _ =>
  (require (Only rows id Compiled.status route.status) (.statusMismatch id)).bind fun _ =>
  (require (Only rows id Compiled.stage exchangeStage) (.stageMismatch id)).bind fun _ =>
  (require (Only rows id Compiled.treatment exchangeTreatment) (.treatmentMismatch id)).bind fun _ =>
  require (Only rows id Compiled.destination (if route.status = exchangeStatus then route.expectedDestination else []))
    (.destinationMismatch id)

def loadCompiled (routes : Dict Text Route) (file : List ExceptionRow) : Except RoutingError (List Compiled) :=
  (file.mapM (readCompiled u routes)).bind fun read =>
  let rows := read.filterMap ReadRow.compiled?
  let unknown := read.filterMap ReadRow.unknown?
  (require (unknown = []) (.unknownRoutes unknown)).bind fun _ =>
  let missing := routes.keys.filter fun id => id ∉ rows.map Compiled.routeId
  (require (missing = []) (.missingRoutes missing)).bind fun _ =>
  (routes.entries.mapM (checkRoute rows)).map fun _ => rows

/-- What the three loads read. -/
structure Verified where
  expected : Dict Text (Dict Text Planned)
  routes : Dict Text Route
  rows : List Compiled

def verify (policy : Policy) (audits : Text → Option AuditFile) (routes : List RouteRow) (exceptions : List ExceptionRow) :
    Except RoutingError Verified :=
  (loadExpected u policy audits).bind fun expected =>
  (loadRoutes u policy expected routes).bind fun routes =>
  (loadCompiled u routes exceptions).map fun rows => ⟨expected, routes, rows⟩

end Load

end HarmonyMigration.ExchangeRouting
