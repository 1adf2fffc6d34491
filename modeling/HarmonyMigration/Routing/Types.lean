import Mathlib.Data.Prod.Lex
import Mathlib.Data.String.Basic
import HarmonyMigration.Routing.StageFile

/-! What `apply-routes.py` reads and writes. A claim's secure key is the key of its address, so the
dictionaries `claims` and `by_address` are one, by address. -/

namespace HarmonyMigration.Routing

open Erc20 Claims

/-- The file a claim comes from. -/
inductive Category where
  | automatic | contractReview | excluded | deferred
  deriving DecidableEq, Repr

/-- `routing_category` of a claim, as the outputs show it. -/
inductive SourceCategory where
  | exchangeManual | validatorAccount | ordinaryEoa | contractReview | excluded | deferred
  deriving DecidableEq, Repr

inductive DestinationStatus where
  | ready | hold | notIssuing | redistributed | exchangeManual
  deriving DecidableEq, Repr

inductive Method where
  | walletFirstProRataVault | walletOnly | vaultOnlyProRata
  deriving DecidableEq, Repr

inductive Amount where
  | exact (amount : ℤ)
  | all
  | shard0Liquid
  deriving DecidableEq

inductive ExceptionType where
  | blank
  | explicitRoute
  | validatorWrapperSameAddress
  | hold (category : Category)
  | explicitGovernorRoute
  | claimRouteGovernorHold
  deriving DecidableEq

/-- Block, hash and state root. -/
abbrev PolicyState := ℤ × String × String

inductive Error where
  | keyMismatch
  | claimMismatch
  | unresolvedCode
  | duplicateClaim
  | stage (e : StageError)
  | invalidDestinationId
  | addressRequired
  | invalidTerminalDestination
  | invalidDecisionId
  | undecided
  | missingDecision
  | statusWithAddress
  | statusWithoutDestination
  | undefinedDestination
  | statusDiffers
  | duplicateRouteId
  | invalidRouteAmount
  | twoAllRoutes
  | wrongContractDestination
  | contractPolicyState
  | policyStateNotUnique
  | duplicateValidator
  | validatorNotAutomatic
  | validatorNotCodeBearing
  | codeBearingNotValidator
  | stagesNotClaims
  | unknownDelegator
  | duplicatePosition
  | nonPositiveShares
  | stakedMismatch
  | exchangeRouteStatus
  | statusNeedsExchangeRoute
  | needsLiquidShard0
  | exceedsRemaining
  | compilesToZero
  | exceedsWallet
  | proRataExceedsVault
  | proRataExceedsPosition
  | proRataDoesNotClose
  | codeBearingNotRepresented
  | duplicateGovernor
  | terminalGovernor
  | inactiveGovernor
  | unknownVault
  | invalidVaultStage
  | sharesExceedVault
  | vaultStagesDoNotClose
  | componentsDoNotClose
  | woneNonIssuance
  | redistributedShares
  | redistributedMismatch
  | treatmentContradicts
  | issuedWithoutStage
  | terminalStatus
  | stagePolicyMismatch
  | treatmentTotals
  | vaultTotals
  deriving DecidableEq

/-! ### The files -/

/-- A row of a claim file; the liquid column may be blank. -/
structure ClaimRow where
  key : ℕ
  address : Address
  wallet : ℤ
  staked : ℤ
  total : ℤ
  wone : ℤ
  liquidShard0 : Option ℤ
  codeHashShard0 : String
  codeHashShard1 : String
  deriving DecidableEq

structure DestinationRow where
  id : String
  address : Option Address
  status : DestinationStatus
  deriving DecidableEq

/-- A row of a route file; `status` may be blank. -/
structure RouteRow where
  routeId : String
  priority : ℤ
  source : Address
  destinationId : String
  destinationAddress : Option Address
  status : Option DestinationStatus
  amount : Amount
  method : Method
  reason : String
  evidence : String
  policyState : Option PolicyState
  deriving DecidableEq

structure GovernorRow where
  validator : Address
  destinationId : String
  destinationAddress : Option Address
  status : Option DestinationStatus
  reason : String
  evidence : String
  deriving DecidableEq

structure ShareRow where
  validatorKey : ℕ
  validatorAddress : Address
  delegatorKey : ℕ
  delegatorAddress : Address
  amount : ℤ
  deriving DecidableEq

structure VaultRow where
  validatorKey : ℕ
  validatorAddress : Address
  assets : ℤ
  deriving DecidableEq

structure ValidatorRow where
  address : Address
  state : PolicyState
  deriving DecidableEq

/-- A policy decision; it is pending without a text. -/
structure DecisionRow where
  id : String
  pending : Bool
  decision : String
  deriving DecidableEq

/-! ### Claims, routes and positions -/

structure Claim where
  key : ℕ
  address : Address
  wallet : ℤ
  wone : ℤ
  staked : ℤ
  total : ℤ
  liquidShard0 : Option ℤ
  category : Category
  codeBearing : Bool
  deriving DecidableEq

/-- A claim with its place in the outputs. -/
structure Source extends Claim where
  routingCategory : SourceCategory
  stage : Stage
  deriving DecidableEq

structure Destination where
  address : Option Address
  status : DestinationStatus
  deriving DecidableEq

structure Route where
  routeId : String
  priority : ℤ
  source : Address
  destinationId : String
  destinationAddress : Option Address
  destinationStatus : DestinationStatus
  amount : Amount
  method : Method
  reason : String
  evidence : String
  policyState : Option PolicyState
  deriving DecidableEq

structure Position where
  validatorKey : ℕ
  validatorAddress : Address
  delegatorKey : ℕ
  delegatorAddress : Address
  sourceCategory : SourceCategory
  sourceCodeBearing : Bool
  remaining : ℤ
  deriving DecidableEq

/-! ### Rows -/

/-- The columns of a row that come from its route. -/
structure Delivery where
  stage : Stage
  treatment : Treatment
  exceptionType : ExceptionType
  routeId : String
  priority : ℤ
  destinationId : String
  destinationAddress : Option Address
  destinationStatus : DestinationStatus
  reason : String
  evidence : String
  deriving DecidableEq

structure WalletRow where
  sourceKey : ℕ
  sourceAddress : Address
  sourceCategory : SourceCategory
  sourceCodeBearing : Bool
  amount : ℤ
  delivery : Delivery
  deriving DecidableEq

structure CompiledShare where
  validatorKey : ℕ
  validatorAddress : Address
  delegatorKey : ℕ
  delegatorAddress : Address
  sourceCategory : SourceCategory
  sourceCodeBearing : Bool
  amount : ℤ
  delivery : Delivery
  deriving DecidableEq

def exchangeRouteReason : String := "exchange_manual_reserve_delivery"

def notIssuingDestinationId : String := "not-issuing"

def redistributedDestinationId : String := "wone-holder-redistribution"

/-- `CONTRACT_POLICY_DESTINATIONS`. -/
def contractPolicyDestination (reason : String) : Option String :=
  if reason = "reviewed_contract_allocation_not_issued" then some "not-issuing"
  else if reason = "next_stage_multisig_recovery" then some ""
  else if reason = "next_stage_onewallet_recovery_multisig" then some "onewallet-recovery-multisig"
  else none

/-- The 64 hex digits of a secure key. -/
def keyHex (key : ℕ) : String := String.ofList ((Nat.toDigits 16 key).leftpad 64 '0')

end HarmonyMigration.Routing
