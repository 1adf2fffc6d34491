import HarmonyMigration.Lib.Dict
import HarmonyMigration.Lib.Erc20
import HarmonyMigration.Lib.Except

/-! What the claim ledgers share: secure keys, stages and issuance treatments. -/

namespace HarmonyMigration.Claims

open Erc20

instance pairLawfulBEq : LawfulBEq (ℕ × ℕ) := Prod.instLawfulBEq

/-- `keccak256` of an address, as the number its hex text orders by. -/
structure Keys where
  key : Address → ℕ
  injective : Function.Injective key

/-- `migration_stage`; `blank` is the empty text. -/
inductive Stage where
  | blank | initial | nextStage | deferred | manualReview | exchangeManual
  deriving DecidableEq, Repr

/-- `issuance_treatment`. -/
inductive Treatment where
  | issue | notIssued | redistributed | manualFromReserve
  deriving DecidableEq, Repr

inductive Classification where
  | wallet | validatorWallet | genuineContract
  deriving DecidableEq, Repr

/-- `routing_category` of a stage-policy row. -/
inductive RoutingCategory where
  | exchangeOrManual | automaticPolicy | contractPolicy
  deriving DecidableEq, Repr

inductive PrimaryCategory where
  | validatorAccount | multisigWallet | onewallet | smartvaultWallet
  | other (name : String)
  deriving DecidableEq

inductive PolicyGroup where
  | wallet | validatorWallet | multisig | onewallet | layerzeroBridgeCollateral | smartvault
  | otherReviewedContract
  deriving DecidableEq, Repr

/-- Sets of addresses as lists: inclusion, and no common member. -/
def within (l l' : List Address) : Bool := l.all fun a => a ∈ l'

def apart (l l' : List Address) : Bool := l.all fun a => a ∉ l'

@[simp] theorem within_iff {l l' : List Address} : within l l' = true ↔ ∀ a ∈ l, a ∈ l' := by
  simp [within]

@[simp] theorem apart_iff {l l' : List Address} : apart l l' = true ↔ ∀ a ∈ l, a ∉ l' := by
  simp [apart]

def attoPerOne : ℤ := 10 ^ 18

def minimumAtto : ℤ := 1000 * attoPerOne

def woneAddress : Address := 0xcf664087a5bb0237a0bad6742852ec6c8d69a27a#160

def layerzeroAddresses : List Address :=
  [0x5b18a4e73f9a4fe337a072516b317863ad3046aa#160, 0x905582f21fb9855c809d5b8933272a292dfbb138#160]

end HarmonyMigration.Claims
