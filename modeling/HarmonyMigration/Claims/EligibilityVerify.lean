import HarmonyMigration.Claims.Basic
import HarmonyMigration.ContractReview.SecureKey
import HarmonyMigration.Lib.ExceptRun
import Mathlib.Data.Char
import Mathlib.Data.List.Lex

/-! `verify-eligibility-policy.py`: the three category files against the input ledger and the policy summary. -/

namespace HarmonyMigration.Claims.EligibilityVerify

open Airdrop Airdrop.One1 Decimal Except

open ContractReview (anyToHex requireAddressSecureKey fromhex hexPrefix KeyError)

def emptyCodeHash : Text := "0xc5d2460186f7233c927e7db2dcc703c0e500b653ca82273b7bfad8045d85a470".toList

inductive Component
  | liquidShard0
  | liquidShard1
  | liquidTotal
  | activeStakedOrDelegated
  | pendingUndelegation
  | unclaimedStakingReward
  | pendingCrossShard
  | nativeWalletAirdrop
  | woneBalance
  | woneAirdrop
  | walletAirdrop
  | stakedToVault
  | qualificationTotal
  | nativeTotalClaim
  | totalClaim
  deriving DecidableEq

def components : List Component :=
  [.liquidShard0, .liquidShard1, .liquidTotal, .activeStakedOrDelegated, .pendingUndelegation, .unclaimedStakingReward,
    .pendingCrossShard, .nativeWalletAirdrop, .woneBalance, .woneAirdrop, .walletAirdrop, .stakedToVault,
    .qualificationTotal, .nativeTotalClaim, .totalClaim]

/-- The three outputs of the policy. -/
inductive Category
  | automatic
  | contractReview
  | excludedAddress
  deriving DecidableEq

def categories : List Category := [.automatic, .contractReview, .excludedAddress]

/-- A ledger row. An amount is zero where its optional column is missing; `qualification` is the column, if there is one. -/
structure Row where
  secureKey : Text
  address : Text
  codeHashShard0 : Text
  codeHashShard1 : Text
  qualification : Option ℤ
  amount : Component → ℤ

namespace Row
variable (row : Row)

/-- `qualification_total_atto`, or the total claim where the file has no such column. -/
def value : ℤ := row.qualification.getD (row.amount .totalClaim)

def componentAtto (c : Component) : ℤ :=
  if c = .qualificationTotal then row.qualification.getD 0 else row.amount c

/-- `code_bearing`: whether a shard has code, where the metadata is resolved. -/
def codeBearing (u : Lower) : Option Bool :=
  if strip row.codeHashShard0 = [] then none
  else
    let hashes := ([row.codeHashShard0, row.codeHashShard1].filter fun t => strip t ≠ []).map fun t => u.lower (strip t)
    if hashes = [] then none else some (hashes.any fun value => value ≠ emptyCodeHash)

def key (u : Lower) : Text := u.lower row.secureKey

end Row

/-- The identity of a file of addresses, as the summary lists it. -/
structure Source where
  path : Text
  sha256 : Text
  addresses : ℕ
  deriving DecidableEq

structure AddressFile where
  path : Text
  sha256 : Text
  column : List Text

structure CategoryFile where
  rows : List Row
  sha256 : Text

structure CategorySummary where
  rows : ℕ
  outputSha256 : Text
  componentsAtto : Component → Text

/-- The fields of the policy summary that are read. -/
structure Policy where
  comparison : Text
  excludedAddressesRequested : List Text
  excludedAddressSources : List Source
  automaticCodeAddressesRequested : List Text
  exactThresholdRows : ℕ
  categories : Category → CategorySummary

structure Input where
  input : List Row
  files : Category → CategoryFile
  automaticCodeFiles : List AddressFile
  excludeAddress : List Text
  excludeAddressesFiles : List AddressFile
  policy : Policy

inductive Error
  | comparison
  | invalidAddress
  | duplicateAddress
  | duplicateExclusion
  | exclusionMismatch
  | exclusionSourcesMismatch
  | automaticCodeMismatch
  | keysNotIncreasing
  | duplicateKey
  | name (e : KeyError)
  | allocationComponents
  | belowThreshold
  | unresolvedCode
  | unapprovedCode
  | overrideHasEmptyCode
  | invalidReviewRow
  | overrideMissing
  | categoriesOverlap
  | unionMismatch
  | excludedMismatch
  | exactMismatch
  | rowCountMismatch
  | hashMismatch
  | totalMismatch
  deriving DecidableEq

section Main
variable (u : Lower)

/-! ### Lists of addresses -/

def readAddresses (normalize : Text → Except Error Text) : List Text → List Text → Except Error (List Text)
  | [], found => .ok found
  | t :: rest, found =>
    (normalize t).bind fun address =>
    (require (address ∉ found) .duplicateAddress).bind fun _ =>
    readAddresses normalize rest (found ++ [address])

def automaticCodeAddress (t : Text) : Except Error Text :=
  let address := u.lower t
  (require (address.length = 42 ∧ hexPrefix <+: address) .invalidAddress).map fun _ => address

def loadAutomaticCodeAddresses : List AddressFile → Except Error (List Text × List Source)
  | [] => .ok ([], [])
  | file :: rest =>
    (readAddresses (automaticCodeAddress u) file.column []).bind fun found =>
    (loadAutomaticCodeAddresses rest).map fun (addresses, sources) =>
      (found ++ addresses, ⟨file.path, file.sha256, found.length⟩ :: sources)

/-- `normalize_address`. -/
def normalizedAddress (value : Text) : Except Error Text :=
  (ofOption (anyToHex u (strip value)) .invalidAddress).bind fun address =>
  (ofOption (fromhex (address.drop 2)) .invalidAddress).bind fun raw =>
  (require (raw.length = 20) .invalidAddress).map fun _ => address

def loadExcludedFiles : List AddressFile → List Text → Except Error (List Text × List Source)
  | [], addresses => .ok (addresses, [])
  | file :: rest, addresses =>
    (readAddresses (normalizedAddress u) file.column []).bind fun found =>
    (require (∀ address ∈ addresses, address ∉ found) .duplicateExclusion).bind fun _ =>
    (loadExcludedFiles rest (addresses ++ found)).map fun (addresses, sources) =>
      (addresses, ⟨file.path, file.sha256, found.length⟩ :: sources)

def loadExcludedAddresses (values : List Text) (files : List AddressFile) : Except Error (List Text × List Source) :=
  (values.mapM (normalizedAddress u)).bind fun addresses => loadExcludedFiles u files addresses

def SameSet (l l' : List Text) : Prop := (∀ a ∈ l, a ∈ l') ∧ ∀ a ∈ l', a ∈ l

instance (l l' : List Text) : Decidable (SameSet l l') := by unfold SameSet; infer_instance

/-- The excluded addresses are those of the policy, and independent inputs must name the same. -/
def excludedAddresses (i : Input) : Except Error (List Text × List Source) :=
  let requested := i.policy.excludedAddressesRequested
  if i.excludeAddress = [] ∧ i.excludeAddressesFiles.isEmpty then .ok (requested, i.policy.excludedAddressSources)
  else
    (loadExcludedAddresses u i.excludeAddress i.excludeAddressesFiles).bind fun (addresses, sources) =>
    (require (SameSet addresses requested) .exclusionMismatch).bind fun _ =>
    (require (sources = i.policy.excludedAddressSources) .exclusionSourcesMismatch).map fun _ => (addresses, sources)

/-! ### A category file -/

/-- `keys` is the newest first, so its head is the previous key. -/
structure Tally where
  keys : List Text
  automaticCodeFound : List Text
  totals : Component → ℤ
  rows : ℕ

def Tally.start : Tally := ⟨[], [], fun _ => 0, 0⟩

def Tally.add (t : Tally) (key address : Text) (approved : Bool) (row : Row) : Tally where
  keys := key :: t.keys
  automaticCodeFound := if approved then address :: t.automaticCodeFound else t.automaticCodeFound
  totals := fun c => t.totals c + row.componentAtto c
  rows := t.rows + 1

/-- The rules of the category for the code of a row. -/
def checkCode (expected : Category) (approved isContract : Bool) : Except Error Unit :=
  match expected with
  | .automatic =>
    (require (isContract → approved) .unapprovedCode).bind fun _ => require (approved → isContract) .overrideHasEmptyCode
  | .contractReview => require (isContract ∧ ¬approved) .invalidReviewRow
  | .excludedAddress => .ok ()

def readRow (expected : Category) (automaticCode : List Text) (t : Tally) (row : Row) : Except Error Tally :=
  let key := row.key u
  (require (∀ previous ∈ t.keys.head?, previous < key) .keysNotIncreasing).bind fun _ =>
  (require (key ∉ t.keys) .duplicateKey).bind fun _ =>
  ((requireAddressSecureKey u row.address key).mapError .name).bind fun address =>
  let wallet := row.amount .walletAirdrop
  let vault := row.amount .stakedToVault
  (require (0 ≤ wallet ∧ 0 ≤ vault ∧ wallet + vault = row.amount .totalClaim) .allocationComponents).bind fun _ =>
  (require (minimumAtto ≤ row.value) .belowThreshold).bind fun _ =>
  (ofOption (row.codeBearing u) .unresolvedCode).bind fun isContract =>
  let approved : Bool := address ∈ automaticCode
  (checkCode expected approved isContract).map fun _ =>
    t.add key address (expected = .automatic ∧ approved) row

def readCategory (expected : Category) (automaticCode : List Text) (rows : List Row) : Except Error Tally :=
  rows.foldlM (readRow u expected automaticCode) .start

/-! ### The input -/

structure Expected where
  keys : List Text
  excludedKeys : List Text
  exact : ℕ

def inputRow (excluded : List Text) (e : Expected) (row : Row) : Except Error Expected :=
  ((requireAddressSecureKey u row.address row.secureKey).mapError .name).bind fun address =>
  (ofOption (row.codeBearing u) .unresolvedCode).map fun _ =>
    { keys := if minimumAtto ≤ row.value then row.key u :: e.keys else e.keys
      excludedKeys := if minimumAtto ≤ row.value ∧ address ∈ excluded then row.key u :: e.excludedKeys else e.excludedKeys
      exact := if row.value = minimumAtto then e.exact + 1 else e.exact }

structure Result where
  thresholdRows : ℕ
  exactThresholdRows : ℕ
  rows : Category → ℕ
  excludedSources : List Source
  automaticCodeSources : List Source
  automaticCode : List Text
  suppressed : List Text

def checkSummary (file : CategoryFile) (expected : CategorySummary) (t : Tally) : Except Error Unit :=
  (require (t.rows = expected.rows) .rowCountMismatch).bind fun _ =>
  (require (file.sha256 = expected.outputSha256) .hashMismatch).bind fun _ =>
  require (∀ c ∈ components, renderInt (t.totals c) = expected.componentsAtto c) .totalMismatch

def main (i : Input) : Except Error Result :=
  (require (i.policy.comparison = "ge".toList) .comparison).bind fun _ =>
  (excludedAddresses u i).bind fun (excluded, excludedSources) =>
  (loadAutomaticCodeAddresses u i.automaticCodeFiles).bind fun (automaticCode, automaticCodeSources) =>
  (require (SameSet automaticCode i.policy.automaticCodeAddressesRequested) .automaticCodeMismatch).bind fun _ =>
  let suppressed := automaticCode.filter (· ∈ excluded)
  let active := automaticCode.filter (· ∉ excluded)
  (readCategory u .automatic active (i.files .automatic).rows).bind fun automatic =>
  (readCategory u .contractReview active (i.files .contractReview).rows).bind fun contracts =>
  (readCategory u .excludedAddress active (i.files .excludedAddress).rows).bind fun excludedTally =>
  (require (SameSet automatic.automaticCodeFound active) .overrideMissing).bind fun _ =>
  (require ((∀ k ∈ automatic.keys, k ∉ contracts.keys) ∧ (∀ k ∈ automatic.keys, k ∉ excludedTally.keys) ∧
    ∀ k ∈ contracts.keys, k ∉ excludedTally.keys) .categoriesOverlap).bind fun _ =>
  (i.input.foldlM (inputRow u excluded) ⟨[], [], 0⟩).bind fun e =>
  (require (SameSet (automatic.keys ++ contracts.keys ++ excludedTally.keys) e.keys) .unionMismatch).bind fun _ =>
  (require (SameSet excludedTally.keys e.excludedKeys) .excludedMismatch).bind fun _ =>
  (require (e.exact = i.policy.exactThresholdRows) .exactMismatch).bind fun _ =>
  (checkSummary (i.files .automatic) (i.policy.categories .automatic) automatic).bind fun _ =>
  (checkSummary (i.files .contractReview) (i.policy.categories .contractReview) contracts).bind fun _ =>
  (checkSummary (i.files .excludedAddress) (i.policy.categories .excludedAddress) excludedTally).map fun _ =>
    { thresholdRows := e.keys.dedup.length, exactThresholdRows := e.exact
      rows := fun
        | .automatic => automatic.rows
        | .contractReview => contracts.rows
        | .excludedAddress => excludedTally.rows
      excludedSources, automaticCodeSources, automaticCode := automaticCode.dedup.insertionSort (· ≤ ·)
      suppressed := suppressed.dedup.insertionSort (· ≤ ·) }

end Main

/-- The category that `apply-eligibility-policy.py` assigns to an eligible row of the address. -/
def assigned (excluded active : List Text) (address : Text) (hasCode : Bool) : Except Error Category :=
  if address ∈ excluded then .ok .excludedAddress
  else if address ∈ active then (require hasCode .overrideHasEmptyCode).map fun _ => .automatic
  else if hasCode then .ok .contractReview
  else .ok .automatic

end HarmonyMigration.Claims.EligibilityVerify
