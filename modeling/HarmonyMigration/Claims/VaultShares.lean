import HarmonyMigration.Lib.Loader
import HarmonyMigration.Lib.SortedBy
import HarmonyMigration.Routing.Types

/-! `build-vault-share-allocation.py`: the delegations, split by the eligibility of their delegators,
and the vault of every validator. -/

namespace HarmonyMigration.Claims.VaultShares

open Erc20 Except Routing

inductive Error where
  | keysNotIncreasing
  | duplicateKey
  | allocationMismatch
  | invalidWoneOverlay
  | unknownKey
  | categoryOverlap
  | keyMismatch
  | claimMismatch
  | thresholdMismatch
  | duplicateDelegation
  | nonPositiveDelegation
  | unknownDelegator
  | delegatorAddressMismatch
  | validatorAddressMismatch
  | detailMismatch
  | globalMismatch
  | walletTotalMismatch
  deriving DecidableEq

/-- A row of the ledger; without its column, the qualification is the total. -/
structure LedgerRow extends ClaimRow where
  qualification : Option ℤ

structure LedgerClaim where
  address : Address
  total : ℤ
  wallet : ℤ
  wone : ℤ
  qualification : ℤ
  staked : ℤ
  deriving DecidableEq

structure Input where
  allClaims : List LedgerRow
  delegations : List ShareRow
  automaticClaims : List ClaimRow
  contractClaims : List ClaimRow
  excludedClaims : List ClaimRow
  minimum : ℤ

/-! ### Claims -/

def requireAllocationFields (row : ClaimRow) : Except Error Unit :=
  require (0 ≤ min row.total (min row.wallet row.staked) ∧ row.wallet + row.staked = row.total) .allocationMismatch

def LedgerRow.claim (row : LedgerRow) : LedgerClaim :=
  ⟨row.address, row.total, row.wallet, row.wone, row.qualification.getD row.total, row.staked⟩

def loadAllClaims : List LedgerRow → Option ℕ → Dict ℕ LedgerClaim → Except Error (Dict ℕ LedgerClaim)
  | [], _, claims => .ok claims
  | row :: rest, previous, claims =>
    (require (∀ p ∈ previous, p < row.key) .keysNotIncreasing).bind fun _ =>
    (require (row.key ∉ claims.keys) .duplicateKey).bind fun _ =>
    (requireAllocationFields row.toClaimRow).bind fun _ =>
    (require (¬(row.wone < 0 ∨ row.wallet < row.wone ∨ row.claim.qualification < row.total)) .invalidWoneOverlay).bind
      fun _ => loadAllClaims rest (some row.key) (claims.insert row.key row.claim)

/-- The checks on a row of a category file. -/
def readAssignment (K : Keys) (claims : Dict ℕ LedgerClaim) (row : ClaimRow) : Except Error LedgerClaim :=
  match claims.get? row.key with
  | none => .error .unknownKey
  | some expected =>
    (require (K.key row.address = row.key) .keyMismatch).bind fun _ =>
    (requireAllocationFields row).bind fun _ =>
    (require (row.total = expected.total ∧ row.wallet = expected.wallet ∧ row.staked = expected.staked ∧
      row.address = expected.address ∧ row.wone = expected.wone) .claimMismatch).map fun _ => expected

/-- `load_category`; the totals of a category are those of its assignments. -/
def loadCategory (K : Keys) (claims : Dict ℕ LedgerClaim) (category : Category) :
    List ClaimRow → Dict ℕ Category → Except Error (Dict ℕ Category)
  | [], assignments => .ok assignments
  | row :: rest, assignments =>
    (readAssignment K claims row).bind fun _ =>
    (require (row.key ∉ assignments.keys) .categoryOverlap).bind fun _ =>
    loadCategory K claims category rest (assignments.insert row.key category)

def loadCategories (K : Keys) (i : Input) (claims : Dict ℕ LedgerClaim) : Except Error (Dict ℕ Category) :=
  (loadCategory K claims .automatic i.automaticClaims .empty).bind fun assignments =>
  (loadCategory K claims .contractReview i.contractClaims assignments).bind fun assignments =>
  loadCategory K claims .excluded i.excludedClaims assignments

/-! ### Delegations -/

structure Vault where
  validatorAddress : Address
  validatorKey : ℕ
  assets : ℤ
  priorityStaked : ℤ
  deferredStaked : ℤ
  delegationRows : ℕ
  deriving DecidableEq

/-- What the loop over the delegations accumulates. -/
structure Shares where
  byDelegator : Dict ℕ ℤ
  byValidator : Dict ℕ Vault
  priorityRows : List ShareRow
  deferredRows : List ShareRow
  seenPairs : List (ℕ × ℕ)

def ShareRow.pair (row : ShareRow) : ℕ × ℕ := (row.validatorKey, row.delegatorKey)

/-- A delegation added to its vault. -/
def Vault.addRow (vault : Vault) (priority : Bool) (amount : ℤ) : Vault :=
  { vault with
    assets := vault.assets + amount
    priorityStaked := if priority then vault.priorityStaked + amount else vault.priorityStaked
    deferredStaked := if priority then vault.deferredStaked else vault.deferredStaked + amount
    delegationRows := vault.delegationRows + 1 }

def addDelegation (K : Keys) (claims : Dict ℕ LedgerClaim) (assignments : Dict ℕ Category) (row : ShareRow)
    (s : Shares) : Except Error Shares :=
  (require (K.key row.validatorAddress = row.validatorKey ∧ K.key row.delegatorAddress = row.delegatorKey)
    .keyMismatch).bind fun _ =>
  (require (ShareRow.pair row ∉ s.seenPairs) .duplicateDelegation).bind fun _ =>
  (require (0 < row.amount) .nonPositiveDelegation).bind fun _ =>
  match claims.get? row.delegatorKey with
  | none => .error .unknownDelegator
  | some claim =>
    (require (claim.address = row.delegatorAddress) .delegatorAddressMismatch).bind fun _ =>
    let vault := s.byValidator.getD row.validatorKey ⟨row.validatorAddress, row.validatorKey, 0, 0, 0, 0⟩
    let priority := row.delegatorKey ∈ assignments.keys
    (require (vault.validatorAddress = row.validatorAddress) .validatorAddressMismatch).map fun _ =>
      { byDelegator := s.byDelegator.add row.delegatorKey row.amount
        byValidator := s.byValidator.insert row.validatorKey (vault.addRow priority row.amount)
        priorityRows := if priority then s.priorityRows ++ [row] else s.priorityRows
        deferredRows := if priority then s.deferredRows else s.deferredRows ++ [row]
        seenPairs := s.seenPairs ++ [ShareRow.pair row] }

def addDelegations (K : Keys) (claims : Dict ℕ LedgerClaim) (assignments : Dict ℕ Category) :
    List ShareRow → Shares → Except Error Shares
  | [], s => .ok s
  | row :: rest, s => (addDelegation K claims assignments row s).bind (addDelegations K claims assignments rest)

/-! ### `main` -/

def ShareRow.order (row : ShareRow) : ℕ ×ₗ ℕ := toLex (row.validatorKey, row.delegatorKey)

/-- The files; the wallet rows, by category. -/
structure Output where
  vaults : List Vault
  priorityShares : List ShareRow
  deferredShares : List ShareRow
  walletRows : List (Category × ℕ × LedgerClaim)

/-- The claims with a wallet part, by key. -/
def walletRows (claims : Dict ℕ LedgerClaim) (assignments : Dict ℕ Category) : List (Category × ℕ × LedgerClaim) :=
  (assignments.entries.insertionSort fun a b => a.1 ≤ b.1).filterMap fun e =>
    (claims.get? e.1).bind fun claim => if claim.wallet = 0 then none else some (e.2, e.1, claim)

def main (K : Keys) (i : Input) : Except Error Output :=
  (loadAllClaims i.allClaims none .empty).bind fun claims =>
  (loadCategories K i claims).bind fun assignments =>
  let expectedPriority := (claims.entries.filter fun e => i.minimum ≤ e.2.qualification).map Prod.fst
  (require ((∀ k ∈ assignments.keys, k ∈ expectedPriority) ∧ ∀ k ∈ expectedPriority, k ∈ assignments.keys)
    .thresholdMismatch).bind fun _ =>
  (addDelegations K claims assignments i.delegations ⟨.empty, .empty, [], [], []⟩).bind fun s =>
  (require (∀ e ∈ claims.entries, s.byDelegator.getD e.1 0 = e.2.staked) .detailMismatch).bind fun _ =>
  (require ((i.delegations.map ShareRow.amount).sum = (claims.values.map LedgerClaim.staked).sum) .globalMismatch).bind
    fun _ =>
  let wallets := walletRows claims assignments
  let categoryWallet (category : Category) (rows : List ClaimRow) : Bool :=
    ((wallets.filter fun w => w.1 = category).map fun w => w.2.2.wallet).sum = (rows.map ClaimRow.wallet).sum
  (require (categoryWallet .automatic i.automaticClaims ∧ categoryWallet .contractReview i.contractClaims ∧
    categoryWallet .excluded i.excludedClaims) .walletTotalMismatch).map fun _ =>
    { vaults := s.byValidator.values.insertionSort fun a b => a.validatorKey ≤ b.validatorKey
      priorityShares := s.priorityRows.insertionSort fun a b => ShareRow.order a ≤ ShareRow.order b
      deferredShares := s.deferredRows.insertionSort fun a b => ShareRow.order a ≤ ShareRow.order b
      walletRows := wallets }

end HarmonyMigration.Claims.VaultShares
