import HarmonyMigration.ContractReview.SecureKey
import HarmonyMigration.Lib.Dict
import HarmonyMigration.Lib.Lookahead
import Mathlib.Data.Char
import Mathlib.Data.List.Lex

/-! `actual-supply-ledger.py`: the liquid, staking and receipt claims at the cutoff, merged by the key of the account. -/

namespace HarmonyMigration.Claims.SupplyLedger

open Airdrop.One1 ContractReview Decimal Except

/-! ### Inputs -/

/-- A row of a state file. An absent address is the empty text. -/
structure Row (β : Type) where
  secureKey : Text
  address : Text
  body : β

structure Liquid where
  balanceAtto : Text
  nonce : Text
  codeHash : Text

structure Staking where
  activeDelegationAtto : Text
  pendingUndelegationAtto : Text
  unclaimedRewardAtto : Text

structure Receipt where
  secureKey : Text
  recipient : Text
  amountAtto : Text

structure Group where
  receipts : Option (List Receipt)

structure Direction where
  pendingGroups : Option (List Group)

structure Report where
  directions : List Direction
  pendingActiveAtto : Text
  unsupportedPendingAtto : Text

structure Inputs where
  liquid0 : List (Row Liquid)
  liquid1 : List (Row Liquid)
  staking : List (Row Staking)
  receipts : Report

inductive Error
  | keysNotIncreasing
  | name (e : KeyError)
  | notANumber
  | negative
  | receiptAddressMismatch
  | pendingSum
  | addressMismatch
  | nonPositive
  | tooManyRows
  deriving DecidableEq

/-! ### Outputs -/

structure OutRow where
  secureKey : Text
  address : Text
  liquidShard0 : ℤ
  liquidShard1 : ℤ
  liquidTotal : ℤ
  activeDelegation : ℤ
  pendingUndelegation : ℤ
  unclaimedReward : ℤ
  pendingCrossShard : ℤ
  walletAirdrop : ℤ
  stakedToVault : ℤ
  totalClaim : ℤ
  nonceShard0 : Text
  nonceShard1 : Text
  codeHashShard0 : Text
  codeHashShard1 : Text

structure Summary where
  rows : ℕ
  rowsWithoutAddress : ℕ
  liquidShard0 : ℤ
  liquidShard1 : ℤ
  activeDelegation : ℤ
  pendingUndelegation : ℤ
  unclaimedReward : ℤ
  pendingCrossShard : ℤ
  walletAirdrop : ℤ
  stakedToVault : ℤ
  totalClaim : ℤ
  retiredShardReceiptStatusUnknown : Text

def Summary.start (unsupported : Text) : Summary where
  rows := 0
  rowsWithoutAddress := 0
  liquidShard0 := 0
  liquidShard1 := 0
  activeDelegation := 0
  pendingUndelegation := 0
  unclaimedReward := 0
  pendingCrossShard := 0
  walletAirdrop := 0
  stakedToVault := 0
  totalClaim := 0
  retiredShardReceiptStatusUnknown := unsupported

def Summary.add (s : Summary) (row : OutRow) : Summary where
  rows := s.rows + 1
  rowsWithoutAddress := s.rowsWithoutAddress + if row.address = [] then 1 else 0
  liquidShard0 := s.liquidShard0 + row.liquidShard0
  liquidShard1 := s.liquidShard1 + row.liquidShard1
  activeDelegation := s.activeDelegation + row.activeDelegation
  pendingUndelegation := s.pendingUndelegation + row.pendingUndelegation
  unclaimedReward := s.unclaimedReward + row.unclaimedReward
  pendingCrossShard := s.pendingCrossShard + row.pendingCrossShard
  walletAirdrop := s.walletAirdrop + row.walletAirdrop
  stakedToVault := s.stakedToVault + row.stakedToVault
  totalClaim := s.totalClaim + row.totalClaim
  retiredShardReceiptStatusUnknown := s.retiredShardReceiptStatusUnknown

/-! ### The functions of the script -/

section Functions

-- `str.lower`, and what `int` makes of a text
variable (u : Lower) (int : Text → Option ℤ)

def requireName (address key : Text) : Except Error Text := (requireAddressSecureKey u address key).mapError .name

/-- One row of `rows`. -/
def checkRow {β : Type} (previous : Option Text) (row : Row β) : Except Error (Row β) :=
  let key := u.lower row.secureKey
  (require (∀ p ∈ previous, p < key) .keysNotIncreasing).bind fun _ =>
  if row.address = [] then .ok { row with secureKey := key }
  else (requireName u row.address key).map fun _ => { row with secureKey := key }

/-- The generator `rows`. It ends where it raises. -/
def rows {β : Type} : Option Text → List (Row β) → List (Except Error (Row β))
  | _, [] => []
  | previous, row :: rest =>
    match checkRow u previous row with
    | .error e => [.error e]
    | .ok row => .ok row :: rows (some row.secureKey) rest

structure Pending where
  address : Text
  amount : ℤ

/-- `int(text)`, refused below zero. -/
def unsigned (t : Text) : Except Error ℤ :=
  (ofOption (int t) .notANumber).bind fun n => (require (0 ≤ n) .negative).map fun _ => n

/-- One receipt of `load_pending_receipts`. -/
def loadReceipt (s : Dict Text Pending × ℤ) (receipt : Receipt) : Except Error (Dict Text Pending × ℤ) :=
  let key := u.lower receipt.secureKey
  (requireName u receipt.recipient key).bind fun _ =>
  (unsigned int receipt.amountAtto).bind fun amount =>
  let entry := (s.1.get? key).getD ⟨receipt.recipient, 0⟩
  (require (u.lower entry.address = u.lower receipt.recipient) .receiptAddressMismatch).map fun _ =>
  (s.1.insert key { entry with amount := entry.amount + amount }, s.2 + amount)

def Report.receipts (r : Report) : List Receipt :=
  r.directions.flatMap fun d => (d.pendingGroups.getD []).flatMap fun g => g.receipts.getD []

def loadPendingReceipts (report : Report) : Except Error (Dict Text Pending) :=
  (report.receipts.foldlM (loadReceipt u int) (.empty, 0)).bind fun s =>
  (require (int report.pendingActiveAtto = some s.2) .pendingSum).map fun _ => s.1

def intField {β : Type} (row : Option (Row β)) (field : β → Text) : Except Error ℤ :=
  match row with
  | none => .ok 0
  | some row => unsigned int (field row.body)

/-- The addresses of one key that are there. -/
def presentAddresses (current0 current1 : Option (Row Liquid)) (currentStake : Option (Row Staking))
    (currentReceipt : Option Pending) : List Text :=
  [current0.map Row.address, current1.map Row.address, currentStake.map Row.address,
    currentReceipt.map Pending.address].reduceOption.filter (· ≠ [])

/-- The output row of one key. -/
def mergeRow (key : Text) (current0 current1 : Option (Row Liquid)) (currentStake : Option (Row Staking))
    (currentReceipt : Option Pending) : Except Error OutRow :=
  let addresses := presentAddresses current0 current1 currentStake currentReceipt
  let address := addresses.headD []
  (require (∀ a ∈ addresses.tail, u.lower a = u.lower address) .addressMismatch).bind fun _ =>
  (if address = [] then .ok [] else requireName u address key).bind fun _ =>
  (intField int current0 Liquid.balanceAtto).bind fun liquid0 =>
  (intField int current1 Liquid.balanceAtto).bind fun liquid1 =>
  (intField int currentStake Staking.activeDelegationAtto).bind fun active =>
  (intField int currentStake Staking.pendingUndelegationAtto).bind fun undelegation =>
  (intField int currentStake Staking.unclaimedRewardAtto).bind fun reward =>
  let pendingReceipt := currentReceipt.elim 0 Pending.amount
  let liquid := liquid0 + liquid1
  let walletAirdrop := liquid + undelegation + reward + pendingReceipt
  let totalClaim := walletAirdrop + active
  (require (0 < totalClaim) .nonPositive).map fun _ =>
  { secureKey := key
    address := address
    liquidShard0 := liquid0
    liquidShard1 := liquid1
    liquidTotal := liquid
    activeDelegation := active
    pendingUndelegation := undelegation
    unclaimedReward := reward
    pendingCrossShard := pendingReceipt
    walletAirdrop := walletAirdrop
    stakedToVault := active
    totalClaim := totalClaim
    nonceShard0 := current0.elim [] fun row => row.body.nonce
    nonceShard1 := current1.elim [] fun row => row.body.nonce
    codeHashShard0 := current0.elim [] fun row => row.body.codeHash
    codeHashShard1 := current1.elim [] fun row => row.body.codeHash }

abbrev Ahead (β : Type) := Lookahead Error (Row β)

/-- The smallest key in front. -/
def nextKey (row0 row1 : Ahead Liquid) (stake : Ahead Staking) (receiptKeys : List Text) : Option Text :=
  [row0.row?.map Row.secureKey, row1.row?.map Row.secureKey, stake.row?.map Row.secureKey,
    receiptKeys.head?].reduceOption.min?

/-- The loop, with at most `fuel` turns. -/
def mergeLoop (claims : Dict Text Pending) :
    ℕ → Summary → Ahead Liquid → Ahead Liquid → Ahead Staking → List Text → Except Error (List OutRow × Summary)
  | 0, _, _, _, _, _ => .error .tooManyRows
  | fuel + 1, summary, row0, row1, stake, receiptKeys =>
    match nextKey row0 row1 stake receiptKeys with
    | none => .ok ([], summary)
    | some key =>
      (row0.take Row.secureKey key).bind fun (current0, row0) =>
      (row1.take Row.secureKey key).bind fun (current1, row1) =>
      (stake.take Row.secureKey key).bind fun (currentStake, stake) =>
      (mergeRow u int key current0 current1 currentStake (claims.get? key)).bind fun row =>
      (mergeLoop claims fuel (summary.add row) row0 row1 stake (Lookahead.dropAt id key receiptKeys)).map fun r =>
        (row :: r.1, r.2)

/-- No file has more keys than rows, and no turn leaves all of them where they are. -/
def Inputs.size (I : Inputs) : ℕ :=
  I.liquid0.length + I.liquid1.length + I.staking.length + I.receipts.receipts.length

def merge (I : Inputs) : Except Error (List OutRow × Summary) :=
  (loadPendingReceipts u int I.receipts).bind fun claims =>
  let receiptKeys := claims.keys.insertionSort (· ≤ ·)
  (Lookahead.pull (rows u none I.liquid0)).bind fun row0 =>
  (Lookahead.pull (rows u none I.liquid1)).bind fun row1 =>
  (Lookahead.pull (rows u none I.staking)).bind fun stake =>
  mergeLoop u int claims (I.size + 1) (.start I.receipts.unsupportedPendingAtto) row0 row1 stake receiptKeys

end Functions

end HarmonyMigration.Claims.SupplyLedger
