import HarmonyMigration.Airdrop.DepositBatch
import HarmonyMigration.Lib.FirstFit
import HarmonyMigration.Lib.Group

/-! `vault_batch.py`: from a list of deposits to the Safe transactions that deploy the vaults and fund them. -/

namespace HarmonyMigration.Airdrop.VaultBatch

open Erc20 Slices Keccak256

/-- What `normalize_address` returns: the zero address is not allowed. -/
abbrev Account := {a : Address // a ≠ 0}

def factory : Address := 0x4e59b44847b379578588920cA78FbF26c0B4956C#160

def gasTxCap : ℕ := 16777216
def deployBaseGas : ℕ := 50000
def deployGas : ℕ := 540000
def fundBaseGas : ℕ := 60000
def fundCallGas : ℕ := 40000
def fundRowGas : ℕ := 26000
def maxDeploysPerTx : ℕ := 25

/-! ### The contract -/

structure Artifact where
  creation : Bytes

def Artifact.initcode (art : Artifact) (token governor : Address) : Bytes :=
  art.creation ++ addressWord token ++ addressWord governor

def saltFor (validator : Address) : Bytes := addressWord validator

/-- The last twenty bytes of a digest. -/
def vaultAddress (art : Artifact) (token validator governor : Address) : Address :=
  let digest := keccak256Pure ([0xff] ++ addressBytes factory ++ saltFor validator ++
    keccak256Pure (art.initcode token governor))
  BitVec.ofNat 160 (beNat (digest.drop 12))

/-! ### Call data -/

def deployData (art : Artifact) (token validator governor : Address) : Bytes :=
  saltFor validator ++ art.initcode token governor

/-- The first bytes of `approve(address,uint256)`. -/
def approveSelector : Bytes := [0x09, 0x5e, 0xa7, 0xb3]

def approveBody (spender : Address) (amount : ℕ) : Bytes := approveSelector ++ addressWord spender ++ word amount

def approveData (spender : Address) (amount : ℕ) : Except String Bytes :=
  (toWord amount).map fun _ => approveBody spender amount

/-- The Safe versions whose MultiSendCallOnly is known. -/
inductive SafeVersion
  | v1_3_0
  | v1_4_1
  | v1_5_0
  deriving DecidableEq

def multisendFor : SafeVersion → Address
  | .v1_3_0 => 0x40A2aCCbd92BCA938b02010E17A5b8929b49130D#160
  | .v1_4_1 => 0x9641d764fc13c8B624c04430C7356C1C7C8102e2#160
  | .v1_5_0 => 0xA83c336B20401Af773B6219BA5027174338D1836#160

/-- `safe_tx`: a single call is made directly. -/
def safeTx (calls : List (Address × Bytes)) (multisend : Address) : Except String SafeCall :=
  match calls with
  | [c] => .ok ⟨c.1, 0, c.2, 0, 0, 0, 0, 0, 0⟩
  | calls => (multisendCalls calls).map fun data => ⟨multisend, 0, data, 1, 0, 0, 0, 0, 0⟩

/-! ### The plan -/

structure Deposit where
  validator : Account
  delegator : Account
  amount : ℕ
  deriving DecidableEq

structure Vault where
  validator : Account
  governor : Account
  address : Address
  deposits : List Deposit
  deploy : Bool

def amountsOf (deposits : List Deposit) : List ℕ := deposits.map Deposit.amount

def delegatorsOf (deposits : List Deposit) : List Address := deposits.map fun d => d.delegator.1

def sumOf (deposits : List Deposit) : ℕ := (amountsOf deposits).sum

def Vault.total (v : Vault) : ℕ := sumOf v.deposits

inductive TxKind
  | deploy
  | fund
  deriving DecidableEq

structure PlannedTx where
  kind : TxKind
  calls : List (Address × Bytes)
  vaults : List Vault
  deposits : List (List Deposit)
  estimatedGas : ℕ

/-- `split_sizes` of `safe_batch.py`: a first one, then near-equal ones. -/
def splitSizes (count maxTransfers : ℕ) (first : Option ℕ) : List ℕ :=
  let head := (first.filter (· ≠ 0)).map fun first => min first count
  let left := count - head.getD 0
  head.toList ++
    if left = 0 then []
    else
      let parts := (left + maxTransfers - 1) / maxTransfers
      List.replicate (left % parts) (left / parts + 1) ++ List.replicate (parts - left % parts) (left / parts)

/-- `slices` of `safe_batch.py`. -/
def cut {α : Type*} (rows : List α) : List ℕ → List (List α)
  | [] => []
  | size :: sizes => rows.take size :: cut (rows.drop size) sizes

def deployTxs (art : Artifact) (token : Address) (vaults : List Vault) (perTx : ℕ) : List PlannedTx :=
  let todo := vaults.filter Vault.deploy
  (cut todo (splitSizes todo.length perTx none)).map fun group =>
    { kind := .deploy
      calls := group.map fun v => (factory, deployData art token v.validator.1 v.governor.1)
      vaults := group
      deposits := []
      estimatedGas := deployBaseGas + deployGas * group.length }

/-- A part of a vault's deposits, for one `depositBatch` call. -/
structure Item where
  vault : Vault
  index : ℕ
  chunk : List Deposit

def Item.gas (m : Item) : ℕ := fundCallGas + fundRowGas * m.chunk.length

def itemsOf (maxRows : ℕ) (v : Vault) : List Item :=
  (cut v.deposits (splitSizes v.deposits.length maxRows none)).zipIdx.map fun c => ⟨v, c.2, c.1⟩

/-- `(validator, index)`; lowercase hexadecimal of one length is in the order of its numbers. -/
def Item.before (a b : Item) : Prop :=
  a.vault.validator.1.toNat < b.vault.validator.1.toNat ∨
    a.vault.validator.1.toNat = b.vault.validator.1.toNat ∧ a.index ≤ b.index

instance : DecidableRel Item.before := fun a b => by unfold Item.before; infer_instance

/-- `(-gas, validator, index)`. -/
def Item.larger (a b : Item) : Prop := b.gas < a.gas ∨ a.gas = b.gas ∧ a.before b

instance : DecidableRel Item.larger := fun a b => by unfold Item.larger; infer_instance

/-- An approval of exactly the sum, and the deposits it is for. -/
def fundCalls (token : Address) (m : Item) : Except String (List (Address × Bytes)) :=
  (approveData m.vault.address (sumOf m.chunk)).bind fun approve =>
  (depositBatchData (amountsOf m.chunk) (delegatorsOf m.chunk)).map fun deposit =>
    [(token, approve), (m.vault.address, deposit)]

/-- First-fit decreasing over the parts of the vaults. -/
def fundTxs (token : Address) (vaults : List Vault) (gasTarget maxRows : ℕ) : Except String (List PlannedTx) :=
  let items := vaults.flatMap (itemsOf maxRows)
  let bins := FirstFit.pack Item.gas (gasTarget - fundBaseGas) (items.insertionSort Item.larger)
  bins.mapM fun b =>
    let members := b.items.insertionSort Item.before
    (members.mapM (fundCalls token)).map fun calls =>
      { kind := .fund
        calls := calls.flatten
        vaults := members.map Item.vault
        deposits := members.map Item.chunk
        estimatedGas := fundBaseGas + b.used }

inductive Phase
  | all
  | deploy
  | fund
  deriving DecidableEq

def planTransactions (art : Artifact) (token : Address) (vaults : List Vault) (phase : Phase)
    (deploysPerTx gasTarget maxRows : ℕ) : Except String (List PlannedTx) :=
  let deploys := if phase = .fund then [] else deployTxs art token vaults deploysPerTx
  let funds :=
    if phase = .deploy then Except.ok [] else fundTxs token (vaults.filter fun v => v.deposits ≠ []) gasTarget maxRows
  funds.map fun funds => deploys ++ funds

/-! ### From the deposit list to the vaults -/

inductive BuildError
  | deploysPerTx
  | gasTarget
  | maxRowsDoesNotFit
  | validatorGivenTwice
  | validatorWithoutRows
  | delegatorTwice (validator delegator : Account)
  | forbiddenRecipient (delegator : Account)
  | skipFundedWithoutRpc
  | unexpectedCode (address : Address)
  | alreadyCredited (delegator : Account)
  | notDeployed (address : Address)
  | nothingToBuild
  | overflow (text : String)
  deriving DecidableEq

def mergeRow (merge : Bool) (merged : Dict Account Deposit) (d : Deposit) : Except BuildError (Dict Account Deposit) :=
  match merged.get? d.delegator with
  | some first =>
    if merge then .ok (merged.insert d.delegator { first with amount := first.amount + d.amount })
    else .error (.delegatorTwice d.validator d.delegator)
  | none => .ok (merged.insert d.delegator d)

/-- Validators, `sorted`. -/
def sortAccounts (accounts : List Account) : List Account :=
  accounts.insertionSort fun a b => a.1.toNat ≤ b.1.toNat

def assembleVaults (art : Artifact) (token : Address) (deposits : List Deposit) (governorFor : Account → Account)
    (merge : Bool) : Except BuildError (List Vault) :=
  let byValidator := Dict.groupBy Deposit.validator deposits
  (sortAccounts byValidator.keys).mapM fun validator =>
    ((byValidator.getD validator []).foldlM (mergeRow merge) .empty).map fun merged =>
      { validator := validator
        governor := governorFor validator
        address := vaultAddress art token validator.1 (governorFor validator).1
        deposits := merged.values
        deploy := true }

/-- No delegator may be a vault, the Safe, the token or the deployer. -/
def checkRecipients (vaults : List Vault) (forbidden : List Address) : Except BuildError Unit :=
  let bad := vaults.map Vault.address ++ forbidden
  match (vaults.flatMap Vault.deposits).find? fun d => d.delegator.1 ∈ bad with
  | some d => .error (.forbiddenRecipient d.delegator)
  | none => .ok ()

/-- What the vaults' chain answers: which have code, whether it is the expected one, and every credit. -/
structure VaultReads where
  deployed : Address → Bool
  expected : Address → Bool
  held : Address → Address → ℕ

structure BuildArgs where
  artifact : Artifact
  safe : Account
  token : Account
  safeVersion : SafeVersion
  deploysPerTx : ℕ
  gasTarget : ℕ
  maxRows : ℕ
  minVault : ℕ
  only : List Account
  skip : List Account
  merge : Bool
  skipFunded : Bool
  allowExistingCredits : Bool
  phase : Phase
  governorFor : Account → Account
  reads : Option VaultReads

def checkLimits (args : BuildArgs) : Except BuildError Unit :=
  if ¬(1 ≤ args.deploysPerTx ∧ args.deploysPerTx ≤ maxDeploysPerTx) then .error .deploysPerTx
  else if ¬(1000000 ≤ args.gasTarget ∧ args.gasTarget ≤ gasTxCap - 2000000) then .error .gasTarget
  else if fundBaseGas + fundCallGas + fundRowGas * args.maxRows > args.gasTarget ∨ args.maxRows < 1 then
    .error .maxRowsDoesNotFit
  else .ok ()

/-- `--validator` and `--exclude-validator`. -/
def selectDeposits (args : BuildArgs) (deposits : List Deposit) : Except BuildError (List Deposit) :=
  if args.only.any (· ∈ args.skip) then .error .validatorGivenTwice
  else if (args.only ++ args.skip).any (· ∉ deposits.map Deposit.validator) then .error .validatorWithoutRows
  else
    .ok ((if args.only = [] then deposits else deposits.filter (·.validator ∈ args.only)).filter
      (·.validator ∉ args.skip))

/-- Deployed vaults are not deployed again, and no one is credited twice by accident. -/
def readVaults (args : BuildArgs) (vaults : List Vault) : Except BuildError (List Vault) :=
  match args.reads with
  | none => if args.skipFunded then .error .skipFundedWithoutRpc else .ok vaults
  | some r =>
    match vaults.find? fun v => r.deployed v.address ∧ ¬r.expected v.address with
    | some v => .error (.unexpectedCode v.address)
    | none =>
      let vaults := vaults.map fun v => { v with deploy := !r.deployed v.address }
      let exact := fun (v : Vault) (d : Deposit) => args.skipFunded ∧ r.held v.address d.delegator.1 = d.amount
      let pairs := (vaults.filter (!·.deploy)).flatMap fun v => v.deposits.map fun d => (v, d)
      let credited := pairs.filter fun p => r.held p.1.address p.2.delegator.1 ≠ 0
      let done := (credited.filter fun p => exact p.1 p.2).map fun p => (p.1.address, p.2.delegator)
      let other := credited.find? fun p => ¬exact p.1 p.2
      match other.filter fun _ => !args.allowExistingCredits with
      | some p => .error (.alreadyCredited p.2.delegator)
      | none =>
        .ok ((vaults.map fun v => { v with deposits := v.deposits.filter fun d => (v.address, d.delegator) ∉ done }).filter
          fun v => v.deposits ≠ [])

/-- The vaults above the minimum, or deployed already. -/
def includeVaults (args : BuildArgs) (vaults : List Vault) : Except BuildError (List Vault) :=
  let included := vaults.filter fun v => ¬(v.deploy ∧ v.total < args.minVault)
  match included.find? Vault.deploy with
  | some v =>
    if args.phase = .fund ∧ args.reads.isSome then .error (.notDeployed v.address) else .ok included
  | none => if included = [] then .error .nothingToBuild else .ok included

structure Build where
  included : List Vault
  txs : List PlannedTx
  safeTxs : List SafeCall

/-- `cmd_build`. -/
def cmdBuild (args : BuildArgs) (deposits : List Deposit) : Except BuildError Build :=
  (checkLimits args).bind fun _ =>
  (selectDeposits args deposits).bind fun deposits =>
  (assembleVaults args.artifact args.token.1 deposits args.governorFor args.merge).bind fun vaults =>
  (checkRecipients vaults [args.safe.1, args.token.1, factory]).bind fun _ =>
  (readVaults args vaults).bind fun vaults =>
  (includeVaults args vaults).bind fun included =>
  ((planTransactions args.artifact args.token.1 included args.phase args.deploysPerTx args.gasTarget args.maxRows).mapError
    .overflow).bind fun txs =>
  ((txs.mapM fun tx => safeTx tx.calls (multisendFor args.safeVersion)).mapError .overflow).map fun safeTxs =>
    ⟨included, txs, safeTxs⟩

end HarmonyMigration.Airdrop.VaultBatch
