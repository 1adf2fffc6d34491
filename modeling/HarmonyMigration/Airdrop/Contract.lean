import HarmonyMigration.Tree.BatchTree

/-! `CommittedBatchAirdrop.sol`, function by function, with the caller explicit.
Counters are 256-bit with checked additions. -/

namespace HarmonyMigration.Airdrop

open Keccak Erc20 BatchTree

variable {D : Type}

/-- The immutables and the contract's own address; `listHash` is read by no check. -/
structure Config (D : Type) where
  self : Address
  token : Address
  reserve : Address
  admin : Address
  root : D
  batchCount : Word
  totalAmount : Word

inductive Event (D : Type) where
  | batchExecuted (batchIndex : Word) (leaf : D) (recipients : ℕ) (amount : ℕ)
  | executorChanged (previousExecutor newExecutor : Address)
  | pausedSet (paused : Bool)
  | rescued (asset payee : Address) (amount : ℕ)

inductive Error (D : Type) where
  | zeroAddress
  | zeroValue
  | notExecutor (caller : Address)
  | notAdmin (caller : Address)
  | isPaused
  | lengthMismatch
  | emptyBatch
  | batchIndexOutOfRange (batchIndex batchCount : Word)
  | batchNotInList (batchIndex : Word) (leaf : D)
  | batchAlreadyExecuted (batchIndex : Word)
  | transferFailed (payee : Address) (amount : ℕ)
  /-- the token reverted, or answered with something that is no `bool` -/
  | tokenReverted
  /-- checked arithmetic -/
  | panic

structure State (D : Type) where
  executor : Address
  paused : Bool
  executedBatches : ℕ
  distributedAmount : ℕ
  executedBitmap : Bitmap.Bits
  ledger : Ledger
  logs : List (Event D)

/-- The constructor run at the address `self`, over the chain's ledger. -/
def constructor [DecidableEq D] (K : HashFn D) (self token reserve admin executor : Address) (root : D)
    (batchCount totalAmount : Word) (l : Ledger) : Except (Error D) (Config D × State D) :=
  if token = 0 ∨ reserve = 0 ∨ admin = 0 ∨ executor = 0 then .error .zeroAddress
  else if root = K.zero ∨ batchCount = 0 ∨ totalAmount = 0 then .error .zeroValue
  else .ok (⟨self, token, reserve, admin, root, batchCount, totalAmount⟩,
    ⟨executor, false, 0, 0, Bitmap.empty, { l with moves := [] }, [.executorChanged 0 executor]⟩)

def isExecuted (s : State D) (batchIndex : Word) : Bool := Bitmap.get s.executedBitmap batchIndex

/-- Checked 256-bit addition. -/
def addChecked (a b : ℕ) : Except (Error D) ℕ := if a + b < 2 ^ 256 then .ok (a + b) else .error .panic

def remainingAmount (cfg : Config D) (s : State D) : Except (Error D) ℕ :=
  if s.distributedAmount ≤ cfg.totalAmount.toNat then .ok (cfg.totalAmount.toNat - s.distributedAmount)
  else .error .panic

def batchLeaf (K : HashFn D) (batchIndex : Word) (recipients : List Address) (amounts : List Word) : D :=
  K.double (abiEncode batchIndex recipients amounts)

def _hashPair (K : HashFn D) (a b : D) : D := K.pair a b

def _verify [LinearOrder D] (K : HashFn D) (cfg : Config D) (proof : List D) (leaf : D) : Bool :=
  proof.foldl (fun h p => if h < p then _hashPair K h p else _hashPair K p h) leaf = cfg.root

/-- A high-level call that returns `bool`: the ledger and the answer, or a revert. -/
def boolCall (T : Tokens) (l : Ledger) (m : Transfer) : Except (Error D) (Ledger × Bool) :=
  match T.code m.token, T.call l m with
  | true, (l', .ret (w :: _)) =>
    if w = 1 then .ok (l', true) else if w = 0 then .ok (l', false) else .error .tokenReverted
  | _, _ => .error .tokenReverted

/-- The payment loop of `execute`, from the position it has reached. -/
def pay (T : Tokens) (cfg : Config D) (l : Ledger) (sum : ℕ) :
    List (Address × Word) → Except (Error D) (Ledger × ℕ)
  | [] => .ok (l, sum)
  | (payee, amount) :: rest =>
    match boolCall T l ⟨.transferFrom, cfg.self, cfg.token, cfg.reserve, payee, amount.toNat⟩ with
    | .error e => .error e
    | .ok (_, false) => .error (.transferFailed payee amount.toNat)
    | .ok (l', true) =>
      (addChecked sum amount.toNat).bind fun sum' => pay T cfg l' sum' rest

section
variable (T : Tokens) (cfg : Config D)

def execute [LinearOrder D] (K : HashFn D) (s : State D) (sender : Address) (batchIndex : Word)
    (recipients : List Address) (amounts : List Word) (proof : List D) : Except (Error D) (State D) :=
  if sender ≠ s.executor then .error (.notExecutor sender)
  else if s.paused then .error .isPaused
  else if recipients.length = 0 then .error .emptyBatch
  else if amounts.length ≠ recipients.length then .error .lengthMismatch
  else if batchIndex ≥ cfg.batchCount then .error (.batchIndexOutOfRange batchIndex cfg.batchCount)
  else if !_verify K cfg proof (batchLeaf K batchIndex recipients amounts) then
    .error (.batchNotInList batchIndex (batchLeaf K batchIndex recipients amounts))
  else if isExecuted s batchIndex then .error (.batchAlreadyExecuted batchIndex)
  else
    (pay T cfg s.ledger 0 (recipients.zip amounts)).bind fun r =>
    (addChecked s.executedBatches 1).bind fun executedBatches =>
    (addChecked s.distributedAmount r.2).bind fun distributedAmount =>
    .ok { s with
      executedBitmap := Bitmap.set s.executedBitmap batchIndex
      ledger := r.1
      executedBatches := executedBatches
      distributedAmount := distributedAmount
      logs := s.logs ++ [.batchExecuted batchIndex (batchLeaf K batchIndex recipients amounts)
        recipients.length r.2] }

def setExecutor (s : State D) (sender newExecutor : Address) : Except (Error D) (State D) :=
  if sender ≠ cfg.admin then .error (.notAdmin sender)
  else if newExecutor = 0 then .error .zeroAddress
  else .ok { s with
    executor := newExecutor
    logs := s.logs ++ [.executorChanged s.executor newExecutor] }

def setPaused (s : State D) (sender : Address) (paused : Bool) : Except (Error D) (State D) :=
  if sender ≠ cfg.admin then .error (.notAdmin sender)
  else .ok { s with paused := paused, logs := s.logs ++ [.pausedSet paused] }

def rescue (s : State D) (sender asset payee : Address) (amount : ℕ) : Except (Error D) (State D) :=
  if sender ≠ cfg.admin then .error (.notAdmin sender)
  else if payee = 0 then .error .zeroAddress
  else
    match boolCall T s.ledger ⟨.transfer, cfg.self, asset, cfg.self, payee, amount⟩ with
    | .error e => .error e
    | .ok (_, false) => .error (.transferFailed payee amount)
    | .ok (l, true) => .ok { s with ledger := l, logs := s.logs ++ [.rescued asset payee amount] }

/-- The functions that change state. -/
inductive Call (D : Type) where
  | execute (batchIndex : Word) (recipients : List Address) (amounts : List Word) (proof : List D)
  | setExecutor (newExecutor : Address)
  | setPaused (paused : Bool)
  | rescue (asset payee : Address) (amount : ℕ)

def call [LinearOrder D] (K : HashFn D) (s : State D) (sender : Address) :
    Call D → Except (Error D) (State D)
  | .execute i r a p => execute T cfg K s sender i r a p
  | .setExecutor a => setExecutor cfg s sender a
  | .setPaused p => setPaused cfg s sender p
  | .rescue asset payee amount => rescue T cfg s sender asset payee amount

/-- A call that reverts changes nothing. -/
def transact [LinearOrder D] (K : HashFn D) (s : State D) (tx : Address × Call D) : State D :=
  match call T cfg K s tx.1 tx.2 with
  | .ok s' => s'
  | .error _ => s

def run [LinearOrder D] (K : HashFn D) (s : State D) (txs : List (Address × Call D)) : State D :=
  txs.foldl (transact T cfg K) s

end

end HarmonyMigration.Airdrop
