import HarmonyMigration.Tree.ClaimTree

/-! `BridgeClaims.sol`, function by function. The low-level call that sends the
native coin runs code of the account it pays; it is the parameter `send`, and
`BridgeClaims/Reentry` closes it with code that may call back. -/

namespace HarmonyMigration.BridgeClaims

open Keccak Erc20 ClaimTree

variable {D : Type}

/-- The immutables of the contract, its own address and the chain it runs on.
`listHash` is left out: no check reads it. -/
structure Config (D : Type) where
  self : Address
  funder : Address
  wrappedNative : Address
  chainId : Word
  root : D
  claimCount : Word
  deriving DecidableEq

/-- One row of the published list together with its proof. -/
structure Claim (D : Type) where
  index : Word
  account : Address
  token : Address
  amount : Word
  proof : List D

inductive Event where
  | claimed (index : Word) (account token : Address) (amount : Word)
  | paidWrapped (index : Word) (account : Address) (amount : Word)
  | swept (token : Address) (amount : ℕ)
  deriving DecidableEq

inductive Error where
  | zeroAddress
  | zeroValue
  | wrongChain (expected actual : Word)
  | indexOutOfRange (index claimCount : Word)
  | alreadyClaimed (index : Word)
  | invalidProof (index : Word)
  | nativeNotSupported
  | transferFailed (token payee : Address) (amount : ℕ)
  | unexpectedNativeSender (sender : Address)
  /-- a revert of the wrapped coin, passed on by the high-level call -/
  | wrappedReverted
  | outOfGas
  deriving DecidableEq

/-- The contract's storage and logs, and the token and coin ledger of the chain. -/
structure State where
  claimedBitmap : Bitmap.Bits
  ledger : Ledger
  logs : List Event

/-- Token address used in rows that pay the native coin. -/
def NATIVE : Address := 0

/-- The constructor, run by the contract at `self` on the chain `blockChainId`. -/
def constructor [DecidableEq D] (K : HashFn D) (self : Address) (blockChainId : Word)
    (funder wrappedNative : Address) (chainId : Word) (root : D) (claimCount : Word) :
    Except Error (Config D) :=
  if funder = 0 then .error .zeroAddress
  else if root = K.zero ∨ claimCount = 0 then .error .zeroValue
  else if chainId ≠ blockChainId then .error (.wrongChain chainId blockChainId)
  else .ok ⟨self, funder, wrappedNative, chainId, root, claimCount⟩

/-- The storage of a new contract; its transfers are recorded from here on. -/
def State.init (l : Ledger) : State := ⟨Bitmap.empty, { l with moves := [] }, []⟩

def isClaimed (s : State) (index : Word) : Bool := Bitmap.get s.claimedBitmap index

def _hashPair (K : HashFn D) (a b : D) : D := K.pair a b

def _verify [LinearOrder D] (K : HashFn D) (cfg : Config D) (proof : List D) (leaf_ : D) : Bool :=
  proof.foldl (fun h p => if h < p then _hashPair K h p else _hashPair K p h) leaf_ = cfg.root

/-- `_tokenCall` on the outcome of the call: accepts `true` and, from an address
with code, no data. `none` is the `false` on which every caller reverts. -/
def _tokenCall (T : Tokens) (token : Address) : Ledger × Reply → Option Ledger
  | (_, .revert) => none
  | (l, .ret []) => if T.code token then some l else none
  | (l, .ret (w :: _)) => if w = 1 then some l else none

def _safeTransferFrom (T : Tokens) (cfg : Config D) (s : State) (token payer payee : Address)
    (amount : ℕ) : Except Error State :=
  match _tokenCall T token (T.call s.ledger ⟨.transferFrom, cfg.self, token, payer, payee, amount⟩) with
  | some l => .ok { s with ledger := l }
  | none => .error (.transferFailed token payee amount)

def _safeTransfer (T : Tokens) (cfg : Config D) (s : State) (token payee : Address)
    (amount : ℕ) : Except Error State :=
  match _tokenCall T token (T.call s.ledger ⟨.transfer, cfg.self, token, cfg.self, payee, amount⟩) with
  | some l => .ok { s with ledger := l }
  | none => .error (.transferFailed token payee amount)

/-- Only the wrapped coin sends the native coin here, while unwrapping a claim. -/
def receive (cfg : Config D) (sender : Address) : Except Error Unit :=
  if sender ≠ cfg.wrappedNative then .error (.unexpectedNativeSender sender) else .ok ()

/-- `IWrappedNative.withdraw`: the wrapped coin pays this contract, which runs `receive`. -/
def withdraw (T : Tokens) (cfg : Config D) (s : State) (amount : ℕ) : Except Error State :=
  match T.code cfg.wrappedNative, s.ledger.withdraw cfg.wrappedNative cfg.self amount,
      receive cfg cfg.wrappedNative with
  | true, some l, .ok () => .ok { s with ledger := l }
  | _, _, _ => .error .wrappedReverted

def deposit (T : Tokens) (cfg : Config D) (s : State) (amount : ℕ) : Except Error State :=
  match T.code cfg.wrappedNative, s.ledger.deposit cfg.wrappedNative cfg.self amount with
  | true, some l => .ok { s with ledger := l }
  | _, _ => .error .wrappedReverted

/-- `call(gas(), to, amount, ..)`: the state after it, or `none` when it fails. -/
abbrev Send := State → Address → ℕ → Option State

section
variable (T : Tokens) (cfg : Config D) (send : Send)

def _payNative (s : State) (index : Word) (account : Address) (amount : Word) :
    Except Error State :=
  if cfg.wrappedNative = 0 then .error .nativeNotSupported
  else
    (_safeTransferFrom T cfg s cfg.wrappedNative cfg.funder cfg.self amount.toNat).bind fun s =>
    (withdraw T cfg s amount.toNat).bind fun s =>
    match send s account amount.toNat with
    | some s => .ok s
    | none =>
      (deposit T cfg s amount.toNat).bind fun s =>
      (_safeTransfer T cfg s cfg.wrappedNative account amount.toNat).bind fun s =>
      .ok { s with logs := s.logs ++ [.paidWrapped index account amount] }

/-- The part of `_claim` before the payment: the row is marked paid and logged. -/
def mark (s : State) (index : Word) (account token : Address) (amount : Word) : State :=
  { s with
    claimedBitmap := Bitmap.set s.claimedBitmap index
    logs := s.logs ++ [.claimed index account token amount] }

variable [LinearOrder D] (K : HashFn D)

def _claim (s : State) (index : Word) (account token : Address) (amount : Word)
    (proof : List D) : Except Error State :=
  if index ≥ cfg.claimCount then .error (.indexOutOfRange index cfg.claimCount)
  else if isClaimed s index then .error (.alreadyClaimed index)
  else if !_verify K cfg proof (leaf K index account token amount) then .error (.invalidProof index)
  else if token = NATIVE then
    _payNative T cfg send (mark s index account token amount) index account amount
  else
    _safeTransferFrom T cfg (mark s index account token amount) token cfg.funder account amount.toNat

/-- Rows already paid are skipped; any other failure reverts the whole batch. -/
def claimMany (s : State) : List (Claim D) → Except Error (State × ℕ)
  | [] => .ok (s, 0)
  | c :: rest =>
    if c.index < cfg.claimCount ∧ isClaimed s c.index then claimMany s rest
    else
      (_claim T cfg send K s c.index c.account c.token c.amount c.proof).bind fun s =>
      (claimMany s rest).bind fun r =>
      .ok (r.1, r.2 + 1)

def sweep (s : State) (token : Address) : Except Error State :=
  if token = NATIVE then
    match send s cfg.funder (s.ledger.coin cfg.self) with
    | some s' => .ok { s' with logs := s'.logs ++ [.swept token (s.ledger.coin cfg.self)] }
    | none => .error (.transferFailed NATIVE cfg.funder (s.ledger.coin cfg.self))
  else
    (_safeTransfer T cfg s token cfg.funder (s.ledger.balance (token, cfg.self))).bind fun s' =>
    .ok { s' with logs := s'.logs ++ [.swept token (s.ledger.balance (token, cfg.self))] }

/-- The functions that change state. None of them reads who calls. -/
inductive Call (D : Type) where
  | claim (c : Claim D)
  | claimMany (cs : List (Claim D))
  | sweep (token : Address)

def call (s : State) : Call D → Except Error State
  | .claim c => _claim T cfg send K s c.index c.account c.token c.amount c.proof
  | .claimMany cs => (claimMany T cfg send K s cs).map Prod.fst
  | .sweep token => sweep T cfg send s token

end

end HarmonyMigration.BridgeClaims
