import HarmonyMigration.Lib.Erc20
import HarmonyMigration.Lib.Except
import HarmonyMigration.Tree.Keccak256

/-! `safe_batch.py`: a Safe transaction, its hashes, and the token transfers its call data makes. -/

namespace HarmonyMigration.Airdrop

open Erc20 Slices Keccak256

def word (value : ℕ) : Bytes := toBytes 32 value

def addressWord (a : Address) : Bytes := word a.toNat

/-- What a Safe transaction does, without its nonce. Numbers are 256-bit words. -/
structure SafeCall where
  payee : Address
  value : BitVec 256
  data : Bytes
  operation : BitVec 256
  safeTxGas : BitVec 256
  baseGas : BitVec 256
  gasPrice : BitVec 256
  gasToken : Address
  refundReceiver : Address
  deriving DecidableEq

structure SafeTx extends SafeCall where
  nonce : BitVec 256
  deriving DecidableEq

def domainTypehash : Bytes := toBytes 32 0x47e79534a245952e8b16893a336b85a3d9ea9fa8c573f3d803afb92a79469218

def safeTxTypehash : Bytes := toBytes 32 0xbb8310d486368db6bd6f849402fdd73ad53d316b5a4b2644ad6efe0f941286d8

def domainHash (chainId : ℕ) (safe : Address) : Bytes :=
  keccak256Pure (domainTypehash ++ word chainId ++ addressWord safe)

def messageHash (tx : SafeTx) : Bytes :=
  keccak256Pure (safeTxTypehash ++ addressWord tx.payee ++ word tx.value.toNat ++ keccak256Pure tx.data ++
    word tx.operation.toNat ++ word tx.safeTxGas.toNat ++ word tx.baseGas.toNat ++ word tx.gasPrice.toNat ++
    addressWord tx.gasToken ++ addressWord tx.refundReceiver ++ word tx.nonce.toNat)

def safeTxHash (chainId : ℕ) (safe : Address) (tx : SafeTx) : Bytes :=
  keccak256Pure ([0x19, 0x01] ++ domainHash chainId safe ++ messageHash tx)

/-- The first bytes of `transfer(address,uint256)` and of `multiSend(bytes)`. -/
def transferSelector : Bytes := [0xa9, 0x05, 0x9c, 0xbb]

def multisendSelector : Bytes := [0x8d, 0x80, 0xff, 0x0a]

/-- The official MultiSendCallOnly deployments. -/
def officialMultisendCallOnly : List Address :=
  [0x40A2aCCbd92BCA938b02010E17A5b8929b49130D#160, 0xA1dabEF33b3B82c7814B6D82A79e50F4AC44102B#160,
    0x9641d764fc13c8B624c04430C7356C1C7C8102e2#160, 0xA83c336B20401Af773B6219BA5027174338D1836#160]

/-- One entry of MultiSend's packed list. -/
structure PackedCall where
  operation : UInt8
  target : Address
  value : ℕ
  body : Bytes

inductive DecodeError where
  | shorterThanDeclared
  | endsInsideEntry
  | entryShorterThanDeclared
  deriving DecidableEq, Repr

def decodeCalls (packed : Bytes) : Except DecodeError (List PackedCall) :=
  if packed = [] then .ok []
  else if packed.length < 85 then .error .endsInsideEntry
  else
    let size := beNat (slice packed 53 85)
    let body := slice packed 85 (85 + size)
    if body.length ≠ size then .error .entryShorterThanDeclared
    else (decodeCalls (packed.drop (85 + size))).map fun calls =>
      { operation := packed.headD 0, target := BitVec.ofNat 160 (beNat (slice packed 1 21)),
        value := beNat (slice packed 21 53), body } :: calls
termination_by packed.length
decreasing_by
  rw [List.length_drop]
  have : 0 < packed.length := List.length_pos_of_ne_nil ‹_›
  omega

/-- `None` where the data is no `multiSend(bytes)`. -/
def decodeMultisend (data : Bytes) : Except DecodeError (Option (List PackedCall)) :=
  if slice data 0 4 ≠ multisendSelector ∨ data.length < 68 then .ok none
  else
    let start := 4 + beNat (slice data 4 36)
    let length := beNat (slice data start (start + 32))
    let packed := slice data (start + 32) (start + 32 + length)
    if packed.length ≠ length then .error .shorterThanDeclared
    else (decodeCalls packed).map some

def decodeTransfer (body : Bytes) : Option (Address × ℕ) :=
  if body.length ≠ 68 ∨ slice body 0 4 ≠ transferSelector ∨ (slice body 4 16).any (· ≠ 0) then none
  else some (BitVec.ofNat 160 (beNat (slice body 16 36)), beNat (slice body 36 68))

/-- Why a transaction is not only plain transfers of the token. -/
inductive NotPlain where
  | sendsEth (value : BitVec 256)
  | paysGasRefund
  | otherCall (payee : Address)
  | unofficialMultisend (payee : Address)
  | unreadableMultisend (e : DecodeError)
  | notMultisend
  | call (i : ℕ)
  deriving DecidableEq

/-- An entry that transfers the token and does nothing else. -/
def PackedCall.transfer (token : Address) (c : PackedCall) : Option (Address × ℕ) :=
  if c.operation ≠ 0 ∨ c.value ≠ 0 ∨ c.target ≠ token then none else decodeTransfer c.body

/-- Every transfer, and every reason the transaction is not just that. -/
def tokenTransfers (tx : SafeTx) (token : Address) : List (Address × ℕ) × List NotPlain :=
  let problems := (if tx.value ≠ 0 then [.sendsEth tx.value] else []) ++
    if tx.gasPrice ≠ 0 ∨ tx.gasToken ≠ 0 ∨ tx.refundReceiver ≠ 0 then [NotPlain.paysGasRefund] else []
  if tx.operation = 0 then
    match decodeTransfer tx.data with
    | some single =>
      if tx.payee ≠ token then ([], problems ++ [.otherCall tx.payee]) else ([single], problems)
    | none => ([], problems ++ [.otherCall tx.payee])
  else
    let problems := problems ++
      if tx.payee ∉ officialMultisendCallOnly then [.unofficialMultisend tx.payee] else []
    match decodeMultisend tx.data with
    | .error e => ([], problems ++ [.unreadableMultisend e])
    | .ok none => ([], problems ++ [.notMultisend])
    | .ok (some calls) =>
      (calls.filterMap (PackedCall.transfer token),
        problems ++ (calls.zipIdx 1).filterMap fun c =>
          if (c.1.transfer token).isNone then some (NotPlain.call c.2) else none)

/-- The transaction makes these transfers of the token and nothing else. -/
def PlainTransfers (token : Address) (tx : SafeTx) (transfers : List (Address × ℕ)) : Prop :=
  (tx.value = 0 ∧ tx.gasPrice = 0 ∧ tx.gasToken = 0 ∧ tx.refundReceiver = 0) ∧
    ((tx.operation = 0 ∧ tx.payee = token ∧ ∃ t, decodeTransfer tx.data = some t ∧ transfers = [t]) ∨
      (tx.operation ≠ 0 ∧ tx.payee ∈ officialMultisendCallOnly ∧
        ∃ calls, decodeMultisend tx.data = .ok (some calls) ∧
          List.Forall₂ (fun c t => c.transfer token = some t) calls transfers))

theorem transfers_of_no_problem {token : Address} {calls : List PackedCall} {k : ℕ}
    (h : ((calls.zipIdx k).filterMap fun c =>
      if (c.1.transfer token).isNone then some (NotPlain.call c.2) else none) = []) :
    List.Forall₂ (fun c t => c.transfer token = some t) calls (calls.filterMap (PackedCall.transfer token)) := by
  induction calls generalizing k with
  | nil => exact .nil
  | cons c calls ih =>
    rw [List.zipIdx_cons, List.filterMap_cons] at h
    cases ht : c.transfer token with
    | none => simp [ht] at h
    | some t =>
      rw [List.filterMap_cons, ht]
      exact .cons ht (ih (by simpa [ht] using h))

theorem tokenTransfers_plain {token : Address} {tx : SafeTx} (h : (tokenTransfers tx token).2 = []) :
    PlainTransfers token tx (tokenTransfers tx token).1 := by
  have hclean : ∀ {rest : List NotPlain}, ((if tx.value ≠ 0 then [NotPlain.sendsEth tx.value] else []) ++
      if tx.gasPrice ≠ 0 ∨ tx.gasToken ≠ 0 ∨ tx.refundReceiver ≠ 0 then [NotPlain.paysGasRefund] else []) ++ rest =
        [] → (tx.value = 0 ∧ tx.gasPrice = 0 ∧ tx.gasToken = 0 ∧ tx.refundReceiver = 0) ∧ rest = [] := by
    intro rest hrest
    simpa [List.append_eq_nil_iff, and_assoc] using hrest
  unfold tokenTransfers at h ⊢
  by_cases hop : tx.operation = 0
  · simp only [hop, if_true] at h ⊢
    cases hd : decodeTransfer tx.data with
    | none => simp [hd] at h
    | some t =>
      simp only [hd] at h ⊢
      by_cases hp : tx.payee = token
      · simp only [hp, ne_eq, not_true_eq_false, if_false] at h ⊢
        obtain ⟨hz, -⟩ := hclean (by rw [List.append_nil]; exact h)
        exact ⟨hz, Or.inl ⟨hop, hp, t, hd, rfl⟩⟩
      · simp [hp] at h
  · simp only [hop, if_false] at h ⊢
    cases hd : decodeMultisend tx.data with
    | error e => simp [hd] at h
    | ok calls =>
      cases calls with
      | none => simp [hd] at h
      | some calls =>
        simp only [hd, List.append_assoc] at h ⊢
        rw [← List.append_assoc] at h
        obtain ⟨hz, hrest⟩ := hclean h
        obtain ⟨hpayee, hcalls⟩ := List.append_eq_nil_iff.mp hrest
        have hofficial : tx.payee ∈ officialMultisendCallOnly := by
          by_contra hn
          simp [hn] at hpayee
        exact ⟨hz, Or.inr ⟨hop, hofficial, calls, hd, transfers_of_no_problem hcalls⟩⟩

end HarmonyMigration.Airdrop
