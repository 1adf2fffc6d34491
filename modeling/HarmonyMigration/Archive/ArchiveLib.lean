import HarmonyMigration.ContractReview.SecureKey
import HarmonyMigration.Lib.Rlp

/-! `archive_lib.py`: transactions, blocks and trace frames as a node returns them, and the outgoing cross-shard
receipts of a block. -/

namespace HarmonyMigration.Archive

open Airdrop.One1 ContractReview Decimal Except Keccak256 Slices

inductive LibError
  | invalidAddress (text : Text)
  | notHexadecimal (text : Text)
  | notAPin (text : Text)
  | tooLong
  deriving DecidableEq

/-- A plain transaction. What a node leaves out is blank. -/
structure PlainTx where
  hash : Text
  ethHash : Text
  sender : Text
  recipient : Text
  value : ℕ
  input : Text
  nonce : ℕ
  gasPrice : ℕ
  gas : ℕ
  shardID : ℕ
  toShardID : ℕ
  transactionIndex : ℕ
  v : ℕ
  r : ℕ
  s : ℕ
  deriving DecidableEq

/-- A staking transaction, with the amount and the validator of its message. -/
structure StakingTx where
  hash : Text
  type : Text
  sender : Text
  transactionIndex : ℕ
  gasPrice : ℕ
  amount : Option ℕ
  validatorAddress : Text
  deriving DecidableEq

structure Block where
  number : ℕ
  hash : Text
  parentHash : Text
  timestamp : ℕ
  epoch : ℕ
  transactions : List PlainTx
  stakingTransactions : List StakingTx
  deriving DecidableEq

inductive FrameType
  | call | create | suicide
  | other (name : Text)
  deriving DecidableEq

/-- A frame of a Parity trace; `callType` is `call` where there is none. -/
structure Frame where
  type : FrameType
  callType : Text
  sender : Text
  recipient : Text
  input : Text
  error : Bool
  traceAddress : List ℕ
  transactionPosition : ℕ
  deriving DecidableEq

/-! ### Values and addresses -/

section Values

variable (u : Lower)

/-- The address of a `one1` or `0x` text; blank for a blank text. -/
def address (value : Text) : Except LibError Text :=
  if value = [] then .ok [] else ofOption (anyToHex u value) (.invalidAddress value)

/-- `text or "0x"`. -/
def orHexPrefix (text : Text) : Text := if text = [] then hexPrefix else text

/-- `int(text, 16)`. -/
def hexInt (text : Text) : Except LibError ℕ := ofOption (Hex.value (text.map Char.toLower)) (.notHexadecimal text)

def xshardPrecompile : Text := "0x00000000000000000000000000000000000000f9".toList

/-- The number of a block and its hash. -/
structure BlockPin where
  number : ℤ
  hash : Text
  deriving DecidableEq

/-- `NUMBER:HASH`, the hash in lower case. -/
def parseBlockPin (text : Text) : Except LibError BlockPin :=
  let number := text.takeWhile (· ≠ ':')
  let hash := text.drop (number.length + 1)
  (require (hexPrefix <+: hash ∧ hash.length = 66) (.notAPin text)).bind fun _ =>
  (ofOption (parseInt number) (.notAPin text)).map fun number => ⟨number, u.lower hash⟩

/-! ### Classification -/

inductive TxKind
  | xshardNative | xshardPrecompile | create | transfer | call
  deriving DecidableEq

/-- Whether a transaction leaves its shard. -/
def PlainTx.Native (tx : PlainTx) : Prop := tx.toShardID ≠ tx.shardID

instance : DecidablePred PlainTx.Native := fun _ => inferInstanceAs (Decidable (_ ≠ _))

def classifyTx (tx : PlainTx) (toHex : Text) : TxKind :=
  if tx.Native then .xshardNative
  else if toHex = xshardPrecompile then .xshardPrecompile
  else if toHex = [] then .create
  else if orHexPrefix tx.input = hexPrefix then .transfer
  else .call

/-- `value`, `to` and `toShardID` of the calldata of `crossShardTransfer`. -/
structure Decoded where
  value : ℕ
  recipient : Text
  toShard : ℕ
  deriving DecidableEq

def decodeXshardInput (data : Text) : Except LibError (Option Decoded) :=
  let raw := (orHexPrefix data).drop 2
  if raw.length < 8 + 64 * 3 then .ok none
  else
    let body := raw.drop 8
    (hexInt (slice body 0 64)).bind fun value =>
    (hexInt (slice body 128 192)).map fun toShard =>
    some ⟨value, hexPrefix ++ u.lower (slice body (64 + 24) 128), toShard⟩

/-! ### Staking -/

structure Log where
  topics : List Text
  data : Text
  deriving DecidableEq

def collectRewardsTopic : Text :=
  hexPrefix ++ hexText (keccak256Pure ("Harmony/CollectRewards".toList.map fun c => .ofNat c.toNat))

/-- `int(data, 16)` of a log's data, with or without `0x`. -/
def logAmount (data : Text) : Except LibError ℕ :=
  if orHexPrefix data = hexPrefix then .ok 0 else hexInt (if hexPrefix <+: data then data.drop 2 else data)

/-- `staking_amount`: the amount of the message, or that of the first log of a collected reward. -/
def stakingAmount (amount : Option ℕ) (type : Text) (logs : List Log) : Except LibError (Option ℕ) :=
  match amount with
  | some amount => .ok (some amount)
  | none =>
    if type = "CollectRewards".toList then
      match logs.find? fun log => log.topics.head?.any fun topic => u.lower topic = collectRewardsTopic with
      | some log => (logAmount log.data).map some
      | none => .ok none
    else .ok none

/-! ### Signed values -/

/-- The big-endian bytes of a number, none for zero. -/
def intBytes (n : ℕ) : Bytes := if n = 0 then [] else toBytes (Nat.log 256 n + 1) n

/-- `"0x" + keccak256(rlp_encode(items)).hex()`. -/
def listHash (items : List Bytes) : Option Text :=
  (Rlp.Tree.list (items.map .string)).encode.map fun bytes => hexPrefix ++ hexText (keccak256Pure bytes)

def PlainTx.head (tx : PlainTx) : List Bytes := [intBytes tx.nonce, intBytes tx.gasPrice, intBytes tx.gas]

def PlainTx.signature (tx : PlainTx) : List Bytes := [intBytes tx.v, intBytes tx.r, intBytes tx.s]

/-- The recipient and the calldata of a transaction as bytes. -/
def PlainTx.payload (tx : PlainTx) : Except LibError (Bytes × Bytes) :=
  (address u tx.recipient).bind fun recipient =>
  (ofOption (fromhex (recipient.drop 2)) (.notHexadecimal recipient)).bind fun toBytes =>
  (ofOption (fromhex ((orHexPrefix tx.input).drop 2)) (.notHexadecimal tx.input)).map fun data => (toBytes, data)

/-- A plain transaction's hash covers the two shard fields; its Ethereum-style hash does not. -/
def signedValueMatches (tx : PlainTx) (value : ℕ) : Except LibError Bool :=
  (tx.payload u).bind fun (toBytes, data) =>
  let rest := [toBytes, intBytes value, data] ++ tx.signature
  (ofOption (listHash (tx.head ++ [intBytes tx.shardID, intBytes tx.toShardID] ++ rest)) .tooLong).bind fun harmony =>
  if harmony = u.lower tx.hash then .ok true
  else if u.lower tx.ethHash = [] then .ok false
  else (ofOption (listHash (tx.head ++ rest)) .tooLong).map fun ethereum => decide (ethereum = u.lower tx.ethHash)

end Values

/-! ### Traces -/

/-- What a node returns for one transaction of a block. -/
inductive TraceItem
  | frames (frames : List Frame)
  | failed
  | frame (frame : Frame)
  | result (frames : List Frame)

def TraceItem.frames? : TraceItem → Option (List Frame)
  | .frames list => some list
  | .failed => none
  | .frame item => some [item]
  | .result list => some list

/-- None where the trace of a transaction failed. -/
def flattenBlockTrace (items : List TraceItem) : Option (List Frame) := (items.mapM TraceItem.frames?).map List.flatten

/-- The trace addresses of the frames of a transaction that reverted. -/
def revertedPaths (frames : List Frame) (position : ℕ) : List (List ℕ) :=
  (frames.filter fun frame => frame.error ∧ frame.transactionPosition = position).map Frame.traceAddress

def hasRevertedAncestor (path : List ℕ) (errored : List (List ℕ)) (includeSelf : Bool) : Bool :=
  let limit := if includeSelf then path.length + 1 else path.length
  (List.range limit).any fun k => path.take k ∈ errored

/-! ### Outgoing receipts -/

inductive Mechanism
  | native
  | precompile (callType : Text)
  | precompileReplayIncompatible (callType : Text)
  deriving DecidableEq

/-- A row of `outgoing-receipts.csv`. -/
structure OutgoingReceipt where
  fromShard : ℕ
  toShard : ℕ
  mechanism : Mechanism
  blockNumber : ℕ
  blockHash : Text
  timestamp : ℕ
  txIndex : ℕ
  txHash : Text
  depth : ℕ
  ancestorReverted : Bool
  sender : Text
  recipient : Text
  valueAtto : ℕ
  ethHash : Text
  deriving DecidableEq

def callText : Text := "call".toList

/-- The transaction at a position: its hash and its Ethereum-style hash. -/
def hashesAt (block : Block) (position : ℕ) : Text × Text :=
  (block.transactions[position]?).elim ([], []) fun tx => (tx.hash, tx.ethHash)

section Receipts

variable (u : Lower) (shard : ℕ) (block : Block)

/-- The row of a native cross-shard transaction. -/
def nativeRow (tx : PlainTx) : Except LibError OutgoingReceipt :=
  (address u tx.sender).bind fun sender => (address u tx.recipient).map fun recipient =>
  { fromShard := shard, toShard := tx.toShardID, mechanism := .native, blockNumber := block.number,
    blockHash := block.hash, timestamp := block.timestamp, txIndex := tx.transactionIndex, txHash := tx.hash, depth := 0,
    ancestorReverted := false, sender, recipient, valueAtto := tx.value,
    ethHash := (hashesAt block tx.transactionIndex).2 }

/-- Without a trace: the row of a transaction to the precompile. -/
def directRow (tx : PlainTx) : Except LibError (Option OutgoingReceipt) :=
  (address u tx.recipient).bind fun recipient =>
  if recipient ≠ xshardPrecompile then .ok none
  else (decodeXshardInput u tx.input).bind fun decoded =>
    match decoded with
    | none => .ok none
    | some decoded => (address u tx.sender).map fun sender => some
      { fromShard := shard, toShard := decoded.toShard, mechanism := .precompile callText, blockNumber := block.number,
        blockHash := block.hash, timestamp := block.timestamp, txIndex := tx.transactionIndex, txHash := tx.hash,
        depth := 0, ancestorReverted := false, sender, recipient := decoded.recipient, valueAtto := decoded.value,
        ethHash := (hashesAt block tx.transactionIndex).2 }

/-- The row of a call to the precompile. -/
def callRow (mechanism : Text → Mechanism) (ancestor : Bool) (frame : Frame) (decoded : Decoded) : OutgoingReceipt :=
  { fromShard := shard, toShard := decoded.toShard, mechanism := mechanism frame.callType, blockNumber := block.number,
    blockHash := block.hash, timestamp := block.timestamp, txIndex := frame.transactionPosition,
    txHash := (hashesAt block frame.transactionPosition).1, depth := frame.traceAddress.length,
    ancestorReverted := ancestor, sender := u.lower frame.sender, recipient := decoded.recipient,
    valueAtto := decoded.value, ethHash := (hashesAt block frame.transactionPosition).2 }

/-- The body of the loop of `precompile_rows`. -/
def frameRow (fixEpoch : ℕ) (frames : List Frame) (includeFailed : Bool) (mechanism : Text → Mechanism) (frame : Frame) :
    Except LibError (Option OutgoingReceipt) :=
  if frame.type ≠ .call ∨ u.lower frame.recipient ≠ xshardPrecompile then .ok none
  else if frame.error ∧ ¬includeFailed then .ok none
  else (decodeXshardInput u frame.input).map fun decoded => decoded.bind fun decoded =>
    let ancestor := hasRevertedAncestor frame.traceAddress (revertedPaths frames frame.transactionPosition) false
    if ancestor ∧ fixEpoch ≤ block.epoch ∧ ¬includeFailed then none
    else some (callRow u shard block mechanism ancestor frame decoded)

def precompileRows (fixEpoch : ℕ) (frames : List Frame) (includeFailed : Bool) (mechanism : Text → Mechanism) :
    Except LibError (List OutgoingReceipt) :=
  (frames.mapM (frameRow u shard block fixEpoch frames includeFailed mechanism)).map List.reduceOption

/-- `outgoing_receipts`: the rows, and whether they are those of attempted calls. -/
def outgoingReceipts (fixEpoch : ℕ) (frames : Option (List Frame)) : Except LibError (List OutgoingReceipt × Bool) :=
  ((block.transactions.filter PlainTx.Native).mapM (nativeRow u shard block)).bind fun rows =>
  match frames with
  | none => (block.transactions.mapM (directRow u shard block)).map fun direct => (rows ++ direct.reduceOption, false)
  | some frames =>
    (precompileRows u shard block fixEpoch frames false .precompile).bind fun calls =>
    if rows ++ calls ≠ [] then .ok (rows ++ calls, false)
    else (precompileRows u shard block fixEpoch frames true .precompileReplayIncompatible).map fun fallback =>
      (fallback, decide (fallback ≠ []))

end Receipts

end HarmonyMigration.Archive
