import HarmonyMigration.Archive.ArchiveLib
import HarmonyMigration.Archive.ScanStage
import HarmonyMigration.Lib.ExceptRun
import HarmonyMigration.Lib.Loader
import Mathlib.Data.Char
import Mathlib.Data.List.Lex

/-! `import-rpc-export.py`: the blocks that a node's RPC export holds, checked against its manifests, its receipts and an
existing run, and collected as a run of the archive. -/

namespace HarmonyMigration.Archive.ImportExport

open Airdrop.One1 ContractReview Decimal Except Slices
open ScanBlocks (Segment)

/-! ### An export -/

structure BlockRange where
  start : ℤ
  stop : ℤ
  firstHash : Text
  lastHash : Text

structure Counts where
  regularTransactions : ℕ
  stakingTransactions : ℕ
  receipts : ℕ

structure FileEntry where
  path : Text
  bytes : ℕ
  sha256 : Text

/-- `source_manifest.json`. -/
structure Manifest where
  blockRange : BlockRange
  counts : Counts
  files : List FileEntry

/-- A line of `receipts.jsonl`. -/
structure Receipt where
  transactionHash : Text
  blockHash : Text
  status : ℕ
  gasUsed : ℕ
  logs : List Log

/-- An export directory. A response has the number of its file `blocks_*.json`, and no blocks where the call failed. -/
structure Export where
  manifest : Manifest
  file : Text → Option Bytes
  receipts : List Receipt
  responses : List (ℕ × Option (List Block))

/-- The hashes of the transactions of a block, regular and staking. -/
def txHashes (block : Block) : List Text :=
  block.transactions.map PlainTx.hash ++ block.stakingTransactions.map StakingTx.hash

inductive Place
  | segments | blockList | transactions | staking
  deriving DecidableEq

inductive Mismatch
  | block (place : Place) (number : ℤ)
  | row (place : Place) (txHash : Text)
  deriving DecidableEq

inductive ImportError
  | noExport
  | missing (path : Text)
  | fileDiffers (path : Text)
  | duplicateReceipt (txHash : Text)
  | outsideExport (first last : ℤ)
  | otherRun
  | notSuccessful (file : ℕ)
  | doesNotFollow (number : ℕ)
  | pinDiffers (number : ℕ)
  | firstHashDiffers
  | noReceipt (txHash : Text) (number : ℕ)
  | notReproduced (txHash : Text) (value : ℕ)
  | manifestDiffers
  | orphanReceipts
  | unmatchedPins (numbers : List ℤ)
  | noOverlap
  | disagrees (mismatches : List Mismatch)
  | lib (e : LibError)
  deriving DecidableEq

section Import

variable (u : Lower) (sha256 : Bytes → Text)

def verifyFile (e : Export) (entry : FileEntry) : Except ImportError Unit :=
  (ofOption (e.file entry.path) (.missing entry.path)).bind fun bytes =>
  require (bytes.length = entry.bytes ∧ sha256 bytes = entry.sha256) (.fileDiffers entry.path)

def verifyManifest (e : Export) : Except ImportError Manifest :=
  (e.manifest.files.mapM (verifyFile sha256 e)).map fun _ => e.manifest

/-! ### Receipts -/

/-- Block hash, status, gas used and the reward of `CollectRewards`. -/
structure ReceiptEntry where
  blockHash : Text
  status : ℕ
  gasUsed : ℕ
  reward : Option ℕ

def readReceipt (r : Receipt) : Except ImportError ReceiptEntry :=
  ((stakingAmount u none "CollectRewards".toList r.logs).mapError .lib).map fun reward =>
    ⟨u.lower r.blockHash, r.status, r.gasUsed, reward⟩

def loadReceipts : List Receipt → Dict Text ReceiptEntry → Except ImportError (Dict Text ReceiptEntry)
  | [], index => .ok index
  | r :: rest, index =>
    (require (r.transactionHash ∉ index.keys) (.duplicateReceipt r.transactionHash)).bind fun _ =>
    (readReceipt u r).bind fun entry => loadReceipts rest (index.insert r.transactionHash entry)

/-! ### Collected rows -/

/-- A row of `transactions.csv`. -/
structure TxRow where
  kind : TxKind
  blockNumber : ℕ
  blockHash : Text
  timestamp : ℕ
  txIndex : ℕ
  txHash : Text
  ethHash : Text
  sender : Text
  recipient : Text
  valueAtto : ℕ
  shardId : ℕ
  toShardId : ℕ
  status : ℕ
  gasUsed : ℕ
  gasPrice : ℕ
  inputSelector : Text
  inputBytes : ℕ

/-- A row of `staking.csv`. -/
structure StakingRow where
  type : Text
  blockNumber : ℕ
  blockHash : Text
  timestamp : ℕ
  txIndex : ℕ
  txHash : Text
  sender : Text
  validator : Text
  amountAtto : ℕ
  status : ℕ
  gasUsed : ℕ
  gasPrice : ℕ

/-- A row of `trace-blocks.csv`; the reason is a call. -/
structure TraceRow where
  blockNumber : ℕ
  txCount : ℕ
  callTxCount : ℕ
  blockHash : Text

/-- A row of `xshard-blocks.csv`: a block with outgoing receipts. -/
structure XshardRow where
  blockNumber : ℕ
  blockHash : Text
  timestamp : ℕ
  epoch : ℕ

/-- `Collector`: archive rows of a block range. -/
structure Collected where
  tx : List TxRow
  staking : List StakingRow
  trace : List TraceRow
  xshard : List XshardRow
  receipts : List OutgoingReceipt
  segments : List Segment
  signed : Dict Text PlainTx
  first : Option ℕ
  last : Option ℕ

def Collected.empty : Collected := ⟨[], [], [], [], [], [], .empty, none, none⟩

structure Collector where
  shard : ℕ
  minValue : ℕ
  receipts : Dict Text ReceiptEntry
  requireSignedValues : Bool

def receiptRollbackFixEpoch : ℕ := 2964

/-- A segment takes a thousand blocks. -/
def addSegment (segments : List Segment) (block : Block) (blockHash : Text) : List Segment :=
  let fresh : Segment := ⟨block.number, block.number, u.lower block.parentHash, blockHash, blockHash⟩
  match segments.getLast? with
  | none => [fresh]
  | some s =>
    if s.stop - s.start = 999 then segments ++ [fresh]
    else segments.dropLast ++ [{ s with stop := block.number, lastHash := blockHash }]

namespace Collector

variable (c : Collector) (block : Block) (blockHash : Text)

def entry (txHash : Text) : Except ImportError ReceiptEntry :=
  ofOption (c.receipts.get? txHash) (.noReceipt txHash block.number)

/-- `to` and `to_shard_id` of a row. -/
def destination (kind : TxKind) (toHex : Text) (tx : PlainTx) : Except ImportError (Text × ℕ) :=
  if kind = .xshardPrecompile then
    ((decodeXshardInput u tx.input).mapError .lib).map fun decoded =>
      decoded.elim (toHex, tx.toShardID) fun d => (d.recipient, d.toShard)
  else .ok (toHex, tx.toShardID)

/-- The kind of a transaction, and its row where its value reaches the minimum. -/
def txRow (tx : PlainTx) : Except ImportError (TxKind × Option TxRow) :=
  ((address u tx.recipient).mapError .lib).bind fun toHex =>
  let kind := classifyTx tx toHex
  let data := orHexPrefix tx.input
  if tx.value < c.minValue then .ok (kind, none)
  else
    (c.entry block tx.hash).bind fun entry =>
    ((signedValueMatches u tx tx.value).mapError .lib).bind fun reproduced =>
    (require (reproduced = true ∨ c.requireSignedValues = false) (.notReproduced tx.hash tx.value)).bind fun _ =>
    (destination u kind toHex tx).bind fun (toOut, toShard) =>
    ((address u tx.sender).mapError .lib).map fun sender => (kind, some
      { kind, blockNumber := block.number, blockHash, timestamp := block.timestamp, txIndex := tx.transactionIndex,
        txHash := tx.hash, ethHash := tx.ethHash, sender, recipient := toOut, valueAtto := tx.value,
        shardId := tx.shardID, toShardId := toShard, status := entry.status, gasUsed := entry.gasUsed,
        gasPrice := tx.gasPrice, inputSelector := if data = hexPrefix then [] else data.take 10,
        inputBytes := (data.length - 2) / 2 })

def stakingRow (tx : StakingTx) : Except ImportError (Option StakingRow) :=
  (c.entry block tx.hash).bind fun entry =>
  match tx.amount.or (if tx.type = "CollectRewards".toList then entry.reward else none) with
  | none => .ok none
  | some amount =>
    if amount < c.minValue then .ok none
    else
      ((address u tx.sender).mapError .lib).bind fun sender =>
      ((address u tx.validatorAddress).mapError .lib).map fun validator => some
        { type := tx.type, blockNumber := block.number, blockHash, timestamp := block.timestamp,
          txIndex := tx.transactionIndex, txHash := tx.hash, sender, validator, amountAtto := amount,
          status := entry.status, gasUsed := entry.gasUsed, gasPrice := tx.gasPrice }

/-- A send, where its transaction succeeded. -/
def sent (row : OutgoingReceipt) : Except ImportError (Option OutgoingReceipt) :=
  (c.entry block row.txHash).map fun entry => if entry.status = 1 then some row else none

def add (collected : Collected) : Except ImportError Collected :=
  (block.transactions.mapM (txRow u c block blockHash)).bind fun txs =>
  (block.stakingTransactions.mapM (stakingRow u c block blockHash)).bind fun stakings =>
  ((outgoingReceipts u c.shard block receiptRollbackFixEpoch none).mapError .lib).bind fun (sends, _) =>
  (sends.mapM (sent c block)).map fun sends =>
  let calls := txs.countP fun tx => tx.1 = .call ∨ tx.1 = .create ∨ tx.1 = .xshardPrecompile
  let sends := sends.reduceOption
  { tx := collected.tx ++ (txs.map Prod.snd).reduceOption
    staking := collected.staking ++ stakings.reduceOption
    trace := if calls = 0 then collected.trace
      else collected.trace ++ [⟨block.number, block.transactions.length, calls, blockHash⟩]
    xshard := if sends = [] then collected.xshard
      else collected.xshard ++ [⟨block.number, blockHash, block.timestamp, block.epoch⟩]
    receipts := collected.receipts ++ sends
    segments := addSegment u collected.segments block blockHash
    signed := (block.transactions.filter fun tx => c.minValue ≤ tx.value).foldl (fun d tx => d.insert tx.hash tx)
      collected.signed
    first := collected.first.or (some block.number)
    last := some block.number }

end Collector

/-! ### The compared run -/

inductive Branch
  | canonical | rolledBack
  deriving DecidableEq

/-- An existing run: its identity, its segments and its rows. -/
structure CompareRun where
  shard : ℕ
  branch : Branch
  start : ℤ
  stop : ℤ
  segments : List Segment
  transactions : List TxRow
  staking : List StakingRow

/-- `TX_COMPARE`. -/
structure TxCompared where
  blockHash : Text
  valueAtto : ℕ
  status : ℕ
  gasUsed : ℕ
  recipient : Text
  kind : TxKind
  deriving DecidableEq

def TxRow.compared (row : TxRow) : TxCompared :=
  ⟨u.lower row.blockHash, row.valueAtto, row.status, row.gasUsed, u.lower row.recipient, row.kind⟩

/-- `STAKING_COMPARE`. -/
structure StakingCompared where
  blockHash : Text
  amountAtto : ℕ
  status : ℕ
  type : Text
  deriving DecidableEq

def StakingRow.compared (row : StakingRow) : StakingCompared :=
  ⟨u.lower row.blockHash, row.amountAtto, row.status, u.lower row.type⟩

/-- Only the value differs, and the run's, not the export's, is the signed one. -/
def roundedInExport (theirs mine : Option TxCompared) (tx : Option PlainTx) : Except LibError Bool :=
  match theirs, mine, tx with
  | some theirs, some mine, some tx =>
    if { theirs with valueAtto := mine.valueAtto } ≠ mine then .ok false
    else (signedValueMatches u tx theirs.valueAtto).bind fun run =>
      if run = false then .ok false else (signedValueMatches u tx mine.valueAtto).map (!·)
  | _, _, _ => .ok false

section Compare

variable (run : CompareRun) (hashes : Dict ℤ Text)

def checkHash (place : Place) (number : ℤ) (value : Text) : List Mismatch :=
  if run.start ≤ number ∧ number ≤ run.stop ∧ (hashes.get? number).any (· ≠ u.lower value) then [.block place number]
  else []

/-- The hashes at which two tables of rows differ, less the excused. -/
def rowMismatches {φ : Type} [DecidableEq φ] (place : Place) (theirs mine : Dict Text φ)
    (excused : Text → Except LibError Bool) : Except LibError (List Mismatch) :=
  (((theirs.keys ++ mine.keys).dedup.insertionSort (· ≤ ·)).mapM fun hash =>
    if theirs.get? hash = mine.get? hash then .ok none
    else (excused hash).map fun e => if e then none else some (.row place hash)).map List.reduceOption

/-- `compare`: the mismatches over the overlap. -/
def compare (blockList : Option (List (ℤ × Text))) (overlap : Collected) : Except ImportError (List Mismatch) :=
  let check := checkHash u run hashes
  let theirs := Dict.ofList (run.transactions.map fun row => (row.txHash, row.compared u))
  let mine := Dict.ofList (overlap.tx.map fun row => (row.txHash, row.compared u))
  ((rowMismatches .transactions theirs mine fun hash =>
    roundedInExport u (theirs.get? hash) (mine.get? hash) (overlap.signed.get? hash)).mapError .lib).bind fun txs =>
  ((rowMismatches .staking (.ofList (run.staking.map fun row => (row.txHash, row.compared u)))
    (.ofList (overlap.staking.map fun row => (row.txHash, row.compared u))) fun _ => .ok false).mapError .lib).bind
      fun stakings =>
  (require (overlap.first.isSome ∧ overlap.last.isSome) .noOverlap).map fun _ =>
    (run.segments.flatMap fun s => check .segments s.start s.firstHash ++ check .segments s.stop s.lastHash) ++
      ((blockList.getD []).flatMap fun row => check .blockList row.1 row.2) ++
      (run.transactions.flatMap fun row => check .transactions row.blockNumber row.blockHash) ++ txs ++
      (run.staking.flatMap fun row => check .staking row.blockNumber row.blockHash) ++ stakings

end Compare

/-! ### The import -/

structure Args where
  shard : ℕ
  branch : Branch
  fork : Text
  start : Option ℤ
  stop : Option ℤ
  expect : List Text
  minValueAtto : ℕ
  compareRun : Option CompareRun
  compareBlockList : Option (List (ℤ × Text))

/-- What is read before the blocks. -/
structure Setup where
  fork : BlockPin
  expect : List BlockPin
  receipts : Dict Text ReceiptEntry
  last : ℤ
  start : ℤ
  stop : ℤ
  imported : Collector
  overlap : Collector
  compareRange : Option (ℤ × ℤ)

/-- A pin given twice counts once, the last. -/
def Setup.pins (s : Setup) : Dict ℤ Text := .ofList (s.expect.map fun pin => (pin.number, pin.hash))

def prepare (a : Args) (exports : List Export) : Except ImportError Setup :=
  ((parseBlockPin u a.fork).mapError .lib).bind fun fork =>
  ((a.expect.mapM (parseBlockPin u)).mapError .lib).bind fun expect =>
  (exports.mapM (verifyManifest sha256)).bind fun manifests =>
  (exports.foldlM (fun index e => loadReceipts u e.receipts index) .empty).bind fun receipts =>
  (ofOption manifests.head? .noExport).bind fun firstManifest =>
  (ofOption manifests.getLast? .noExport).bind fun lastManifest =>
  let first := firstManifest.blockRange.start
  let last := lastManifest.blockRange.stop
  let start := a.start.getD first
  let stop := a.stop.getD last
  (require (first ≤ start ∧ start ≤ stop ∧ stop ≤ last) (.outsideExport first last)).bind fun _ =>
  (require (∀ run ∈ a.compareRun, run.shard = a.shard ∧ run.branch = a.branch) .otherRun).map fun _ =>
    { fork, expect, receipts, last, start, stop
      imported := ⟨a.shard, a.minValueAtto, receipts, true⟩
      overlap := ⟨a.shard, a.minValueAtto, receipts, false⟩
      compareRange := a.compareRun.map fun run => (run.start, run.stop) }

/-- Where the loop over the blocks stands. The counts are those of the export that is read. -/
structure Walk where
  hashes : Dict ℤ Text
  previousHash : Text
  expectedNumber : ℤ
  regular : ℕ
  staking : ℕ
  imported : Collected
  overlap : Collected

def Setup.begin (s : Setup) : Walk :=
  { hashes := .ofList [(s.fork.number, s.fork.hash)], previousHash := s.fork.hash, expectedNumber := s.fork.number + 1,
    regular := 0, staking := 0, imported := .empty, overlap := .empty }

section Loop

variable (s : Setup)

/-- Every transaction of a block has a receipt with the hash of the block. -/
def checkReceipts (block : Block) (blockHash : Text) : Except ImportError (List Unit) :=
  (txHashes block).mapM fun hash =>
    require ((s.receipts.get? hash).any (·.blockHash = blockHash)) (.noReceipt hash block.number)

def addBlock (range : BlockRange) (w : Walk) (block : Block) : Except ImportError Walk :=
  let blockHash := u.lower block.hash
  (require ((block.number : ℤ) = w.expectedNumber ∧ u.lower block.parentHash = w.previousHash)
    (.doesNotFollow block.number)).bind fun _ =>
  (require ((s.pins.get? block.number).all (· = blockHash)) (.pinDiffers block.number)).bind fun _ =>
  (require ((block.number : ℤ) = range.start → blockHash = u.lower range.firstHash) .firstHashDiffers).bind fun _ =>
  (checkReceipts s block blockHash).bind fun _ =>
  (if s.start ≤ block.number ∧ block.number ≤ s.stop then s.imported.add u block blockHash w.imported
    else .ok w.imported).bind fun imported =>
  (if s.compareRange.any fun r => r.1 ≤ (block.number : ℤ) ∧ (block.number : ℤ) ≤ r.2 then
      s.overlap.add u block blockHash w.overlap else .ok w.overlap).map fun overlap =>
  { hashes := w.hashes.insert block.number blockHash
    previousHash := blockHash
    expectedNumber := block.number + 1
    regular := w.regular + block.transactions.length
    staking := w.staking + block.stakingTransactions.length
    imported, overlap }

/-- The blocks of one response. -/
def addResponse (range : BlockRange) (w : Walk) (response : ℕ × Option (List Block)) : Except ImportError Walk :=
  (ofOption response.2 (.notSuccessful response.1)).bind fun blocks => blocks.foldlM (addBlock u s range) w

/-- The files in the order of their numbers. -/
def sortedResponses (e : Export) : List (ℕ × Option (List Block)) := e.responses.insertionSort fun r t => r.1 ≤ t.1

def addExport (w : Walk) (e : Export) : Except ImportError Walk :=
  let range := e.manifest.blockRange
  let counts := e.manifest.counts
  ((sortedResponses e).foldlM (addResponse u s range) { w with regular := 0, staking := 0 }).bind fun w =>
  (require (w.expectedNumber - 1 = range.stop ∧ w.previousHash = u.lower range.lastHash ∧
    w.regular = counts.regularTransactions ∧ w.staking = counts.stakingTransactions ∧
    w.regular + w.staking = counts.receipts) .manifestDiffers).map fun _ => w

end Loop

/-- What the output stage starts from. -/
structure Imported where
  setup : Setup
  walk : Walk

def main (a : Args) (exports : List Export) : Except ImportError Imported :=
  (prepare u sha256 a exports).bind fun s =>
  (exports.foldlM (addExport u s) s.begin).bind fun w =>
  (require (s.receipts.keys.length = (exports.map fun e => e.manifest.counts.receipts).sum) .orphanReceipts).bind fun _ =>
  let unmatched := s.pins.keys.filter (· ∉ w.hashes.keys)
  (require (unmatched = []) (.unmatchedPins unmatched)).bind fun _ =>
  (a.compareRun.elim (.ok []) fun run => compare u run w.hashes a.compareBlockList w.overlap).bind fun mismatches =>
  (require (mismatches = []) (.disagrees mismatches)).map fun _ => ⟨s, w⟩

end Import

end HarmonyMigration.Archive.ImportExport
