import HarmonyMigration.Lib.Decimal
import HarmonyMigration.Lib.Except
import HarmonyMigration.Lib.KeepFirst
import Mathlib.Data.Char
import Mathlib.Data.List.Lex
import Mathlib.Data.Prod.Lex

/-! `build-archive.py`: the runs of the archive merged into its four tables. -/

namespace HarmonyMigration.Archive

open Except Decimal KeepFirst

inductive Error where
  | notCompleted
  | differentScan
  | missingInternal
  | missingReceipts
  | receiptsDiffer
  | lacksExpect
  | calldataDiffers
  | differentMinimums
  | overlappingRuns
  | runsDoNotLink
  | noCalldata (txHash : Text)
  | notANumber (text : Text)
  deriving DecidableEq

/-- `int(text)`. -/
def int (text : Text) : Except Error ℤ := (parseInt text).elim (.error (.notANumber text)) .ok

/-- `int(text or 0)`. -/
def intOrZero (text : Text) : Except Error ℤ := if text = [] then .ok 0 else int text

/-! ### The stage files of a run -/

inductive StageName where
  | scanBlocks | importRpcExport
  | other (name : Text)
  deriving DecidableEq

structure Identity where
  stage : StageName
  shard : ℕ
  branch : Text
  start : ℕ
  stop : ℕ
  minValueAtto : Text
  step : ℕ
  anchors : List (ℕ × Text)
  deriving DecidableEq

structure TransactionRow where
  kind : Text
  blockNumber : Text
  blockHash : Text
  timestamp : Text
  txIndex : Text
  txHash : Text
  ethHash : Text
  sender : Text
  recipient : Text
  valueAtto : Text
  toShardId : Text
  status : Text
  gasUsed : Text
  gasPrice : Text
  inputSelector : Text
  inputBytes : Text
  deriving DecidableEq

structure InternalRow where
  blockNumber : Text
  blockHash : Text
  timestamp : Text
  txIndex : Text
  txHash : Text
  ethHash : Text
  traceAddress : Text
  type : Text
  sender : Text
  recipient : Text
  valueAtto : Text
  effective : Text
  deriving DecidableEq

/-- A row of `outgoing-receipts.csv`. -/
structure ReceiptRow where
  fromShard : Text
  toShard : Text
  mechanism : Text
  blockNumber : Text
  blockHash : Text
  timestamp : Text
  txIndex : Text
  txHash : Text
  ancestorReverted : Text
  sender : Text
  recipient : Text
  valueAtto : Text
  ethHash : Text
  deriving DecidableEq

structure StakingRow where
  type : Text
  blockNumber : Text
  blockHash : Text
  timestamp : Text
  txIndex : Text
  txHash : Text
  sender : Text
  validator : Text
  amountAtto : Text
  status : Text
  deriving DecidableEq

/-- Where a receipt was credited. -/
structure Destination where
  status : Text
  blockNumber : Text
  blockHash : Text
  timestamp : Text
  deriving DecidableEq

def unmapped : Destination := ⟨"unmapped".toList, [], [], []⟩

/-- A row of a destinations file: the receipt it is for, and where that was credited. -/
structure DestinationRow where
  receipt : ReceiptRow
  destination : Destination
  deriving DecidableEq

/-- A run's directory. -/
structure RunFiles where
  identity : Identity
  complete : Bool
  internalUnavailable : Bool
  startParentHash : Text
  endHash : Text
  /-- `internal/`: its scan, whether it is complete, and its rows. -/
  internal : Option (Identity × Bool × List InternalRow)
  /-- `receipts/`: its scan, whether it has unexplained blocks, and its rows. -/
  receipts : Option (Identity × Bool × List ReceiptRow)
  /-- `calldata/`: its scan, whether it is for these transactions, and its rows. -/
  calldata : Option (Identity × Bool × List (Text × Text))
  transactions : List TransactionRow
  staking : List StakingRow

structure Args where
  allowMissingInternal : Bool
  allowMissingCalldata : Bool

/-- A run that `load_run` accepts. -/
structure Run where
  identity : Identity
  startParentHash : Text
  endHash : Text
  internal : Option (List InternalRow)
  receipts : List ReceiptRow
  calldata : Option (List (Text × Text))
  transactions : List TransactionRow
  staking : List StakingRow

def rolledBack : Text := "rolled_back".toList

def loadRun (args : Args) (r : RunFiles) : Except Error Run :=
  (require (r.complete = true ∧ (r.identity.stage = .scanBlocks ∨ r.identity.stage = .importRpcExport))
    .notCompleted).bind fun _ =>
  (require (∀ x ∈ r.internal, x.1 = r.identity) .differentScan).bind fun _ =>
  let internal := (r.internal.filter fun x => x.2.1).map fun x => x.2.2
  (require (internal.isSome = true ∨ args.allowMissingInternal = true ∨ r.internalUnavailable = true)
    .missingInternal).bind fun _ =>
  match r.receipts with
  | none => .error .missingReceipts
  | some (scan, unexplained, receipts) =>
    (require (scan = r.identity ∧ unexplained = false) .receiptsDiffer).bind fun _ =>
    (require (r.identity.branch = rolledBack → ∃ anchor ∈ r.identity.anchors, anchor.1 + 1 = r.identity.start)
      .lacksExpect).bind fun _ =>
    (require (∀ x ∈ r.calldata, x.1 = r.identity ∧ x.2.1 = true) .calldataDiffers).map fun _ =>
      { identity := r.identity, startParentHash := r.startParentHash, endHash := r.endHash, internal, receipts,
        calldata := r.calldata.map fun x => x.2.2, transactions := r.transactions, staking := r.staking }

def lower (t : Text) : Text := t.map Char.toLower

/-- Two runs that follow each other. -/
def checkPair (previous current : Run) : Except Error Unit :=
  (require (previous.identity.stop < current.identity.start) .overlappingRuns).bind fun _ =>
  require (current.identity.start = previous.identity.stop + 1 → lower current.startParentHash = lower previous.endHash)
    .runsDoNotLink

def checkChain : List Run → Except Error Unit
  | previous :: current :: rest => (checkPair previous current).bind fun _ => checkChain (current :: rest)
  | _ => .ok ()

def checkOverlaps (runs : List Run) : Except Error Unit :=
  let keys := (runs.map fun run => (run.identity.shard, run.identity.branch)).dedup
  (keys.mapM fun key => checkChain ((runs.filter fun run => (run.identity.shard, run.identity.branch) = key).insertionSort
    fun a b => a.identity.start ≤ b.identity.start)).map fun _ => ()

/-! ### The tables -/

/-- A row of `transactions.csv`: the columns of the run's row, and what is added to them. -/
structure TransactionOut where
  shard : ℕ
  branch : Text
  row : TransactionRow
  feeAtto : ℤ
  input : Text

structure InternalOut where
  shard : ℕ
  branch : Text
  row : InternalRow

structure CrossShardOut where
  branch : Text
  receipt : ReceiptRow
  destination : Destination

structure StakingOut where
  shard : ℕ
  branch : Text
  row : StakingRow

/-- `f"shard{shard}/{branch}"`. -/
def shardGroup (shard : ℕ) (branch : Text) : Text := "shard".toList ++ render shard ++ '/' :: branch

/-- `f"{branch}/{from_shard}->{to_shard}"`. -/
def directionGroup (branch : Text) (r : ReceiptRow) : Text :=
  branch ++ '/' :: r.fromShard ++ "->".toList ++ r.toShard

namespace Run
variable (run : Run)

def inputs : Dict Text Text := .ofList (run.calldata.getD [])

def transactionEntry (args : Args) (row : TransactionRow) : Except Error (Entry (ℕ × Text × Text) TransactionOut Text) :=
  (intOrZero row.inputBytes).bind fun bytes =>
  (require (0 < bytes ∧ row.txHash ∉ run.inputs.keys → args.allowMissingCalldata = true) (.noCalldata row.txHash)).bind
    fun _ =>
  (intOrZero row.gasUsed).bind fun gasUsed =>
  (intOrZero row.gasPrice).map fun gasPrice =>
    { key := (run.identity.shard, run.identity.branch, row.txHash)
      row := ⟨run.identity.shard, run.identity.branch, row, gasUsed * gasPrice, run.inputs.getD row.txHash []⟩
      group := shardGroup run.identity.shard run.identity.branch }

def internalEntry (row : InternalRow) : Entry (ℕ × Text × Text × Text × Text) InternalOut Text where
  key := (run.identity.shard, run.identity.branch, row.blockNumber, row.txIndex, row.traceAddress)
  row := ⟨run.identity.shard, run.identity.branch, row⟩
  group := shardGroup run.identity.shard run.identity.branch

def crossShardEntry (destinations : Dict (Text × Text) Destination) (row : ReceiptRow) :
    Entry (Text × Text × Text) CrossShardOut Text where
  key := (run.identity.branch, row.fromShard, row.txHash)
  row := ⟨run.identity.branch, row, (destinations.get? (row.fromShard, row.txHash)).getD unmapped⟩
  group := directionGroup run.identity.branch row

def stakingEntry (row : StakingRow) : Entry (ℕ × Text × Text) StakingOut Text where
  key := (run.identity.shard, run.identity.branch, row.txHash)
  row := ⟨run.identity.shard, run.identity.branch, row⟩
  group := shardGroup run.identity.shard run.identity.branch

/-- The receipts of at least the minimum. -/
def large (minimum : ℤ) : Except Error (List ReceiptRow) :=
  (run.receipts.mapM fun row => (int row.valueAtto).map fun value => (row, value)).map fun rows =>
    (rows.filter fun x => minimum ≤ x.2).map Prod.fst

end Run

/-- The order of a table's rows. -/
abbrev SortKey := ℤ ×ₗ Text ×ₗ ℤ ×ₗ ℤ ×ₗ Text

def sortKey (shard branch blockNumber txIndex traceAddress : Text) : Except Error SortKey :=
  (int shard).bind fun shard => (int blockNumber).bind fun block => (int txIndex).map fun index =>
    toLex (shard, toLex (branch, toLex (block, toLex (index, traceAddress))))

def sortRows {ρ : Type} (key : ρ → Except Error SortKey) (rows : List ρ) : Except Error (List ρ) :=
  (rows.mapM fun row => (key row).map fun k => (k, row)).map fun keyed =>
    (keyed.insertionSort fun a b : SortKey × ρ => a.1 ≤ b.1).map Prod.snd

/-- A written table, and its counts in the manifest. -/
structure TableOut (ρ : Type) where
  rows : List ρ
  byGroup : List (Text × ℕ)

def writeTable {κ ρ : Type} (key : ρ → Except Error SortKey) (t : Table κ ρ Text) : Except Error (TableOut ρ) :=
  (sortRows key t.rows).map fun rows => ⟨rows, t.counts.entries.insertionSort fun a b => a.1 ≤ b.1⟩

structure Tables where
  transactions : TableOut TransactionOut
  internalTransfers : TableOut InternalOut
  crossShard : TableOut CrossShardOut
  staking : TableOut StakingOut

structure Input where
  args : Args
  runs : List RunFiles
  /-- The rows of all destinations files, in order. -/
  destinations : List DestinationRow

/-- The one minimum of all runs. -/
def minimumOf (runs : List Run) : Except Error ℤ :=
  match (runs.map fun run => run.identity.minValueAtto).dedup with
  | [minimum] => int minimum
  | _ => .error .differentMinimums

/-- `destinations[(from_shard, tx_hash)] = row`. -/
def destinationsOf (rows : List DestinationRow) : Dict (Text × Text) Destination :=
  .ofList (rows.map fun row => ((row.receipt.fromShard, row.receipt.txHash), row.destination))

def build (i : Input) : Except Error Tables :=
  (i.runs.mapM (loadRun i.args)).bind fun runs =>
  (minimumOf runs).bind fun minimum =>
  (checkOverlaps runs).bind fun _ =>
  (runs.mapM fun run : Run => run.transactions.mapM (run.transactionEntry i.args)).bind fun transactions =>
  (runs.mapM fun run : Run => (run.large minimum).map fun rows => rows.map (run.crossShardEntry (destinationsOf i.destinations))).bind
    fun crossShard =>
  let internal := runs.map fun run => (run.internal.getD []).map run.internalEntry
  let staking := runs.map fun run => run.staking.map run.stakingEntry
  (writeTable (fun r => sortKey (render r.shard) r.branch r.row.blockNumber r.row.txIndex [])
    (Table.empty.fill transactions.flatten)).bind fun transactions =>
  (writeTable (fun r => sortKey (render r.shard) r.branch r.row.blockNumber r.row.txIndex r.row.traceAddress)
    (Table.empty.fill internal.flatten)).bind fun internalTransfers =>
  (writeTable (fun r => sortKey r.receipt.fromShard r.branch r.receipt.blockNumber r.receipt.txIndex [])
    (Table.empty.fill crossShard.flatten)).bind fun crossShard =>
  (writeTable (fun r => sortKey (render r.shard) r.branch r.row.blockNumber r.row.txIndex [])
    (Table.empty.fill staking.flatten)).map fun staking =>
    ⟨transactions, internalTransfers, crossShard, staking⟩

end HarmonyMigration.Archive
