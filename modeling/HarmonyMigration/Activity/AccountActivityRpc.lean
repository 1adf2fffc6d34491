import HarmonyMigration.Airdrop.One1
import HarmonyMigration.Lib.Dict
import HarmonyMigration.Lib.ExceptRun
import HarmonyMigration.Lib.FirstPage
import Mathlib.Data.Char
import Mathlib.Data.List.Lex
import Mathlib.Data.Prod.Lex

/-! `fetch-account-activity-rpc.py`: the last activity of each candidate at the cutoff, from the transaction histories of
an archival node, with a checkpoint after every chunk of candidates. -/

namespace HarmonyMigration.AccountActivity

open Airdrop.One1 Decimal Except Slices

/-- `activity_type`. -/
inductive Kind
  | regular
  | staking
  deriving DecidableEq

def Kind.text : Kind → Text
  | .regular => "regular".toList
  | .staking => "staking".toList

/-! ### The node -/

structure Transaction where
  blockNumber : ℕ
  timestamp : ℕ
  hash : Text
  ethHash : Text
  blockHash : Text
  transactionIndex : ℕ
  deriving DecidableEq

structure Block where
  number : ℕ
  hash : Text
  deriving DecidableEq

/-- What the node answers: the whole history of an address, newest first, and a transaction or block if it has one. -/
structure Node where
  history : Kind → Text → List Text
  transaction : Kind → Text → Option Transaction
  block : ℕ → Option Block

/-- One page of a history. -/
def Node.listing (node : Node) (kind : Kind) (address : Text) (page pageSize : ℕ) : List Text :=
  slice (node.history kind address) (page * pageSize) (page * pageSize + pageSize)

/-! ### Activities -/

/-- The cutoff of the shard in the snapshot manifest. -/
structure Snapshot where
  requestedTimestamp : ℕ
  block : ℕ
  hash : Text
  deriving DecidableEq

/-- A record of the activity; both time columns are the timestamp. -/
structure Activity where
  timestamp : ℕ
  block : ℕ
  shard : ℕ
  kind : Kind
  txHash : Text
  index : ℕ
  deriving DecidableEq

def Activity.detail (a : Activity) : Text := a.kind.text ++ "_history".toList

def activitySortKey (a : Activity) : ℕ ×ₗ ℕ ×ₗ ℕ ×ₗ Text ×ₗ Text :=
  toLex (a.timestamp, toLex (a.block, toLex (a.index, toLex (a.kind.text, a.txHash))))

inductive Error
  | invalidHash
  | transactionFailed
  | hashMismatch
  | missingHash
  | blockFailed
  | wrongBlock
  | missingBlockHash
  | tooManyPages
  | missingResult
  | cutoffMismatch
  | otherConfiguration
  | unknownAddresses
  | incomplete
  | killed
  | outOfFuel
  deriving DecidableEq

def hexPrefix : Text := ['0', 'x']

/-- What a run is about, whatever its page and chunk sizes. Candidates are distinct. -/
structure Job where
  node : Node
  rpc : Text
  inputSha256 : Text
  manifestSha256 : Text
  shard : ℕ
  snapshot : Snapshot
  candidates : List Text
  nodup : candidates.Nodup

/-- `source_specs`. -/
def Job.kinds (job : Job) : List Kind := if job.shard = 0 then [.regular, .staking] else [.regular]

structure Args where
  pageSize : ℕ
  chunkSize : ℕ
  maxPages : ℕ
  pageSize_pos : 0 < pageSize
  chunkSize_pos : 0 < chunkSize
  maxPages_pos : 0 < maxPages

/-- An activity with its address and the block hash that its transaction names. -/
structure Candidate where
  address : Text
  activity : Activity
  blockHash : Text
  deriving DecidableEq

/-- What a run remembers across chunks: `canonical_hashes` and the count of stale entries. -/
structure Memory where
  canonical : Dict ℕ Text
  stale : ℕ

section Collect
variable (u : Lower) (job : Job) (args : Args) (kind : Kind)

/-- The activity and block hash of a transaction that is not after the cutoff. -/
def transactionActivity (tx : Transaction) : Except Error (Option (Activity × Text)) :=
  (require (hexPrefix <+: tx.hash ∧ hexPrefix <+: tx.blockHash) .missingHash).map fun _ =>
    if job.snapshot.block < tx.blockNumber ∨ job.snapshot.requestedTimestamp < tx.timestamp then none
    else some (⟨tx.timestamp, tx.blockNumber, job.shard, kind, u.lower tx.hash, tx.transactionIndex⟩, u.lower tx.blockHash)

/-- A page of an address. -/
structure Page where
  address : Text
  page : ℕ
  hashes : List Text

def listPage (item : Text × ℕ) : Except Error Page :=
  let hashes := job.node.listing kind item.1 item.2 args.pageSize
  (require (∀ h ∈ hashes, hexPrefix <+: h) .invalidHash).map fun _ => ⟨item.1, item.2, hashes⟩

def resolve (owner : Text × Text) : Except Error (Option Candidate) :=
  (ofOption (job.node.transaction kind owner.2) .transactionFailed).bind fun tx =>
  (require (u.lower owner.2 ∈ [u.lower tx.hash, u.lower tx.ethHash]) .hashMismatch).bind fun _ =>
  (transactionActivity u job kind tx).map fun found => found.map fun (activity, blockHash) => ⟨owner.1, activity, blockHash⟩

def canonicalBlock (number : ℕ) : Except Error (ℕ × Text) :=
  (ofOption (job.node.block number) .blockFailed).bind fun block =>
  (require (block.number = number) .wrongBlock).bind fun _ =>
  (require (hexPrefix <+: u.lower block.hash) .missingBlockHash).map fun _ => (number, u.lower block.hash)

/-- Results, and what is still pending. -/
structure Progress where
  results : Dict Text (Option Activity)
  pending : List (Text × ℕ)

/-- The end of a round for one address: its entries on this page that are canonical. -/
def settle (kept : List Candidate) (p : Progress) (page : Page) : Except Error Progress :=
  let activities := (kept.filter fun c => c.address = page.address).map Candidate.activity
  match activities.argmax activitySortKey with
  | some activity => .ok { p with results := p.results.insert page.address (some activity) }
  | none =>
    if page.hashes.length < args.pageSize then .ok { p with results := p.results.insert page.address none }
    else if args.maxPages ≤ page.page + 1 then .error .tooManyPages
    else .ok { p with pending := p.pending ++ [(page.address, page.page + 1)] }

/-- One round over the pending addresses. -/
def roundStep (results : Dict Text (Option Activity)) (pending : List (Text × ℕ)) (m : Memory) :
    Except Error (Progress × Memory) :=
  (pending.mapM (listPage job args kind)).bind fun pages =>
  let owners := pages.flatMap fun page => page.hashes.map fun h => (page.address, h)
  (owners.mapM (resolve u job kind)).bind fun resolved =>
  let candidates := resolved.filterMap id
  let blocks := candidates.map fun c => c.activity.block
  let missingBlocks := (blocks.filter (· ∉ m.canonical.keys)).dedup.insertionSort (· ≤ ·)
  (missingBlocks.mapM (canonicalBlock u job)).bind fun found =>
  let canonical := found.foldl (fun d b => d.insert b.1 b.2) m.canonical
  let isCanonical : Candidate → Bool := fun c => canonical.get? c.activity.block = some c.blockHash
  (pages.foldlM (settle args (candidates.filter isCanonical)) ⟨results, []⟩).map fun progress =>
    (progress, ⟨canonical, m.stale + (candidates.filter fun c => !isCanonical c).length⟩)

def collectLoop : ℕ → Dict Text (Option Activity) → List (Text × ℕ) → Memory →
    Except Error (Dict Text (Option Activity) × Memory)
  | _, results, [], m => .ok (results, m)
  | 0, _, _ :: _, _ => .error .outOfFuel
  | fuel + 1, results, pending@(_ :: _), m =>
    (roundStep u job args kind results pending m).bind fun (progress, m) =>
    collectLoop fuel progress.results progress.pending m

/-- No address is pending for more than `max_pages` rounds. -/
def collectSource (addresses : List Text) (m : Memory) : Except Error (Dict Text (Option Activity) × Memory) :=
  collectLoop u job args kind args.maxPages .empty (addresses.map fun a => (a, 0)) m

end Collect

section Main
variable (u : Lower) (job : Job) (args : Args)

/-- The sources of a chunk one after another. -/
def collectSources (addresses : List Text) : List Kind → Memory →
    Except Error (List (Dict Text (Option Activity)) × Memory)
  | [], m => .ok ([], m)
  | kind :: kinds, m =>
    (collectSource u job args kind addresses m).bind fun (results, m) =>
    (collectSources addresses kinds m).map fun (rest, m) => (results :: rest, m)

/-- The latest of the records that are present. -/
def combine (records : List (Option Activity)) : Option Activity := (records.filterMap id).argmax activitySortKey

abbrev Records := Dict Text (Option Activity)

def recordOne (sources : List (Dict Text (Option Activity))) (records : Records) (address : Text) : Except Error Records :=
  (sources.mapM fun source => ofOption (source.get? address) .missingResult).map fun found =>
    records.insert address (combine found)

structure Session where
  records : Records
  memory : Memory

def collectChunk (s : Session) (chunk : List Text) : Except Error Session :=
  (collectSources u job args chunk job.kinds s.memory).bind fun (sources, m) =>
  (chunk.foldlM (recordOne sources) s.records).map fun records => ⟨records, m⟩

/-! ### Checkpoints -/

structure Config where
  inputSha256 : Text
  manifestSha256 : Text
  rpc : Text
  shard : ℕ
  cutoff : Snapshot
  pageSize : ℕ
  deriving DecidableEq

structure Checkpoint where
  config : Config
  records : Records

def checkpointConfig : Config where
  inputSha256 := job.inputSha256
  manifestSha256 := job.manifestSha256
  rpc := job.rpc
  shard := job.shard
  cutoff := job.snapshot
  pageSize := args.pageSize

def loadCheckpoint (disk : Option Checkpoint) (config : Config) : Except Error Records :=
  match disk with
  | none => .ok .empty
  | some c => (require (c.config = config) .otherConfiguration).map fun _ => c.records

/-- Chunk after chunk; the checkpoint is replaced in one step after each. -/
def runChunks : List (List Text) → Session → Option Checkpoint → Option Checkpoint × Except Error Session
  | [], s, disk => (disk, .ok s)
  | chunk :: rest, s, disk =>
    match collectChunk u job args s chunk with
    | .error e => (disk, .error e)
    | .ok s => runChunks rest s (some ⟨checkpointConfig job args, s.records⟩)

/-- What comes before the chunks. -/
def prepare (disk : Option Checkpoint) : Except Error (Session × List (List Text)) :=
  (ofOption (job.node.block job.snapshot.block) .blockFailed).bind fun cutoffBlock =>
  (require (u.lower cutoffBlock.hash = job.snapshot.hash) .cutoffMismatch).bind fun _ =>
  (loadCheckpoint disk (checkpointConfig job args)).bind fun records =>
  (require (∀ a ∈ records.keys, a ∈ job.candidates) .unknownAddresses).map fun _ =>
    let remaining := job.candidates.filter (· ∉ records.keys)
    (⟨records, ⟨Dict.ofList [(job.snapshot.block, job.snapshot.hash)], 0⟩⟩, chunks args.chunkSize remaining)

/-- A run that is killed after it has written at most `n` checkpoints: what it leaves on disk. -/
def killedRun (n : ℕ) (disk : Option Checkpoint) : Option Checkpoint :=
  match prepare u job args disk with
  | .error _ => disk
  | .ok (s, chunks) => (runChunks u job args (chunks.take n) s disk).1

/-- A run to the end: the records of all candidates. -/
def main (disk : Option Checkpoint) : Except Error Records :=
  (prepare u job args disk).bind fun (s, chunks) =>
  (runChunks u job args chunks s disk).2.bind fun s =>
  (require ((∀ a ∈ s.records.keys, a ∈ job.candidates) ∧ ∀ a ∈ job.candidates, a ∈ s.records.keys) .incomplete).map fun _ =>
    s.records

end Main

end HarmonyMigration.AccountActivity
