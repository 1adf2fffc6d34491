import HarmonyMigration.Airdrop.One1
import HarmonyMigration.Lib.Group
import Mathlib.Data.Char
import Mathlib.Data.List.Lex
import Mathlib.Data.Prod.Lex

/-! `receipt_provenance.py`: the checks of a report, as JSON gives it, and how `evaluate` combines them. -/

namespace HarmonyMigration.ReceiptProvenance

open Airdrop.One1 Decimal Except

/-! ### JSON -/

inductive ReadError
  | notANumber (text : Text)
  | missing
  deriving DecidableEq

/-- A number or a string. -/
inductive Scalar
  | number (z : ℤ)
  | text (t : Text)
  deriving DecidableEq

def Scalar.str : Scalar → Text
  | .number z => renderInt z
  | .text t => t

def Scalar.int : Scalar → Except ReadError ℤ
  | .number z => .ok z
  | .text t => ofOption (parseInt t) (.notANumber t)

/-- `str` of a value that may be absent. -/
def strOf (o : Option Scalar) : Text := o.elim "None".toList Scalar.str

/-- `int(mapping[key])`. -/
def intOf (o : Option Scalar) : Except ReadError ℤ := (ofOption o .missing).bind Scalar.int

/-- `int(value or 0)`. -/
def intOrZero (o : Option Scalar) : Except ReadError ℤ := if o = none ∨ o = some (.text []) then .ok 0 else intOf o

/-- `int(mapping.get(key, default))`. -/
def intOr (o : Option Scalar) (default : ℤ) : Except ReadError ℤ := o.elim (.ok default) Scalar.int

/-! ### Reports -/

/-- `AGREEMENT_FIELDS`. -/
inductive AgreementField
  | canonicalReceiptGroups | spentReceiptGroups | spentReceiptCount | spentAmountAtto
  | pendingReceiptGroups | pendingReceiptCount | pendingAmountAtto
  | unsupportedReceiptGroups | unsupportedReceiptCount | unsupportedAmountAtto
  deriving DecidableEq

def agreementFields : List AgreementField :=
  [.canonicalReceiptGroups, .spentReceiptGroups, .spentReceiptCount, .spentAmountAtto, .pendingReceiptGroups,
    .pendingReceiptCount, .pendingAmountAtto, .unsupportedReceiptGroups, .unsupportedReceiptCount, .unsupportedAmountAtto]

structure ReportedReceipt where
  transactionHash : Text
  recipient : Text
  amountAtto : Scalar

structure ReportedGroup where
  blockNumber : Scalar
  receipts : List ReportedReceipt

structure Coverage where
  complete : Bool
  fromBlock : Option Scalar
  toBlock : Option Scalar
  blocksMissing : Option Scalar
  blocksExpected : Option Scalar

def Coverage.none : Coverage := ⟨false, .none, .none, .none, .none⟩

inductive GroupKind
  | pending | unsupported
  deriving DecidableEq

structure Direction where
  sourceShard : ℤ
  fields : AgreementField → Option Scalar
  sourceCoverage : Option Coverage
  groups : GroupKind → List ReportedGroup

structure History where
  complete : Bool
  snapdbMarker : Option Scalar
  missingProbes : Option Scalar
  probes : Option Scalar

def History.none : History := ⟨false, .none, .none, .none⟩

structure Database where
  kind : Option Text
  history : Option History
  lookupSnapshotCutoff : Option Scalar

/-- A report. A key that it does not have is `none`. -/
structure Report where
  coverageComplete : Option Bool
  coverageProblems : List Text
  incompleteHistoryAllowed : Bool
  shard0Cutoff : Option Scalar
  shard1Cutoff : Option Scalar
  directions : Option (List Direction)
  shard0Database : Option Database
  shard1Database : Option Database

def activeShards : List ℤ := [0, 1]

def Report.cutoff (report : Report) (shard : ℤ) : Option Scalar :=
  if shard = 0 then report.shard0Cutoff else report.shard1Cutoff

def Report.database (report : Report) (shard : ℤ) : Option Database :=
  if shard = 0 then report.shard0Database else report.shard1Database

/-- `report.get("directions", [])`. -/
def Report.scans (report : Report) : List Direction := report.directions.getD []

structure Cutoffs where
  shard0 : ℤ
  shard1 : ℤ

def Cutoffs.of (cutoffs : Cutoffs) (shard : ℤ) : ℤ := if shard = 0 then cutoffs.shard0 else cutoffs.shard1

def Cutoffs.get? (cutoffs : Cutoffs) (shard : ℤ) : Option ℤ :=
  if shard ∈ activeShards then some (cutoffs.of shard) else none

/-- A row of `read_outgoing`. -/
structure Row where
  source : ℤ
  destination : ℤ
  block : ℤ
  tx : Text
  recipient : Text
  amount : ℤ
  deriving DecidableEq

def crossTxFirstBlock : ℤ := 786432

/-! ### Problems -/

inductive Figure
  | activeReceipts | activeAtto | retiredReceipts | retiredAtto
  deriving DecidableEq

/-- A difference from an independent report. -/
inductive Difference
  | cutoff (shard : ℤ) (recorded : Option Scalar)
  | noScan (shard : ℤ)
  | field (shard : ℤ) (field : AgreementField) (report independent : Text)
  | receipts (shard : ℤ) (kind : GroupKind)
  deriving DecidableEq

inductive Problem
  | legacyReport
  | coverageIncomplete
  | reported (problem : Text)
  | incompleteHistoryAllowed
  | cutoff (shard : ℤ) (recorded : Option Scalar) (expected : ℤ)
  | sources (shards : List ℤ)
  | lacksGroups (shard : ℤ) (missing expected : Option Scalar)
  | coverageStart (shard : ℤ) (recorded : Option Scalar)
  | coverageEnd (shard : ℤ) (recorded : Option Scalar) (cutoff : Option ℤ)
  | noDatabase (shard : ℤ)
  | lacksHistory (shard : ℤ) (kind : Option Text) (snapdbMarker missingProbes probes : Option Scalar)
  | snapshotEnds (shard : ℤ)
  | noScan (shard : ℤ)
  | figure (shard : ℤ) (figure : Figure) (independent report : ℤ)
  | notListed (shard : ℤ) (kind : GroupKind) (tx : Text) (block : Scalar)
  | independent (difference : Difference)
  | noEvidence (shard : ℤ)
  deriving DecidableEq

/-! ### The report by itself -/

section Provenance

variable (cutoffs : Cutoffs)

def cutoffProblems (report : Report) (shard : ℤ) : Except ReadError (List Problem) :=
  (intOrZero (report.cutoff shard)).map fun recorded =>
    if recorded ≠ cutoffs.of shard then [.cutoff shard (report.cutoff shard) (cutoffs.of shard)] else []

def coverageProblems (d : Direction) : Except ReadError (List Problem) :=
  let coverage := d.sourceCoverage.getD .none
  (intOr coverage.fromBlock (crossTxFirstBlock + 1)).bind fun start =>
  (intOr coverage.toBlock 0).map fun stop =>
    (if coverage.complete then [] else [.lacksGroups d.sourceShard coverage.blocksMissing coverage.blocksExpected]) ++
    (if crossTxFirstBlock < start then [.coverageStart d.sourceShard coverage.fromBlock] else []) ++
    (if some stop ≠ cutoffs.get? d.sourceShard then
      [.coverageEnd d.sourceShard coverage.toBlock (cutoffs.get? d.sourceShard)] else [])

def databaseProblems (report : Report) (shard : ℤ) : Except ReadError (List Problem) :=
  match report.database shard with
  | none => .ok [.noDatabase shard]
  | some database =>
    let history := database.history.getD .none
    let lacks := if history.complete then []
      else [.lacksHistory shard database.kind history.snapdbMarker history.missingProbes history.probes]
    if database.kind = some "cx-lookup-snapshot".toList then
      (intOrZero database.lookupSnapshotCutoff).map fun recorded =>
        lacks ++ if recorded < cutoffs.of shard then [.snapshotEnds shard] else []
    else .ok lacks

def provenanceProblems (report : Report) : Except ReadError (List Problem) :=
  match report.coverageComplete, report.directions with
  | some complete, some directions =>
    (activeShards.mapM (cutoffProblems cutoffs report)).bind fun atCutoffs =>
    (directions.mapM (coverageProblems cutoffs)).bind fun coverage =>
    (activeShards.mapM (databaseProblems cutoffs report)).map fun databases =>
      let sources := (directions.map Direction.sourceShard).insertionSort (· ≤ ·)
      (if complete then [] else .coverageIncomplete :: report.coverageProblems.map .reported) ++
      (if report.incompleteHistoryAllowed then [.incompleteHistoryAllowed] else []) ++ atCutoffs.flatten ++
      (if sources ≠ activeShards then [.sources sources] else []) ++ coverage.flatten ++ databases.flatten
  | _, _ => .ok [.legacyReport]

end Provenance

/-! ### An outgoing list -/

structure Figures where
  activeReceipts : ℤ
  activeAtto : ℤ
  retiredReceipts : ℤ
  retiredAtto : ℤ
  deriving DecidableEq

def expectedFigures (rows : List Row) : Figures :=
  let active := rows.filter fun row => row.destination ∈ activeShards
  let retired := rows.filter fun row => row.destination ∉ activeShards
  ⟨active.length, (active.map Row.amount).sum, retired.length, (retired.map Row.amount).sum⟩

def Direction.int (d : Direction) (field : AgreementField) : Except ReadError ℤ := intOf (d.fields field)

def accountedFigures (d : Direction) : Except ReadError Figures :=
  (d.int .spentReceiptCount).bind fun spentCount => (d.int .pendingReceiptCount).bind fun pendingCount =>
  (d.int .spentAmountAtto).bind fun spentAmount => (d.int .pendingAmountAtto).bind fun pendingAmount =>
  (d.int .unsupportedReceiptCount).bind fun unsupportedCount => (d.int .unsupportedAmountAtto).map fun unsupportedAmount =>
  ⟨spentCount + pendingCount, spentAmount + pendingAmount, unsupportedCount, unsupportedAmount⟩

def figureProblem (shard : ℤ) (figure : Figure) (expected accounted : ℤ) : List Problem :=
  if expected ≠ accounted then [.figure shard figure expected accounted] else []

def figureProblems (shard : ℤ) (expected accounted : Figures) : List Problem :=
  figureProblem shard .activeReceipts expected.activeReceipts accounted.activeReceipts ++
  figureProblem shard .activeAtto expected.activeAtto accounted.activeAtto ++
  figureProblem shard .retiredReceipts expected.retiredReceipts accounted.retiredReceipts ++
  figureProblem shard .retiredAtto expected.retiredAtto accounted.retiredAtto

/-- Of the rows of a transaction in a block, the last. -/
def rowIndex (rows : List Row) : Dict (ℤ × Text) Row := .ofList (rows.map fun row => ((row.block, row.tx), row))

/-- The receipts that a direction lists, each with the block of its group. -/
def Direction.listings (d : Direction) (kind : GroupKind) : List (Scalar × ReportedReceipt) :=
  (d.groups kind).flatMap fun group => group.receipts.map fun receipt => (group.blockNumber, receipt)

section Comparison

variable (u : Lower)

def listedProblem (shard : ℤ) (kind : GroupKind) (index : Dict (ℤ × Text) Row) (listing : Scalar × ReportedReceipt) :
    Except ReadError (List Problem) :=
  let problem := .notListed shard kind listing.2.transactionHash listing.1
  listing.1.int.bind fun block =>
  match index.get? (block, u.lower listing.2.transactionHash) with
  | none => .ok [problem]
  | some row =>
    if row.recipient ≠ u.lower listing.2.recipient then .ok [problem]
    else listing.2.amountAtto.int.map fun amount => if row.amount ≠ amount then [problem] else []

def compareDirection (source : ℤ) (rows : List Row) (d : Direction) (accounted : Figures) :
    Except ReadError (List Problem) :=
  ((d.listings .pending).mapM (listedProblem u source .pending (rowIndex rows))).bind fun pending =>
  ((d.listings .unsupported).mapM (listedProblem u source .unsupported (rowIndex rows))).map fun unsupported =>
    figureProblems source (expectedFigures rows) accounted ++ pending.flatten ++ unsupported.flatten

structure Stats where
  independent : Figures
  report : Figures
  deriving DecidableEq

def compareSource (directions : Dict ℤ Direction) (source : ℤ) (rows : List Row) :
    Except ReadError (List Problem × Option Stats) :=
  match directions.get? source with
  | none => .ok ([.noScan source], none)
  | some d =>
    (accountedFigures d).bind fun accounted =>
    (compareDirection u source rows d accounted).map fun problems => (problems, some ⟨expectedFigures rows, accounted⟩)

/-- The rows up to the cutoffs of their sources. -/
def bySource (outgoing : List Row) (cutoffs : Cutoffs) : Dict ℤ (List Row) :=
  Dict.groupBy Row.source (outgoing.filter fun row => (cutoffs.get? row.source).any fun cutoff => row.block ≤ cutoff)

/-- `{direction["source_shard"]: direction}`. -/
def byShard (directions : List Direction) : Dict ℤ Direction := .ofList (directions.map fun d => (d.sourceShard, d))

structure Comparison where
  problems : List Problem
  stats : List (ℤ × Stats)
  unchecked : List ℤ

def comparison (report : Report) (outgoing : List Row) (cutoffs : Cutoffs) : Except ReadError Comparison :=
  let rows := bySource outgoing cutoffs
  let directions := byShard report.scans
  let sources := rows.entries.insertionSort fun a b => a.1 ≤ b.1
  (sources.mapM fun e => (compareSource u directions e.1 e.2).map fun r => (r.1, r.2.map fun s => (e.1, s))).map
    fun compared =>
      { problems := (compared.map Prod.fst).flatten
        stats := (compared.map Prod.snd).reduceOption
        unchecked := (directions.keys.filter fun source => source ∉ rows.keys).insertionSort (· ≤ ·) }

/-! ### An independent report -/

/-- Block, hash, recipient and amount of a listed receipt. -/
abbrev Listed := ℤ × Text × Text × ℤ

def listed (listing : Scalar × ReportedReceipt) : Except ReadError Listed :=
  listing.1.int.bind fun block => listing.2.amountAtto.int.map fun amount =>
    (block, u.lower listing.2.transactionHash, u.lower listing.2.recipient, amount)

/-- The order of tuples. -/
def Listed.key (l : Listed) : ℤ ×ₗ Text ×ₗ Text ×ₗ ℤ := toLex (l.1, toLex (l.2.1, toLex (l.2.2.1, l.2.2.2)))

/-- `_receipts`. -/
def receipts (d : Direction) (kind : GroupKind) : Except ReadError (List Listed) :=
  ((d.listings kind).mapM (listed u)).map fun l => l.insertionSort fun a b => a.key ≤ b.key

def fieldDifference (d other : Direction) (field : AgreementField) : List Difference :=
  if strOf (d.fields field) ≠ strOf (other.fields field) then
    [.field d.sourceShard field (strOf (d.fields field)) (strOf (other.fields field))] else []

def receiptsDifference (d other : Direction) (kind : GroupKind) : Except ReadError (List Difference) :=
  (receipts u d kind).bind fun ours => (receipts u other kind).map fun theirs =>
    if ours ≠ theirs then [.receipts d.sourceShard kind] else []

def directionDifferences (theirs : Dict ℤ Direction) (d : Direction) : Except ReadError (List Difference) :=
  match theirs.get? d.sourceShard with
  | none => .ok [.noScan d.sourceShard]
  | some other =>
    (receiptsDifference u d other .pending).bind fun pending =>
    (receiptsDifference u d other .unsupported).map fun unsupported =>
      agreementFields.flatMap (fieldDifference d other) ++ pending ++ unsupported

def cutoffDifference (independent : Report) (cutoffs : Cutoffs) (shard : ℤ) : Except ReadError (List Difference) :=
  (intOrZero (independent.cutoff shard)).map fun recorded =>
    if recorded ≠ cutoffs.of shard then [.cutoff shard (independent.cutoff shard)] else []

def independentReportProblems (report independent : Report) (cutoffs : Cutoffs) : Except ReadError (List Difference) :=
  (activeShards.mapM (cutoffDifference independent cutoffs)).bind fun atCutoffs =>
  (report.scans.mapM (directionDifferences u (byShard independent.scans))).map fun directions =>
    atCutoffs.flatten ++ directions.flatten

/-! ### All checks -/

structure Evaluation where
  problems : List Problem
  stats : List (ℤ × Stats)
  agreements : List (List Difference)

def evaluate (report : Report) (outgoing : List Row) (independents : List Report) (cutoffs : Cutoffs) :
    Except ReadError Evaluation :=
  (independents.mapM fun other => independentReportProblems u report other cutoffs).bind fun agreements =>
  let agreed := [] ∈ agreements
  (provenanceProblems cutoffs report).bind fun provenance =>
  (comparison u report outgoing cutoffs).map fun compared =>
    { problems :=
        (if agreed ∧ provenance = [.legacyReport] then [] else provenance) ++
        (if independents ≠ [] ∧ ¬agreed then (agreements.headD []).map .independent else []) ++ compared.problems ++
        (if agreed then [] else compared.unchecked.map .noEvidence)
      stats := compared.stats
      agreements }

end Comparison

end HarmonyMigration.ReceiptProvenance
