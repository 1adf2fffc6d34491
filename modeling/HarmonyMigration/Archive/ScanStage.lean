import HarmonyMigration.Lib.Dict
import HarmonyMigration.Lib.Except
import HarmonyMigration.Lib.Json
import HarmonyMigration.Lib.KeepFirst
import HarmonyMigration.Lib.Resumable
import HarmonyMigration.Lib.Slices
import HarmonyMigration.Lib.SortedBy
import Mathlib.Data.Fintype.Defs

/-! `scan-blocks.py`: a scan of a block range that may be killed and resumed. -/

namespace HarmonyMigration.Archive.ScanBlocks

open Decimal Json Lines Resumable

/-! ### What a task returns -/

inductive Csv where
  | transactions | staking | traceBlocks | xshardBlocks
  deriving DecidableEq

instance : Fintype Csv := ⟨{.transactions, .staking, .traceBlocks, .xshardBlocks}, fun f => by cases f <;> decide⟩

structure Segment where
  start : ℕ
  stop : ℕ
  firstParentHash : Text
  firstHash : Text
  lastHash : Text
  deriving DecidableEq

/-- What `done.jsonl` keeps of a task. -/
structure Record where
  start : ℕ
  counters : List (Text × ℕ)
  months : List (Text × ℕ)
  segment : Segment
  deriving DecidableEq

/-- A task with what `scan` returns for it. Its first block names it, in the record and in the segment. -/
structure Task extends Record where
  rows : Csv → List Text
  segment_start : segment.start = start
  rows_line : ∀ f, ∀ r ∈ rows f, '\n' ∉ r ∧ r ≠ []

def fields : Csv → List String
  | .transactions => ["kind", "block_number", "block_hash", "timestamp", "tx_index", "tx_hash", "eth_hash", "from", "to",
      "value_atto", "shard_id", "to_shard_id", "status", "gas_used", "gas_price", "input_selector", "input_bytes"]
  | .staking => ["type", "block_number", "block_hash", "timestamp", "tx_index", "tx_hash", "from", "validator",
      "amount_atto", "status", "gas_used", "gas_price"]
  | .traceBlocks => ["block_number", "tx_count", "call_tx_count", "reason", "block_hash"]
  | .xshardBlocks => ["block_number", "block_hash", "timestamp", "epoch", "incoming", "outgoing"]

def header (f : Csv) : Text := [','].intercalate ((fields f).map String.toList)

/-! ### done.jsonl -/

def numbers (l : List (Text × ℕ)) : Value := object (l.map fun p => (p.1, .num p.2))

def Segment.value (s : Segment) : Value :=
  object [("start".toList, .num s.start), ("end".toList, .num s.stop),
    ("first_parent_hash".toList, .str s.firstParentHash), ("first_hash".toList, .str s.firstHash),
    ("last_hash".toList, .str s.lastHash)]

def Record.value (r : Record) : Value :=
  object [("start".toList, .num r.start), ("counters".toList, numbers r.counters),
    ("months".toList, numbers r.months), ("segment".toList, r.segment.value)]

def Record.dumps (r : Record) : Text := r.value.dumps

def readNumbers (v : Value) : Option (List (Text × ℕ)) :=
  v.fields?.bind fun l => l.mapM fun p => p.2.num?.map fun n => (p.1, n)

def readSegment (v : Value) : Option Segment := do
  let l ← v.fields?
  let start ← (← l.lookup "start".toList).num?
  let stop ← (← l.lookup "end".toList).num?
  let firstParentHash ← (← l.lookup "first_parent_hash".toList).str?
  let firstHash ← (← l.lookup "first_hash".toList).str?
  let lastHash ← (← l.lookup "last_hash".toList).str?
  pure { start, stop, firstParentHash, firstHash, lastHash }

/-- A line of `done.jsonl`. -/
def readRecord (line : Text) : Option Record := do
  let item ← (← loads line).fields?
  let start ← (← item.lookup "start".toList).num?
  let counters ← readNumbers (← item.lookup "counters".toList)
  let months ← readNumbers (← item.lookup "months".toList)
  let segment ← readSegment (← item.lookup "segment".toList)
  pure { start, counters, months, segment }

/-! ### What a run counts -/

abbrev Counter := Text → Option ℕ

/-- `Counter.update`. -/
def Counter.update (c : Counter) (l : List (Text × ℕ)) : Counter :=
  l.foldl (fun c p => Function.update c p.1 (some ((c p.1).getD 0 + p.2))) c

structure Memory where
  totals : Counter
  months : Counter
  segments : List Segment

def Memory.empty : Memory := ⟨fun _ => none, fun _ => none, []⟩

def Memory.add (m : Memory) (r : Record) : Memory :=
  ⟨m.totals.update r.counters, m.months.update r.months, m.segments ++ [r.segment]⟩

def sortSegments (segments : List Segment) : List Segment :=
  segments.insertionSort fun a b => a.start ≤ b.start

def Links (previous current : Segment) : Prop :=
  current.start = previous.stop + 1 ∧ current.firstParentHash = previous.lastHash

instance : DecidableRel Links := fun _ _ => inferInstanceAs (Decidable (_ ∧ _))

def verifyContinuity (segments : List Segment) : Option (List Segment) :=
  if (sortSegments segments).IsChain Links then some (sortSegments segments) else none

/-- What `stage.json` and `segments.csv` say of a completed scan. -/
structure Summary where
  counters : Counter
  months : Counter
  segments : List Segment

/-! ### The stage -/

structure Scan where
  tasks : List Task
  starts_nodup : (tasks.map fun t => t.start).Nodup

/-- The tasks of a block range: its first blocks, `step` apart, each with the last block of the task. -/
def ranges (start stop step : ℕ) : List (ℕ × ℕ) :=
  (Slices.starts (stop + 1 - start) step).map fun i => (start + i, min (start + i + step - 1) stop)

theorem ranges_nodup {start stop step : ℕ} (h : 0 < step) : ((ranges start stop step).map Prod.fst).Nodup := by
  rw [ranges, Slices.starts, List.map_map, List.map_map]
  refine List.nodup_range.map ?_
  intro i j hij
  exact Nat.eq_of_mul_eq_mul_right h (Nat.add_left_cancel hij)

def rangeScan (scan : ℕ × ℕ → Task) (hscan : ∀ p, (scan p).start = p.1) (start stop : ℕ) {step : ℕ} (h : 0 < step) :
    Scan where
  tasks := (ranges start stop step).map scan
  starts_nodup := by
    have hfst : (fun t : Task => t.start) ∘ scan = Prod.fst := funext hscan
    rw [List.map_map, hfst]
    exact ranges_nodup h

/-- The tasks left, and what the done ones count, each once. A line that is not a record ends the run. -/
def resume (scan : Scan) (done : Text) : Option (List Task × Memory) :=
  ((lines done).mapM readRecord).map fun records =>
    let kept := KeepFirst.firstBy Record.start records
    (scan.tasks.filter fun t => t.start ∉ kept.map Record.start, kept.foldl Memory.add .empty)

theorem newline_notMem_header (f : Csv) : '\n' ∉ header f := by
  cases f <;> decide +kernel

def stage (scan : Scan) : Stage Csv Task Unit Memory Summary where
  files := [.transactions, .staking, .traceBlocks, .xshardBlocks]
  header := header
  rows := Task.rows
  mark t := t.dumps ++ ['\n']
  unordered := true
  resume _ done := resume scan done
  count t m := m.add t.toRecord
  finish _ m _ := (verifyContinuity m.segments).map fun segments => ⟨m.totals, m.months, segments⟩
  mem_files f := by cases f <;> simp
  header_line := newline_notMem_header
  rows_line t f r hr := (t.rows_line f r hr).1

end HarmonyMigration.Archive.ScanBlocks
