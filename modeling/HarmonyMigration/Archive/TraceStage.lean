import HarmonyMigration.Lib.Decimal
import HarmonyMigration.Lib.Except
import HarmonyMigration.Lib.KeepFirst
import HarmonyMigration.Lib.Resumable
import HarmonyMigration.Lib.Slices
import HarmonyMigration.Lib.SortedBy
import Mathlib.Data.Fintype.Defs

/-! `trace-internal.py`: the internal transfers of a scan's candidate blocks, in runs that may be killed
and resumed. A block whose trace fails has no row and is listed with the run's failures. -/

namespace HarmonyMigration.Archive.TraceInternal

open Decimal KeepFirst Lines Resumable

inductive Csv where
  | internal | blockStats
  deriving DecidableEq

instance : Fintype Csv := ⟨{.internal, .blockStats}, fun f => by cases f <;> decide⟩

structure Stats where
  frames : ℕ
  internalValueGt0 : ℕ
  internalGeMin : ℕ
  internalGeMinEffective : ℕ
  deriving DecidableEq

/-- What `trace` finds in a block. -/
structure Traced where
  rows : List Text
  stats : Stats
  rows_line : ∀ r ∈ rows, '\n' ∉ r ∧ r ≠ []

structure Trace where
  /-- The blocks of `trace-blocks.csv`, each once and in order. -/
  candidates : List ℕ
  sorted : candidates.Pairwise (· < ·)
  interleave : ℕ
  trace : ℕ → Option Traced

/-- What a run is given beside the scan. -/
structure Args where
  group : ℕ
  allowUntraceable : Bool

def fields : Csv → List String
  | .internal => ["block_number", "block_hash", "timestamp", "tx_index", "tx_hash", "eth_hash", "trace_address", "type",
      "from", "to", "value_atto", "effective"]
  | .blockStats => ["block_number", "frames", "internal_value_gt0", "internal_ge_min", "internal_ge_min_effective"]

def header (f : Csv) : Text := [','].intercalate ((fields f).map String.toList)

def statsRow (number : ℕ) (s : Stats) : Text :=
  render number ++ ',' :: (render s.frames ++ ',' :: (render s.internalValueGt0 ++ ',' ::
    (render s.internalGeMin ++ ',' :: render s.internalGeMinEffective)))

/-- The rows of a group of blocks. -/
def rows (t : Trace) (group : List ℕ) : Csv → List Text
  | .internal => group.flatMap fun n => ((t.trace n).map Traced.rows).getD []
  | .blockStats => group.filterMap fun n => (t.trace n).map fun x => statsRow n x.stats

/-- `blocks[k::interleave]` for every `k`, one after another. -/
def ordered (blocks : List ℕ) (interleave : ℕ) : List ℕ :=
  (List.range interleave).flatMap fun k =>
    (blocks.zipIdx.filter fun p => k ≤ p.2 ∧ (p.2 - k) % interleave = 0).map Prod.fst

/-- The lines that are not blank, as numbers. -/
def readDone (done : Text) : Option (List ℕ) :=
  ((lines done).filter fun line => ¬line.all Char.isWhitespace).mapM parseNat

def resume (t : Trace) (args : Args) (done : Text) : Option (List (List ℕ) × List ℕ) :=
  (readDone done).bind fun done =>
    if 0 < args.group then
      some (Slices.chunks args.group ((ordered t.candidates t.interleave).filter (· ∉ done)), [])
    else none

def readNumber (row : Text) : Option ℕ := (row.splitOn ',').head?.bind parseNat

def readStats (row : Text) : Option Stats :=
  match row.splitOn ',' with
  | _ :: a :: b :: c :: d :: _ => do pure ⟨← parseNat a, ← parseNat b, ← parseNat c, ← parseNat d⟩
  | _ => none

/-- The first row of each block, with its number. -/
def firstRows (rows : List Text) : Option (List (ℕ × Stats)) :=
  (rows.mapM fun row => (readNumber row).map fun n => (n, row)).bind fun numbered =>
    (firstBy Prod.fst numbered).mapM fun p => (readStats p.2).map fun s => (p.1, s)

structure Counters where
  blocksTraced : ℕ
  frames : ℕ
  internalValueGt0 : ℕ
  internalGeMin : ℕ
  internalGeMinEffective : ℕ
  blocksUntraced : ℕ
  deriving DecidableEq

structure Summary where
  untracedBlocks : List ℕ
  counters : Counters
  deriving DecidableEq

def count (stats : List (ℕ × Stats)) (untraced : List ℕ) : Counters where
  blocksTraced := stats.length
  frames := (stats.map fun p => p.2.frames).sum
  internalValueGt0 := (stats.map fun p => p.2.internalValueGt0).sum
  internalGeMin := (stats.map fun p => p.2.internalGeMin).sum
  internalGeMinEffective := (stats.map fun p => p.2.internalGeMinEffective).sum
  blocksUntraced := untraced.length

/-- The end of a run: every candidate block has a row in `block-stats.csv` or failed in this run. -/
def finish (t : Trace) (args : Args) (failures : List ℕ) (csv : Csv → Text) : Option Summary :=
  if failures ≠ [] ∧ args.allowUntraceable = false then none
  else
    let untraced := failures.dedup.insertionSort (· ≤ ·)
    (rowsUnder (header .blockStats) (csv .blockStats)).bind fun rows =>
      (firstRows rows).bind fun stats =>
        if (stats.map Prod.fst).toFinset ∪ untraced.toFinset = t.candidates.toFinset then
          some ⟨untraced, count stats untraced⟩
        else none

theorem statsRow_line (n : ℕ) (s : Stats) : '\n' ∉ statsRow n s ∧ statsRow n s ≠ [] := by
  have hrender : ∀ m, '\n' ∉ render m := fun m h => absurd (isDigit_of_mem_render h) (by decide)
  constructor
  · simp [statsRow, hrender]
  · simp [statsRow]

theorem rows_line (t : Trace) (group : List ℕ) (f : Csv) : ∀ r ∈ rows t group f, '\n' ∉ r ∧ r ≠ [] := by
  intro r hr
  cases f with
  | internal =>
    obtain ⟨n, -, hn⟩ := List.mem_flatMap.mp hr
    cases ht : t.trace n with
    | none => simp [ht] at hn
    | some x => exact x.rows_line r (by simpa [ht] using hn)
  | blockStats =>
    obtain ⟨n, -, hn⟩ := List.mem_filterMap.mp hr
    obtain ⟨x, -, rfl⟩ := Option.map_eq_some_iff.mp hn
    exact statsRow_line n x.stats

theorem newline_notMem_header (f : Csv) : '\n' ∉ header f := by
  cases f <;> decide +kernel

def stage (t : Trace) : Stage Csv (List ℕ) Args (List ℕ) Summary where
  files := [.internal, .blockStats]
  header := header
  rows := rows t
  mark group := (group.filter fun n => (t.trace n).isSome).flatMap fun n => render n ++ ['\n']
  unordered := false
  resume := resume t
  count group failures := failures ++ group.filter fun n => (t.trace n).isNone
  finish := finish t
  mem_files f := by cases f <;> simp
  header_line := newline_notMem_header
  rows_line group f r hr := (rows_line t group f r hr).1

end HarmonyMigration.Archive.TraceInternal
