import HarmonyMigration.Receipts.CountedOnce

/-! `cross-shard-supply`: both directions between the shards, and why a run may not have seen all receipts. -/

namespace HarmonyMigration.Receipts

open Except Claims

/-! ### The directions -/

/-- The databases of shards 0 and 1, and the flags of a run. -/
structure Supply where
  databases : ℕ → Database
  cutoffs : ℕ → ℕ
  cutoffs_lt : ∀ shard, cutoffs shard < 2 ^ 64
  coverageFrom : ℕ
  probes : ℤ

/-- The scan of a shard: only the other shard's database can be a destination. -/
def Supply.scan (s : Supply) (shard : ℕ) : Scan where
  sourceShard := shard
  source := s.databases shard
  destinations d := if d = partner shard then some (s.databases d) else none
  sourceCutoff := s.cutoffs shard
  sourceCutoff_lt := s.cutoffs_lt shard
  destinationCutoffs d := if d ≤ 1 then some (s.cutoffs d) else none
  coverageFrom := s.coverageFrom

def directions (K : Keys) (s : Supply) (sources : List ℕ) : Except Error (List DirectionTotals) :=
  sources.mapM fun shard => sumReceipts K (s.scan shard)

theorem partner_of_le {shard : ℕ} (h : shard ≤ 1) : partner shard = 1 - shard := by
  unfold partner
  omega

/-! ### Coverage -/

inductive DatabaseKind where
  | chain
  | cxLookupSnapshot
  deriving DecidableEq

/-- `databaseHistory`. -/
structure DatabaseHistory where
  kind : DatabaseKind
  report : Report
  lookupCutoff : ℕ

def inspectDatabase (db : Database) (cutoff : ℕ) (probes : ℤ) : DatabaseHistory :=
  match db.lookupSnapshot with
  | some info => ⟨.cxLookupSnapshot, info.sourceHistory, info.cutoff⟩
  | none => ⟨.chain, probe db 0 cutoff probes, 0⟩

/-- The texts of the problems, by what they tell. -/
inductive Problem where
  | coverageStart (coverageFrom : ℕ)
  | snapshotSource (shard : ℕ)
  | history (shard : ℕ) (kind : DatabaseKind) (report : Report)
  | snapshotCutoff (shard lookupCutoff cutoff : ℕ)
  | missingGroups (sourceShard : ℕ) (coverage : Coverage)
  deriving DecidableEq

def coverageProblems (databases : ℕ → DatabaseHistory) (cutoffs : ℕ → ℕ) (sources : List ℕ)
    (directions : List DirectionTotals) (coverageFrom : ℕ) : List Problem :=
  (if mainnetCrossTxFirstBlock < coverageFrom then [.coverageStart coverageFrom] else []) ++
  ([0, 1].flatMap fun shard =>
    let db := databases shard
    (if shard ∈ sources ∧ db.kind ≠ .chain then [.snapshotSource shard] else []) ++
    (if db.report.complete then [] else [.history shard db.kind db.report]) ++
    if db.kind = .cxLookupSnapshot ∧ db.lookupCutoff < cutoffs shard then
      [.snapshotCutoff shard db.lookupCutoff (cutoffs shard)]
    else []) ++
  directions.flatMap fun d =>
    if d.sourceCoverage.complete then [] else [.missingGroups d.sourceShard d.sourceCoverage]

/-- The problems that `main` reports. -/
def Supply.problems (s : Supply) (sources : List ℕ) (directions : List DirectionTotals) : List Problem :=
  coverageProblems (fun shard => inspectDatabase (s.databases shard) (s.cutoffs shard) s.probes) s.cutoffs sources
    directions s.coverageFrom

end HarmonyMigration.Receipts
