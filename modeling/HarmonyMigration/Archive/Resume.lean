import HarmonyMigration.Archive.ScanResume
import HarmonyMigration.Archive.TraceResume

/-! Both resumable stages of the archive: whichever way a run was killed and resumed, what completes is what
one uninterrupted run completes with. A kill inside a row breaks this, since the next row is appended to it. -/

namespace HarmonyMigration.Archive

open Lines Resumable

/-- A run with kills ends like every run without one. -/
structure Lossless {File Item Args Memory Outcome : Type} [DecidableEq File]
    (S : Stage File Item Args Memory Outcome) (s : State File Item Args Memory Outcome) (o : Outcome) : Prop where
  rows : ∀ u o', Runs.Reach S.step Stage.NoKill init u → u.disk.marker = .complete o' →
    ∀ f, SameRows (S.header f) (s.disk.csv f) (u.disk.csv f)
  outcome : ∀ u o', Runs.Reach S.step Stage.NoKill init u → u.disk.marker = .complete o' → o = o'

theorem ScanBlocks.Exact.lossless {scan : ScanBlocks.Scan} {summary : ScanBlocks.Summary}
    {s : State ScanBlocks.Csv ScanBlocks.Task Unit ScanBlocks.Memory ScanBlocks.Summary}
    (h : ScanBlocks.Exact scan s.disk.csv summary) : Lossless (ScanBlocks.stage scan) s summary := by
  have hother : ∀ u summary', Runs.Reach (ScanBlocks.stage scan).step Stage.NoKill init u →
      u.disk.marker = .complete summary' → ScanBlocks.Exact scan u.disk.csv summary' := fun u summary' hu ho =>
    ScanBlocks.exact_of_reach (hu.mono fun _ _ => Stage.cleanKill_of_noKill) ho
  constructor
  · intro u summary' hu ho f
    obtain ⟨ls, hread, hls⟩ := h.rows f
    obtain ⟨ls', hread', hls'⟩ := (hother u summary' hu ho).rows f
    exact ⟨ls, ls', hread, hread', fun r => (hls r).trans (hls' r).symm⟩
  · intro u summary' hu ho
    have h' := hother u summary' hu ho
    obtain ⟨counters, months, segments⟩ := summary
    obtain ⟨counters', months', segments'⟩ := summary'
    rw [ScanBlocks.Summary.mk.injEq]
    exact ⟨h.counters.trans h'.counters.symm, h.months.trans h'.months.symm, h.segments.trans h'.segments.symm⟩

theorem TraceInternal.Exact.lossless {t : TraceInternal.Trace} {summary : TraceInternal.Summary}
    {s : State TraceInternal.Csv (List ℕ) TraceInternal.Args (List ℕ) TraceInternal.Summary}
    (h : TraceInternal.Exact t s.disk.csv summary) : Lossless (TraceInternal.stage t) s summary := by
  have hother : ∀ u summary', Runs.Reach (TraceInternal.stage t).step Stage.NoKill init u →
      u.disk.marker = .complete summary' → TraceInternal.Exact t u.disk.csv summary' := fun u summary' hu ho =>
    TraceInternal.exact_of_reach (hu.mono fun _ _ => Stage.cleanKill_of_noKill) ho
  constructor
  · intro u summary' hu ho f
    have h' := hother u summary' hu ho
    cases f with
    | internal =>
      obtain ⟨ls, hread, hls⟩ := h.internal
      obtain ⟨ls', hread', hls'⟩ := h'.internal
      exact ⟨ls, ls', hread, hread', fun r => (hls r).trans (hls' r).symm⟩
    | blockStats =>
      obtain ⟨ls, hread, hls⟩ := h.blockStats
      obtain ⟨ls', hread', hls'⟩ := h'.blockStats
      exact ⟨ls, ls', hread, hread', fun r => (hls r).trans (hls' r).symm⟩
  · intro u summary' hu ho
    have h' := hother u summary' hu ho
    obtain ⟨untraced, counters⟩ := summary
    obtain ⟨untraced', counters'⟩ := summary'
    rw [TraceInternal.Summary.mk.injEq]
    have huntraced := h.untraced.trans h'.untraced.symm
    refine ⟨huntraced, ?_⟩
    exact h.counters.trans ((congrArg _ huntraced).trans h'.counters.symm)

/-- In every run whose kills leave the row files empty or at a line end, what completes has the rows of every
task, each task counted once, and is what every uninterrupted run completes with. -/
theorem resumed_stages_exact (scan : ScanBlocks.Scan) (t : TraceInternal.Trace) :
    (∀ s summary, Runs.Reach (ScanBlocks.stage scan).step Stage.CleanKill init s →
      s.disk.marker = .complete summary →
      ScanBlocks.Exact scan s.disk.csv summary ∧ Lossless (ScanBlocks.stage scan) s summary) ∧
    ∀ s summary, Runs.Reach (TraceInternal.stage t).step Stage.CleanKill init s →
      s.disk.marker = .complete summary →
      TraceInternal.Exact t s.disk.csv summary ∧ Lossless (TraceInternal.stage t) s summary := by
  constructor
  · intro s summary hs hsummary
    have hexact := ScanBlocks.exact_of_reach hs hsummary
    exact ⟨hexact, hexact.lossless⟩
  · intro s summary hs hsummary
    have hexact := TraceInternal.exact_of_reach hs hsummary
    exact ⟨hexact, hexact.lossless⟩

/-! ### One transfer -/

def transferRow : List Char :=
  "transfer,1,0xb1,1700000000,0,0xt1,,0xa1,0xa2,2000000000000000000,0,0,1,21000,1000000000,,0".toList

def transferTask : ScanBlocks.Task where
  start := 1
  counters := [("blocks".toList, 1), ("tx_ge_min".toList, 1)]
  months := [("2023-11".toList, 1)]
  segment := ⟨1, 1, "0xb0".toList, "0xb1".toList, "0xb1".toList⟩
  rows f := if f = .transactions then [transferRow] else []
  segment_start := rfl
  rows_line f r hr := by
    split_ifs at hr with hf
    · obtain rfl := List.mem_singleton.mp hr
      decide +kernel
    · cases hr

def transferScan : ScanBlocks.Scan := ⟨[transferTask], by simp⟩

/-- The only task is ready, and its row is handed to `transactions.csv`. -/
def firstWrite : List (Event ScanBlocks.Csv Unit) := [.start false (), .deliver 0, .advance]

/-- The run is killed with so many characters of the file written, and a second run completes the scan. -/
def killedAt (n : ℕ) : List (Event ScanBlocks.Csv Unit) :=
  firstWrite ++ [.kill (fun _ => n) 0, .start true (), .deliver 0] ++ List.replicate 10 .advance ++ [.finish]

def uninterrupted : List (Event ScanBlocks.Csv Unit) :=
  [.start false (), .deliver 0] ++ List.replicate 10 .advance ++ [.finish]

def isComplete {Outcome : Type} : Marker Outcome → Bool
  | .complete _ => true
  | _ => false

theorem exists_of_isComplete {Outcome : Type} {m : Marker Outcome} (h : isComplete m = true) : ∃ o, m = .complete o := by
  cases m with
  | complete o => exact ⟨o, rfl⟩
  | absent => cases h
  | started => cases h

/-- Whether the stage is complete, and whether `transactions.csv` has the transfer. -/
def hasTransfer (s : State ScanBlocks.Csv ScanBlocks.Task Unit ScanBlocks.Memory ScanBlocks.Summary) : Bool × Option Bool :=
  (isComplete s.disk.marker,
    (rowsUnder (ScanBlocks.header .transactions) (s.disk.csv .transactions)).map fun ls => decide (transferRow ∈ ls))

theorem of_hasTransfer {guard : State ScanBlocks.Csv ScanBlocks.Task Unit ScanBlocks.Memory ScanBlocks.Summary →
      Event ScanBlocks.Csv Unit → Prop} [∀ s e, Decidable (guard s e)] {events : List (Event ScanBlocks.Csv Unit)} {b : Bool}
    (h : (Runs.guardedRun (ScanBlocks.stage transferScan).step guard init events).map hasTransfer = some (true, some b)) :
    ∃ s summary, Runs.Reach (ScanBlocks.stage transferScan).step guard init s ∧ s.disk.marker = .complete summary ∧
      ∃ ls, rowsUnder (ScanBlocks.header .transactions) (s.disk.csv .transactions) = some ls ∧
        decide (transferRow ∈ ls) = b := by
  obtain ⟨s, hs, hrow⟩ := Option.map_eq_some_iff.mp h
  obtain ⟨hcomplete, hrow⟩ := Prod.mk.inj hrow
  obtain ⟨summary, hsummary⟩ := exists_of_isComplete hcomplete
  exact ⟨s, summary, Runs.reach_of_guardedRun .refl hs, hsummary, Option.map_eq_some_iff.mp hrow⟩

/-- A kill inside the row: the next run appends the row to what is left of it. -/
theorem torn_row_lost : ¬∀ scan s summary,
    Runs.Reach (ScanBlocks.stage scan).step (fun _ _ => True) init s → s.disk.marker = .complete summary →
      Lossless (ScanBlocks.stage scan) s summary := by
  intro hall
  have hkilled : (Runs.guardedRun (ScanBlocks.stage transferScan).step (fun _ _ => True) init (killedAt 200)).map
      hasTransfer = some (true, some false) := by decide +kernel
  have hwhole : (Runs.guardedRun (ScanBlocks.stage transferScan).step Stage.NoKill init uninterrupted).map
      hasTransfer = some (true, some true) := by decide +kernel
  obtain ⟨s, summary, hs, hsummary, ls, hls, hlost⟩ := of_hasTransfer hkilled
  obtain ⟨u, summary', hu, hsummary', ls', hls', hkept⟩ := of_hasTransfer hwhole
  obtain ⟨rows, rows', hrows, hrows', hsame⟩ := (hall _ s summary hs hsummary).rows u summary' hu hsummary' .transactions
  have heq : rows = ls := Option.some.inj (hrows.symm.trans hls)
  have heq' : rows' = ls' := Option.some.inj (hrows'.symm.trans hls')
  rw [heq, heq'] at hsame
  exact of_decide_eq_false hlost ((hsame transferRow).mpr (of_decide_eq_true hkept))

/-! ### Two blocks, one of which cannot be traced -/

def internalRow : List Char := "3,0xb3,1700000000,0,0xt3,,0,call,0xa1,0xa2,2000000000000000000,1".toList

def twoBlocks : TraceInternal.Trace where
  candidates := [3, 5]
  sorted := by simp
  interleave := 20
  trace n := if n = 3 then some ⟨[internalRow], ⟨2, 1, 1, 1⟩, by decide +kernel⟩ else none

/-- Killed while the mark of the first group is written, and run again with the failures allowed. -/
def killedInDone : List (Event TraceInternal.Csv TraceInternal.Args) :=
  [.start false ⟨1, false⟩, .deliver 0] ++ List.replicate 5 .advance ++ [.kill (fun _ => 0) 1, .start true ⟨20, true⟩,
    .deliver 0] ++ List.replicate 6 .advance ++ [.finish]

/-- A kill right behind the header of a scan, and one inside the mark of a trace; both complete in a second run. -/
theorem resumed_transfer_exact :
    (∃ s summary, Runs.Reach (ScanBlocks.stage transferScan).step Stage.CleanKill init s ∧
      s.disk.marker = .complete summary ∧ ScanBlocks.Exact transferScan s.disk.csv summary ∧
      Lossless (ScanBlocks.stage transferScan) s summary) ∧
    ∃ s summary, Runs.Reach (TraceInternal.stage twoBlocks).step Stage.CleanKill init s ∧
      s.disk.marker = .complete summary ∧ TraceInternal.Exact twoBlocks s.disk.csv summary ∧
      Lossless (TraceInternal.stage twoBlocks) s summary := by
  constructor
  · have hkilled : (Runs.guardedRun (ScanBlocks.stage transferScan).step Stage.CleanKill init
        (killedAt ((ScanBlocks.header .transactions).length + 1))).map hasTransfer = some (true, some true) := by
      decide +kernel
    obtain ⟨s, summary, hs, hsummary, -⟩ := of_hasTransfer hkilled
    obtain ⟨hexact, hlossless⟩ := (resumed_stages_exact transferScan twoBlocks).1 s summary hs hsummary
    exact ⟨s, summary, hs, hsummary, hexact, hlossless⟩
  · have hkilled : (Runs.guardedRun (TraceInternal.stage twoBlocks).step Stage.CleanKill init killedInDone).map
        (fun s => isComplete s.disk.marker) = some true := by
      decide +kernel
    obtain ⟨s, hs, hcomplete⟩ := Option.map_eq_some_iff.mp hkilled
    obtain ⟨summary, hsummary⟩ := exists_of_isComplete hcomplete
    have hreach := Runs.reach_of_guardedRun .refl hs
    obtain ⟨hexact, hlossless⟩ := (resumed_stages_exact transferScan twoBlocks).2 s summary hreach hsummary
    exact ⟨s, summary, hreach, hsummary, hexact, hlossless⟩

end HarmonyMigration.Archive
