import HarmonyMigration.Archive.TraceStage

/-! A completed trace holds the internal transfers and the statistics of every candidate block that can be
traced, and counts each once, as long as every kill leaves the two row files at line ends. What `done.txt`
says is not trusted: the end of a run reads `block-stats.csv`. -/

namespace HarmonyMigration.Archive.TraceInternal

open Decimal KeepFirst Lines Resumable

/-! ### Rows of block-stats.csv -/

theorem comma_notMem_render (n : ℕ) : ',' ∉ render n := fun h => absurd (isDigit_of_mem_render h) (by decide)

theorem splitOn_statsRow (n : ℕ) (s : Stats) :
    (statsRow n s).splitOn ',' =
      [render n, render s.frames, render s.internalValueGt0, render s.internalGeMin, render s.internalGeMinEffective] := by
  rw [statsRow, List.splitOn_append_cons_self_of_not_mem (comma_notMem_render _),
    List.splitOn_append_cons_self_of_not_mem (comma_notMem_render _),
    List.splitOn_append_cons_self_of_not_mem (comma_notMem_render _),
    List.splitOn_append_cons_self_of_not_mem (comma_notMem_render _), List.splitOn_eq_singleton (comma_notMem_render _)]

theorem readNumber_statsRow (n : ℕ) (s : Stats) : readNumber (statsRow n s) = some n := by
  rw [readNumber, splitOn_statsRow]
  exact parseNat_render n

theorem readStats_statsRow (n : ℕ) (s : Stats) : readStats (statsRow n s) = some s := by
  rw [readStats, splitOn_statsRow]
  simp [parseNat_render]

variable {t : Trace}

/-- The blocks that can be traced, with their statistics. -/
def traceable (t : Trace) : List (ℕ × Stats) :=
  t.candidates.filterMap fun n => (t.trace n).map fun x => (n, x.stats)

theorem mem_traceable {n : ℕ} {s : Stats} :
    (n, s) ∈ traceable t ↔ n ∈ t.candidates ∧ ∃ x, t.trace n = some x ∧ x.stats = s := by
  rw [traceable, List.mem_filterMap]
  constructor
  · rintro ⟨m, hm, h⟩
    obtain ⟨x, hx, h⟩ := Option.map_eq_some_iff.mp h
    obtain ⟨rfl, rfl⟩ := Prod.mk.inj h
    exact ⟨hm, x, hx, rfl⟩
  · rintro ⟨hn, x, hx, rfl⟩
    exact ⟨n, hn, Option.map_eq_some_iff.mpr ⟨x, hx, rfl⟩⟩

theorem candidates_nodup (t : Trace) : t.candidates.Nodup := t.sorted.imp fun h => h.ne

theorem traceable_nodup (t : Trace) : (traceable t).Nodup := by
  refine List.Nodup.filterMap ?_ (candidates_nodup t)
  intro n m p hn hm
  obtain ⟨x, -, rfl⟩ := Option.map_eq_some_iff.mp hn
  obtain ⟨y, -, h⟩ := Option.map_eq_some_iff.mp hm
  exact (congrArg Prod.fst h).symm

theorem count_perm {stats stats' : List (ℕ × Stats)} (h : stats.Perm stats') (untraced : List ℕ) :
    count stats untraced = count stats' untraced := by
  simp only [count, h.length_eq, (h.map fun p => p.2.frames).sum_eq, (h.map fun p => p.2.internalValueGt0).sum_eq,
    (h.map fun p => p.2.internalGeMin).sum_eq, (h.map fun p => p.2.internalGeMinEffective).sum_eq]

/-- The first rows of a file that holds rows of traceable blocks only. -/
theorem firstRows_spec {ls : List Text} {stats : List (ℕ × Stats)} (h : firstRows ls = some stats)
    (hls : ∀ r ∈ ls, ∃ p ∈ traceable t, r = statsRow p.1 p.2) :
    (stats.map Prod.fst).Nodup ∧ (∀ p ∈ stats, p ∈ traceable t) ∧ ∀ p ∈ stats, statsRow p.1 p.2 ∈ ls := by
  obtain ⟨numbered, hnumbered, h⟩ := Option.bind_eq_some_iff.mp h
  obtain ⟨-, hnumbered⟩ := Except.mem_of_mapM_some hnumbered
  obtain ⟨-, hstats⟩ := Except.mem_of_mapM_some h
  have hrow : ∀ p ∈ stats, p ∈ traceable t ∧ statsRow p.1 p.2 ∈ ls := by
    intro p hp
    obtain ⟨q, hq, hqp⟩ := hstats p hp
    obtain ⟨r, hr, hrq⟩ := hnumbered q (firstBy_subset Prod.fst numbered hq)
    obtain ⟨n, hn, rfl⟩ := Option.map_eq_some_iff.mp hrq
    obtain ⟨s, hs, rfl⟩ := Option.map_eq_some_iff.mp hqp
    obtain ⟨p', hp', rfl⟩ := hls r hr
    rw [readNumber_statsRow] at hn
    rw [readStats_statsRow] at hs
    cases hn
    cases hs
    exact ⟨hp', hr⟩
  refine ⟨?_, fun p hp => (hrow p hp).1, fun p hp => (hrow p hp).2⟩
  have hkeys : stats.map Prod.fst = (firstBy Prod.fst numbered).map Prod.fst := by
    refine Except.map_eq_of_mapM_some h ?_
    intro q p hqp
    obtain ⟨s, -, rfl⟩ := Option.map_eq_some_iff.mp hqp
    rfl
  rw [hkeys]
  exact firstBy_nodup Prod.fst numbered

/-! ### Runs -/

theorem mem_of_mem_ordered {blocks : List ℕ} {interleave n : ℕ} (h : n ∈ ordered blocks interleave) : n ∈ blocks := by
  obtain ⟨k, -, hk⟩ := List.mem_flatMap.mp h
  obtain ⟨p, hp, rfl⟩ := List.mem_map.mp hk
  exact List.fst_mem_of_mem_zipIdx (List.mem_of_mem_filter hp)

theorem mem_of_mem_chunks {α : Type} {step : ℕ} {xs piece : List α} (h : piece ∈ Slices.chunks step xs) :
    piece ⊆ xs := by
  obtain ⟨i, -, rfl⟩ := List.mem_map.mp h
  exact List.Subset.trans (List.drop_subset _ _) (List.take_subset _ _)

theorem of_resume {args : Args} {done : Text} {todo : List (List ℕ)} {failures : List ℕ}
    (h : resume t args done = some (todo, failures)) : failures = [] ∧ ∀ group ∈ todo, group ⊆ t.candidates := by
  obtain ⟨numbers, -, h⟩ := Option.bind_eq_some_iff.mp h
  split_ifs at h
  obtain ⟨rfl, rfl⟩ := Prod.mk.inj (Option.some.inj h)
  refine ⟨rfl, ?_⟩
  intro group hgroup n hn
  exact mem_of_mem_ordered (List.mem_of_mem_filter (mem_of_mem_chunks hgroup hn))

/-- The failures of a run are candidate blocks that cannot be traced. -/
def Failed (t : Trace) (failures : List ℕ) : Prop := ∀ n ∈ failures, n ∈ t.candidates ∧ t.trace n = none

theorem Failed.count {failures group : List ℕ} (h : Failed t failures) (hgroup : group ⊆ t.candidates) :
    Failed t (failures ++ group.filter fun n => (t.trace n).isNone) := by
  intro n hn
  rcases List.mem_append.mp hn with hn | hn
  · exact h n hn
  · obtain ⟨hn, hnone⟩ := List.mem_filter.mp hn
    exact ⟨hgroup hn, Option.isNone_iff_eq_none.mp hnone⟩

/-- Nothing is asked of `done.txt`. -/
def rules (t : Trace) : (stage t).Rules fun group => group ⊆ t.candidates where
  Stopped _ _ := True
  Live _ _ failures _ := Failed t failures
  initial _ := trivial
  start _ h := by
    obtain ⟨rfl, htodo⟩ := of_resume h
    exact ⟨fun _ hn => absurd hn List.not_mem_nil, htodo⟩
  perm h _ := h
  count h hgroup _ := h.count hgroup
  stop _ := trivial
  torn _ _ _ _ := trivial
  stopped_mono _ _ := trivial
  live_mono _ h := h

/-- A completed trace. -/
structure Exact (t : Trace) (csv : Csv → Text) (summary : Summary) : Prop where
  internal : ∃ ls, rowsUnder (header .internal) (csv .internal) = some ls ∧
    ∀ r, r ∈ ls ↔ ∃ n ∈ t.candidates, ∃ x, t.trace n = some x ∧ r ∈ x.rows
  blockStats : ∃ ls, rowsUnder (header .blockStats) (csv .blockStats) = some ls ∧
    ∀ r, r ∈ ls ↔ ∃ p ∈ traceable t, r = statsRow p.1 p.2
  untraced : summary.untracedBlocks = t.candidates.filter fun n => (t.trace n).isNone
  counters : summary.counters = count (traceable t) summary.untracedBlocks

theorem mem_rows_internal {group : List ℕ} {r : Text} :
    r ∈ rows t group .internal ↔ ∃ n ∈ group, ∃ x, t.trace n = some x ∧ r ∈ x.rows := by
  rw [rows, List.mem_flatMap]
  refine exists_congr fun n => and_congr_right fun _ => ?_
  cases t.trace n <;> simp

theorem mem_rows_blockStats {group : List ℕ} {r : Text} :
    r ∈ rows t group .blockStats ↔ ∃ n ∈ group, ∃ x, t.trace n = some x ∧ r = statsRow n x.stats := by
  rw [rows, List.mem_filterMap]
  refine exists_congr fun n => and_congr_right fun _ => ?_
  cases t.trace n <;> simp [eq_comm]

theorem statsRow_injective {n m : ℕ} {s s' : Stats} (h : statsRow n s = statsRow m s') : n = m := by
  have hread := readNumber_statsRow n s
  rw [h, readNumber_statsRow] at hread
  exact (Option.some.inj hread).symm

theorem exact_of_reach {s : State Csv (List ℕ) Args (List ℕ) Summary} {summary : Summary}
    (h : Runs.Reach (stage t).step Stage.CleanKill init s) (hsummary : s.disk.marker = .complete summary) :
    Exact t s.disk.csv summary := by
  have hcomplete : ∃ held, (stage t).Kept (fun group => group ⊆ t.candidates) held s.disk.csv ∧
      Stage.Finished (rules t) held s.disk summary := Stage.complete_of_reach h hsummary
  obtain ⟨held, hkept, ⟨⟨args, failures, hfinish, hfailed⟩, hcsv⟩⟩ := hcomplete
  have hinternal : ∀ r ∈ held .internal, ∃ n ∈ t.candidates, ∃ x, t.trace n = some x ∧ r ∈ x.rows := by
    intro r hr
    obtain ⟨group, _, hgroup, hmem, -⟩ := hkept.source .internal r hr
    obtain ⟨n, hn, x, hx, hrow⟩ := mem_rows_internal.mp hmem
    exact ⟨n, hgroup hn, x, hx, hrow⟩
  -- a row of block-stats.csv has the internal transfers of its block on disk already
  have hstats : ∀ r ∈ held .blockStats, ∃ n ∈ t.candidates, ∃ x, t.trace n = some x ∧ r = statsRow n x.stats ∧
      x.rows ⊆ held .internal := by
    intro r hr
    obtain ⟨group, left, hgroup, hmem, l, hfiles, hstored⟩ := hkept.source .blockStats r hr
    obtain ⟨n, hn, x, hx, hrow⟩ := mem_rows_blockStats.mp hmem
    have hfiles' : [Csv.internal, Csv.blockStats] = l ++ Csv.blockStats :: left := hfiles
    have hl : Csv.internal ∈ l := by
      cases l with
      | nil => cases hfiles'
      | cons f l =>
        obtain ⟨rfl, -⟩ := List.cons.inj hfiles'
        exact List.mem_cons_self
    refine ⟨n, hgroup hn, x, hx, hrow, ?_⟩
    intro r' hr'
    exact hstored .internal hl (mem_rows_internal.mpr ⟨n, hn, x, hx, hr'⟩)
  have hreadInternal : rowsUnder (header .internal) (s.disk.csv .internal) = some (held .internal) := by
    rw [hcsv .internal]
    refine rowsUnder_unlines (newline_notMem_header _) fun r hr => ?_
    obtain ⟨n, -, x, -, hrow⟩ := hinternal r hr
    exact x.rows_line r hrow
  have hreadStats : rowsUnder (header .blockStats) (s.disk.csv .blockStats) = some (held .blockStats) := by
    rw [hcsv .blockStats]
    refine rowsUnder_unlines (newline_notMem_header _) fun r hr => ?_
    obtain ⟨n, -, x, -, rfl, -⟩ := hstats r hr
    exact statsRow_line n x.stats
  have htraceable : ∀ r ∈ held .blockStats, ∃ p ∈ traceable t, r = statsRow p.1 p.2 := by
    intro r hr
    obtain ⟨n, hn, x, hx, hrow, -⟩ := hstats r hr
    exact ⟨(n, x.stats), mem_traceable.mpr ⟨hn, x, hx, rfl⟩, hrow⟩
  have hfinish' : finish t args failures s.disk.csv = some summary := hfinish
  unfold finish at hfinish'
  split_ifs at hfinish'
  rw [hreadStats, Option.bind_some] at hfinish'
  obtain ⟨stats, hfirst, hfinish'⟩ := Option.bind_eq_some_iff.mp hfinish'
  split_ifs at hfinish' with hset
  cases hfinish'
  obtain ⟨hnodup, hmem, hrows⟩ := firstRows_spec hfirst htraceable
  have hcovered : ∀ n ∈ t.candidates, n ∈ stats.map Prod.fst ∨ n ∈ failures := by
    intro n hn
    have hin := hset ▸ List.mem_toFinset.mpr hn
    simpa [List.mem_insertionSort] using hin
  have huntraced : ∀ n, n ∈ failures ↔ n ∈ t.candidates ∧ t.trace n = none := by
    intro n
    refine ⟨hfailed n, fun ⟨hn, hnone⟩ => ?_⟩
    rcases hcovered n hn with hn | hn
    · obtain ⟨p, hp, rfl⟩ := List.mem_map.mp hn
      obtain ⟨-, x, hx, -⟩ := mem_traceable.mp (hmem p hp)
      rw [hnone] at hx
      cases hx
    · exact hn
  have hseen : ∀ p ∈ traceable t, p ∈ stats := by
    intro p hp
    obtain ⟨hn, x, hx, hxs⟩ := mem_traceable.mp hp
    rcases hcovered p.1 hn with hn | hn
    · obtain ⟨q, hq, hqp⟩ := List.mem_map.mp hn
      obtain ⟨-, y, hy, hys⟩ := mem_traceable.mp (hmem q hq)
      rw [hqp, hx] at hy
      cases hy
      rwa [← Prod.ext hqp (hys.symm.trans hxs)]
    · rw [((huntraced p.1).mp hn).2] at hx
      cases hx
  refine ⟨⟨held .internal, hreadInternal, fun r => ⟨hinternal r, ?_⟩⟩, ⟨held .blockStats, hreadStats, fun r => ⟨htraceable r, ?_⟩⟩,
    ?_, count_perm ?_ _⟩
  · rintro ⟨n, hn, x, hx, hr⟩
    have hrow := hrows _ (hseen (n, x.stats) (mem_traceable.mpr ⟨hn, x, hx, rfl⟩))
    obtain ⟨m, -, y, hy, heq, hsub⟩ := hstats _ hrow
    obtain rfl := statsRow_injective heq
    rw [hx] at hy
    cases hy
    exact hsub hr
  · rintro ⟨p, hp, rfl⟩
    exact hrows p (hseen p hp)
  · have hsorted : (failures.dedup.insertionSort (· ≤ ·)).Pairwise (· < ·) :=
      SortedBy.insertionSort_lt (by simpa using failures.nodup_dedup)
    refine List.Perm.eq_of_pairwise (fun a b _ _ hab hba => absurd hab (lt_asymm hba)) hsorted (t.sorted.filter _) ?_
    refine (List.perm_ext_iff_of_nodup (hsorted.imp fun h => h.ne) ((candidates_nodup t).filter _)).mpr ?_
    intro n
    rw [List.mem_insertionSort, List.mem_dedup, huntraced, List.mem_filter, Option.isNone_iff_eq_none]
  · exact (List.perm_ext_iff_of_nodup hnodup.of_map (traceable_nodup t)).mpr fun p => ⟨hmem p, hseen p⟩

end HarmonyMigration.Archive.TraceInternal
