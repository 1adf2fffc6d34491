import HarmonyMigration.Archive.ScanStage

/-! A completed scan holds the rows of every task and counts every task once, however often it was killed
and resumed, as long as every kill leaves the row files at line ends. -/

namespace HarmonyMigration.Archive.ScanBlocks

open Decimal Json KeepFirst Lines Resumable

/-! ### Records -/

@[simp] theorem readNumbers_numbers (l : List (Text × ℕ)) : readNumbers (numbers l) = some l := by
  rw [readNumbers, numbers, fields?_object, Option.bind_some]
  induction l with
  | nil => rfl
  | cons p l ih =>
    rw [List.map_cons, List.mapM_cons, ih]
    rfl

@[simp] theorem readSegment_value (s : Segment) : readSegment s.value = some s := by
  simp [readSegment, Segment.value, List.lookup_cons, Value.num?, Value.str?]

theorem readRecord_dumps (r : Record) : readRecord r.dumps = some r := by
  simp [readRecord, Record.dumps, loads_dumps, Record.value, List.lookup_cons, Value.num?]

theorem newline_notMem_dumps (r : Record) : '\n' ∉ r.dumps := Json.newline_notMem_dumps _

theorem dumps_ne_nil (r : Record) : r.dumps ≠ [] := by
  rw [Record.dumps, Record.value, object, Value.dumps]
  exact List.cons_ne_nil _ _

theorem exists_loads {line : Text} {r : Record} (h : readRecord line = some r) : ∃ v, loads line = some v := by
  unfold readRecord at h
  cases hl : loads line with
  | none => simp [hl] at h
  | some v => exact ⟨v, rfl⟩

/-- A record cut short is not read. -/
theorem eq_of_readRecord_prefix {r r' : Record} {p : Text} (hp : p <+: r.dumps) (h : readRecord p = some r') :
    p = r.dumps :=
  (exists_loads h).elim fun _ hv => eq_of_loads_prefix hp hv

/-- A record with the start of another one behind it is not read. -/
theorem eq_nil_of_readRecord_append {r r' r'' : Record} {p : Text} (hp : p <+: r'.dumps)
    (h : readRecord (r.dumps ++ p) = some r'') : p = [] :=
  (exists_loads h).elim fun _ hv => eq_nil_of_loads_append hp hv

/-! ### Counting -/

theorem update_apply (c : Counter) (l : List (Text × ℕ)) (k : Text) :
    c.update l k = if k ∈ l.map Prod.fst then some ((c k).getD 0 + Dict.sumAt l k) else c k := by
  induction l generalizing c with
  | nil => rfl
  | cons p l ih =>
    have hstep : c.update (p :: l) k = Counter.update (Function.update c p.1 (some ((c p.1).getD 0 + p.2))) l k := rfl
    rw [hstep, ih, Dict.sumAt_cons, List.map_cons]
    by_cases hk : k = p.1
    · subst hk
      simp only [Function.update_self, List.mem_cons, true_or, if_true, Option.getD_some]
      split_ifs with hl
      · rw [add_assoc]
      · have hzero : Dict.sumAt l p.1 = 0 := by
          rw [Dict.sumAt, List.filter_eq_nil_iff.mpr]
          · rfl
          · intro q hq hqp
            exact hl (List.mem_map.mpr ⟨q, hq, of_decide_eq_true hqp⟩)
        rw [hzero, add_zero]
    · simp only [Function.update_of_ne hk, List.mem_cons, hk, false_or, if_neg (Ne.symm hk), zero_add]

theorem update_comm (c : Counter) (l l' : List (Text × ℕ)) : (c.update l).update l' = (c.update l').update l := by
  funext k
  simp only [update_apply]
  split_ifs <;> simp [add_right_comm]

def total (records : List Record) : Counter := records.foldl (fun c r => c.update r.counters) fun _ => none

def totalMonths (records : List Record) : Counter := records.foldl (fun c r => c.update r.months) fun _ => none

theorem foldl_add (m : Memory) (records : List Record) :
    records.foldl Memory.add m =
      ⟨records.foldl (fun c r => c.update r.counters) m.totals, records.foldl (fun c r => c.update r.months) m.months,
        m.segments ++ records.map Record.segment⟩ := by
  induction records generalizing m with
  | nil => simp
  | cons r records ih =>
    rw [List.foldl_cons, ih]
    simp [Memory.add]

theorem total_perm {records records' : List Record} (h : records.Perm records') :
    total records = total records' ∧ totalMonths records = totalMonths records' := by
  have : RightCommutative fun (c : Counter) (r : Record) => c.update r.counters := ⟨fun c _ _ => update_comm c _ _⟩
  have : RightCommutative fun (c : Counter) (r : Record) => c.update r.months := ⟨fun c _ _ => update_comm c _ _⟩
  exact ⟨h.foldl_eq _, h.foldl_eq _⟩

/-! ### The done file -/

variable {scan : Scan} {st : Task → Prop} {done : Text}

/-- Every line that reads as a record is the record of a stored task. -/
def Sound (scan : Scan) (st : Task → Prop) (done : Text) : Prop :=
  ∀ line ∈ lines done, ∀ r, readRecord line = some r → ∃ t ∈ scan.tasks, line = t.dumps ∧ st t

/-- Whole lines, with at most one whole record behind them whose line end is missing. -/
def Closed (done : Text) : Prop :=
  ∃ ls u, done = unlines ls ++ u ∧ (∀ l ∈ ls, '\n' ∉ l) ∧ (u = [] ∨ ∃ r : Record, u = r.dumps)

/-- The records counted are those of stored tasks, and with the tasks left they are all tasks. -/
structure Live (scan : Scan) (st : Task → Prop) (done : Text) (memory : Memory) (left : List Task) : Prop where
  sound : Sound scan st done
  closed : Closed done
  left_mem : ∀ t ∈ left, t ∈ scan.tasks
  counted : ∃ records : List Record, memory = records.foldl Memory.add .empty ∧
    (∀ r ∈ records, ∃ t ∈ scan.tasks, r = t.toRecord ∧ st t) ∧
    (records ++ left.map Task.toRecord).Perm (scan.tasks.map Task.toRecord)

theorem records_nodup (scan : Scan) : ((scan.tasks.map Task.toRecord).map Record.start).Nodup := by
  rw [List.map_map]
  exact scan.starts_nodup

/-- The torn end of a done file: only a whole record is read, and only at the start of a line. -/
theorem Sound.append {t : Task} (hsound : Sound scan st done) (hclosed : Closed done) (ht : t ∈ scan.tasks) (hst : st t)
    {p : Text} (hp : p <+: t.dumps ++ ['\n']) : Sound scan st (done ++ p) := by
  obtain ⟨ls, u, rfl, hls, hu⟩ := hclosed
  have hold : ∀ line ∈ ls ++ lines u, ∀ r, readRecord line = some r → ∃ t ∈ scan.tasks, line = t.dumps ∧ st t := by
    intro line hline
    refine hsound line ?_
    rwa [lines_unlines_append hls]
  intro line hline r hr
  rw [List.append_assoc, lines_unlines_append hls] at hline
  rcases List.mem_append.mp hline with hline | hline
  · exact hold line (List.mem_append_left _ hline) r hr
  · have hnewline : '\n' ∉ u := by
      rcases hu with rfl | ⟨r0, rfl⟩
      · exact List.not_mem_nil
      · exact newline_notMem_dumps r0
    obtain ⟨q, hq, rfl⟩ := of_mem_lines_append hnewline (newline_notMem_dumps _) hp hline
    rcases hu with rfl | ⟨r0, rfl⟩
    · exact ⟨t, ht, eq_of_readRecord_prefix hq hr, hst⟩
    · obtain rfl := eq_nil_of_readRecord_append hq hr
      rw [List.append_nil] at hr ⊢
      refine hold _ (List.mem_append_right _ ?_) r hr
      rw [lines_of_notMem (dumps_ne_nil r0) hnewline]
      exact List.mem_singleton_self _

theorem closed_append (t : Task) {done : Text} (h : Closed done) : Closed (done ++ (t.dumps ++ ['\n'])) := by
  obtain ⟨ls, u, rfl, hls, hu⟩ := h
  refine ⟨ls ++ [u ++ t.dumps], [], ?_, ?_, .inl rfl⟩
  · rw [unlines_append, unlines_cons, unlines_nil]
    simp
  · intro l hl
    rcases List.mem_append.mp hl with hl | hl
    · exact hls l hl
    · obtain rfl := List.mem_singleton.mp hl
      rw [List.mem_append, not_or]
      refine ⟨?_, newline_notMem_dumps _⟩
      rcases hu with rfl | ⟨r, rfl⟩
      · exact List.not_mem_nil
      · exact newline_notMem_dumps r

/-- What a run knows that has read the whole done file. -/
theorem live_of_resume (hsound : Sound scan st done) {todo : List Task} {memory : Memory}
    (h : resume scan done = some (todo, memory)) : Live scan st done memory todo := by
  obtain ⟨records, hread, h⟩ := Option.map_eq_some_iff.mp h
  obtain ⟨rfl, rfl⟩ := Prod.mk.inj h
  have hnodup := firstBy_nodup Record.start records
  have hsub := firstBy_subset Record.start records
  obtain ⟨hlines, hrecords⟩ := Except.mem_of_mapM_some hread
  have hkept : ∀ r ∈ firstBy Record.start records, ∃ t ∈ scan.tasks, r = t.toRecord ∧ st t := by
    intro r hr
    obtain ⟨line, hline, hlr⟩ := hrecords r (hsub hr)
    obtain ⟨t, ht, rfl, hst⟩ := hsound line hline r hlr
    rw [readRecord_dumps] at hlr
    exact ⟨t, ht, (Option.some.inj hlr).symm, hst⟩
  refine ⟨hsound, ?_, fun t ht => List.mem_of_mem_filter ht, firstBy Record.start records, rfl, hkept, ?_⟩
  · obtain ⟨ls, u, rfl, hls, hu⟩ := exists_unlines_append done
    refine ⟨ls, u, rfl, hls, ?_⟩
    by_cases hnil : u = []
    · exact .inl hnil
    · have hmem : u ∈ lines (unlines ls ++ u) := by
        rw [lines_unlines_append hls, lines_of_notMem hnil hu]
        exact List.mem_append_right _ (List.mem_singleton_self _)
      obtain ⟨r, -, hr⟩ := hlines u hmem
      obtain ⟨t, -, hu, -⟩ := hsound u hmem r hr
      exact .inr ⟨_, hu⟩
  · -- the same records on both sides, and no start twice
    have hstart : ∀ {r r' : Record}, r ∈ scan.tasks.map Task.toRecord → r' ∈ scan.tasks.map Task.toRecord →
        r.start = r'.start → r = r' := fun hr hr' => List.inj_on_of_nodup_map (records_nodup scan) hr hr'
    have hin : ∀ r ∈ firstBy Record.start records, r ∈ scan.tasks.map Task.toRecord := by
      intro r hr
      obtain ⟨t, ht, rfl, -⟩ := hkept r hr
      exact List.mem_map_of_mem ht
    have hleft : ((scan.tasks.filter fun t => t.start ∉ (firstBy Record.start records).map Record.start).map Task.toRecord).Nodup :=
      ((List.filter_sublist.map _).nodup (records_nodup scan).of_map)
    refine (List.perm_ext_iff_of_nodup (hnodup.of_map.append hleft ?_) (records_nodup scan).of_map).mpr ?_
    · intro r hr hr'
      obtain ⟨t, ht, rfl⟩ := List.mem_map.mp hr'
      exact of_decide_eq_true (List.mem_filter.mp ht).2 (List.mem_map_of_mem hr)
    · intro r
      rw [List.mem_append]
      constructor
      · rintro (hr | hr)
        · exact hin r hr
        · obtain ⟨t, ht, rfl⟩ := List.mem_map.mp hr
          exact List.mem_map_of_mem (List.mem_of_mem_filter ht)
      · intro hr
        obtain ⟨t, ht, rfl⟩ := List.mem_map.mp hr
        by_cases hk : t.start ∈ (firstBy Record.start records).map Record.start
        · obtain ⟨r, hr', hrt⟩ := List.mem_map.mp hk
          exact .inl (hstart (hin r hr') hr hrt ▸ hr')
        · exact .inr (List.mem_map_of_mem (List.mem_filter.mpr ⟨ht, decide_eq_true hk⟩))

/-! ### Runs -/

theorem Live.count {t : Task} {memory : Memory} {left : List Task} (h : Live scan st done memory (t :: left))
    (ht : t ∈ scan.tasks) (hst : st t) : Live scan st (done ++ (t.dumps ++ ['\n'])) (memory.add t.toRecord) left := by
  obtain ⟨records, rfl, hstored, hperm⟩ := h.counted
  refine ⟨h.sound.append h.closed ht hst (List.prefix_refl _), closed_append t h.closed,
    fun t ht => h.left_mem t (List.mem_cons_of_mem _ ht), records ++ [t.toRecord], ?_, ?_, ?_⟩
  · rw [List.foldl_append]
    rfl
  · intro r hr
    rcases List.mem_append.mp hr with hr | hr
    · exact hstored r hr
    · exact ⟨t, ht, List.mem_singleton.mp hr, hst⟩
  · rw [List.append_assoc]
    exact hperm

theorem Live.perm {memory : Memory} {left left' : List Task} (h : Live scan st done memory left)
    (hp : left.Perm left') : Live scan st done memory left' := by
  obtain ⟨records, hmemory, hstored, hperm⟩ := h.counted
  exact ⟨h.sound, h.closed, fun t ht => h.left_mem t (hp.mem_iff.mpr ht), records, hmemory, hstored,
    ((hp.symm.map _).append_left _).trans hperm⟩

theorem Sound.mono {st' : Task → Prop} (hsub : ∀ t, st t → st' t) (h : Sound scan st done) : Sound scan st' done := by
  intro line hline r hr
  obtain ⟨t, ht, hdumps, hst⟩ := h line hline r hr
  exact ⟨t, ht, hdumps, hsub t hst⟩

theorem Live.mono {st' : Task → Prop} {memory : Memory} {left : List Task} (hsub : ∀ t, st t → st' t)
    (h : Live scan st done memory left) : Live scan st' done memory left := by
  obtain ⟨records, hmemory, hstored, hperm⟩ := h.counted
  refine ⟨h.sound.mono hsub, h.closed, h.left_mem, records, hmemory, ?_, hperm⟩
  intro r hr
  obtain ⟨t, ht, hrt, hst⟩ := hstored r hr
  exact ⟨t, ht, hrt, hsub t hst⟩

def rules (scan : Scan) : (stage scan).Rules fun t => t ∈ scan.tasks where
  Stopped := Sound scan
  Live := Live scan
  initial _ line hline := by cases hline
  start hsound h := ⟨live_of_resume hsound h, (live_of_resume hsound h).left_mem⟩
  perm h hp := h.perm hp
  count h ht hst := h.count ht hst
  stop h := h.sound
  torn h ht hst hp := h.sound.append h.closed ht hst hp
  stopped_mono hsub h := h.mono hsub
  live_mono hsub h := h.mono hsub

/-- A completed scan: each file holds exactly the tasks' rows, and every task is counted once. -/
structure Exact (scan : Scan) (csv : Csv → Text) (summary : Summary) : Prop where
  rows : ∀ f, ∃ ls, rowsUnder (header f) (csv f) = some ls ∧ ∀ r, r ∈ ls ↔ ∃ t ∈ scan.tasks, r ∈ t.rows f
  counters : summary.counters = total (scan.tasks.map Task.toRecord)
  months : summary.months = totalMonths (scan.tasks.map Task.toRecord)
  segments : summary.segments = sortSegments (scan.tasks.map fun t => t.segment)

theorem exact_of_reach {scan : Scan} {s : State Csv Task Unit Memory Summary} {summary : Summary}
    (h : Runs.Reach (stage scan).step Stage.CleanKill init s) (hsummary : s.disk.marker = .complete summary) :
    Exact scan s.disk.csv summary := by
  have hcomplete : ∃ held, (stage scan).Kept (fun t => t ∈ scan.tasks) held s.disk.csv ∧
      Stage.Finished (rules scan) held s.disk summary := Stage.complete_of_reach h hsummary
  obtain ⟨held, hkept, ⟨⟨_, memory, hfinish, hlive⟩, hcsv⟩⟩ := hcomplete
  obtain ⟨segments, hsegments, rfl⟩ := Option.map_eq_some_iff.mp hfinish
  obtain ⟨records, rfl, hstored, hperm⟩ := hlive.counted
  rw [List.map_nil, List.append_nil] at hperm
  obtain ⟨htotal, hmonths⟩ := total_perm hperm
  have hrows : ∀ f, ∀ r ∈ held f, ∃ t ∈ scan.tasks, r ∈ t.rows f := by
    intro f r hr
    obtain ⟨t, _, ht, hmem, -⟩ := hkept.source f r hr
    exact ⟨t, ht, hmem⟩
  have hall : ∀ t ∈ scan.tasks, (stage scan).Stored held t := by
    intro t ht
    obtain ⟨t', ht', hrecord, hst⟩ := hstored t.toRecord (hperm.mem_iff.mpr (List.mem_map_of_mem ht))
    obtain rfl := List.inj_on_of_nodup_map scan.starts_nodup ht ht' (congrArg Record.start hrecord)
    exact hst
  rw [foldl_add] at hsegments ⊢
  refine ⟨?_, htotal, hmonths, ?_⟩
  · intro f
    refine ⟨held f, ?_, fun r => ⟨hrows f r, fun ⟨t, ht, hr⟩ => hall t ht f hr⟩⟩
    rw [hcsv f]
    refine rowsUnder_unlines (newline_notMem_header f) ?_
    intro r hr
    obtain ⟨t, -, hmem⟩ := hrows f r hr
    exact t.rows_line f r hmem
  · unfold verifyContinuity at hsegments
    split_ifs at hsegments with hchain
    cases hsegments
    have hsegs : (records.map Record.segment).Perm (scan.tasks.map fun t => t.segment) := by
      have hmap := hperm.map Record.segment
      rwa [List.map_map] at hmap
    refine SortedBy.insertionSort_eq_of_perm hsegs ?_
    intro a ha b hb hab
    obtain ⟨t, ht, rfl⟩ := List.mem_map.mp (hsegs.mem_iff.mp ha)
    obtain ⟨t', ht', rfl⟩ := List.mem_map.mp (hsegs.mem_iff.mp hb)
    have hstart : t.start = t'.start := by rw [← t.segment_start, ← t'.segment_start, hab]
    rw [List.inj_on_of_nodup_map scan.starts_nodup ht ht' hstart]

end HarmonyMigration.Archive.ScanBlocks
