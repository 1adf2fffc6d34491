import HarmonyMigration.Holders.TransferLogs

/-! The scan of a range of blocks is exact: whichever queries are refused and however the workers take turns, the balances
that are returned are those of the transfers of the range, each counted once. -/

namespace HarmonyMigration.TokenHolders

open Erc20 Except Decimal WorkerPool

section Ranges

variable {rangeSize start stop : UInt64}

theorem rangeEnd_toNat (hr : rangeSize ≠ 0) (hle : start ≤ stop) :
    (rangeEnd rangeSize start stop).toNat = min (start.toNat + rangeSize.toNat - 1) stop.toNat := by
  have hstart := UInt64.toNat_lt start
  have hstop := UInt64.toNat_lt stop
  have hsize := UInt64.toNat_lt rangeSize
  have hpos : rangeSize.toNat ≠ 0 := fun h => hr (UInt64.toNat_inj.mp h)
  have hlast : (start + rangeSize - 1).toNat = (start.toNat + rangeSize.toNat - 1) % 2 ^ 64 := by
    rw [UInt64.toNat_sub, UInt64.toNat_add]
    have h1 : (1 : UInt64).toNat = 1 := rfl
    rw [h1]
    omega
  rw [UInt64.le_iff_toNat_le] at hle
  unfold rangeEnd
  split_ifs with hc
  · rw [gt_iff_lt, UInt64.lt_iff_toNat_lt, UInt64.lt_iff_toNat_lt, hlast] at hc
    omega
  · rw [gt_iff_lt, UInt64.lt_iff_toNat_lt, UInt64.lt_iff_toNat_lt, hlast] at hc
    omega

/-- One range after the other, the blocks from `start` to `stop`: none twice and none left out. -/
theorem jobRanges_blocks (hle : start ≤ stop) :
    ((jobRanges rangeSize start stop).flatMap fun p => List.range' p.1.toNat (p.2.toNat + 1 - p.1.toNat)) =
      List.range' start.toNat (stop.toNat + 1 - start.toNat) := by
  induction start using jobRanges.induct rangeSize stop with
  | case1 start _ ih =>
    rw [jobRanges, if_pos hle, List.flatMap_cons]
    by_cases hne : rangeEnd rangeSize start stop = stop
    · rw [dif_pos hne, hne, List.flatMap_nil, List.append_nil]
    · obtain ⟨hnext, hlow, hhigh⟩ := start_lt_of_rangeEnd hne
      have hle' : start + rangeSize ≤ stop := by
        rw [UInt64.le_iff_toNat_le]
        omega
      have hsum : stop.toNat + 1 - start.toNat = ((rangeEnd rangeSize start stop).toNat + 1 - start.toNat) +
          (stop.toNat + 1 - (start + rangeSize).toNat) := by omega
      have hmid : (start + rangeSize).toNat = start.toNat + ((rangeEnd rangeSize start stop).toNat + 1 - start.toNat) := by
        omega
      rw [dif_neg hne, ih hne hle', hsum, ← List.range'_append_1, ← hmid]
  | case2 start h => exact absurd hle h

theorem length_jobRanges (hr : rangeSize ≠ 0) (hle : start ≤ stop) :
    (jobRanges rangeSize start stop).length = (stop.toNat - start.toNat) / rangeSize.toNat + 1 := by
  have hpos : 0 < rangeSize.toNat := Nat.pos_of_ne_zero fun h => hr (UInt64.toNat_inj.mp h)
  induction start using jobRanges.induct rangeSize stop with
  | case1 start _ ih =>
    have hend := rangeEnd_toNat hr hle
    rw [UInt64.le_iff_toNat_le] at hle
    rw [jobRanges, if_pos (by rwa [UInt64.le_iff_toNat_le]), List.length_cons]
    by_cases hne : rangeEnd rangeSize start stop = stop
    · rw [dif_pos hne, List.length_nil, Nat.div_eq_of_lt (by rw [hne] at hend; omega)]
    · obtain ⟨hnext, hlow, hhigh⟩ := start_lt_of_rangeEnd hne
      have hle' : start + rangeSize ≤ stop := by
        rw [UInt64.le_iff_toNat_le]
        omega
      have hsub : stop.toNat - start.toNat = stop.toNat - (start + rangeSize).toNat + rangeSize.toNat := by omega
      rw [dif_neg hne, ih hne hle', hsub, Nat.add_div_right _ hpos]
  | case2 start h => exact absurd hle h

/-- The scan expects that number in 64 bits. -/
theorem ofNat_length_jobRanges (hr : rangeSize ≠ 0) (hle : start ≤ stop) :
    UInt64.ofNat (jobRanges rangeSize start stop).length = (stop - start) / rangeSize + 1 := by
  rw [length_jobRanges hr hle, ← UInt64.toNat_inj, UInt64.toNat_add, UInt64.toNat_div, UInt64.toNat_sub_of_le _ _ hle]
  exact UInt64.toNat_ofNat'

end Ranges

/-! ### One range -/

variable {ε : Type} {toLower : Text → Text} {tokens : List Address} (chain : ℕ → Finset RpcLog)

/-- The logs of a range of blocks. -/
def logsIn (low high : ℕ) : Finset RpcLog := (Finset.Icc low high).biUnion chain

/-- A query that is not refused is answered with the logs of its range, in any order and perhaps with repeats. -/
def Honest (query : ℕ → ℕ → Except ε (List RpcLog)) : Prop :=
  ∀ a b l, query a b = .ok l → l.toFinset = logsIn chain a b

/-- No two logs of the range have the same key. -/
def KeysDistinct (toLower : Text → Text) (low high : ℕ) : Prop :=
  ∀ b ∈ Finset.Icc low high, ∀ b' ∈ Finset.Icc low high, ∀ log ∈ chain b, ∀ log' ∈ chain b',
    logKey toLower log = logKey toLower log' → b = b' ∧ log = log'

variable {chain} {low high : ℕ}

theorem mem_logsIn {log : RpcLog} : log ∈ logsIn chain low high ↔ ∃ b, (low ≤ b ∧ b ≤ high) ∧ log ∈ chain b := by
  simp [logsIn]

theorem KeysDistinct.injOn (h : KeysDistinct chain toLower low high) :
    Set.InjOn (logKey toLower) (↑(logsIn chain low high) : Set RpcLog) := by
  intro log hlog log' hlog' heq
  obtain ⟨b, hb, hlog⟩ := mem_logsIn.mp (Finset.mem_coe.mp hlog)
  obtain ⟨b', hb', hlog'⟩ := mem_logsIn.mp (Finset.mem_coe.mp hlog')
  exact (h b (Finset.mem_Icc.mpr hb) b' (Finset.mem_Icc.mpr hb') log hlog log' hlog' heq).2

theorem KeysDistinct.mono {low' high' : ℕ} (h : KeysDistinct chain toLower low high) (hlow : low ≤ low')
    (hhigh : high' ≤ high) : KeysDistinct chain toLower low' high' :=
  fun b hb b' hb' => h b (Finset.Icc_subset_Icc hlow hhigh hb) b' (Finset.Icc_subset_Icc hlow hhigh hb')

theorem fetch_logs {query : ℕ → ℕ → Except ε (List RpcLog)} {l : List RpcLog} (hquery : Honest chain query)
    (hle : low ≤ high) (h : RangeSplit.fetch query low high = .ok l) : l.toFinset = logsIn chain low high := by
  refine RangeSplit.fetch_ok (P := fun a b l => l.toFinset = logsIn chain a b) hle
    (fun a b l _ _ _ hq => hquery a b l hq) (fun a m b l r ham hmb hl hr => ?_) h
  ext log
  rw [List.toFinset_append, hl, hr, Finset.mem_union, mem_logsIn, mem_logsIn, mem_logsIn]
  constructor
  · rintro (⟨n, hn, hlog⟩ | ⟨n, hn, hlog⟩)
    · exact ⟨n, by omega, hlog⟩
    · exact ⟨n, by omega, hlog⟩
  · rintro ⟨n, hn, hlog⟩
    rcases Nat.lt_or_ge m n with hmn | hmn
    · exact .inr ⟨n, by omega, hlog⟩
    · exact .inl ⟨n, by omega, hlog⟩

variable (chain toLower tokens) in
/-- What a worker may return for a range, whichever of its queries are refused. -/
def RangeOk (ε : Type) (job : UInt64 × UInt64) (r : BalanceSet × SeenSet) : Prop :=
  ∃ query : ℕ → ℕ → Except ε (List RpcLog), Honest chain query ∧ scanRange toLower tokens query job = .ok r

variable (chain toLower tokens) in
def RangeFails (job : UInt64 × UInt64) (e : ScanError ε) : Prop :=
  ∃ query : ℕ → ℕ → Except ε (List RpcLog), Honest chain query ∧ scanRange toLower tokens query job = .error e

variable {job : UInt64 × UInt64} {r s : BalanceSet × SeenSet}

theorem replayed_of_rangeOk (hle : job.1.toNat ≤ job.2.toNat) (hkeys : KeysDistinct chain toLower job.1.toNat job.2.toNat)
    (h : RangeOk toLower tokens chain ε job r) : Replayed toLower (logsIn chain job.1.toNat job.2.toNat) r := by
  obtain ⟨query, hquery, h⟩ := h
  obtain ⟨l, hl, h⟩ := of_bind_ok h
  have hset := fetch_logs hquery hle (mapError_ok hl)
  have hreplayed : Replayed toLower (∅ ∪ l.toFinset) r :=
    replayed_applyLogs (by rw [Finset.empty_union, hset]; exact hkeys.injOn) replayed_empty (mapError_ok h)
  rwa [Finset.empty_union, hset] at hreplayed

/-! ### Results put together -/

theorem replayed_mergeResult {A B : Finset RpcLog} (hs : Replayed toLower A s) (hr : Replayed toLower B r)
    (hAB : Disjoint A B) : Replayed toLower (A ∪ B) (mergeResult s r) := by
  constructor
  · intro token
    rw [Finset.filter_union, Finset.image_union, ← hs.keysOf, ← hr.keysOf]
    exact Dict.measure_mergeWith (f := id) (g := id) (a := (· ∪ ·)) (z := ∅) (fun _ _ => rfl)
      fun v => Finset.union_empty v
  · intro token account
    rw [Finset.filter_union, Finset.sum_union (Finset.disjoint_filter_filter hAB), ← hs.balance token account,
      ← hr.balance token account]
    refine Dict.measure_mergeWith (f := fun held : Dict Address ℤ => held.getD account 0)
      (g := fun held : Dict Address ℤ => held.getD account 0) (a := (· + ·)) (z := .empty) (fun held changes => ?_)
      fun held => add_zero _
    rw [Dict.getD_foldl_add, Dict.sumAt_entries]

theorem replayed_foldl (logsOf : UInt64 × UInt64 → Finset RpcLog) {l : List ((UInt64 × UInt64) × (BalanceSet × SeenSet))}
    {A : Finset RpcLog} (hpair : l.Pairwise fun p q => Disjoint (logsOf p.1) (logsOf q.1))
    (hA : ∀ p ∈ l, Disjoint A (logsOf p.1)) (hok : ∀ p ∈ l, Replayed toLower (logsOf p.1) p.2) (hs : Replayed toLower A s) :
    Replayed toLower (A ∪ (l.map Prod.fst).toFinset.biUnion logsOf) (l.foldl (fun all p => mergeResult all p.2) s) := by
  induction l generalizing A s with
  | nil => simpa using hs
  | cons p l ih =>
    obtain ⟨hp, hpair⟩ := List.pairwise_cons.mp hpair
    have hmerged := replayed_mergeResult hs (hok p List.mem_cons_self) (hA p List.mem_cons_self)
    have hnext : ∀ q ∈ l, Disjoint (A ∪ logsOf p.1) (logsOf q.1) := fun q hq =>
      Finset.disjoint_union_left.mpr ⟨hA q (List.mem_cons_of_mem _ hq), hp q hq⟩
    have hrest := ih hpair hnext (fun q hq => hok q (List.mem_cons_of_mem _ hq)) hmerged
    rw [List.map_cons, List.toFinset_cons, Finset.biUnion_insert, ← Finset.union_assoc]
    exact hrest

/-! ### The whole scan -/

variable {rangeSize start stop : UInt64} {workers : ℕ} {state : ScanState ε}

theorem mem_jobRanges (hle : start ≤ stop) {n : ℕ} :
    (∃ job ∈ jobRanges rangeSize start stop, job.1.toNat ≤ n ∧ n ≤ job.2.toNat) ↔ start.toNat ≤ n ∧ n ≤ stop.toNat := by
  have hblocks := congrArg (n ∈ ·) (@jobRanges_blocks rangeSize start stop hle)
  simp only [List.mem_flatMap, List.mem_range'_1, eq_iff_iff] at hblocks
  rw [UInt64.le_iff_toNat_le] at hle
  constructor
  · rintro ⟨job, hjob, hn⟩
    have hmem := hblocks.mp ⟨job, hjob, by omega⟩
    omega
  · intro hn
    obtain ⟨job, hjob, hmem⟩ := hblocks.mpr (by omega)
    exact ⟨job, hjob, by omega⟩

theorem job_le {job : UInt64 × UInt64} (hle : start ≤ stop) (hjob : job ∈ jobRanges rangeSize start stop) :
    job.1.toNat ≤ job.2.toNat ∧ (rangeSize ≠ 0 → job.2.toNat < job.1.toNat + rangeSize.toNat) := by
  induction start using jobRanges.induct rangeSize stop with
  | case1 start _ ih =>
    rw [jobRanges, if_pos hle] at hjob
    rcases List.mem_cons.mp hjob with rfl | hjob
    · refine ⟨?_, fun hr => ?_⟩
      · by_cases hne : rangeEnd rangeSize start stop = stop
        · rw [hne]
          exact hle
        · exact (start_lt_of_rangeEnd hne).2.1
      · have hpos : rangeSize.toNat ≠ 0 := fun h => hr (UInt64.toNat_inj.mp h)
        have hend := rangeEnd_toNat hr hle
        dsimp only
        omega
    · by_cases hne : rangeEnd rangeSize start stop = stop
      · simp [hne] at hjob
      · obtain ⟨hnext, -, hhigh⟩ := start_lt_of_rangeEnd hne
        rw [dif_neg hne] at hjob
        exact ih hne (by rw [UInt64.le_iff_toNat_le]; omega) hjob
  | case2 start h => exact absurd hle h

/-- The ranges of a job lie within the scan. -/
theorem KeysDistinct.of_job {job : UInt64 × UInt64} (h : KeysDistinct chain toLower start.toNat stop.toNat)
    (hle : start ≤ stop) (hjob : job ∈ jobRanges rangeSize start stop) : KeysDistinct chain toLower job.1.toNat job.2.toNat := by
  have hjle := (job_le hle hjob).1
  exact h.mono ((mem_jobRanges hle).mp ⟨job, hjob, le_rfl, hjle⟩).1 ((mem_jobRanges hle).mp ⟨job, hjob, hjle, le_rfl⟩).2

theorem pairwise_jobRanges (hle : start ≤ stop) (hkeys : KeysDistinct chain toLower start.toNat stop.toNat) :
    (jobRanges rangeSize start stop).Pairwise fun p q =>
      Disjoint (logsIn chain p.1.toNat p.2.toNat) (logsIn chain q.1.toNat q.2.toNat) := by
  have hnd : ((jobRanges rangeSize start stop).flatMap fun p =>
      List.range' p.1.toNat (p.2.toNat + 1 - p.1.toNat)).Nodup := by
    rw [jobRanges_blocks hle]
    exact List.nodup_range'
  refine (List.nodup_flatMap.mp hnd).2.imp_of_mem fun {p q} hp hq hpq => ?_
  rw [Finset.disjoint_left]
  intro log hlog hlog'
  obtain ⟨b, hb, hlog⟩ := mem_logsIn.mp hlog
  obtain ⟨b', hb', hlog'⟩ := mem_logsIn.mp hlog'
  have hin := (mem_jobRanges hle).mp ⟨p, hp, hb⟩
  have hin' := (mem_jobRanges hle).mp ⟨q, hq, hb'⟩
  obtain ⟨rfl, -⟩ := hkeys b (Finset.mem_Icc.mpr hin) b' (Finset.mem_Icc.mpr hin') log hlog log hlog' rfl
  exact hpq (a := b) (List.mem_range'_1.mpr (by omega)) (List.mem_range'_1.mpr (by omega))

/-- A query of a worker that fails is one of a single block, or a log of the range is not a transfer of the tokens. -/
theorem rangeFails_cause {job : UInt64 × UInt64} {e : ScanError ε} (hle : job.1.toNat ≤ job.2.toNat)
    (h : RangeFails toLower tokens chain job e) :
    (∃ b e', (job.1.toNat ≤ b ∧ b ≤ job.2.toNat) ∧ e = .fetch b e' ∧
      ∃ query : ℕ → ℕ → Except ε (List RpcLog), Honest chain query ∧ query b b = .error e') ∨
    ∃ log ∈ logsIn chain job.1.toNat job.2.toNat, ∃ s e', e = .log e' ∧ applyLog toLower tokens s log = .error e' := by
  obtain ⟨query, hquery, h⟩ := h
  unfold scanRange at h
  cases hfetch : RangeSplit.fetch query job.1.toNat job.2.toNat with
  | error p =>
    obtain ⟨h1, h2, h3⟩ := RangeSplit.fetch_error hle hfetch
    rw [hfetch] at h
    exact .inl ⟨p.1, p.2, ⟨h1, h2⟩, (Except.error.inj h).symm, query, hquery, h3⟩
  | ok l =>
    rw [hfetch] at h
    have hset := fetch_logs hquery hle hfetch
    have hcause : ∀ (l : List RpcLog) (s : BalanceSet × SeenSet) (e' : LogError), applyLogs toLower tokens l s = .error e' →
        ∃ log ∈ l, ∃ s, applyLog toLower tokens s log = .error e' := by
      intro l
      induction l with
      | nil =>
        intro s e' he
        cases he
      | cons log l ih =>
        intro s e' he
        rw [applyLogs, List.foldlM_cons] at he
        cases hlog : applyLog toLower tokens s log with
        | error e'' =>
          rw [hlog] at he
          exact ⟨log, List.mem_cons_self, s, hlog.trans he⟩
        | ok t =>
          rw [hlog] at he
          obtain ⟨log', hlog', hs⟩ := ih t e' he
          exact ⟨log', List.mem_cons_of_mem _ hlog', hs⟩
    cases happly : applyLogs toLower tokens l (.empty, .empty) with
    | ok r =>
      simp [happly, Except.bind, Except.mapError] at h
    | error e' =>
      obtain ⟨log, hlog, s, hs⟩ := hcause l _ e' happly
      refine .inr ⟨log, hset ▸ List.mem_toFinset.mpr hlog, s, e', ?_, hs⟩
      simpa [happly, Except.bind, Except.mapError] using h.symm

/-- The steps of a scan: the queues have room for two ranges a worker. -/
abbrev Scans (toLower : Text → Text) (tokens : List Address) (chain : ℕ → Finset RpcLog) (rangeSize start stop : UInt64)
    (workers : ℕ) (state : ScanState ε) : Prop :=
  Runs.Reach (step (2 * workers)) (Allowed (RangeOk toLower tokens chain ε) (RangeFails toLower tokens chain))
    (WorkerPool.start (jobRanges rangeSize start stop) workers) state

theorem scan_ok (hle : start ≤ stop) (hkeys : KeysDistinct chain toLower start.toNat stop.toNat) (hw : 0 < workers)
    (h : Scans toLower tokens chain rangeSize start stop workers state) (hd : Done state)
    (hr : scanResult rangeSize start stop state = .ok r) :
    Replayed toLower (logsIn chain start.toNat stop.toNat) r := by
  unfold scanResult at hr
  cases hf : state.failure with
  | some e =>
    rw [hf] at hr
    cases hr
  | none =>
    simp only [hf] at hr
    obtain ⟨-, -, rfl⟩ := of_map_ok hr
    obtain ⟨hperm, hok⟩ := collected_of_done h hd hw hf
    have hmem : ∀ p ∈ state.collected, p.1 ∈ jobRanges rangeSize start stop := fun p hp =>
      hperm.mem_iff.mpr (List.mem_map_of_mem hp)
    have hpair := (hperm.pairwise_iff fun hpq => Disjoint.symm hpq).mp (pairwise_jobRanges hle hkeys)
    have hfold := replayed_foldl (fun job => logsIn chain job.1.toNat job.2.toNat) (A := ∅)
      (List.Pairwise.of_map Prod.fst (fun _ _ h => h) hpair) (fun p _ => Finset.disjoint_empty_left _)
      (fun p hp => replayed_of_rangeOk (job_le hle (hmem p hp)).1 (hkeys.of_job hle (hmem p hp)) (hok p hp)) replayed_empty
    have hset : ∅ ∪ (state.collected.map Prod.fst).toFinset.biUnion (fun job => logsIn chain job.1.toNat job.2.toNat) =
        logsIn chain start.toNat stop.toNat := by
      ext log
      rw [Finset.empty_union, ← List.toFinset_eq_of_perm _ _ hperm, Finset.mem_biUnion, mem_logsIn]
      constructor
      · rintro ⟨job, hjob, hlog⟩
        obtain ⟨b, hb, hlog⟩ := mem_logsIn.mp hlog
        exact ⟨b, (mem_jobRanges hle).mp ⟨job, List.mem_toFinset.mp hjob, hb⟩, hlog⟩
      · rintro ⟨b, hb, hlog⟩
        obtain ⟨job, hjob, hn⟩ := (mem_jobRanges hle).mpr hb
        exact ⟨job, List.mem_toFinset.mpr hjob, mem_logsIn.mpr ⟨b, hn, hlog⟩⟩
    rwa [hset] at hfold

theorem scan_error {e : ScanError ε} (hle : start ≤ stop) (hr : rangeSize ≠ 0) (hw : 0 < workers)
    (h : Scans toLower tokens chain rangeSize start stop workers state) (hd : Done state)
    (he : scanResult rangeSize start stop state = .error e) :
    (∃ b e', (start.toNat ≤ b ∧ b ≤ stop.toNat) ∧ e = .fetch b e' ∧
      ∃ query : ℕ → ℕ → Except ε (List RpcLog), Honest chain query ∧ query b b = .error e') ∨
    ∃ log ∈ logsIn chain start.toNat stop.toNat, ∃ s e', e = .log e' ∧ applyLog toLower tokens s log = .error e' := by
  unfold scanResult at he
  cases hf : state.failure with
  | some e' =>
    obtain rfl : e' = e := by simpa [hf] using he
    obtain ⟨job, hjob, hfails⟩ := failure_of_reach h hf
    have hin : ∀ b, job.1.toNat ≤ b ∧ b ≤ job.2.toNat → start.toNat ≤ b ∧ b ≤ stop.toNat := fun b hb =>
      (mem_jobRanges hle).mp ⟨job, hjob, hb⟩
    rcases rangeFails_cause (job_le hle hjob).1 hfails with ⟨b, e', hb, hrest⟩ | ⟨log, hlog, hrest⟩
    · exact .inl ⟨b, e', hin b hb, hrest⟩
    · obtain ⟨b, hb, hlog⟩ := mem_logsIn.mp hlog
      exact .inr ⟨log, mem_logsIn.mpr ⟨b, hin b hb, hlog⟩, hrest⟩
  | none =>
    have htotal : UInt64.ofNat state.collected.length = (stop - start) / rangeSize + 1 := by
      rw [← ofNat_length_jobRanges hr hle, (collected_of_done h hd hw hf).1.length_eq, List.length_map]
    simp only [hf, require, if_pos htotal] at he
    cases he

/-- The ranges of a scan hold each of its blocks once, in order, at the top of the 64 bits too, and their number is the one
that the scan expects. -/
theorem jobRanges_partition (hr : rangeSize ≠ 0) (hle : start ≤ stop) :
    ((jobRanges rangeSize start stop).flatMap fun p => List.range' p.1.toNat (p.2.toNat + 1 - p.1.toNat)) =
      List.range' start.toNat (stop.toNat + 1 - start.toNat) ∧
    (∀ p ∈ jobRanges rangeSize start stop, p.1.toNat ≤ p.2.toNat ∧ p.2.toNat < p.1.toNat + rangeSize.toNat) ∧
    UInt64.ofNat (jobRanges rangeSize start stop).length = (stop - start) / rangeSize + 1 :=
  ⟨jobRanges_blocks hle, fun _ hjob => ⟨(job_le hle hjob).1, (job_le hle hjob).2 hr⟩, ofNat_length_jobRanges hr hle⟩

theorem jobRanges_partition_top :
    ((jobRanges 4 18446744073709551610 18446744073709551615).flatMap fun p =>
      List.range' p.1.toNat (p.2.toNat + 1 - p.1.toNat)) = List.range' 18446744073709551610 6 ∧
    (∀ p ∈ jobRanges 4 18446744073709551610 18446744073709551615, p.1.toNat ≤ p.2.toNat ∧ p.2.toNat < p.1.toNat + 4) ∧
    UInt64.ofNat (jobRanges 4 18446744073709551610 18446744073709551615).length = 2 :=
  jobRanges_partition (by decide) (by decide)

/-- Seven units for account 2, minted in block 5 by token 1. -/
def mintLog : RpcLog where
  address := "0x0000000000000000000000000000000000000001".toList
  topics := [transferTopic, "0x0000000000000000000000000000000000000000000000000000000000000000".toList,
    "0x0000000000000000000000000000000000000000000000000000000000000002".toList]
  data := "0x0000000000000000000000000000000000000000000000000000000000000007".toList
  blockNumber := "0x5".toList
  transactionHash := "0xAB".toList
  logIndex := "0x0".toList
  removed := false

def mintChain (b : ℕ) : Finset RpcLog := if b = 5 then {mintLog} else ∅

/-- A node that refuses two blocks at once, and tells the log twice. -/
def mintQuery (a b : ℕ) : Except Unit (List RpcLog) :=
  if a < b then .error () else if a = 5 ∧ b = 5 then .ok [mintLog, mintLog] else .ok []

theorem honest_mintQuery : Honest mintChain mintQuery := by
  intro a b l h
  unfold mintQuery at h
  split_ifs at h with hlt hfive
  · obtain rfl := Except.ok.inj h
    simp [logsIn, mintChain, hfive.1, hfive.2]
  · obtain rfl := Except.ok.inj h
    ext log
    rw [mem_logsIn]
    have hnone : ¬∃ n, (a ≤ n ∧ n ≤ b) ∧ log ∈ mintChain n := by
      rintro ⟨n, hn, hlog⟩
      unfold mintChain at hlog
      split_ifs at hlog with h5
      · omega
      · simp at hlog
    simp [hnone]

theorem keysDistinct_mint : KeysDistinct mintChain id 5 6 := by
  intro b _ b' _ log hlog log' hlog' _
  unfold mintChain at hlog hlog'
  split_ifs at hlog hlog' with h5 h5'
  · exact ⟨h5.trans h5'.symm, (Finset.mem_singleton.mp hlog).trans (Finset.mem_singleton.mp hlog').symm⟩
  all_goals simp at hlog hlog'

/-- One worker scans blocks 5 and 6. -/
theorem exists_mint_scan : ∃ (state : ScanState Unit) (r : BalanceSet × SeenSet), Scans id [1] mintChain 2 5 6 1 state ∧
    Done state ∧ scanResult 2 5 6 state = .ok r := by
  have hfetch : RangeSplit.fetch mintQuery 5 6 = .ok [mintLog, mintLog] := by
    rw [RangeSplit.fetch_of_error_lt (e := ()) (by decide) (by decide),
      RangeSplit.fetch_of_ok (l := [mintLog, mintLog]) (by decide), RangeSplit.fetch_of_ok (l := []) (by decide)]
    rfl
  obtain ⟨r, hr⟩ : ∃ r, applyLogs id [1] [mintLog, mintLog] (.empty, .empty) = .ok r :=
    exists_ok_of_toBool (by decide)
  have hjobs : jobRanges 2 5 6 = [(5, 6)] := by
    rw [jobRanges, if_pos (by decide), dif_pos (by decide)]
    rfl
  have hok : RangeOk id [1] mintChain Unit (5, 6) r := by
    refine ⟨mintQuery, honest_mintQuery, ?_⟩
    change ((RangeSplit.fetch mintQuery 5 6).mapError _).bind _ = _
    rw [hfetch]
    change (applyLogs id [1] [mintLog, mintLog] (.empty, .empty)).mapError (ScanError.log (ε := Unit)) = _
    rw [hr]
    rfl
  let state : ScanState Unit := { WorkerPool.start [] 0 with closed := true, collected := [((5, 6), r)] }
  refine ⟨state, _, ?_, ⟨rfl, rfl, rfl, rfl, rfl⟩, rfl⟩
  unfold Scans
  rw [hjobs]
  refine .tail (a := .collect) (.tail (a := .leave) (.tail (a := .put 0) (.tail (a := .finish 0 r) (.tail (a := .take)
    (.tail (a := .close) (.tail (a := .send) .refl trivial rfl) trivial rfl) trivial rfl) (fun job hjob => ?_) rfl)
    trivial rfl) trivial rfl) trivial rfl
  obtain rfl := Option.some.inj hjob
  exact hok

/-- A scan comes to its end: it takes at most five steps a range and one for each worker, and is never stuck before. -/
theorem scan_ends (hw : 0 < workers) :
    (∀ actions (state : ScanState ε), Runs.run (step (2 * workers))
        (WorkerPool.start (jobRanges rangeSize start stop) workers) actions = some state →
      actions.length ≤ 5 * (jobRanges rangeSize start stop).length + workers + 1) ∧
    ∀ state : ScanState ε, Scans toLower tokens chain rangeSize start stop workers state → ¬Done state →
      ∃ a, Allowed (RangeOk toLower tokens chain ε) (RangeFails toLower tokens chain) state a ∧
        (step (2 * workers) state a).isSome := by
  constructor
  · intro actions state h
    have hle := length_le_weight h
    have hstart : (WorkerPool.start (jobRanges rangeSize start stop) workers : ScanState ε).weight =
        5 * (jobRanges rangeSize start stop).length + workers + 1 := by
      simp only [State.weight, WorkerPool.start, List.length_nil]
      simp
      omega
    omega
  · intro state _ hd
    refine exists_step (by omega) (fun job => ?_) hd
    -- a node that refuses nothing answers every range
    let query : ℕ → ℕ → Except ε (List RpcLog) := fun a b => .ok (logsIn chain a b).toList
    have hquery : Honest chain query := fun a b l hl => by
      rw [← Except.ok.inj hl, Finset.toList_toFinset]
    cases hrange : scanRange toLower tokens query job with
    | ok r => exact .inl ⟨r, query, hquery, hrange⟩
    | error e => exact .inr ⟨e, query, hquery, hrange⟩

theorem scan_ends_mint :
    (∀ actions (state : ScanState Unit),
      Runs.run (step (2 * 1)) (WorkerPool.start (jobRanges 2 5 6) 1) actions = some state →
      actions.length ≤ 5 * (jobRanges 2 5 6).length + 1 + 1) ∧
    ∃ a, Allowed (RangeOk id [1] mintChain Unit) (RangeFails id [1] mintChain)
      (WorkerPool.start (jobRanges 2 5 6) 1 : ScanState Unit) a ∧
      (step (2 * 1) (WorkerPool.start (jobRanges 2 5 6) 1 : ScanState Unit) a).isSome := by
  obtain ⟨hbound, hsteps⟩ := @scan_ends Unit id [1] mintChain 2 5 6 1 (by decide)
  exact ⟨hbound, hsteps _ .refl fun hd => absurd hd.idle (by decide)⟩

end HarmonyMigration.TokenHolders
