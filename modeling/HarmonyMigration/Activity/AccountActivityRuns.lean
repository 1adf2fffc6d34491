import HarmonyMigration.Activity.AccountActivityRpcExact

/-! Chunks, checkpoints and interrupted runs: what a run finds recorded is already what it would record. -/

namespace HarmonyMigration.AccountActivity

open Airdrop.One1 Decimal Except Slices FirstPage

section Chunk
variable {u : Lower} {job : Job} {args : Args} {m : Memory} {addresses chunk : List Text}

theorem Serves.collectSources_ok (hserves : Serves u job) (henough : EnoughPages job args)
    (hm : CacheOk u job m.canonical) (hsub : ∀ a ∈ addresses, a ∈ job.candidates) (hnodup : addresses.Nodup)
    {kinds : List Kind} (hkinds : ∀ kind ∈ kinds, kind ∈ job.kinds) :
    ∃ sources m', collectSources u job args addresses kinds m = .ok (sources, m') ∧ CacheOk u job m'.canonical ∧
      ∀ a ∈ addresses, sources.mapM (fun source => ofOption (source.get? a) Error.missingResult) =
        .ok (kinds.map fun kind => (job.entries u kind a).argmax activitySortKey) := by
  induction kinds generalizing m with
  | nil => exact ⟨[], m, rfl, hm, fun _ _ => rfl⟩
  | cons kind kinds ih =>
    obtain ⟨hkind, hkinds⟩ := List.forall_mem_cons.mp hkinds
    obtain ⟨results, m', hsource, hm', hresults⟩ := hserves.collectSource_ok hkind henough hm hsub hnodup
    obtain ⟨sources, m'', hrest, hm'', hsources⟩ := ih hm' hkinds
    refine ⟨results :: sources, m'', ?_, hm'', fun a ha => ?_⟩
    · rw [collectSources, hsource, bind_ok_left]
      dsimp only
      rw [hrest]
      rfl
    · rw [List.mapM_cons, hresults a ha, hsources a ha]
      rfl

/-- The records with those of the chunk. -/
def Job.recorded (u : Lower) (job : Job) (records : Records) (chunk : List Text) : Records :=
  chunk.foldl (fun d a => d.insert a (job.lastActivity u a)) records

theorem recordOne_run {sources : List (Dict Text (Option Activity))} {chunk : List Text} {records : Records}
    (hsources : ∀ a ∈ chunk, sources.mapM (fun source => ofOption (source.get? a) Error.missingResult) =
      .ok (job.kinds.map fun kind => (job.entries u kind a).argmax activitySortKey)) :
    chunk.foldlM (recordOne sources) records = .ok (job.recorded u records chunk) := by
  induction chunk generalizing records with
  | nil => rfl
  | cons a chunk ih =>
    obtain ⟨ha, hchunk⟩ := List.forall_mem_cons.mp hsources
    have hone : recordOne sources records a = .ok (records.insert a (job.lastActivity u a)) := by
      rw [recordOne, ha, ← combine_eq]
      rfl
    rw [List.foldlM_cons, hone]
    exact ih hchunk

theorem Serves.collectChunk_ok (hserves : Serves u job) (henough : EnoughPages job args) {s : Session}
    (hm : CacheOk u job s.memory.canonical) (hsub : ∀ a ∈ chunk, a ∈ job.candidates) (hnodup : chunk.Nodup) :
    ∃ s', collectChunk u job args s chunk = .ok s' ∧ CacheOk u job s'.memory.canonical ∧
      s'.records = job.recorded u s.records chunk := by
  obtain ⟨sources, m', hcollect, hm', hsources⟩ :=
    hserves.collectSources_ok henough hm hsub hnodup fun _ hkind => hkind
  refine ⟨⟨job.recorded u s.records chunk, m'⟩, ?_, hm', rfl⟩
  rw [collectChunk, hcollect, bind_ok_left]
  dsimp only
  rw [recordOne_run hsources]
  rfl

end Chunk

/-! ### Checkpoints -/

section Checkpoints
variable {u : Lower} {job : Job} {args : Args} {disk : Option Checkpoint} {s : Session}

/-- Every record is that of a candidate, and is its last activity. -/
def RecordsOk (u : Lower) (job : Job) (d : Records) : Prop :=
  ∀ a, ∀ r ∈ d.get? a, a ∈ job.candidates ∧ r = job.lastActivity u a

/-- The checkpoint, if there is one, is of runs of this page size. -/
def DiskOk (u : Lower) (job : Job) (args : Args) (disk : Option Checkpoint) : Prop :=
  ∀ c ∈ disk, c.config = checkpointConfig job args ∧ RecordsOk u job c.records

theorem get?_recorded (records : Records) (chunk : List Text) (a : Text) : (job.recorded u records chunk).get? a =
    if a ∈ chunk then some (job.lastActivity u a) else records.get? a := by
  rw [Job.recorded, get?_foldl_insert]
  congr

theorem mem_keys_iff {d : Records} {a : Text} : a ∈ d.keys ↔ d.get? a ≠ none := by
  rw [ne_eq, Dict.get?_eq_none_iff, not_not]

theorem RecordsOk.recorded {d : Records} (h : RecordsOk u job d) {chunk : List Text}
    (hsub : ∀ a ∈ chunk, a ∈ job.candidates) : RecordsOk u job (job.recorded u d chunk) := by
  intro a r hr
  rw [get?_recorded] at hr
  split_ifs at hr with hmem
  · exact ⟨hsub a hmem, (Option.some.inj hr).symm⟩
  · exact h a r hr

theorem mem_keys_recorded {d : Records} {chunk : List Text} {a : Text} :
    a ∈ (job.recorded u d chunk).keys ↔ a ∈ d.keys ∨ a ∈ chunk := by
  rw [mem_keys_iff, mem_keys_iff, get?_recorded]
  by_cases hmem : a ∈ chunk <;> simp [hmem]

/-- Over any chunks of candidates: all are recorded, and the checkpoint stays right. -/
theorem Serves.runChunks_ok (hserves : Serves u job) (henough : EnoughPages job args)
    (hm : CacheOk u job s.memory.canonical) (hrecords : RecordsOk u job s.records) (hdisk : DiskOk u job args disk)
    {pieces : List (List Text)} (hsub : ∀ piece ∈ pieces, ∀ a ∈ piece, a ∈ job.candidates)
    (hnodup : ∀ piece ∈ pieces, piece.Nodup) :
    ∃ s', (runChunks u job args pieces s disk).2 = .ok s' ∧ RecordsOk u job s'.records ∧
      (∀ a, a ∈ s'.records.keys ↔ a ∈ s.records.keys ∨ a ∈ pieces.flatten) ∧
      DiskOk u job args (runChunks u job args pieces s disk).1 := by
  induction pieces generalizing s disk with
  | nil => exact ⟨s, rfl, hrecords, by simp, hdisk⟩
  | cons piece pieces ih =>
    obtain ⟨hpiece, hsub⟩ := List.forall_mem_cons.mp hsub
    obtain ⟨hpieceNodup, hnodup⟩ := List.forall_mem_cons.mp hnodup
    obtain ⟨t, hchunk, ht, hrecorded⟩ := hserves.collectChunk_ok henough hm hpiece hpieceNodup
    have hok : RecordsOk u job t.records := by
      rw [hrecorded]
      exact hrecords.recorded hpiece
    have hstored : DiskOk u job args (some ⟨checkpointConfig job args, t.records⟩) := by
      intro c hc
      obtain rfl := Option.some.inj hc
      exact ⟨rfl, hok⟩
    obtain ⟨s', hrun, hs', hkeys, hdisk'⟩ := ih ht hok hstored hsub hnodup
    have hstep : runChunks u job args (piece :: pieces) s disk =
        runChunks u job args pieces t (some ⟨checkpointConfig job args, t.records⟩) := by
      rw [runChunks, hchunk]
    rw [hstep]
    refine ⟨s', hrun, hs', fun a => ?_, hdisk'⟩
    rw [hkeys, hrecorded, mem_keys_recorded, List.flatten_cons, List.mem_append, or_assoc]

theorem flatten_chunks {α : Type} {step : ℕ} (h : 0 < step) (xs : List α) : (chunks step xs).flatten = xs := by
  induction xs using drop_induction h with
  | nil => rw [chunks_nil h]; rfl
  | cut xs hne ih => rw [chunks_cons h hne, List.flatten_cons, ih, List.take_append_drop]

/-- What a run starts from: its checkpoint, and the remaining candidates in chunks. -/
theorem Serves.prepare_ok (hserves : Serves u job) (hdisk : DiskOk u job args disk) :
    ∃ s pieces, prepare u job args disk = .ok (s, pieces) ∧ CacheOk u job s.memory.canonical ∧
      RecordsOk u job s.records ∧ pieces.flatten = job.candidates.filter (· ∉ s.records.keys) := by
  obtain ⟨b, hb, -, -⟩ := hserves.blocks job.snapshot.block le_rfl
  have hcutoff : u.lower b.hash = job.snapshot.hash := by
    rw [← hserves.cutoff, Job.hashAt, hb]
    rfl
  have hload : ∃ records, loadCheckpoint disk (checkpointConfig job args) = .ok records ∧ RecordsOk u job records := by
    cases disk with
    | none => exact ⟨.empty, rfl, fun a r hr => nomatch hr⟩
    | some c =>
      obtain ⟨hconfig, hrecords⟩ := hdisk c rfl
      refine ⟨c.records, ?_, hrecords⟩
      rw [loadCheckpoint, require, if_pos hconfig]
      rfl
  obtain ⟨records, hload, hrecords⟩ := hload
  have hknown : ∀ a ∈ records.keys, a ∈ job.candidates := by
    intro a ha
    cases hget : records.get? a with
    | none => exact absurd ha (Dict.get?_eq_none_iff.mp hget)
    | some r => exact (hrecords a r hget).1
  refine ⟨⟨records, ⟨Dict.ofList [(job.snapshot.block, job.snapshot.hash)], 0⟩⟩,
    chunks args.chunkSize (job.candidates.filter (· ∉ records.keys)), ?_, ?_, hrecords, flatten_chunks args.chunkSize_pos _⟩
  · rw [prepare, ofOption_bind_ok]
    refine ⟨b, hb, ?_⟩
    rw [require_bind_ok]
    refine ⟨hcutoff, ?_⟩
    rw [hload, bind_ok_left, require, if_pos hknown]
    rfl
  · intro n h hh
    have hentries : (Dict.ofList [(job.snapshot.block, job.snapshot.hash)]).entries =
        [(job.snapshot.block, job.snapshot.hash)] := Dict.entries_ofList (List.nodup_singleton _)
    rw [Option.mem_def, Dict.get?_eq_some_iff, hentries, List.mem_singleton] at hh
    obtain ⟨rfl, rfl⟩ := Prod.mk.inj hh
    exact hserves.cutoff.symm

/-- Pieces of what remains. -/
theorem pieces_ok {pieces : List (List Text)} {records : Records}
    (hpieces : pieces.flatten = job.candidates.filter (· ∉ records.keys)) :
    (∀ piece ∈ pieces, ∀ a ∈ piece, a ∈ job.candidates) ∧ ∀ piece ∈ pieces, piece.Nodup := by
  have hnodup : pieces.flatten.Nodup := hpieces ▸ job.nodup.filter _
  refine ⟨fun piece hpiece a ha => ?_, (List.nodup_flatten.mp hnodup).1⟩
  have hmem : a ∈ pieces.flatten := List.mem_flatten.mpr ⟨piece, hpiece, ha⟩
  rw [hpieces] at hmem
  exact List.mem_of_mem_filter hmem

theorem Serves.killedRun_ok (hserves : Serves u job) (henough : EnoughPages job args) (hdisk : DiskOk u job args disk)
    (n : ℕ) : DiskOk u job args (killedRun u job args n disk) := by
  obtain ⟨s, pieces, hprepare, hm, hrecords, hpieces⟩ := hserves.prepare_ok hdisk
  obtain ⟨hsub, hnodup⟩ := pieces_ok hpieces
  obtain ⟨-, -, -, -, hleft⟩ := hserves.runChunks_ok henough hm hrecords hdisk
    (fun piece hpiece => hsub piece (List.mem_of_mem_take hpiece))
    (fun piece hpiece => hnodup piece (List.mem_of_mem_take hpiece))
  rw [killedRun, hprepare]
  exact hleft

theorem Serves.main_ok (hserves : Serves u job) (henough : EnoughPages job args) (hdisk : DiskOk u job args disk) :
    ∃ records, main u job args disk = .ok records ∧
      ∀ a, records.get? a = if a ∈ job.candidates then some (job.lastActivity u a) else none := by
  obtain ⟨s, pieces, hprepare, hm, hrecords, hpieces⟩ := hserves.prepare_ok hdisk
  obtain ⟨hsub, hnodup⟩ := pieces_ok hpieces
  obtain ⟨s', hrun, hs', hkeys, -⟩ := hserves.runChunks_ok henough hm hrecords hdisk hsub hnodup
  have hknown : ∀ a ∈ s'.records.keys, a ∈ job.candidates := by
    intro a ha
    cases hget : s'.records.get? a with
    | none => exact absurd ha (Dict.get?_eq_none_iff.mp hget)
    | some r => exact (hs' a r hget).1
  have hall : ∀ a ∈ job.candidates, a ∈ s'.records.keys := by
    intro a ha
    rw [hkeys, hpieces]
    by_cases hold : a ∈ s.records.keys
    · exact .inl hold
    · exact .inr (List.mem_filter.mpr ⟨ha, by simpa using hold⟩)
  refine ⟨s'.records, ?_, fun a => ?_⟩
  · rw [main, hprepare, bind_ok_left]
    dsimp only
    rw [hrun, bind_ok_left, require, if_pos ⟨hknown, hall⟩]
    rfl
  · by_cases ha : a ∈ job.candidates
    · rw [if_pos ha]
      cases hget : s'.records.get? a with
      | none => exact absurd (hall a ha) (Dict.get?_eq_none_iff.mp hget)
      | some r => rw [(hs' a r hget).2]
    · rw [if_neg ha]
      exact Dict.get?_eq_none_iff.mpr fun hmem => ha (hknown a hmem)

end Checkpoints

/-- What a sequence of killed runs leaves on disk. -/
def afterKills (u : Lower) (job : Job) (kills : List (Args × ℕ)) : Option Checkpoint :=
  kills.foldl (fun disk kill => killedRun u job kill.1 kill.2 disk) none

theorem diskOk_afterKills {u : Lower} {job : Job} (hserves : Serves u job) {args : Args} {kills : List (Args × ℕ)}
    (hkills : ∀ kill ∈ kills, kill.1.pageSize = args.pageSize ∧ EnoughPages job kill.1) :
    DiskOk u job args (afterKills u job kills) := by
  have hrun : ∀ (kills : List (Args × ℕ)) (disk : Option Checkpoint),
      (∀ kill ∈ kills, kill.1.pageSize = args.pageSize ∧ EnoughPages job kill.1) → DiskOk u job args disk →
      DiskOk u job args (kills.foldl (fun disk kill => killedRun u job kill.1 kill.2 disk) disk) := by
    intro kills
    induction kills with
    | nil => exact fun _ _ hdisk => hdisk
    | cons kill kills ih =>
      intro disk hkills hdisk
      obtain ⟨⟨hsize, henough⟩, hkills⟩ := List.forall_mem_cons.mp hkills
      have hconfig : checkpointConfig job kill.1 = checkpointConfig job args := by
        unfold checkpointConfig
        rw [hsize]
      have hhere : DiskOk u job kill.1 disk := fun c hc => ⟨(hdisk c hc).1.trans hconfig.symm, (hdisk c hc).2⟩
      have hleft := hserves.killedRun_ok henough hhere kill.2
      exact ih _ hkills fun c hc => ⟨(hleft c hc).1.trans hconfig, (hleft c hc).2⟩
  exact hrun kills none hkills nofun

/-- After any interruptions a run ends and records the last activity of every candidate, whatever the page size, the
chunk sizes and the page limits. -/
theorem activity_resumed {u : Lower} {job : Job} (hserves : Serves u job) {args : Args} (henough : EnoughPages job args)
    {kills : List (Args × ℕ)} (hkills : ∀ kill ∈ kills, kill.1.pageSize = args.pageSize ∧ EnoughPages job kill.1) :
    ∃ records, main u job args (afterKills u job kills) = .ok records ∧
      ∀ a, records.get? a = if a ∈ job.candidates then some (job.lastActivity u a) else none :=
  hserves.main_ok henough (diskOk_afterKills hserves hkills)

/-! ### Two candidates, one of them with late and stale entries -/

def sampleHash (block : ℕ) : Text := hexPrefix ++ Nat.toDigits 10 block

/-- A transaction of the block, which may name the hash of another one. -/
def sampleTx (block named : ℕ) (hash : Char) : Transaction where
  blockNumber := block
  timestamp := 10 * block
  hash := hexPrefix ++ [hash]
  ethHash := []
  blockHash := sampleHash named
  transactionIndex := 0

/-- The first candidate was active after the cutoff block 9, in a block 8 that was replaced, and in the blocks 7 and 5. -/
def sampleJob : Job where
  node := {
    history := fun kind a => if kind = .regular ∧ a = ['0', 'x', 'a'] then
      [hexPrefix ++ ['f'], hexPrefix ++ ['e'], hexPrefix ++ ['d'], hexPrefix ++ ['c']] else []
    transaction := fun _ h =>
      if h = hexPrefix ++ ['f'] then some (sampleTx 12 12 'f')
      else if h = hexPrefix ++ ['e'] then some (sampleTx 8 80 'e')
      else if h = hexPrefix ++ ['d'] then some (sampleTx 7 7 'd')
      else if h = hexPrefix ++ ['c'] then some (sampleTx 5 5 'c')
      else none
    block := fun n => some ⟨n, sampleHash n⟩ }
  rpc := []
  inputSha256 := []
  manifestSha256 := []
  shard := 0
  snapshot := ⟨95, 9, sampleHash 9⟩
  candidates := [['0', 'x', 'a'], ['0', 'x', 'b']]
  nodup := by decide

def sampleArgs (chunkSize : ℕ) (h : 0 < chunkSize) : Args := ⟨2, chunkSize, 3, by decide, h, by decide⟩

theorem resolves_of_all {u : Lower} {job : Job} {kind : Kind} {h : Text}
    (hall : ((job.node.transaction kind h).any fun tx => u.lower h ∈ [u.lower tx.hash, u.lower tx.ethHash] ∧
      hexPrefix <+: tx.hash ∧ hexPrefix <+: tx.blockHash) = true) : ∃ tx, Resolves u job kind h tx := by
  cases htx : job.node.transaction kind h with
  | none =>
    rw [htx] at hall
    cases hall
  | some tx =>
    rw [htx, Option.any_some, decide_eq_true_iff] at hall
    exact ⟨tx, htx, hall.1, hall.2.1, hall.2.2⟩

theorem sampleJob_serves : Serves asciiLower sampleJob where
  listed := by
    have hall : ∀ kind ∈ sampleJob.kinds, ∀ a ∈ sampleJob.candidates, ∀ h ∈ sampleJob.node.history kind a,
        hexPrefix <+: h ∧ ((sampleJob.node.transaction kind h).any fun tx =>
          asciiLower.lower h ∈ [asciiLower.lower tx.hash, asciiLower.lower tx.ethHash] ∧ hexPrefix <+: tx.hash ∧
            hexPrefix <+: tx.blockHash) = true := by
      decide +kernel
    intro kind hkind a ha h hh
    exact ⟨(hall kind hkind a ha h hh).1, resolves_of_all (hall kind hkind a ha h hh).2⟩
  blocks := fun n _ => ⟨⟨n, sampleHash n⟩, rfl, rfl, ⟨(Nat.toDigits 10 n).map Char.toLower, rfl⟩⟩
  cutoff := by decide +kernel
  newestFirst := by
    intro kind hkind a ha
    have hordered : ∀ kind ∈ sampleJob.kinds, ∀ a ∈ sampleJob.candidates,
        (sampleJob.transactions kind a).Pairwise fun x y =>
          y.blockNumber < x.blockNumber ∨ y.blockNumber = x.blockNumber ∧ y.transactionIndex ≤ x.transactionIndex := by
      decide +kernel
    have htimes : ∀ kind ∈ sampleJob.kinds, ∀ a ∈ sampleJob.candidates, ∀ x ∈ sampleJob.transactions kind a,
        ∀ y ∈ sampleJob.transactions kind a, x.blockNumber ≤ y.blockNumber → x.timestamp ≤ y.timestamp := by
      decide +kernel
    have hplaces : ∀ kind ∈ sampleJob.kinds, ∀ a ∈ sampleJob.candidates, ∀ x ∈ sampleJob.transactions kind a,
        ∀ y ∈ sampleJob.transactions kind a, x.blockNumber = y.blockNumber →
          asciiLower.lower x.hash = asciiLower.lower y.hash := by
      decide +kernel
    exact ⟨hordered kind hkind a ha, fun x hx y hy _ _ => htimes kind hkind a ha x hx y hy,
      fun x hx y hy _ _ hblock _ => hplaces kind hkind a ha x hx y hy hblock⟩

theorem sampleArgs_enough (chunkSize : ℕ) (h : 0 < chunkSize) : EnoughPages sampleJob (sampleArgs chunkSize h) := by
  have hlength : ∀ kind ∈ sampleJob.kinds, ∀ a ∈ sampleJob.candidates, (sampleJob.node.history kind a).length / 2 < 3 := by
    decide +kernel
  exact hlength

/-- One run is killed before its first checkpoint, another after it; the third run ends. -/
theorem sample_resumed :
    (∃ records, main asciiLower sampleJob (sampleArgs 5 (by decide))
        (afterKills asciiLower sampleJob [(sampleArgs 2 (by decide), 0), (sampleArgs 1 (by decide), 1)]) = .ok records ∧
      ∀ a, records.get? a = if a ∈ sampleJob.candidates then some (sampleJob.lastActivity asciiLower a) else none) ∧
    (sampleJob.lastActivity asciiLower ['0', 'x', 'a']).map Activity.block = some 7 := by
  refine ⟨activity_resumed sampleJob_serves (sampleArgs_enough 5 (by decide)) ?_, by decide +kernel⟩
  intro kill hkill
  rcases List.mem_cons.mp hkill with rfl | hkill
  · exact ⟨rfl, sampleArgs_enough 2 (by decide)⟩
  · obtain rfl := List.mem_singleton.mp hkill
    exact ⟨rfl, sampleArgs_enough 1 (by decide)⟩

end HarmonyMigration.AccountActivity
