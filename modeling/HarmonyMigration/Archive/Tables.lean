import HarmonyMigration.Archive.Build

/-! What the archive's tables hold: one row for each key of the runs' files, whatever a resumed stage repeated. -/

namespace HarmonyMigration.Archive

open Except Decimal KeepFirst
open scoped List

/-- One row for each key of `keys`, each copied from a file. -/
structure OneRowPer {ρ κ : Type} (key : ρ → κ) (keys : κ → Prop) (copied : ρ → Prop) (rows : List ρ) : Prop where
  nodup : (rows.map key).Nodup
  keys : ∀ k, k ∈ rows.map key ↔ keys k
  copied : ∀ r ∈ rows, copied r

/-- `by_group`: the groups that have rows, with their counts. -/
def CountsRows {ρ : Type} (group : ρ → Text) (t : TableOut ρ) : Prop :=
  ∀ g n, (g, n) ∈ t.byGroup ↔ 0 < n ∧ n = (t.rows.filter fun r => group r = g).length

/-! ### A written table -/

section Table
variable {κ ρ : Type} [DecidableEq κ] {sk : ρ → Except Error SortKey} {es : List (Entry κ ρ Text)} {t : TableOut ρ}

theorem sortRows_perm {rows sorted : List ρ} (h : sortRows sk rows = .ok sorted) : sorted ~ rows := by
  obtain ⟨keyed, hkeyed, rfl⟩ := of_map_ok h
  have hrows : rows.map id = keyed.map Prod.snd := by
    refine map_eq_of_forall₂ (forall₂_of_mapM_ok hkeyed) fun row k hk => ?_
    obtain ⟨k', -, rfl⟩ := of_map_ok hk
    rfl
  rw [List.map_id] at hrows
  rw [hrows]
  exact (List.perm_insertionSort _ keyed).map Prod.snd

theorem writeTable_fill (h : writeTable sk (Table.empty.fill es) = .ok t) (key : ρ → κ) (group : ρ → Text)
    (hkey : ∀ e ∈ es, key e.row = e.key) (hgroup : ∀ e ∈ es, group e.row = e.group) :
    OneRowPer key (fun k => k ∈ es.map Entry.key) (fun r => ∃ e ∈ es, e.row = r) t.rows ∧ CountsRows group t := by
  obtain ⟨sorted, hsorted, rfl⟩ := of_map_ok h
  obtain ⟨kept, hkept⟩ := exists_holds es
  have hperm := sortRows_perm hsorted
  have hkeys : (Table.empty.fill es).rows.map key = kept.map Entry.key := by
    rw [hkept.rows, List.map_map]
    exact List.map_congr_left fun e he => hkey e (hkept.sub e he)
  refine ⟨⟨?_, fun k => ?_, fun r hr => ?_⟩, fun g n => ?_⟩
  · rw [(hperm.map key).nodup_iff, hkeys]
    exact hkept.nodup
  · rw [(hperm.map key).mem_iff, hkeys, hkept.keys]
  · rw [hperm.mem_iff, hkept.rows] at hr
    obtain ⟨e, he, rfl⟩ := List.mem_map.mp hr
    exact ⟨e, hkept.sub e he, rfl⟩
  · have hcount : (sorted.filter fun r => group r = g).length = (kept.filter fun e => e.group = g).length := by
      rw [(hperm.filter _).length_eq, hkept.rows, List.filter_map, List.length_map]
      refine congrArg List.length (List.filter_congr fun e he => ?_)
      simp only [Function.comp_apply, hgroup e (hkept.sub e he)]
    rw [List.mem_insertionSort, hkept.mem_counts, hcount]

end Table

/-! ### The rows of the files -/

/-- What tells the outgoing receipts of a branch apart. -/
structure ReceiptIdentity where
  fromShard : Text
  blockNumber : Text
  txHash : Text
  mechanism : Text
  toShard : Text
  sender : Text
  recipient : Text
  valueAtto : Text
  deriving DecidableEq

def ReceiptRow.identity (r : ReceiptRow) : ReceiptIdentity :=
  ⟨r.fromShard, r.blockNumber, r.txHash, r.mechanism, r.toShard, r.sender, r.recipient, r.valueAtto⟩

/-- The receipt stands in the `outgoing-receipts.csv` of a run of the branch, with at least the run's minimum. -/
def Listed (i : Input) (branch : Text) (r : ReceiptRow) : Prop :=
  ∃ f ∈ i.runs, f.identity.branch = branch ∧ (∃ x ∈ f.receipts, r ∈ x.2.2) ∧
    ∃ minimum ∈ parseInt f.identity.minValueAtto, ∃ value ∈ parseInt r.valueAtto, minimum ≤ value

/-- The rows of a completed `internal/` stage. -/
def RunFiles.internalRows (f : RunFiles) : List InternalRow :=
  ((f.internal.filter fun x => x.2.1).map fun x => x.2.2).getD []

/-- The columns that the destinations files record for the receipt. -/
def Recorded (destinations : List DestinationRow) (r : ReceiptRow) (d : Destination) : Prop :=
  (∃ x ∈ destinations, x.receipt.identity = r.identity ∧ x.destination = d) ∨
    (∀ x ∈ destinations, x.receipt.identity ≠ r.identity) ∧ d = unmapped

structure TablesExact (i : Input) (o : Tables) : Prop where
  transactions : OneRowPer (fun r : TransactionOut => (r.shard, r.branch, r.row.txHash))
    (fun k => ∃ f ∈ i.runs, ∃ row ∈ f.transactions, k = (f.identity.shard, f.identity.branch, row.txHash))
    (fun r => ∃ f ∈ i.runs, r.shard = f.identity.shard ∧ r.branch = f.identity.branch ∧ r.row ∈ f.transactions)
    o.transactions.rows
  staking : OneRowPer (fun r : StakingOut => (r.shard, r.branch, r.row.txHash))
    (fun k => ∃ f ∈ i.runs, ∃ row ∈ f.staking, k = (f.identity.shard, f.identity.branch, row.txHash))
    (fun r => ∃ f ∈ i.runs, r.shard = f.identity.shard ∧ r.branch = f.identity.branch ∧ r.row ∈ f.staking)
    o.staking.rows
  internal : OneRowPer (fun r : InternalOut => (r.shard, r.branch, r.row.blockNumber, r.row.txIndex, r.row.traceAddress))
    (fun k => ∃ f ∈ i.runs, ∃ row ∈ f.internalRows,
      k = (f.identity.shard, f.identity.branch, row.blockNumber, row.txIndex, row.traceAddress))
    (fun r => ∃ f ∈ i.runs, r.shard = f.identity.shard ∧ r.branch = f.identity.branch ∧ r.row ∈ f.internalRows)
    o.internalTransfers.rows
  crossShard : OneRowPer (fun r : CrossShardOut => (r.branch, r.receipt.identity))
    (fun k => ∃ branch r, Listed i branch r ∧ k = (branch, r.identity)) (fun r => Listed i r.branch r.receipt)
    o.crossShard.rows
  joined : ∀ r ∈ o.crossShard.rows, Recorded i.destinations r.receipt r.destination
  counts : CountsRows (fun r => shardGroup r.shard r.branch) o.transactions ∧
    CountsRows (fun r => shardGroup r.shard r.branch) o.staking ∧
    CountsRows (fun r => shardGroup r.shard r.branch) o.internalTransfers ∧
    CountsRows (fun r => directionGroup r.branch r.receipt) o.crossShard

/-- No two listed receipts of a branch and a source shard share a transaction. -/
def OneReceiptPerTransaction (i : Input) : Prop :=
  ∀ branch r r', Listed i branch r → Listed i branch r' → r.fromShard = r'.fromShard → r.txHash = r'.txHash →
    r.identity = r'.identity

/-- Of the destinations rows with the receipt's shard and transaction, the last has the receipt's own columns. -/
def LastRowAgrees (i : Input) : Prop :=
  ∀ branch r, Listed i branch r →
    ∀ x ∈ (i.destinations.filter fun x => x.receipt.fromShard = r.fromShard ∧ x.receipt.txHash = r.txHash).getLast?,
      Recorded i.destinations r x.destination

/-! ### A run of the program -/

variable {i : Input} {o : Tables}

theorem int_ok {text : Text} {z : ℤ} (h : int text = .ok z) : parseInt text = some z := by
  unfold int at h
  cases hp : parseInt text with
  | none => simp [hp] at h
  | some n =>
    rw [hp] at h
    exact congrArg some (Except.ok.inj h)

/-- What `load_run` keeps of a run's files. -/
structure Loaded (f : RunFiles) (run : Run) : Prop where
  identity : run.identity = f.identity
  internal : run.internal.getD [] = f.internalRows
  receipts : ∃ x ∈ f.receipts, x.2.2 = run.receipts
  transactions : run.transactions = f.transactions
  staking : run.staking = f.staking

theorem loadRun_ok {args : Args} {f : RunFiles} {run : Run} (h : loadRun args f = .ok run) : Loaded f run := by
  unfold loadRun at h
  simp only [require_bind_ok] at h
  obtain ⟨-, -, -, h⟩ := h
  cases hreceipts : f.receipts with
  | none => simp [hreceipts] at h
  | some x =>
    obtain ⟨scan, unexplained, receipts⟩ := x
    simp only [hreceipts, require_bind_ok] at h
    obtain ⟨u, -, rfl⟩ := of_map_ok h.2.2
    exact ⟨rfl, rfl, ⟨_, hreceipts, rfl⟩, rfl, rfl⟩

/-- Entries made of the rows `g` of the files, as `E` says. -/
structure Emitted {α κ ρ : Type} (i : Input) (g : RunFiles → List α) (E : RunFiles → α → Entry κ ρ Text → Prop)
    (es : List (Entry κ ρ Text)) : Prop where
  sound : ∀ e ∈ es, ∃ f ∈ i.runs, ∃ row ∈ g f, E f row e
  complete : ∀ f ∈ i.runs, ∀ row ∈ g f, ∃ e ∈ es, E f row e

theorem Emitted.mem_keys {α κ ρ : Type} {g : RunFiles → List α} {E : RunFiles → α → Entry κ ρ Text → Prop}
    {es : List (Entry κ ρ Text)} (h : Emitted i g E es) {key : RunFiles → α → κ}
    (hkey : ∀ f row e, E f row e → e.key = key f row) (k : κ) :
    k ∈ es.map Entry.key ↔ ∃ f ∈ i.runs, ∃ row ∈ g f, k = key f row := by
  constructor
  · intro hk
    obtain ⟨e, he, rfl⟩ := List.mem_map.mp hk
    obtain ⟨f, hf, row, hrow, hE⟩ := h.sound e he
    exact ⟨f, hf, row, hrow, hkey f row e hE⟩
  · rintro ⟨f, hf, row, hrow, rfl⟩
    obtain ⟨e, he, hE⟩ := h.complete f hf row hrow
    exact List.mem_map.mpr ⟨e, he, hkey f row e hE⟩

/-- The entries of all runs, each made for its run. -/
theorem emitted_of_runs {α κ ρ : Type} {g : RunFiles → List α} {E : RunFiles → α → Entry κ ρ Text → Prop}
    {runs : List Run} {ess : List (List (Entry κ ρ Text))} (hruns : List.Forall₂ Loaded i.runs runs)
    (hess : List.Forall₂ (fun run es => ∀ f, Loaded f run →
      (∀ e ∈ es, ∃ row ∈ g f, E f row e) ∧ ∀ row ∈ g f, ∃ e ∈ es, E f row e) runs ess) :
    Emitted i g E ess.flatten := by
  constructor
  · intro e he
    obtain ⟨es, hes, he⟩ := List.mem_flatten.mp he
    obtain ⟨run, hrun, hE⟩ := ok_of_mem_right hess hes
    obtain ⟨f, hf, hload⟩ := ok_of_mem_right hruns hrun
    obtain ⟨row, hrow, h⟩ := (hE f hload).1 e he
    exact ⟨f, hf, row, hrow, h⟩
  · intro f hf row hrow
    obtain ⟨run, hrun, hload⟩ := ok_of_mem_left hruns hf
    obtain ⟨es, hes, hE⟩ := ok_of_mem_left hess hrun
    obtain ⟨e, he, h⟩ := (hE f hload).2 row hrow
    exact ⟨e, List.mem_flatten.mpr ⟨es, hes, he⟩, h⟩

/-- Entries that a map makes. -/
theorem emitted_of_map {α κ ρ : Type} {g : RunFiles → List α} {g' : Run → List α} {entry : Run → α → Entry κ ρ Text}
    {E : RunFiles → α → Entry κ ρ Text → Prop} {runs : List Run} (hruns : List.Forall₂ Loaded i.runs runs)
    (hg : ∀ f run, Loaded f run → g' run = g f) (hE : ∀ f run row, Loaded f run → E f row (entry run row)) :
    Emitted i g E (runs.map fun run => (g' run).map (entry run)).flatten := by
  refine emitted_of_runs hruns (List.forall₂_map_right_iff.mpr (List.forall₂_same.mpr fun run _ f hload => ⟨?_, ?_⟩))
  · intro e he
    obtain ⟨row, hrow, rfl⟩ := List.mem_map.mp he
    exact ⟨row, hg f run hload ▸ hrow, hE f run row hload⟩
  · intro row hrow
    exact ⟨entry run row, List.mem_map_of_mem (hg f run hload ▸ hrow), hE f run row hload⟩

theorem transactionEntry_ok {args : Args} {f : RunFiles} {run : Run} (hload : Loaded f run) {row : TransactionRow}
    {e : Entry (ℕ × Text × Text) TransactionOut Text} (h : run.transactionEntry args row = .ok e) :
    e.key = (f.identity.shard, f.identity.branch, row.txHash) ∧ e.row.shard = f.identity.shard ∧
      e.row.branch = f.identity.branch ∧ e.row.row = row ∧ e.group = shardGroup f.identity.shard f.identity.branch := by
  unfold Run.transactionEntry at h
  obtain ⟨bytes, -, h⟩ := of_bind_ok h
  rw [require_bind_ok] at h
  obtain ⟨gasUsed, -, h⟩ := of_bind_ok h.2
  obtain ⟨gasPrice, -, rfl⟩ := of_map_ok h
  rw [hload.identity]
  exact ⟨rfl, rfl, rfl, rfl, rfl⟩

theorem large_ok {run : Run} {minimum : ℤ} {rows : List ReceiptRow} (h : run.large minimum = .ok rows) (r : ReceiptRow) :
    r ∈ rows ↔ r ∈ run.receipts ∧ ∃ value ∈ parseInt r.valueAtto, minimum ≤ value := by
  obtain ⟨pairs, hpairs, rfl⟩ := of_map_ok h
  have hall := forall₂_of_mapM_ok hpairs
  have hpair : ∀ (row : ReceiptRow) (x : ReceiptRow × ℤ), (int row.valueAtto).map (fun value => (row, value)) = .ok x →
      x.1 = row ∧ parseInt row.valueAtto = some x.2 := fun row x hx => by
    obtain ⟨value, hvalue, rfl⟩ := of_map_ok hx
    exact ⟨rfl, int_ok hvalue⟩
  constructor
  · intro hr
    obtain ⟨x, hx, rfl⟩ := List.mem_map.mp hr
    obtain ⟨hx, hle⟩ := List.mem_filter.mp hx
    obtain ⟨row, hrow, hok⟩ := ok_of_mem_right hall hx
    obtain ⟨heq, hvalue⟩ := hpair row x hok
    rw [heq]
    exact ⟨hrow, x.2, hvalue, by simpa using hle⟩
  · rintro ⟨hr, value, hvalue, hle⟩
    obtain ⟨x, hx, hok⟩ := ok_of_mem_left hall hr
    obtain ⟨heq, hvalue'⟩ := hpair r x hok
    obtain rfl : value = x.2 := Option.some.inj (hvalue.symm.trans hvalue')
    exact List.mem_map.mpr ⟨x, List.mem_filter.mpr ⟨hx, by simpa using hle⟩, heq⟩

theorem minimumOf_ok {runs : List Run} {minimum : ℤ} (h : minimumOf runs = .ok minimum) :
    ∀ run ∈ runs, parseInt run.identity.minValueAtto = some minimum := by
  intro run hrun
  unfold minimumOf at h
  have hmem : run.identity.minValueAtto ∈ (runs.map fun run => run.identity.minValueAtto).dedup :=
    List.mem_dedup.mpr (List.mem_map_of_mem hrun)
  cases hd : (runs.map fun run => run.identity.minValueAtto).dedup with
  | nil => simp [hd] at h
  | cons m rest =>
    cases rest with
    | nil =>
      rw [hd, List.mem_singleton] at hmem
      rw [hd] at h
      rw [hmem]
      exact int_ok h
    | cons m' rest => simp [hd] at h

/-- The four tables of a successful run, before they are sorted. -/
structure BuildRun (i : Input) (o : Tables) (transactions : List (Entry (ℕ × Text × Text) TransactionOut Text))
    (internal : List (Entry (ℕ × Text × Text × Text × Text) InternalOut Text))
    (crossShard : List (Entry (Text × Text × Text) CrossShardOut Text))
    (staking : List (Entry (ℕ × Text × Text) StakingOut Text)) : Prop where
  emitsTransactions : Emitted i RunFiles.transactions (fun f row e =>
    e.key = (f.identity.shard, f.identity.branch, row.txHash) ∧ e.row.shard = f.identity.shard ∧
      e.row.branch = f.identity.branch ∧ e.row.row = row ∧ e.group = shardGroup f.identity.shard f.identity.branch) transactions
  emitsInternal : Emitted i RunFiles.internalRows (fun f row e =>
    e.key = (f.identity.shard, f.identity.branch, row.blockNumber, row.txIndex, row.traceAddress) ∧
      e.row = ⟨f.identity.shard, f.identity.branch, row⟩ ∧ e.group = shardGroup f.identity.shard f.identity.branch) internal
  emitsStaking : Emitted i RunFiles.staking (fun f row e =>
    e.key = (f.identity.shard, f.identity.branch, row.txHash) ∧ e.row = ⟨f.identity.shard, f.identity.branch, row⟩ ∧
      e.group = shardGroup f.identity.shard f.identity.branch) staking
  /-- The receipts of at least the minimum. -/
  crossSound : ∀ e ∈ crossShard, ∃ branch r, Listed i branch r ∧ e.key = (branch, r.fromShard, r.txHash) ∧
    e.row = ⟨branch, r, ((destinationsOf i.destinations).get? (r.fromShard, r.txHash)).getD unmapped⟩ ∧
    e.group = directionGroup branch r
  crossComplete : ∀ branch r, Listed i branch r → ∃ e ∈ crossShard, e.key = (branch, r.fromShard, r.txHash)
  writeTransactions : writeTable (fun r => sortKey (render r.shard) r.branch r.row.blockNumber r.row.txIndex [])
    (Table.empty.fill transactions) = .ok o.transactions
  writeInternal : writeTable (fun r => sortKey (render r.shard) r.branch r.row.blockNumber r.row.txIndex r.row.traceAddress)
    (Table.empty.fill internal) = .ok o.internalTransfers
  writeCrossShard : writeTable (fun r => sortKey r.receipt.fromShard r.branch r.receipt.blockNumber r.receipt.txIndex [])
    (Table.empty.fill crossShard) = .ok o.crossShard
  writeStaking : writeTable (fun r => sortKey (render r.shard) r.branch r.row.blockNumber r.row.txIndex [])
    (Table.empty.fill staking) = .ok o.staking

theorem buildRun_of_build (h : build i = .ok o) :
    ∃ transactions internal crossShard staking, BuildRun i o transactions internal crossShard staking := by
  unfold build at h
  obtain ⟨runs, hruns, h⟩ := of_bind_ok h
  obtain ⟨minimum, hminimum, h⟩ := of_bind_ok h
  obtain ⟨-, -, h⟩ := of_bind_ok h
  obtain ⟨transactions, htransactions, h⟩ := of_bind_ok h
  obtain ⟨crossShard, hcrossShard, h⟩ := of_bind_ok h
  obtain ⟨t, ht, h⟩ := of_bind_ok h
  obtain ⟨n, hn, h⟩ := of_bind_ok h
  obtain ⟨c, hc, h⟩ := of_bind_ok h
  obtain ⟨s, hs, rfl⟩ := of_map_ok h
  have hloaded : List.Forall₂ Loaded i.runs runs := (forall₂_of_mapM_ok hruns).imp fun f run hrun => loadRun_ok hrun
  have hmin := minimumOf_ok hminimum
  have hcross := forall₂_of_mapM_ok hcrossShard
  refine ⟨_, _, _, _, ?_, ?_, ?_, ?_, ?_, ht, hn, hc, hs⟩
  · refine emitted_of_runs hloaded ((forall₂_of_mapM_ok htransactions).imp fun run es hes f hload => ⟨?_, ?_⟩)
    · intro e he
      obtain ⟨row, hrow, hentry⟩ := ok_of_mem_right (forall₂_of_mapM_ok hes) he
      exact ⟨row, hload.transactions ▸ hrow, transactionEntry_ok hload hentry⟩
    · intro row hrow
      obtain ⟨e, he, hentry⟩ := ok_of_mem_left (forall₂_of_mapM_ok hes) (hload.transactions ▸ hrow)
      exact ⟨e, he, transactionEntry_ok hload hentry⟩
  · exact emitted_of_map hloaded (fun f run hload => hload.internal) fun f run row hload => by
      simp only [Run.internalEntry, hload.identity, and_self]
  · exact emitted_of_map hloaded (fun f run hload => hload.staking) fun f run row hload => by
      simp only [Run.stakingEntry, hload.identity, and_self]
  · intro e he
    obtain ⟨es, hes, he⟩ := List.mem_flatten.mp he
    obtain ⟨run, hrun, hE⟩ := ok_of_mem_right hcross hes
    obtain ⟨rows, hrows, rfl⟩ := of_map_ok hE
    obtain ⟨r, hr, rfl⟩ := List.mem_map.mp he
    obtain ⟨f, hf, hload⟩ := ok_of_mem_right hloaded hrun
    obtain ⟨hmem, value, hvalue, hle⟩ := (large_ok hrows r).mp hr
    obtain ⟨x, hx, hxr⟩ := hload.receipts
    refine ⟨run.identity.branch, r, ⟨f, hf, by rw [hload.identity], ⟨x, hx, hxr ▸ hmem⟩, minimum, ?_, value, hvalue, hle⟩,
      rfl, rfl, rfl⟩
    rw [← hload.identity]
    exact hmin run hrun
  · rintro branch r ⟨f, hf, rfl, ⟨x, hx, hr⟩, m, hm, value, hvalue, hle⟩
    obtain ⟨run, hrun, hload⟩ := ok_of_mem_left hloaded hf
    obtain ⟨es, hes, hE⟩ := ok_of_mem_left hcross hrun
    obtain ⟨rows, hrows, rfl⟩ := of_map_ok hE
    obtain ⟨y, hy, hyr⟩ := hload.receipts
    obtain rfl : x = y := Option.some.inj ((Option.mem_def.mp hx).symm.trans hy)
    obtain rfl : m = minimum := by
      have hrunMin := hmin run hrun
      rw [hload.identity] at hrunMin
      exact Option.some.inj ((Option.mem_def.mp hm).symm.trans hrunMin)
    have hlarge : r ∈ rows := (large_ok hrows r).mpr ⟨hyr ▸ hr, value, hvalue, hle⟩
    refine ⟨run.crossShardEntry (destinationsOf i.destinations) r,
      List.mem_flatten.mpr ⟨_, hes, List.mem_map_of_mem hlarge⟩, ?_⟩
    rw [← hload.identity]
    rfl

theorem identity_key {r r' : ReceiptRow} (h : r.identity = r'.identity) : r.fromShard = r'.fromShard ∧ r.txHash = r'.txHash :=
  ⟨congrArg ReceiptIdentity.fromShard h, congrArg ReceiptIdentity.txHash h⟩

/-- The destination joined to a receipt: of the rows with its shard and transaction, the last. -/
theorem get?_destinationsOf (rows : List DestinationRow) (r : ReceiptRow) :
    (destinationsOf rows).get? (r.fromShard, r.txHash) = ((rows.filter fun x =>
      x.receipt.fromShard = r.fromShard ∧ x.receipt.txHash = r.txHash).getLast?).map DestinationRow.destination := by
  rw [destinationsOf, Dict.get?_ofList, List.filter_map, List.getLast?_map, Option.map_map]
  simp only [Function.comp_def, Prod.mk.injEq]

/-- What is joined to a receipt is recorded for it exactly when the last row's columns are. -/
theorem recorded_iff (rows : List DestinationRow) (r : ReceiptRow) :
    Recorded rows r (((destinationsOf rows).get? (r.fromShard, r.txHash)).getD unmapped) ↔
      ∀ x ∈ (rows.filter fun x => x.receipt.fromShard = r.fromShard ∧ x.receipt.txHash = r.txHash).getLast?,
        Recorded rows r x.destination := by
  rw [get?_destinationsOf]
  cases hlast : (rows.filter fun x => x.receipt.fromShard = r.fromShard ∧ x.receipt.txHash = r.txHash).getLast? with
  | none =>
    simp only [Option.map_none, Option.getD_none, Option.mem_def, reduceCtorEq, false_implies, implies_true, iff_true]
    refine Or.inr ⟨fun x hx hsame => ?_, rfl⟩
    have hnone := List.filter_eq_nil_iff.mp (List.getLast?_eq_none_iff.mp hlast) x hx
    exact hnone (decide_eq_true (identity_key hsame))
  | some x => simp

/-- The tables are exact exactly where receipts have transactions of their own, and the destinations name them. -/
theorem tables_exact_iff (h : build i = .ok o) :
    TablesExact i o ↔ OneReceiptPerTransaction i ∧ LastRowAgrees i := by
  obtain ⟨transactions, internal, crossShard, staking, run⟩ := buildRun_of_build h
  obtain ⟨⟨hcNodup, hcKeys, hcRows⟩, hcCounts⟩ := writeTable_fill run.writeCrossShard
    (fun r => (r.branch, r.receipt.fromShard, r.receipt.txHash)) (fun r => directionGroup r.branch r.receipt)
    (fun e he => by
      obtain ⟨branch, r, -, hkey, hrow, -⟩ := run.crossSound e he
      rw [hkey, hrow])
    (fun e he => by
      obtain ⟨branch, r, -, -, hrow, hgroup⟩ := run.crossSound e he
      rw [hgroup, hrow])
  have hsource : ∀ r ∈ o.crossShard.rows, Listed i r.branch r.receipt ∧ r.destination =
      ((destinationsOf i.destinations).get? (r.receipt.fromShard, r.receipt.txHash)).getD unmapped := fun r hr => by
    obtain ⟨e, he, rfl⟩ := hcRows r hr
    obtain ⟨branch, r, hlisted, -, hrow, -⟩ := run.crossSound e he
    rw [hrow]
    exact ⟨hlisted, rfl⟩
  have hfirst : ∀ branch r, Listed i branch r → ∃ x ∈ o.crossShard.rows, x.branch = branch ∧
      x.receipt.fromShard = r.fromShard ∧ x.receipt.txHash = r.txHash := fun branch r hr => by
    obtain ⟨e, he, hkey⟩ := run.crossComplete branch r hr
    obtain ⟨x, hx, hxkey⟩ := List.mem_map.mp ((hcKeys _).mpr (List.mem_map_of_mem he))
    rw [hkey, Prod.mk.injEq, Prod.mk.injEq] at hxkey
    exact ⟨x, hx, hxkey⟩
  have hnodup : (o.crossShard.rows.map fun r => (r.branch, r.receipt.identity)).Nodup := by
    refine List.Nodup.of_map (fun k : Text × ReceiptIdentity => (k.1, k.2.fromShard, k.2.txHash)) ?_
    rw [List.map_map]
    exact hcNodup
  constructor
  · intro hexact
    have hone : OneReceiptPerTransaction i := by
      intro branch r r' hr hr' hshard htx
      obtain ⟨x, hx, hxk⟩ := List.mem_map.mp ((hexact.crossShard.keys (branch, r.identity)).mpr ⟨branch, r, hr, rfl⟩)
      obtain ⟨y, hy, hyk⟩ := List.mem_map.mp ((hexact.crossShard.keys (branch, r'.identity)).mpr ⟨branch, r', hr', rfl⟩)
      obtain ⟨hxb, hxi⟩ := Prod.mk.inj hxk
      obtain ⟨hyb, hyi⟩ := Prod.mk.inj hyk
      have hsame : (x.branch, x.receipt.fromShard, x.receipt.txHash) = (y.branch, y.receipt.fromShard, y.receipt.txHash) := by
        rw [hxb, hyb, (identity_key hxi).1, (identity_key hxi).2, (identity_key hyi).1, (identity_key hyi).2, hshard, htx]
      obtain rfl := List.inj_on_of_nodup_map hcNodup hx hy hsame
      exact hxi.symm.trans hyi
    refine ⟨hone, fun branch r hr => ?_⟩
    obtain ⟨x, hx, rfl, hshard, htx⟩ := hfirst branch r hr
    obtain ⟨hlisted, hdest⟩ := hsource x hx
    have hidentity := hone x.branch r x.receipt hr hlisted hshard.symm htx.symm
    have hjoined := hexact.joined x hx
    rw [hdest, hshard, htx] at hjoined
    have hr : Recorded i.destinations r (((destinationsOf i.destinations).get? (r.fromShard, r.txHash)).getD unmapped) := by
      simpa only [Recorded, hidentity] using hjoined
    exact (recorded_iff i.destinations r).mp hr
  · rintro ⟨hone, hlast⟩
    obtain ⟨htTable, htCounts⟩ := writeTable_fill run.writeTransactions
      (fun r => (r.shard, r.branch, r.row.txHash)) (fun r => shardGroup r.shard r.branch)
      (fun e he => by
        obtain ⟨f, -, row, -, hkey, hshard, hbranch, hrow, -⟩ := run.emitsTransactions.sound e he
        rw [hkey, hshard, hbranch, hrow])
      (fun e he => by
        obtain ⟨f, -, row, -, -, hshard, hbranch, -, hgroup⟩ := run.emitsTransactions.sound e he
        rw [hgroup, hshard, hbranch])
    obtain ⟨hnTable, hnCounts⟩ := writeTable_fill run.writeInternal
      (fun r => (r.shard, r.branch, r.row.blockNumber, r.row.txIndex, r.row.traceAddress))
      (fun r => shardGroup r.shard r.branch)
      (fun e he => by
        obtain ⟨f, -, row, -, hkey, hrow, -⟩ := run.emitsInternal.sound e he
        rw [hkey, hrow])
      (fun e he => by
        obtain ⟨f, -, row, -, -, hrow, hgroup⟩ := run.emitsInternal.sound e he
        rw [hgroup, hrow])
    obtain ⟨hsTable, hsCounts⟩ := writeTable_fill run.writeStaking
      (fun r => (r.shard, r.branch, r.row.txHash)) (fun r => shardGroup r.shard r.branch)
      (fun e he => by
        obtain ⟨f, -, row, -, hkey, hrow, -⟩ := run.emitsStaking.sound e he
        rw [hkey, hrow])
      (fun e he => by
        obtain ⟨f, -, row, -, -, hrow, hgroup⟩ := run.emitsStaking.sound e he
        rw [hgroup, hrow])
    refine ⟨⟨htTable.nodup, fun k => ?_, fun r hr => ?_⟩, ⟨hsTable.nodup, fun k => ?_, fun r hr => ?_⟩,
      ⟨hnTable.nodup, fun k => ?_, fun r hr => ?_⟩, ⟨hnodup, fun k => ?_, fun r hr => (hsource r hr).1⟩, fun r hr => ?_,
      htCounts, hsCounts, hnCounts, hcCounts⟩
    · rw [htTable.keys]
      exact run.emitsTransactions.mem_keys (fun f row e hE => hE.1) k
    · obtain ⟨e, he, rfl⟩ := htTable.copied r hr
      obtain ⟨f, hf, row, hrow, -, hshard, hbranch, hsame, -⟩ := run.emitsTransactions.sound e he
      exact ⟨f, hf, hshard, hbranch, hsame ▸ hrow⟩
    · rw [hsTable.keys]
      exact run.emitsStaking.mem_keys (fun f row e hE => hE.1) k
    · obtain ⟨e, he, rfl⟩ := hsTable.copied r hr
      obtain ⟨f, hf, row, hrow, -, hsame, -⟩ := run.emitsStaking.sound e he
      rw [hsame]
      exact ⟨f, hf, rfl, rfl, hrow⟩
    · rw [hnTable.keys]
      exact run.emitsInternal.mem_keys (fun f row e hE => hE.1) k
    · obtain ⟨e, he, rfl⟩ := hnTable.copied r hr
      obtain ⟨f, hf, row, hrow, -, hsame, -⟩ := run.emitsInternal.sound e he
      rw [hsame]
      exact ⟨f, hf, rfl, rfl, hrow⟩
    · constructor
      · intro hk
        obtain ⟨x, hx, rfl⟩ := List.mem_map.mp hk
        exact ⟨x.branch, x.receipt, (hsource x hx).1, rfl⟩
      · rintro ⟨branch, r, hr, rfl⟩
        obtain ⟨x, hx, rfl, hshard, htx⟩ := hfirst branch r hr
        exact List.mem_map.mpr ⟨x, hx, by rw [hone x.branch x.receipt r (hsource x hx).1 hr hshard htx]⟩
    · obtain ⟨hlisted, hdest⟩ := hsource r hr
      rw [hdest]
      exact (recorded_iff i.destinations r.receipt).mpr (hlast r.branch r.receipt hlisted)

/-! ### A transaction with two receipts -/

def canonical : Text := "canonical".toList

def sampleTransaction : TransactionRow where
  kind := "xshard_precompile".toList
  blockNumber := "12".toList
  blockHash := "0xb12".toList
  timestamp := "1735689612".toList
  txIndex := "0".toList
  txHash := "0xx".toList
  ethHash := "0xe".toList
  sender := "0xa".toList
  recipient := "0xf9".toList
  valueAtto := "9".toList
  toShardId := "1".toList
  status := "1".toList
  gasUsed := "21000".toList
  gasPrice := "1".toList
  inputSelector := []
  inputBytes := []

def sampleReceipt (txHash recipient value : Text) : ReceiptRow where
  fromShard := "0".toList
  toShard := "1".toList
  mechanism := "precompile".toList
  blockNumber := "12".toList
  blockHash := "0xb12".toList
  timestamp := "1735689612".toList
  txIndex := "0".toList
  txHash := txHash
  ancestorReverted := "0".toList
  sender := "0xa".toList
  recipient := recipient
  valueAtto := value
  ethHash := "0xe".toList

/-- A run whose resumed stages repeated a transaction. -/
def sampleRun (receipts : List ReceiptRow) : RunFiles :=
  let identity : Identity := ⟨.scanBlocks, 0, canonical, 10, 20, "2".toList, 1000, []⟩
  { identity := identity
    complete := true
    internalUnavailable := true
    startParentHash := "0xp".toList
    endHash := "0xe".toList
    internal := none
    receipts := some (identity, false, receipts)
    calldata := none
    transactions := [sampleTransaction, sampleTransaction]
    staking := [] }

def firstReceipt : ReceiptRow := sampleReceipt "0xx".toList "0xb".toList "5".toList

def secondReceipt : ReceiptRow := sampleReceipt "0xx".toList "0xc".toList "4".toList

def twoReceipts : Input := ⟨⟨false, false⟩, [sampleRun [firstReceipt, secondReceipt]], []⟩

/-- The second receipt of the transaction is dropped. -/
theorem second_receipt_dropped : ∃ o, build twoReceipts = .ok o ∧
    o.crossShard.rows.map CrossShardOut.receipt = [firstReceipt] ∧ ¬TablesExact twoReceipts o := by
  have hrun : (build twoReceipts).toOption.map (fun o => o.crossShard.rows.map CrossShardOut.receipt) =
      some [firstReceipt] := by decide +kernel
  obtain ⟨o, hbuild, hrows⟩ := Except.exists_ok_of_map hrun
  refine ⟨o, hbuild, hrows, fun hexact => ?_⟩
  have hlisted : Listed twoReceipts canonical secondReceipt := by
    refine ⟨sampleRun [firstReceipt, secondReceipt], List.mem_singleton_self _, rfl, ⟨_, rfl, ?_⟩, 2, ?_, 4, ?_, by decide⟩
    · simp
    · decide
    · decide
  obtain ⟨r, hr, hk⟩ := List.mem_map.mp ((hexact.crossShard.keys (canonical, secondReceipt.identity)).mpr
    ⟨canonical, secondReceipt, hlisted, rfl⟩)
  have hreceipt : r.receipt ∈ o.crossShard.rows.map CrossShardOut.receipt := List.mem_map_of_mem hr
  rw [hrows, List.mem_singleton] at hreceipt
  have hsame := (Prod.mk.inj hk).2
  rw [hreceipt] at hsame
  exact absurd hsame (by decide)

def oneMapped : Input where
  args := ⟨false, false⟩
  runs := [sampleRun [firstReceipt, sampleReceipt "0xdust".toList "0xb".toList "1".toList, firstReceipt]]
  destinations := [⟨firstReceipt, ⟨"credited".toList, "40".toList, "0xd".toList, "1735689640".toList⟩⟩]

theorem tables_exact_mapped : ∃ o, build oneMapped = .ok o ∧ TablesExact oneMapped o := by
  have hrun : (build oneMapped).toBool = true := by decide +kernel
  have hlisted : ∀ branch r, Listed oneMapped branch r → r = firstReceipt := by
    rintro branch r ⟨f, hf, -, ⟨x, hx, hr⟩, minimum, hmin, value, hvalue, hle⟩
    obtain rfl := List.mem_singleton.mp hf
    obtain rfl := Option.some.inj hx
    obtain rfl : 2 = minimum := Option.some.inj (hmin.symm.trans (by decide) : some minimum = some 2) |>.symm
    rcases List.mem_cons.mp hr with rfl | hr
    · rfl
    · rcases List.mem_pair.mp hr with rfl | rfl
      · obtain rfl : value = 1 := Option.some.inj (hvalue.symm.trans (by decide) : some value = some 1)
        omega
      · rfl
  obtain ⟨o, hbuild⟩ := Except.exists_ok_of_toBool hrun
  refine ⟨o, hbuild, (tables_exact_iff hbuild).mpr ⟨fun branch r r' hr hr' _ _ => ?_, fun branch r hr x hx => ?_⟩⟩
  · rw [hlisted branch r hr, hlisted branch r' hr']
  · obtain rfl := hlisted branch r hr
    obtain hmem := List.mem_of_getLast? hx
    obtain rfl := List.mem_singleton.mp (List.mem_of_mem_filter hmem)
    exact Or.inl ⟨_, List.mem_singleton_self _, rfl, rfl⟩

end HarmonyMigration.Archive
