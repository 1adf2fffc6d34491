import HarmonyMigration.Lib.ExceptRun
import HarmonyMigration.Receipts.Evaluate

/-! What a report without problems has shown. A report that predates the recording of coverage is not asked for both
directions or its own cutoffs, and a receipt that is listed twice is found twice in the one row of an outgoing list;
apart from these, acceptance is sound. -/

namespace HarmonyMigration.ReceiptProvenance

open Airdrop.One1 Decimal Except

def Row.listed (row : Row) : Listed := (row.block, row.tx, row.recipient, row.amount)

/-- The rows of a source shard up to its cutoff. -/
def listRows (outgoing : List Row) (cutoffs : Cutoffs) (shard : ℤ) : List Row :=
  (outgoing.filter fun row => (cutoffs.get? row.source).any fun cutoff => row.block ≤ cutoff).filter fun row =>
    row.source = shard

/-- The direction records coverage from the first cross-shard block to the cutoff. -/
def CompleteTo (cutoffs : Cutoffs) (d : Direction) : Prop :=
  ∃ coverage, d.sourceCoverage = some coverage ∧ coverage.complete = true ∧
    (∃ start ≤ crossTxFirstBlock, intOr coverage.fromBlock (crossTxFirstBlock + 1) = .ok start) ∧
    ∃ stop, intOr coverage.toBlock 0 = .ok stop ∧ cutoffs.get? d.sourceShard = some stop

/-- Every direction of the report is also the independent report's, field for field and receipt for receipt. -/
structure Agrees (u : Lower) (cutoffs : Cutoffs) (report independent : Report) : Prop where
  atCutoffs : ∀ shard ∈ activeShards, intOrZero (independent.cutoff shard) = .ok (cutoffs.of shard)
  directions : ∀ d ∈ report.scans, ∃ other, (byShard independent.scans).get? d.sourceShard = some other ∧
    (∀ field ∈ agreementFields, strOf (d.fields field) = strOf (other.fields field)) ∧
    ∀ kind, ∃ ours theirs, (d.listings kind).mapM (listed u) = .ok ours ∧
      (other.listings kind).mapM (listed u) = .ok theirs ∧ ours.Perm theirs

/-- The receipts that a direction lists, pending and unsupported. -/
def allListed (u : Lower) (d : Direction) : Except ReadError (List Listed) :=
  (d.listings .pending ++ d.listings .unsupported).mapM (listed u)

/-- The rows have the figures of the direction, and each receipt that it lists has a row of its own. -/
def Accounted (u : Lower) (rows : List Row) (d : Direction) : Prop :=
  accountedFigures d = .ok (expectedFigures rows) ∧
    ∃ all, allListed u d = .ok all ∧ all.Subperm (rows.map Row.listed)

/-- What acceptance promises. -/
structure Sound (u : Lower) (report : Report) (outgoing : List Row) (independents : List Report) (cutoffs : Cutoffs) :
    Prop where
  directions : ∀ shard ∈ activeShards, ∃ d ∈ report.scans, d.sourceShard = shard
  atCutoffs : ∀ shard ∈ activeShards, intOrZero (report.cutoff shard) = .ok (cutoffs.of shard)
  covered : (∀ d ∈ report.scans, CompleteTo cutoffs d) ∨ ∃ other ∈ independents, Agrees u cutoffs report other
  evidence : ∀ shard ∈ activeShards,
    (∃ other ∈ independents, Agrees u cutoffs report other ∧ shard ∈ (byShard other.scans).keys) ∨
      ∃ d ∈ report.scans, d.sourceShard = shard ∧ Accounted u (listRows outgoing cutoffs shard) d

/-- The report predates the recording of coverage. -/
def Legacy (report : Report) : Prop := report.coverageComplete = none ∨ report.directions = none

/-- The receipts that the report lists for one transaction of a block are at most as many as the rows like the last one
of the transaction. -/
def RowsForRepeats (u : Lower) (rows : List Row) (d : Direction) : Prop :=
  ∀ all, allListed u d = .ok all → ∀ key row, (rowIndex rows).get? key = some row →
    all.countP (fun l => (l.1, l.2.1) = key) ≤ (rows.map Row.listed).count row.listed

section Checks

variable {u : Lower} {cutoffs : Cutoffs} {report independent : Report}

theorem flatten_eq_nil_of_forall₂ {ε α β : Type} {f : α → Except ε (List β)} {l : List α} {bs : List (List β)}
    (h : l.mapM f = .ok bs) (hnil : bs.flatten = []) {a : α} (ha : a ∈ l) : f a = .ok [] := by
  obtain ⟨b, hb, hok⟩ := ok_of_mem_left (forall₂_of_mapM_ok h) ha
  rw [hok, List.flatten_eq_nil_iff.mp hnil b hb]

theorem mapM_flatten_nil {ε α β : Type} {f : α → Except ε (List β)} {l : List α} (h : ∀ a ∈ l, f a = .ok []) :
    ∃ bs, l.mapM f = .ok bs ∧ bs.flatten = [] := by
  refine ⟨l.map fun _ => [], mapM_ok_of_forall h, List.flatten_eq_nil_iff.mpr fun b hb => ?_⟩
  obtain ⟨a, -, rfl⟩ := List.mem_map.mp hb
  rfl

theorem ite_nil_iff {α : Type} {p : Prop} [Decidable p] {a : α} : (if p then [a] else []) = [] ↔ ¬p := by
  split_ifs with h <;> simp [h]

/-! ### The report by itself -/

theorem cutoffProblems_nil {shard : ℤ} (h : cutoffProblems cutoffs report shard = .ok []) :
    intOrZero (report.cutoff shard) = .ok (cutoffs.of shard) := by
  obtain ⟨recorded, hrecorded, h⟩ := of_map_ok h
  rw [hrecorded, not_not.mp (ite_nil_iff.mp h)]

theorem coverageProblems_nil {d : Direction} (h : coverageProblems cutoffs d = .ok []) : CompleteTo cutoffs d := by
  obtain ⟨start, hstart, h⟩ := of_bind_ok h
  obtain ⟨stop, hstop, h⟩ := of_map_ok h
  obtain ⟨h, hend⟩ := List.append_eq_nil_iff.mp h
  obtain ⟨hcomplete, hbegin⟩ := List.append_eq_nil_iff.mp h
  cases hcoverage : d.sourceCoverage with
  | none => simp [hcoverage, Coverage.none] at hcomplete
  | some coverage =>
    rw [hcoverage, Option.getD_some] at hstart hstop hcomplete
    refine ⟨coverage, hcoverage, ?_, ⟨start, not_lt.mp (ite_nil_iff.mp hbegin), hstart⟩, stop, hstop, ?_⟩
    · cases hc : coverage.complete with
      | true => rfl
      | false => simp [hc] at hcomplete
    · exact (not_not.mp (ite_nil_iff.mp hend)).symm

/-- What a report without provenance problems records. -/
structure Recorded (cutoffs : Cutoffs) (report : Report) : Prop where
  notLegacy : ¬Legacy report
  atCutoffs : ∀ shard ∈ activeShards, intOrZero (report.cutoff shard) = .ok (cutoffs.of shard)
  shards : (report.scans.map Direction.sourceShard).Perm activeShards
  complete : ∀ d ∈ report.scans, CompleteTo cutoffs d

theorem provenanceProblems_nil (h : provenanceProblems cutoffs report = .ok []) : Recorded cutoffs report := by
  unfold provenanceProblems at h
  split at h
  · next complete directions hcomplete hdirections =>
    obtain ⟨atCutoffs, hcutoffs, h⟩ := of_bind_ok h
    obtain ⟨coverage, hcoverage, h⟩ := of_bind_ok h
    obtain ⟨databases, -, h⟩ := of_map_ok h
    simp only [List.append_eq_nil_iff] at h
    obtain ⟨⟨⟨⟨-, hatCutoffs⟩, hsources⟩, hcovered⟩, -⟩ := h
    have hscans : report.scans = directions := by rw [Report.scans, hdirections, Option.getD_some]
    refine ⟨?_, ?_, ?_, ?_⟩
    · rintro (hnone | hnone)
      · simp [hnone] at hcomplete
      · simp [hnone] at hdirections
    · intro shard hshard
      exact cutoffProblems_nil (flatten_eq_nil_of_forall₂ hcutoffs hatCutoffs hshard)
    · rw [hscans, ← not_not.mp (ite_nil_iff.mp hsources)]
      exact (List.perm_insertionSort _ _).symm
    · intro d hd
      exact coverageProblems_nil (flatten_eq_nil_of_forall₂ hcoverage hcovered (hscans ▸ hd))
  · simp at h

theorem notMem_flatten {ε α : Type} {f : α → Except ε (List Problem)} {l : List α} {bs : List (List Problem)}
    (h : l.mapM f = .ok bs) (hf : ∀ a b, f a = .ok b → .legacyReport ∉ b) : .legacyReport ∉ bs.flatten := by
  intro hmem
  obtain ⟨b, hb, hin⟩ := List.mem_flatten.mp hmem
  obtain ⟨a, -, hok⟩ := ok_of_mem_right (forall₂_of_mapM_ok h) hb
  exact hf a b hok hin

/-- Only a report without the recording is called one. -/
theorem legacy_of_mem {l : List Problem} (h : provenanceProblems cutoffs report = .ok l) (hmem : .legacyReport ∈ l) :
    Legacy report := by
  unfold provenanceProblems at h
  split at h
  · next complete directions hcomplete hdirections =>
    obtain ⟨atCutoffs, hcutoffs, h⟩ := of_bind_ok h
    obtain ⟨coverage, hcoverage, h⟩ := of_bind_ok h
    obtain ⟨databases, hdatabases, rfl⟩ := of_map_ok h
    exfalso
    have hc : Problem.legacyReport ∉ atCutoffs.flatten := notMem_flatten hcutoffs fun shard b hb => by
      obtain ⟨recorded, -, rfl⟩ := of_map_ok hb
      split_ifs <;> simp
    have hv : Problem.legacyReport ∉ coverage.flatten := notMem_flatten hcoverage fun d b hb => by
      obtain ⟨start, -, hb⟩ := of_bind_ok hb
      obtain ⟨stop, -, rfl⟩ := of_map_ok hb
      simp only [List.mem_append, not_or]
      refine ⟨⟨?_, ?_⟩, ?_⟩ <;> split_ifs <;> simp
    have hd : Problem.legacyReport ∉ databases.flatten := notMem_flatten hdatabases fun shard b hb => by
      unfold databaseProblems at hb
      split at hb
      · obtain rfl := Except.ok.inj hb
        simp
      · dsimp only at hb
        split_ifs at hb
        all_goals first
          | (obtain ⟨recorded, -, rfl⟩ := of_map_ok hb
             split_ifs <;> simp)
          | (obtain rfl := Except.ok.inj hb
             simp)
    simp only [List.mem_append, hc, hv, hd, or_false] at hmem
    rcases hmem with (hmem | hmem) | hmem
    · split_ifs at hmem <;> simp at hmem
    · split_ifs at hmem <;> simp at hmem
    · split_ifs at hmem <;> simp at hmem
  · next hnone =>
    cases hcomplete : report.coverageComplete with
    | none => exact Or.inl hcomplete
    | some complete =>
      cases hdirections : report.directions with
      | none => exact Or.inr hdirections
      | some directions => exact absurd hdirections (hnone complete directions hcomplete)

/-! ### An independent report -/

theorem mem_byShard {directions : List Direction} {shard : ℤ} {d : Direction} (h : (byShard directions).get? shard = some d) :
    d ∈ directions ∧ d.sourceShard = shard := by
  obtain ⟨d', hd', heq⟩ := List.mem_map.mp (Dict.mem_of_mem_ofList (Dict.get?_eq_some_iff.mp h))
  obtain ⟨rfl, rfl⟩ := Prod.mk.inj heq
  exact ⟨hd', rfl⟩

theorem mem_keys_byShard {directions : List Direction} {shard : ℤ} :
    shard ∈ (byShard directions).keys ↔ ∃ d ∈ directions, d.sourceShard = shard := by
  rw [byShard, Dict.ofList, Dict.mem_keys_foldl_insert]
  simp [Dict.empty, Dict.keys]

theorem key_injective {a b : Listed} (h : a.key = b.key) : a = b := by
  obtain ⟨block, tx, recipient, amount⟩ := a
  obtain ⟨block', tx', recipient', amount'⟩ := b
  simpa [Listed.key] using h

/-- Sorted receipts are equal exactly where the receipts are the same up to order. -/
theorem receiptsDifference_nil_iff {d other : Direction} {kind : GroupKind} :
    receiptsDifference u d other kind = .ok [] ↔ ∃ ours theirs, (d.listings kind).mapM (listed u) = .ok ours ∧
      (other.listings kind).mapM (listed u) = .ok theirs ∧ ours.Perm theirs := by
  constructor
  · intro h
    obtain ⟨sortedOurs, hsortedOurs, h⟩ := of_bind_ok h
    obtain ⟨sortedTheirs, hsortedTheirs, h⟩ := of_map_ok h
    obtain ⟨ours, hours, rfl⟩ := of_map_ok hsortedOurs
    obtain ⟨theirs, htheirs, rfl⟩ := of_map_ok hsortedTheirs
    refine ⟨ours, theirs, hours, htheirs, ?_⟩
    have heq := not_not.mp (ite_nil_iff.mp h)
    exact (List.perm_insertionSort _ ours).symm.trans (heq ▸ List.perm_insertionSort _ theirs)
  · rintro ⟨ours, theirs, hours, htheirs, hperm⟩
    have heq : (ours.insertionSort fun a b => a.key ≤ b.key) = theirs.insertionSort fun a b => a.key ≤ b.key :=
      SortedBy.insertionSort_eq_of_perm hperm fun a _ b _ => key_injective
    rw [receiptsDifference, receipts, receipts, hours, htheirs]
    simp [Except.map, Except.bind, heq]

theorem directionDifferences_nil_iff {theirs : Dict ℤ Direction} {d : Direction} :
    directionDifferences u theirs d = .ok [] ↔ ∃ other, theirs.get? d.sourceShard = some other ∧
      (∀ field ∈ agreementFields, strOf (d.fields field) = strOf (other.fields field)) ∧
      ∀ kind, ∃ ours theirs, (d.listings kind).mapM (listed u) = .ok ours ∧
        (other.listings kind).mapM (listed u) = .ok theirs ∧ ours.Perm theirs := by
  unfold directionDifferences
  cases theirs.get? d.sourceShard with
  | none => simp
  | some other =>
    simp only [Option.some.injEq, exists_eq_left']
    constructor
    · intro h
      obtain ⟨pending, hpending, h⟩ := of_bind_ok h
      obtain ⟨unsupported, hunsupported, h⟩ := of_map_ok h
      simp only [List.append_eq_nil_iff, List.flatMap_eq_nil_iff] at h
      obtain ⟨⟨hfields, rfl⟩, rfl⟩ := h
      refine ⟨fun field hfield => not_not.mp (ite_nil_iff.mp (hfields field hfield)), fun kind => ?_⟩
      cases kind with
      | pending => exact receiptsDifference_nil_iff.mp hpending
      | unsupported => exact receiptsDifference_nil_iff.mp hunsupported
    · rintro ⟨hfields, hkinds⟩
      rw [receiptsDifference_nil_iff.mpr (hkinds .pending), receiptsDifference_nil_iff.mpr (hkinds .unsupported)]
      have hnil : agreementFields.flatMap (fieldDifference d other) = [] :=
        List.flatMap_eq_nil_iff.mpr fun field hfield => ite_nil_iff.mpr (not_not.mpr (hfields field hfield))
      simp [Except.bind, Except.map, hnil]

theorem independentReportProblems_nil_iff :
    independentReportProblems u report independent cutoffs = .ok [] ↔ Agrees u cutoffs report independent := by
  constructor
  · intro h
    obtain ⟨atCutoffs, hcutoffs, h⟩ := of_bind_ok h
    obtain ⟨directions, hdirections, h⟩ := of_map_ok h
    obtain ⟨hnil, hdnil⟩ := List.append_eq_nil_iff.mp h
    constructor
    · intro shard hshard
      obtain ⟨recorded, hrecorded, heq⟩ := of_map_ok (flatten_eq_nil_of_forall₂ hcutoffs hnil hshard)
      rw [hrecorded, not_not.mp (ite_nil_iff.mp heq)]
    · intro d hd
      exact directionDifferences_nil_iff.mp (flatten_eq_nil_of_forall₂ hdirections hdnil hd)
  · intro h
    obtain ⟨atCutoffs, hcutoffs, hnil⟩ := mapM_flatten_nil (f := cutoffDifference independent cutoffs) (l := activeShards)
      fun shard hshard => by simp [cutoffDifference, h.atCutoffs shard hshard, Except.map]
    obtain ⟨directions, hdirections, hdnil⟩ := mapM_flatten_nil
      (f := directionDifferences u (byShard independent.scans)) (l := report.scans)
      fun d hd => directionDifferences_nil_iff.mpr (h.directions d hd)
    rw [independentReportProblems, hcutoffs, hdirections]
    simp [Except.bind, Except.map, hnil, hdnil]

/-! ### An outgoing list -/

theorem mem_rowIndex {rows : List Row} {key : ℤ × Text} {row : Row} (h : (rowIndex rows).get? key = some row) :
    row ∈ rows ∧ (row.block, row.tx) = key := by
  obtain ⟨row', hrow', heq⟩ := List.mem_map.mp (Dict.mem_of_mem_ofList (Dict.get?_eq_some_iff.mp h))
  obtain ⟨rfl, rfl⟩ := Prod.mk.inj heq
  exact ⟨hrow', rfl⟩

/-- Every receipt has the last row of its transaction in its block. -/
def Indexed (rows : List Row) (all : List Listed) : Prop :=
  ∀ l ∈ all, ∃ row, (rowIndex rows).get? (l.1, l.2.1) = some row ∧ row.listed = l

theorem indexed_of_listedProblem {shard : ℤ} {kind : GroupKind} {rows : List Row} {listing : Scalar × ReportedReceipt}
    (h : listedProblem u shard kind (rowIndex rows) listing = .ok []) :
    ∃ l, listed u listing = .ok l ∧ ∃ row, (rowIndex rows).get? (l.1, l.2.1) = some row ∧ row.listed = l := by
  obtain ⟨block, hblock, h⟩ := of_bind_ok h
  cases hrow : (rowIndex rows).get? (block, u.lower listing.2.transactionHash) with
  | none => simp [hrow] at h
  | some row =>
    simp only [hrow] at h
    by_cases hrecipient : row.recipient = u.lower listing.2.recipient
    swap
    · simp [hrecipient] at h
    rw [if_neg (not_not.mpr hrecipient)] at h
    obtain ⟨amount, hamount, h⟩ := of_map_ok h
    obtain ⟨-, hkey⟩ := mem_rowIndex hrow
    obtain ⟨hb, ht⟩ := Prod.mk.inj hkey
    refine ⟨(block, u.lower listing.2.transactionHash, u.lower listing.2.recipient, amount), ?_, row, hrow, ?_⟩
    · rw [listed, hblock, bind_ok_left, hamount]
      rfl
    · rw [Row.listed, hb, ht, hrecipient, not_not.mp (ite_nil_iff.mp h)]

theorem figures_eq {shard : ℤ} {expected accounted : Figures} (h : figureProblems shard expected accounted = []) :
    accounted = expected := by
  simp only [figureProblems, List.append_eq_nil_iff, figureProblem, ite_nil_iff, not_not] at h
  obtain ⟨⟨⟨h1, h2⟩, h3⟩, h4⟩ := h
  obtain ⟨a1, a2, a3, a4⟩ := accounted
  obtain ⟨e1, e2, e3, e4⟩ := expected
  simp only at h1 h2 h3 h4
  rw [h1, h2, h3, h4]

/-- The rows of a source without problems. -/
theorem compareSource_nil {directions : Dict ℤ Direction} {source : ℤ} {rows : List Row} {o : Option Stats}
    (h : compareSource u directions source rows = .ok ([], o)) :
    ∃ d, directions.get? source = some d ∧ accountedFigures d = .ok (expectedFigures rows) ∧
      ∃ all, allListed u d = .ok all ∧ Indexed rows all := by
  unfold compareSource at h
  cases hd : directions.get? source with
  | none => simp [hd] at h
  | some d =>
    simp only [hd] at h
    obtain ⟨accounted, haccounted, h⟩ := of_bind_ok h
    obtain ⟨problems, hproblems, h⟩ := of_map_ok h
    obtain ⟨rfl, -⟩ := Prod.mk.inj h
    obtain ⟨pending, hpending, h⟩ := of_bind_ok hproblems
    obtain ⟨unsupported, hunsupported, h⟩ := of_map_ok h
    simp only [List.append_eq_nil_iff] at h
    obtain ⟨⟨hfigures, hpendingNil⟩, hunsupportedNil⟩ := h
    refine ⟨d, rfl, figures_eq hfigures ▸ haccounted, ?_⟩
    have hall : ∀ listing ∈ d.listings .pending ++ d.listings .unsupported, ∃ l, listed u listing = .ok l ∧
        ∃ row, (rowIndex rows).get? (l.1, l.2.1) = some row ∧ row.listed = l := by
      intro listing hlisting
      rcases List.mem_append.mp hlisting with hmem | hmem
      · exact indexed_of_listedProblem (flatten_eq_nil_of_forall₂ hpending hpendingNil hmem)
      · exact indexed_of_listedProblem (flatten_eq_nil_of_forall₂ hunsupported hunsupportedNil hmem)
    obtain ⟨all, hok⟩ := exists_mapM_ok_iff.mpr fun listing hlisting => (hall listing hlisting).imp fun _ h => h.1
    refine ⟨all, hok, fun l hl => ?_⟩
    obtain ⟨listing, hlisting, hlok⟩ := ok_of_mem_right (forall₂_of_mapM_ok hok) hl
    obtain ⟨l', hl', hrow⟩ := hall listing hlisting
    obtain rfl := Except.ok.inj (hl'.symm.trans hlok)
    exact hrow

/-- The receipts of one transaction in a block are all like its last row. -/
theorem countP_key {rows : List Row} {all : List Listed} (h : Indexed rows all) {key : ℤ × Text} {row : Row}
    (hrow : (rowIndex rows).get? key = some row) : all.countP (fun l => (l.1, l.2.1) = key) = all.count row.listed := by
  rw [List.count]
  refine List.countP_congr fun l hl => ?_
  rw [decide_eq_true_iff, beq_iff_eq]
  constructor
  · rintro rfl
    obtain ⟨row', hrow', hlisted⟩ := h l hl
    rw [← Option.some.inj (hrow.symm.trans hrow')] at hlisted
    exact hlisted.symm
  · rintro rfl
    exact (mem_rowIndex hrow).2

/-- Each listed receipt has a row of its own where there are rows for the repeated ones. -/
theorem subperm_iff {rows : List Row} {all : List Listed} (h : Indexed rows all) :
    all.Subperm (rows.map Row.listed) ↔ ∀ key row, (rowIndex rows).get? key = some row →
      all.countP (fun l => (l.1, l.2.1) = key) ≤ (rows.map Row.listed).count row.listed := by
  rw [List.subperm_ext_iff]
  constructor
  · intro hcount key row hrow
    rw [countP_key h hrow]
    by_cases hmem : row.listed ∈ all
    · exact hcount _ hmem
    · rw [List.count_eq_zero_of_not_mem hmem]
      exact Nat.zero_le _
  · intro hcount l hl
    obtain ⟨row, hrow, rfl⟩ := h l hl
    rw [← countP_key h hrow]
    exact hcount _ row hrow

theorem mem_entries_bySource {outgoing : List Row} {source : ℤ} {rows : List Row} :
    (source, rows) ∈ (bySource outgoing cutoffs).entries ↔ rows = listRows outgoing cutoffs source ∧ rows ≠ [] :=
  Dict.mem_entries_groupBy

theorem comparison_nil {outgoing : List Row} {c : Comparison} (h : comparison u report outgoing cutoffs = .ok c)
    (hnil : c.problems = []) {source : ℤ} (hsource : source ∈ (bySource outgoing cutoffs).keys) :
    ∃ d, (byShard report.scans).get? source = some d ∧
      accountedFigures d = .ok (expectedFigures (listRows outgoing cutoffs source)) ∧
      ∃ all, allListed u d = .ok all ∧ Indexed (listRows outgoing cutoffs source) all := by
  obtain ⟨compared, hcompared, rfl⟩ := of_map_ok h
  obtain ⟨rows, hrows⟩ := Dict.exists_of_mem_keys hsource
  obtain ⟨r, hr, hok⟩ := ok_of_mem_left (forall₂_of_mapM_ok hcompared) ((List.mem_insertionSort _).mpr hrows)
  obtain ⟨x, hx, rfl⟩ := of_map_ok hok
  obtain ⟨rfl, -⟩ := mem_entries_bySource.mp hrows
  have hxnil : x.1 = [] := List.flatten_eq_nil_iff.mp hnil x.1 (List.mem_map.mpr ⟨_, hr, rfl⟩)
  exact compareSource_nil (o := x.2) (hx.trans (congrArg Except.ok (Prod.ext hxnil rfl)))

theorem mem_unchecked {outgoing : List Row} {c : Comparison} (h : comparison u report outgoing cutoffs = .ok c) {source : ℤ} :
    source ∈ c.unchecked ↔ source ∈ (byShard report.scans).keys ∧ source ∉ (bySource outgoing cutoffs).keys := by
  obtain ⟨compared, -, rfl⟩ := of_map_ok h
  rw [List.mem_insertionSort, List.mem_filter, decide_eq_true_iff]

/-! ### All checks -/

/-- What an evaluation without problems has established. -/
structure Accepted (u : Lower) (report : Report) (outgoing : List Row) (independents : List Report) (cutoffs : Cutoffs) :
    Prop where
  recorded : Recorded cutoffs report ∨ (∃ other ∈ independents, Agrees u cutoffs report other) ∧ Legacy report
  checked : (∃ other ∈ independents, Agrees u cutoffs report other) ∨
    ∀ shard ∈ (byShard report.scans).keys, ∃ d, (byShard report.scans).get? shard = some d ∧
      accountedFigures d = .ok (expectedFigures (listRows outgoing cutoffs shard)) ∧
      ∃ all, allListed u d = .ok all ∧ Indexed (listRows outgoing cutoffs shard) all

theorem accepted_of_evaluate {outgoing : List Row} {independents : List Report} {e : Evaluation}
    (h : evaluate u report outgoing independents cutoffs = .ok e) (hnil : e.problems = []) :
    Accepted u report outgoing independents cutoffs := by
  obtain ⟨agreements, hagreements, h⟩ := of_bind_ok h
  obtain ⟨provenance, hprovenance, h⟩ := of_bind_ok h
  obtain ⟨compared, hcompared, rfl⟩ := of_map_ok h
  simp only [List.append_eq_nil_iff] at hnil
  obtain ⟨⟨⟨hrecorded, -⟩, hproblems⟩, hunchecked⟩ := hnil
  have hagreed : [] ∈ agreements → ∃ other ∈ independents, Agrees u cutoffs report other := by
    intro hmem
    obtain ⟨other, hother, hok⟩ := ok_of_mem_right (forall₂_of_mapM_ok hagreements) hmem
    exact ⟨other, hother, independentReportProblems_nil_iff.mp hok⟩
  constructor
  · by_cases hlegacy : [] ∈ agreements ∧ provenance = [.legacyReport]
    · obtain ⟨hmem, rfl⟩ := hlegacy
      exact Or.inr ⟨hagreed hmem, legacy_of_mem hprovenance List.mem_cons_self⟩
    · rw [if_neg hlegacy] at hrecorded
      exact Or.inl (provenanceProblems_nil (hrecorded ▸ hprovenance))
  · by_cases hmem : [] ∈ agreements
    · exact Or.inl (hagreed hmem)
    · rw [if_neg hmem, List.map_eq_nil_iff] at hunchecked
      refine Or.inr fun shard hshard => comparison_nil hcompared hproblems ?_
      by_contra hnot
      have hin := (mem_unchecked hcompared).mpr ⟨hshard, hnot⟩
      rw [hunchecked] at hin
      exact List.not_mem_nil hin

theorem Recorded.direction (h : Recorded cutoffs report) {shard : ℤ} (hshard : shard ∈ activeShards) :
    ∃ d ∈ report.scans, d.sourceShard = shard :=
  List.mem_map.mp (h.shards.mem_iff.mpr hshard)

theorem Recorded.unique (h : Recorded cutoffs report) {d d' : Direction} (hd : d ∈ report.scans) (hd' : d' ∈ report.scans)
    (heq : d.sourceShard = d'.sourceShard) : d = d' :=
  List.inj_on_of_nodup_map (h.shards.nodup_iff.mpr (by decide)) hd hd' heq

theorem Agrees.mem_keys (h : Agrees u cutoffs report independent) {d : Direction} (hd : d ∈ report.scans) :
    d.sourceShard ∈ (byShard independent.scans).keys := by
  obtain ⟨other, hother, -⟩ := h.directions d hd
  exact Dict.mem_keys (Dict.get?_eq_some_iff.mp hother)

/-- The direction of a shard that is checked against its rows. -/
theorem Recorded.accounted_iff (h : Recorded cutoffs report) {outgoing : List Row}
    (hchecked : ∀ shard ∈ (byShard report.scans).keys, ∃ d, (byShard report.scans).get? shard = some d ∧
      accountedFigures d = .ok (expectedFigures (listRows outgoing cutoffs shard)) ∧
      ∃ all, allListed u d = .ok all ∧ Indexed (listRows outgoing cutoffs shard) all) {d : Direction} (hd : d ∈ report.scans) :
    Accounted u (listRows outgoing cutoffs d.sourceShard) d ↔
      RowsForRepeats u (listRows outgoing cutoffs d.sourceShard) d := by
  obtain ⟨d', hget, hfigures, all, hall, hindexed⟩ := hchecked d.sourceShard (mem_keys_byShard.mpr ⟨d, hd, rfl⟩)
  obtain ⟨hd', hshard⟩ := mem_byShard hget
  obtain rfl := h.unique hd' hd hshard
  constructor
  · rintro ⟨-, all', hall', hsub⟩ all'' hall'' key row hrow
    obtain rfl := Except.ok.inj (hall'.symm.trans hall'')
    obtain rfl := Except.ok.inj (hall.symm.trans hall')
    exact (subperm_iff hindexed).mp hsub key row hrow
  · intro hrows
    exact ⟨hfigures, all, hall, (subperm_iff hindexed).mpr (hrows all hall)⟩

/-- Acceptance is sound exactly where a report that predates the recording has both directions at the cutoffs, and, unless
an independent report agrees, no transaction's receipts are listed more often than the list has rows for them. -/
theorem sound_iff (u : Lower) (report : Report) (outgoing : List Row) (independents : List Report) (cutoffs : Cutoffs)
    {e : Evaluation} (h : evaluate u report outgoing independents cutoffs = .ok e) (hnil : e.problems = []) :
    Sound u report outgoing independents cutoffs ↔
      (Legacy report → ∀ shard ∈ activeShards, (∃ d ∈ report.scans, d.sourceShard = shard) ∧
        intOrZero (report.cutoff shard) = .ok (cutoffs.of shard)) ∧
      ((∀ other ∈ independents, independentReportProblems u report other cutoffs ≠ .ok []) →
        ∀ d ∈ report.scans, RowsForRepeats u (listRows outgoing cutoffs d.sourceShard) d) := by
  obtain ⟨hrecorded, hchecked⟩ := accepted_of_evaluate h hnil
  by_cases hagreed : ∃ other ∈ independents, Agrees u cutoffs report other
  · obtain ⟨other, hother, hagrees⟩ := hagreed
    constructor
    · intro hsound
      refine ⟨fun _ shard hshard => ⟨hsound.directions shard hshard, hsound.atCutoffs shard hshard⟩, fun hno => ?_⟩
      exact absurd (independentReportProblems_nil_iff.mpr hagrees) (hno other hother)
    · rintro ⟨hlegacy, -⟩
      have hboth : ∀ shard ∈ activeShards, (∃ d ∈ report.scans, d.sourceShard = shard) ∧
          intOrZero (report.cutoff shard) = .ok (cutoffs.of shard) := by
        rcases hrecorded with hrecorded | ⟨-, hold⟩
        · exact fun shard hshard => ⟨hrecorded.direction hshard, hrecorded.atCutoffs shard hshard⟩
        · exact hlegacy hold
      refine ⟨fun shard hshard => (hboth shard hshard).1, fun shard hshard => (hboth shard hshard).2,
        Or.inr ⟨other, hother, hagrees⟩, fun shard hshard => ?_⟩
      obtain ⟨d, hd, rfl⟩ := (hboth shard hshard).1
      exact Or.inl ⟨other, hother, hagrees, hagrees.mem_keys hd⟩
  · have hrecorded : Recorded cutoffs report := hrecorded.resolve_right fun h => hagreed h.1
    have hchecked := hchecked.resolve_left hagreed
    have hshard : ∀ d ∈ report.scans, d.sourceShard ∈ activeShards := fun d hd =>
      hrecorded.shards.mem_iff.mp (List.mem_map_of_mem hd)
    constructor
    · intro hsound
      refine ⟨fun hold => absurd hold hrecorded.notLegacy, fun _ d hd => (hrecorded.accounted_iff hchecked hd).mp ?_⟩
      rcases hsound.evidence d.sourceShard (hshard d hd) with ⟨other, hother, hagrees, -⟩ | ⟨d', hd', heq, haccounted⟩
      · exact absurd ⟨other, hother, hagrees⟩ hagreed
      · rwa [hrecorded.unique hd' hd heq] at haccounted
    · rintro ⟨-, hrows⟩
      have hno : ∀ other ∈ independents, independentReportProblems u report other cutoffs ≠ .ok [] :=
        fun other hother hok => hagreed ⟨other, hother, independentReportProblems_nil_iff.mp hok⟩
      refine ⟨fun shard hs => hrecorded.direction hs, hrecorded.atCutoffs, Or.inl hrecorded.complete, fun shard hs => ?_⟩
      obtain ⟨d, hd, rfl⟩ := hrecorded.direction hs
      exact Or.inr ⟨d, hd, rfl, (hrecorded.accounted_iff hchecked hd).mpr (hrows hno d hd)⟩

end Checks

/-! ### A report of one shard -/

def million : Cutoffs := ⟨1000000, 1000000⟩

/-- A scan that found no receipts. -/
def emptyScan (shard : ℤ) : Direction := ⟨shard, fun _ => some (.number 0), none, fun _ => []⟩

def legacyReport (directions : List Direction) : Report :=
  ⟨none, [], false, some (.number 1000000), some (.number 1000000), some directions, none, none⟩

/-- Only shard 0 was scanned; the independent report agrees about it. -/
theorem one_shard_accepted : ∃ e,
    evaluate asciiLower (legacyReport [emptyScan 0]) [] [legacyReport [emptyScan 0, emptyScan 1]] million = .ok e ∧
      e.problems = [] ∧
      ¬Sound asciiLower (legacyReport [emptyScan 0]) [] [legacyReport [emptyScan 0, emptyScan 1]] million := by
  have hrun : ((evaluate asciiLower (legacyReport [emptyScan 0]) [] [legacyReport [emptyScan 0, emptyScan 1]]
      million).toOption.map Evaluation.problems) = some [] := by decide +kernel
  obtain ⟨e, h, hnil⟩ := Except.exists_ok_of_map hrun
  refine ⟨e, h, hnil, fun hsound => ?_⟩
  obtain ⟨d, hd, hshard⟩ := hsound.directions 1 (by decide)
  obtain rfl : d = emptyScan 0 := List.mem_singleton.mp hd
  exact absurd hshard (by decide)

/-- One pending receipt of shard 0, one spent receipt of shard 1. -/
def fullReport : Report where
  coverageComplete := some true
  coverageProblems := []
  incompleteHistoryAllowed := false
  shard0Cutoff := some (.number 1000000)
  shard1Cutoff := some (.number 1000000)
  directions := some [
    { sourceShard := 0
      fields := fun field => some (.number (if field = .pendingReceiptCount then 1 else if field = .pendingAmountAtto then 7 else 0))
      sourceCoverage := some ⟨true, some (.number crossTxFirstBlock), some (.number 1000000), none, none⟩
      groups := fun kind => if kind = .pending then [⟨.number 900000, [⟨['b'], ['a'], .text ['7']⟩]⟩] else [] },
    { sourceShard := 1
      fields := fun field => some (.number (if field = .spentReceiptCount then 1 else if field = .spentAmountAtto then 4 else 0))
      sourceCoverage := some ⟨true, some (.number crossTxFirstBlock), some (.number 1000000), none, none⟩
      groups := fun _ => [] }]
  shard0Database := some ⟨some "chain".toList, some ⟨true, none, none, none⟩, none⟩
  shard1Database := some ⟨some "chain".toList, some ⟨true, none, none, none⟩, none⟩

def fullList : List Row := [⟨0, 1, 900000, ['b'], ['a'], 7⟩, ⟨1, 0, 870000, ['c'], ['a'], 4⟩]

theorem sound_full_report : ∃ e, evaluate asciiLower fullReport fullList [] million = .ok e ∧ e.problems = [] ∧
    Sound asciiLower fullReport fullList [] million := by
  have hrun : ((evaluate asciiLower fullReport fullList [] million).toOption.map Evaluation.problems) = some [] := by
    decide +kernel
  obtain ⟨e, h, hnil⟩ := Except.exists_ok_of_map hrun
  refine ⟨e, h, hnil, (sound_iff asciiLower fullReport fullList [] million h hnil).mpr ⟨?_, fun _ d hd all hall => ?_⟩⟩
  · rintro (hnone | hnone)
    · cases hnone
    · cases hnone
  · intro key row hrow
    have hlength : all.length ≤ 1 := by
      have hlistings : ∀ d ∈ fullReport.scans, (d.listings .pending ++ d.listings .unsupported).length ≤ 1 := by decide
      rw [← (forall₂_of_mapM_ok hall).length_eq]
      exact hlistings d hd
    have hcount : 0 < ((listRows fullList million d.sourceShard).map Row.listed).count row.listed :=
      List.count_pos_iff.mpr (List.mem_map_of_mem (mem_rowIndex hrow).1)
    exact List.countP_le_length.trans (hlength.trans hcount)

end HarmonyMigration.ReceiptProvenance
