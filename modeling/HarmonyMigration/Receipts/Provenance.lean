import HarmonyMigration.Receipts.RebuildRun

/-! `receipt_provenance.py`: a report compared with an independent list of outgoing receipts. -/

namespace HarmonyMigration.Receipts

open Erc20 Except Claims

/-! ### The comparison -/

/-- A row of `read_outgoing`. -/
structure ListedReceipt where
  source : ℕ
  destination : ℕ
  block : ℕ
  tx : Hash
  recipient : Address
  amount : ℕ
  deriving DecidableEq

def OutgoingRow.listed (row : OutgoingRow) : ListedReceipt :=
  ⟨row.sourceShard, row.destinationShard, row.sourceBlock, row.txHash, row.recipient, row.amountAtto⟩

def readOutgoing (files : List (List OutgoingRow)) : List ListedReceipt := files.flatten.map OutgoingRow.listed

/-- Receipts toward the shards 0 and 1, and toward the others. -/
structure Figures where
  activeReceipts : ℕ
  activeAtto : ℕ
  retiredReceipts : ℕ
  retiredAtto : ℕ
  deriving DecidableEq

inductive Figure where
  | activeReceipts | activeAtto | retiredReceipts | retiredAtto
  deriving DecidableEq

inductive ComparisonProblem where
  | noScan (shard : ℕ)
  | differs (shard : ℕ) (figure : Figure) (independent report : ℕ)
  | notListed (shard : ℕ) (kind : Kind) (tx : Hash) (block : ℕ)
  deriving DecidableEq

def expectedFigures (rows : List ListedReceipt) : Figures :=
  let active := rows.filter fun row => row.destination ≤ 1
  let retired := rows.filter fun row => ¬row.destination ≤ 1
  ⟨active.length, (active.map ListedReceipt.amount).sum, retired.length, (retired.map ListedReceipt.amount).sum⟩

def accountedFigures (d : DirectionTotals) : Figures :=
  ⟨d.spent.receiptCount + d.pending.receiptCount, d.spent.amountAtto + d.pending.amountAtto,
    d.unsupported.receiptCount, d.unsupported.amountAtto⟩

def figureProblem (shard : ℕ) (figure : Figure) (expected accounted : ℕ) : List ComparisonProblem :=
  if expected ≠ accounted then [.differs shard figure expected accounted] else []

def figureProblems (shard : ℕ) (expected accounted : Figures) : List ComparisonProblem :=
  figureProblem shard .activeReceipts expected.activeReceipts accounted.activeReceipts ++
  figureProblem shard .activeAtto expected.activeAtto accounted.activeAtto ++
  figureProblem shard .retiredReceipts expected.retiredReceipts accounted.retiredReceipts ++
  figureProblem shard .retiredAtto expected.retiredAtto accounted.retiredAtto

/-- `index`: of the rows of a transaction in a block, the last. -/
def receiptIndex (rows : List ListedReceipt) : Dict (ℕ × Hash) ListedReceipt :=
  .ofList (rows.map fun row => ((row.block, row.tx), row))

def listedProblems (shard : ℕ) (kind : Kind) (index : Dict (ℕ × Hash) ListedReceipt) (groups : List ReceiptGroup) :
    List ComparisonProblem :=
  groups.flatMap fun group => group.receipts.flatMap fun receipt =>
    match index.get? (group.blockNumber, receipt.transactionHash) with
    | none => [.notListed shard kind receipt.transactionHash group.blockNumber]
    | some row =>
      if row.recipient ≠ receipt.recipient ∨ row.amount ≠ receipt.amountAtto then
        [.notListed shard kind receipt.transactionHash group.blockNumber]
      else []

def compareSource (directions : Dict ℕ DirectionTotals) (source : ℕ) (rows : List ListedReceipt) :
    List ComparisonProblem :=
  match directions.get? source with
  | none => [.noScan source]
  | some d =>
    figureProblems source (expectedFigures rows) (accountedFigures d) ++
    listedProblems source .pending (receiptIndex rows) d.pendingGroups ++
    listedProblems source .unsupported (receiptIndex rows) d.unsupportedGroups

structure Comparison where
  problems : List ComparisonProblem
  stats : List (ℕ × Figures × Option Figures)
  unchecked : List ℕ

def comparison (report : List DirectionTotals) (outgoing : List ListedReceipt) (cutoffs : ℕ → Option ℕ) : Comparison :=
  let bySource := Dict.groupBy ListedReceipt.source
    (outgoing.filter fun row => (cutoffs row.source).any fun cutoff => row.block ≤ cutoff)
  let directions := Dict.ofList (report.map fun d => (d.sourceShard, d))
  let sources := bySource.entries.insertionSort fun a b => a.1 ≤ b.1
  { problems := sources.flatMap fun e => compareSource directions e.1 e.2
    stats := sources.map fun e => (e.1, expectedFigures e.2, (directions.get? e.1).map accountedFigures)
    unchecked := (directions.keys.filter fun source => source ∉ bySource.keys).insertionSort (· ≤ ·) }

/-! ### The rows of a shard -/

variable {K : Keys} {s : Supply} {shard : ℕ} {t : DirectionTotals}

/-- The listed receipts of a shard, up to its cutoff. -/
def listedRows (s : Supply) (shard : ℕ) : List ListedReceipt :=
  (outgoingRows shard ((countedGroups (s.scan shard)).filter fun g => g.1.hash ≠ 0)).map OutgoingRow.listed

theorem listed_filter (s : Supply) (shard : ℕ) :
    (((outgoingRows shard ((s.databases shard).receiptGroups.filter (Listed (s.databases shard)))).map
      OutgoingRow.listed).filter fun row => row.block ≤ s.cutoffs shard) = listedRows s shard := by
  rw [listedRows, ← canonicalGroups_filter, List.filter_map]
  refine congrArg (List.map OutgoingRow.listed) ?_
  rw [show ((fun row => decide (row.block ≤ s.cutoffs shard)) ∘ OutgoingRow.listed) =
    fun row : OutgoingRow => decide (row.sourceBlock ≤ s.cutoffs shard) from rfl, outgoingRows_filter, canonicalGroups]
  refine congrArg (outgoingRows shard) ?_
  simp only [List.filter_filter]
  refine List.filter_congr fun g _ => ?_
  rw [Bool.eq_iff_iff]
  simp only [Bool.and_eq_true, decide_eq_true_eq]
  constructor
  · rintro ⟨hle, hcanonical, hhash⟩
    exact ⟨hhash, hle, hcanonical⟩
  · rintro ⟨hhash, hle, hcanonical⟩
    exact ⟨hle, hcanonical, hhash⟩

/-- The figures of listed rows, group by group. -/
theorem expectedFigures_rows (gs : List Group) :
    expectedFigures ((outgoingRows shard gs).map OutgoingRow.listed) =
      ⟨((gs.filter fun g => g.1.destination ≤ 1).map fun g => (receiptsOf g).length).sum,
        ((gs.filter fun g => g.1.destination ≤ 1).map fun g => totalAmount (receiptsOf g)).sum,
        ((gs.filter fun g => ¬g.1.destination ≤ 1).map fun g => (receiptsOf g).length).sum,
        ((gs.filter fun g => ¬g.1.destination ≤ 1).map fun g => totalAmount (receiptsOf g)).sum⟩ := by
  have hamount : ∀ g : Group, ((rowsOf shard g.1 (receiptsOf g)).map OutgoingRow.listed).map ListedReceipt.amount =
      (receiptsOf g).map Receipt.amount := fun g => by
    rw [← List.zipIdx_map_fst 0 (receiptsOf g), rowsOf, List.map_map, List.map_map, List.map_map, List.zipIdx_map_fst]
    rfl
  have hpart : ∀ P : ℕ → Bool, (((outgoingRows shard gs).map OutgoingRow.listed).filter fun row => P row.destination) =
      (outgoingRows shard (gs.filter fun g => P g.1.destination)).map OutgoingRow.listed := fun P => by
    induction gs with
    | nil => rfl
    | cons g gs ih =>
      have hrow : ∀ row ∈ (rowsOf shard g.1 (receiptsOf g)).map OutgoingRow.listed,
          row.destination = g.1.destination := fun row hrow => by
        obtain ⟨x, hx, rfl⟩ := List.mem_map.mp hrow
        exact congrArg GroupKey.destination (mem_rowsOf hx).2.1
      rw [outgoingRows, List.flatMap_cons, List.map_append, List.filter_append, ← outgoingRows, ih, List.filter_cons]
      cases hP : P g.1.destination with
      | true =>
        rw [List.filter_eq_self.mpr fun row hm => by rw [hrow row hm, hP]]
        simp [outgoingRows]
      | false =>
        rw [List.filter_eq_nil_iff.mpr fun row hm => by simp [hrow row hm, hP]]
        simp
  have hlength : ∀ gs : List Group, ((outgoingRows shard gs).map OutgoingRow.listed).length =
      (gs.map fun g => (receiptsOf g).length).sum := fun gs => by
    rw [List.length_map, outgoingRows, List.length_flatMap]
    simp [rowsOf]
  have hsum : ∀ gs : List Group, (((outgoingRows shard gs).map OutgoingRow.listed).map ListedReceipt.amount).sum =
      (gs.map fun g => totalAmount (receiptsOf g)).sum := fun gs => by
    induction gs with
    | nil => rfl
    | cons g gs ih =>
      rw [outgoingRows, List.flatMap_cons, List.map_append, List.map_append, List.sum_append, hamount, ← outgoingRows, ih]
      rfl
  simp only [expectedFigures, hpart fun d => decide (d ≤ 1), hpart fun d => decide ¬d ≤ 1, hlength, hsum]

/-- The figures of the scan, group by group. -/
theorem accountedFigures_scan (hshard : shard ≤ 1) (r : SumRun K (s.scan shard) t)
    (hself : ∀ g ∈ countedGroups (s.scan shard), g.1.destination ≠ shard) :
    accountedFigures t =
      ⟨(((countedGroups (s.scan shard)).filter fun g => g.1.destination ≤ 1).map fun g => (receiptsOf g).length).sum,
        (((countedGroups (s.scan shard)).filter fun g => g.1.destination ≤ 1).map fun g => totalAmount (receiptsOf g)).sum,
        (((countedGroups (s.scan shard)).filter fun g => ¬g.1.destination ≤ 1).map fun g => (receiptsOf g).length).sum,
        (((countedGroups (s.scan shard)).filter fun g => ¬g.1.destination ≤ 1).map
          fun g => totalAmount (receiptsOf g)).sum⟩ := by
  have hcount := r.countedOnce
  have hpartner := partner_of_le hshard
  have hkind : ∀ g ∈ countedGroups (s.scan shard), (kind (s.scan shard) g = .unsupported ↔ ¬g.1.destination ≤ 1) ∧
      (kind (s.scan shard) g = .unsupported ∨ kind (s.scan shard) g = .spent ∨ kind (s.scan shard) g = .pending) :=
    fun g hg => by
      refine ⟨?_, counted_iff_kind.mp (by simpa using (List.mem_filter.mp hg).2)⟩
      rw [hcount.unsupported_iff g hg]
      have := hself g hg
      simp only [Supply.scan, ite_eq_right_iff, reduceCtorEq, imp_false]
      omega
  rw [accountedFigures, hcount.spent, hcount.pending, hcount.unsupported]
  simp only [classTotals]
  generalize countedGroups (s.scan shard) = gs at hkind
  have hsplit : ∀ f : Group → ℕ, ((gs.filter fun g => kind (s.scan shard) g = .spent).map f).sum +
      ((gs.filter fun g => kind (s.scan shard) g = .pending).map f).sum =
        ((gs.filter fun g => g.1.destination ≤ 1).map f).sum := fun f => by
    induction gs with
    | nil => rfl
    | cons g gs ih =>
      have hrest := ih fun x hx => hkind x (by simp [hx])
      obtain ⟨hun, hk | hk | hk⟩ := hkind g (by simp)
      · have hd := hun.mp hk
        simp [hk, hd, hrest]
      · have hd : g.1.destination ≤ 1 := not_not.mp fun hd => by simpa [hk] using hun.mpr hd
        simp [hk, hd] at hrest ⊢
        omega
      · have hd : g.1.destination ≤ 1 := not_not.mp fun hd => by simpa [hk] using hun.mpr hd
        simp [hk, hd] at hrest ⊢
        omega
  have hretired : (gs.filter fun g => kind (s.scan shard) g = .unsupported) = gs.filter fun g => ¬g.1.destination ≤ 1 :=
    List.filter_congr fun g hg => decide_eq_decide.mpr (hkind g hg).1
  rw [hsplit, hsplit, hretired]

/-! ### The index of the list -/

/-- The last of a transaction's receipts in a block, in the order of the database. -/
def lastReceipt (p : Scan) (n : ℕ) (tx : Hash) : Option Receipt :=
  ((((countedGroups p).filter fun g => g.1.number = n).flatMap receiptsOf).filter fun r => r.txHash = tx).getLast?

def Receipt.paid (r : Receipt) : Address × ℕ := (r.recipient, r.amount)

def ListedReceipt.paid (r : ListedReceipt) : Address × ℕ := (r.recipient, r.amount)

theorem paid_of_rows (gs : List Group) (n : ℕ) (tx : Hash) :
    (((outgoingRows shard gs).map OutgoingRow.listed).filter fun row => (row.block, row.tx) = (n, tx)).map
      ListedReceipt.paid = (((gs.filter fun g => g.1.number = n).flatMap receiptsOf).filter fun r => r.txHash = tx).map
        Receipt.paid := by
  induction gs with
  | nil => rfl
  | cons g gs ih =>
    have hrows : (((rowsOf shard g.1 (receiptsOf g)).map OutgoingRow.listed).filter
        fun row => (row.block, row.tx) = (n, tx)).map ListedReceipt.paid =
          if g.1.number = n then ((receiptsOf g).filter fun r => r.txHash = tx).map Receipt.paid else [] := by
      rw [rowsOf, List.map_map, List.filter_map, List.map_map]
      by_cases hn : g.1.number = n
      · rw [if_pos hn, ← List.zipIdx_map_fst 0 (receiptsOf g), List.filter_map, List.map_map, List.zipIdx_map_fst]
        simp only [Function.comp_def, OutgoingRow.listed, outgoingRow, Prod.mk.injEq, hn, true_and]
        rfl
      · rw [if_neg hn, List.map_eq_nil_iff, List.filter_eq_nil_iff]
        intro x _
        simp [OutgoingRow.listed, outgoingRow, hn]
    rw [outgoingRows, List.flatMap_cons, List.map_append, List.filter_append, List.map_append, ← outgoingRows, ih, hrows,
      List.filter_cons]
    by_cases hn : g.1.number = n <;> simp [hn]

theorem receiptIndex_get? (gs : List Group) (n : ℕ) (tx : Hash) :
    ((receiptIndex ((outgoingRows shard gs).map OutgoingRow.listed)).get? (n, tx)).map ListedReceipt.paid =
      ((((gs.filter fun g => g.1.number = n).flatMap receiptsOf).filter fun r => r.txHash = tx).getLast?).map
        Receipt.paid := by
  rw [receiptIndex, Dict.get?_ofList, List.filter_map, List.getLast?_map, Option.map_map, Option.map_map,
    ← List.getLast?_map (f := Receipt.paid), ← paid_of_rows, List.getLast?_map]
  rfl

theorem listedProblems_nil_iff {k : Kind} {index : Dict (ℕ × Hash) ListedReceipt} {groups : List ReceiptGroup} :
    listedProblems shard k index groups = [] ↔ ∀ group ∈ groups, ∀ receipt ∈ group.receipts,
      (index.get? (group.blockNumber, receipt.transactionHash)).map ListedReceipt.paid =
        some (receipt.recipient, receipt.amountAtto) := by
  simp only [listedProblems, List.flatMap_eq_nil_iff]
  refine forall₂_congr fun group _ => forall₂_congr fun receipt _ => ?_
  cases index.get? (group.blockNumber, receipt.transactionHash) with
  | none => simp
  | some row =>
    simp only [Option.map_some, Option.some.injEq, ListedReceipt.paid, Prod.mk.injEq]
    split_ifs with h
    · simp only [false_iff]
      tauto
    · simp only [true_iff]
      tauto

theorem listedProblems_groups {k : Kind} {index : Dict (ℕ × Hash) ListedReceipt} {gs : List Group} :
    listedProblems shard k index (gs.map fun g => makeReceiptGroup K g.1 (receiptsOf g)) = [] ↔
      ∀ g ∈ gs, ∀ r ∈ receiptsOf g, (index.get? (g.1.number, r.txHash)).map ListedReceipt.paid = some r.paid := by
  rw [listedProblems_nil_iff, List.forall_mem_map]
  exact forall₂_congr fun g _ => List.forall_mem_map

/-- Every receipt that the report lists is the last of its transaction in its block, or like it. -/
def ListedAlike (p : Scan) : Prop :=
  ∀ g ∈ countedGroups p, kind p g ≠ .spent → ∀ r ∈ receiptsOf g, ∀ x ∈ lastReceipt p g.1.number r.txHash, x.paid = r.paid

theorem lastReceipt_isSome {p : Scan} {g : Group} (hg : g ∈ countedGroups p) {r : Receipt} (hr : r ∈ receiptsOf g) :
    ∃ x, lastReceipt p g.1.number r.txHash = some x := by
  rw [← Option.isSome_iff_exists, lastReceipt, List.getLast?_isSome]
  refine List.ne_nil_of_mem (a := r) (List.mem_filter.mpr ⟨List.mem_flatMap.mpr ⟨g, ?_, hr⟩, by simp⟩)
  exact List.mem_filter.mpr ⟨hg, by simp⟩

/-- A direction against the complete list of its receipts. -/
theorem compareSource_nil_iff {directions : Dict ℕ DirectionTotals} (hshard : shard ≤ 1)
    (r : SumRun K (s.scan shard) t) (hself : ∀ g ∈ countedGroups (s.scan shard), g.1.destination ≠ shard)
    (hdirection : directions.get? shard = some t) :
    compareSource directions shard ((outgoingRows shard (countedGroups (s.scan shard))).map OutgoingRow.listed) = [] ↔
      ListedAlike (s.scan shard) := by
  have hcount := r.countedOnce
  have hfigures : figureProblems shard (expectedFigures ((outgoingRows shard (countedGroups (s.scan shard))).map
      OutgoingRow.listed)) (accountedFigures t) = [] := by
    rw [expectedFigures_rows, accountedFigures_scan hshard r hself]
    simp [figureProblems, figureProblem]
  have hlast : ∀ g ∈ countedGroups (s.scan shard), ∀ r ∈ receiptsOf g,
      (((receiptIndex ((outgoingRows shard (countedGroups (s.scan shard))).map OutgoingRow.listed)).get?
        (g.1.number, r.txHash)).map ListedReceipt.paid = some r.paid ↔
          ∀ x ∈ lastReceipt (s.scan shard) g.1.number r.txHash, x.paid = r.paid) := fun g hg r hr => by
    obtain ⟨x, hx⟩ := lastReceipt_isSome hg hr
    rw [receiptIndex_get?, ← lastReceipt, hx]
    simp
  rw [compareSource, hdirection]
  simp only [hfigures, List.nil_append, List.append_eq_nil_iff, hcount.pendingGroups, hcount.unsupportedGroups,
    listedProblems_groups, List.mem_filter, decide_eq_true_eq]
  constructor
  · rintro ⟨hpending, hunsupported⟩ g hg hk r hr
    have hcounted : Counted (s.scan shard) g := by simpa using (List.mem_filter.mp hg).2
    rcases counted_iff_kind.mp hcounted with h | h | h
    · exact (hlast g hg r hr).mp (hunsupported g ⟨hg, h⟩ r hr)
    · exact absurd h hk
    · exact (hlast g hg r hr).mp (hpending g ⟨hg, h⟩ r hr)
  · intro h
    exact ⟨fun g hg r hr => (hlast g hg.1 r hr).mpr (h g hg.1 (by simp [hg.2]) r hr),
      fun g hg r hr => (hlast g hg.1 r hr).mpr (h g hg.1 (by simp [hg.2]) r hr)⟩

/-! ### A report against the lists of its databases -/

/-- What the comparison needs: no block hash is zero, and the listed receipts are alike. -/
def Comparable (p : Scan) : Prop := (∀ g ∈ countedGroups p, g.1.hash ≠ 0) ∧ ListedAlike p

theorem receiptsOf_ne_nil (r : SumRun K (s.scan shard) t) {g : Group} (hg : g ∈ countedGroups (s.scan shard)) :
    receiptsOf g ≠ [] := fun hnil => by
  obtain ⟨hmem, hcounted⟩ := List.mem_filter.mp hg
  have hcounted : Counted (s.scan shard) g := by simpa using hcounted
  have hlength := (checkReceipts_ok (r.receipts g hmem hcounted)).2
  rw [hnil] at hlength
  exact hcounted.1 (List.length_eq_zero_iff.mp hlength.symm)

theorem outgoingRows_eq_nil_iff {gs : List Group} (h : ∀ g ∈ gs, receiptsOf g ≠ []) :
    outgoingRows shard gs = [] ↔ gs = [] := by
  rw [outgoingRows, List.flatMap_eq_nil_iff]
  refine ⟨fun hnil => List.eq_nil_iff_forall_not_mem.mpr fun g hg => h g hg ?_, fun hnil => by simp [hnil]⟩
  simpa [rowsOf] using hnil g hg

/-- Receipts under the zero hash are missing from the figures of the list. -/
theorem figures_differ (hshard : shard ≤ 1) (r : SumRun K (s.scan shard) t)
    (hself : ∀ g ∈ countedGroups (s.scan shard), g.1.destination ≠ shard)
    (hfigures : figureProblems shard (expectedFigures (listedRows s shard)) (accountedFigures t) = []) :
    ∀ g ∈ countedGroups (s.scan shard), g.1.hash ≠ 0 := by
  have hlength := Dict.sum_filter_add_filter_not (v := fun g : Group => (receiptsOf g).length) fun g => g.1.destination ≤ 1
  rw [listedRows, expectedFigures_rows, accountedFigures_scan hshard r hself] at hfigures
  have hactive : ∀ {figure : Figure} {a b : ℕ}, figureProblem shard figure a b = [] → a = b := fun {figure a b} h => by
    unfold figureProblem at h
    split_ifs at h with hne
    exact not_not.mp hne
  simp only [figureProblems, List.append_eq_nil_iff] at hfigures
  have h1 := hactive hfigures.1.1.1
  have h2 := hactive hfigures.1.2
  have hsum := congrArg₂ (· + ·) h1 h2
  rw [hlength, hlength] at hsum
  intro g hg hzero
  have hpos : ∀ x ∈ countedGroups (s.scan shard), 0 < (receiptsOf x).length := fun x hx =>
    List.length_pos_of_ne_nil (receiptsOf_ne_nil r hx)
  have hsplit := Dict.sum_filter_add_filter_not (v := fun g : Group => (receiptsOf g).length) (fun g => g.1.hash ≠ 0)
    (countedGroups (s.scan shard))
  have hin : (receiptsOf g).length ∈ ((countedGroups (s.scan shard)).filter fun g => ¬g.1.hash ≠ 0).map
      fun g => (receiptsOf g).length := List.mem_map_of_mem (List.mem_filter.mpr ⟨hg, by simpa using hzero⟩)
  have hle := List.single_le_sum (fun _ _ => Nat.zero_le _) _ hin
  have := hpos g hg
  omega

/-- A shard passes the comparison, checked or without any receipt, exactly when it is comparable. -/
theorem shard_passes_iff {directions : Dict ℕ DirectionTotals} (hshard : shard ≤ 1) (r : SumRun K (s.scan shard) t)
    (hself : ∀ g ∈ countedGroups (s.scan shard), g.1.destination ≠ shard) (hdirection : directions.get? shard = some t) :
    ((listedRows s shard ≠ [] → compareSource directions shard (listedRows s shard) = []) ∧
      (listedRows s shard = [] → countedGroups (s.scan shard) = [])) ↔ Comparable (s.scan shard) := by
  have hrows : (∀ g ∈ countedGroups (s.scan shard), g.1.hash ≠ 0) →
      listedRows s shard = (outgoingRows shard (countedGroups (s.scan shard))).map OutgoingRow.listed := fun h => by
    rw [listedRows, List.filter_eq_self.mpr fun g hg => by simpa using h g hg]
  constructor
  · rintro ⟨hcompare, hnone⟩
    have hhash : ∀ g ∈ countedGroups (s.scan shard), g.1.hash ≠ 0 := by
      by_cases hnil : listedRows s shard = []
      · rw [hnone hnil]
        simp
      · have hproblems := hcompare hnil
        rw [compareSource, hdirection] at hproblems
        simp only [List.append_eq_nil_iff] at hproblems
        exact figures_differ hshard r hself hproblems.1.1
    refine ⟨hhash, ?_⟩
    by_cases hnil : listedRows s shard = []
    · rw [ListedAlike, hnone hnil]
      simp
    · have hproblems := hcompare hnil
      rw [hrows hhash] at hproblems
      exact (compareSource_nil_iff hshard r hself hdirection).mp hproblems
  · rintro ⟨hhash, halike⟩
    rw [hrows hhash]
    refine ⟨fun _ => (compareSource_nil_iff hshard r hself hdirection).mpr halike, fun hnil => ?_⟩
    rw [List.map_eq_nil_iff, outgoingRows_eq_nil_iff fun g hg => receiptsOf_ne_nil r hg] at hnil
    exact hnil

/-- The cutoffs of the comparison. -/
def Supply.comparisonCutoffs (s : Supply) (shard : ℕ) : Option ℕ := if shard ≤ 1 then some (s.cutoffs shard) else none

/-- Of both lists, the rows of a shard. -/
theorem listedRows_of_files {o0 o1 : List OutgoingRow}
    (h0 : o0 = outgoingRows 0 ((s.databases 0).receiptGroups.filter (Listed (s.databases 0))))
    (h1 : o1 = outgoingRows 1 ((s.databases 1).receiptGroups.filter (Listed (s.databases 1)))) (k : ℕ) :
    (((readOutgoing [o0, o1]).filter fun row => (s.comparisonCutoffs row.source).any fun cutoff => row.block ≤ cutoff).filter
      fun row => row.source = k) = if k ≤ 1 then listedRows s k else [] := by
  have hsource : ∀ {shard : ℕ} {gs : List Group}, ∀ row ∈ (outgoingRows shard gs).map OutgoingRow.listed,
      row.source = shard := fun {shard gs} row hrow => by
    obtain ⟨x, hx, rfl⟩ := List.mem_map.mp hrow
    obtain ⟨g, -, hg⟩ := List.mem_flatMap.mp hx
    exact (mem_rowsOf hg).1
  have hpart : ∀ shard ≤ 1, ((((outgoingRows shard ((s.databases shard).receiptGroups.filter
      (Listed (s.databases shard)))).map OutgoingRow.listed).filter fun row =>
        (s.comparisonCutoffs row.source).any fun cutoff => row.block ≤ cutoff).filter fun row => row.source = k) =
          if shard = k then listedRows s shard else [] := fun shard hshard => by
    rw [← listed_filter, List.filter_filter]
    split_ifs with hk
    · refine List.filter_congr fun row hrow => ?_
      rw [hsource row hrow, Supply.comparisonCutoffs, if_pos hshard]
      simp [hk]
    · refine List.filter_eq_nil_iff.mpr fun row hrow => ?_
      simp [hsource row hrow, hk]
  have hflat : readOutgoing [o0, o1] = o0.map OutgoingRow.listed ++ o1.map OutgoingRow.listed := by
    simp [readOutgoing]
  rw [hflat, List.filter_append, List.filter_append, h0, h1, hpart 0 (by omega), hpart 1 le_rfl]
  rcases Nat.lt_or_ge 1 k with hk | hk
  · simp [hk.not_ge, show (0 : ℕ) ≠ k by omega, show (1 : ℕ) ≠ k by omega]
  · rcases Nat.le_one_iff_eq_zero_or_eq_one.mp hk with rfl | rfl <;> simp

/-- The report of both directions against the scans of the same databases: no problem, and no shard with
receipts unchecked, exactly where both shards are comparable. -/
theorem honest_report_passes_iff (K : Keys) (s : Supply)
    (hself : ∀ shard ≤ 1, ∀ g ∈ countedGroups (s.scan shard), g.1.destination ≠ shard)
    {ds : List DirectionTotals} (hd : directions K s [0, 1] = .ok ds)
    {to0 from0 to1 from1 : ℕ} {probes0 probes1 : ℤ} {allow0 allow1 : Bool} {o0 o1 : OutgoingSummary}
    (h0 : outgoingScan (s.databases 0) 0 to0 from0 probes0 allow0 = .ok o0)
    (h1 : outgoingScan (s.databases 1) 1 to1 from1 probes1 allow1 = .ok o1) :
    ((comparison ds (readOutgoing [o0.rows, o1.rows]) s.comparisonCutoffs).problems = [] ∧
      ∀ shard ∈ (comparison ds (readOutgoing [o0.rows, o1.rows]) s.comparisonCutoffs).unchecked,
        countedGroups (s.scan shard) = []) ↔ ∀ shard ≤ 1, Comparable (s.scan shard) := by
  obtain ⟨t0, ds1, ht0, hd1, rfl⟩ := List.forall₂_cons_left_iff.mp (forall₂_of_mapM_ok hd)
  obtain ⟨t1, ds2, ht1, hd2, rfl⟩ := List.forall₂_cons_left_iff.mp hd1
  obtain rfl := List.forall₂_nil_left_iff.mp hd2
  have r0 := sumRun_of_sumReceipts ht0
  have r1 := sumRun_of_sumReceipts ht1
  have hs0 : t0.sourceShard = 0 := r0.sourceShard
  have hs1 : t1.sourceShard = 1 := r1.sourceShard
  have hfiles := listedRows_of_files (outgoingScan_ok h0) (outgoingScan_ok h1)
  have hdirections : Dict.ofList ([t0, t1].map fun d => (d.sourceShard, d)) = Dict.ofList [(0, t0), (1, t1)] := by
    simp only [List.map_cons, List.map_nil, hs0, hs1]
  have hsplit : ∀ P : ℕ → Prop, (∀ shard ≤ 1, P shard) ↔ P 0 ∧ P 1 := fun P =>
    ⟨fun h => ⟨h 0 (by omega), h 1 le_rfl⟩, fun h shard hle => by
      rcases Nat.le_one_iff_eq_zero_or_eq_one.mp hle with rfl | rfl
      · exact h.1
      · exact h.2⟩
  have hget0 : (Dict.ofList [(0, t0), (1, t1)]).get? 0 = some t0 := rfl
  have hget1 : (Dict.ofList [(0, t0), (1, t1)]).get? 1 = some t1 := rfl
  have hp0 := shard_passes_iff (Nat.zero_le 1) r0 (hself 0 (by omega)) hget0
  have hp1 := shard_passes_iff le_rfl r1 (hself 1 le_rfl) hget1
  have hentries : ∀ k v, (k, v) ∈ (Dict.groupBy ListedReceipt.source ((readOutgoing [o0.rows, o1.rows]).filter fun row =>
      (s.comparisonCutoffs row.source).any fun cutoff => row.block ≤ cutoff)).entries ↔
        k ≤ 1 ∧ v = listedRows s k ∧ v ≠ [] := fun k v => by
    rw [Dict.mem_entries_groupBy, hfiles]
    split_ifs with hk
    · simp [hk]
    · simp [hk]
  have hkeys : ∀ k, k ∈ (Dict.groupBy ListedReceipt.source ((readOutgoing [o0.rows, o1.rows]).filter fun row =>
      (s.comparisonCutoffs row.source).any fun cutoff => row.block ≤ cutoff)).keys ↔ k ≤ 1 ∧ listedRows s k ≠ [] := fun k => by
    constructor
    · intro hk
      obtain ⟨v, hv⟩ := Dict.exists_of_mem_keys hk
      obtain ⟨hle, rfl, hne⟩ := (hentries k v).mp hv
      exact ⟨hle, hne⟩
    · rintro ⟨hle, hne⟩
      exact Dict.mem_keys ((hentries k _).mpr ⟨hle, rfl, hne⟩)
  have hshards : ∀ k, k ∈ (Dict.ofList [(0, t0), (1, t1)]).keys ↔ k ≤ 1 := fun k => by
    rw [show (Dict.ofList [(0, t0), (1, t1)]).keys = [0, 1] from rfl, List.mem_pair]
    omega
  rw [hsplit, ← hp0, ← hp1]
  simp only [comparison, hdirections, List.flatMap_eq_nil_iff, List.mem_insertionSort, List.mem_filter,
    decide_eq_true_eq, Prod.forall, hentries, hkeys, hshards]
  constructor
  · rintro ⟨hproblems, hunchecked⟩
    exact ⟨⟨fun hne => hproblems 0 _ ⟨by omega, rfl, hne⟩, fun hnil => hunchecked 0 ⟨by omega, by simp [hnil]⟩⟩,
      fun hne => hproblems 1 _ ⟨le_rfl, rfl, hne⟩, fun hnil => hunchecked 1 ⟨le_rfl, by simp [hnil]⟩⟩
  · rintro ⟨⟨hc0, hn0⟩, hc1, hn1⟩
    refine ⟨?_, ?_⟩
    · rintro k v ⟨hk, rfl, hne⟩
      rcases Nat.le_one_iff_eq_zero_or_eq_one.mp hk with rfl | rfl
      · exact hc0 hne
      · exact hc1 hne
    · rintro k ⟨hk, hnot⟩
      have hnil : listedRows s k = [] := by
        by_contra hne
        exact hnot ⟨hk, hne⟩
      rcases Nat.le_one_iff_eq_zero_or_eq_one.mp hk with rfl | rfl
      · exact hn0 hnil
      · exact hn1 hnil

/-- One transaction that pays two recipients, and nothing applied yet. -/
def twoPayments : Supply where
  databases shard := if shard = 0 then
      { mixedDestination with
        receiptGroups := [(⟨1, 10, 0xa#256⟩, [some ⟨7, 0x5, some 0x6, 0, 1, some 30⟩, some ⟨7, 0x5, some 0x8, 0, 1, some 4⟩])]
        sorted := .cons (by simp) .nil
        number_lt := by decide
        canonicalHashes := fun n => if n = 10 then some 0xa#256 else none }
    else mixedDestination
  cutoffs shard := if shard = 0 then 20 else 60
  cutoffs_lt := mixedCutoffs_lt
  coverageFrom := 10
  probes := 2

/-- The first payment is said to be missing from the list. -/
theorem first_payment_not_found : ∃ ds o0 o1, directions plainKeys twoPayments [0, 1] = .ok ds ∧
    outgoingScan (twoPayments.databases 0) 0 20 10 2 true = .ok o0 ∧
    outgoingScan (twoPayments.databases 1) 1 60 10 2 true = .ok o1 ∧
    (comparison ds (readOutgoing [o0.rows, o1.rows]) twoPayments.comparisonCutoffs).problems =
      [.notListed 0 .pending 7 10] := by
  have hrun : ((directions plainKeys twoPayments [0, 1]).bind fun ds =>
      (outgoingScan (twoPayments.databases 0) 0 20 10 2 true).bind fun o0 =>
      (outgoingScan (twoPayments.databases 1) 1 60 10 2 true).map fun o1 =>
        (comparison ds (readOutgoing [o0.rows, o1.rows]) twoPayments.comparisonCutoffs).problems).toOption =
          some [.notListed 0 .pending 7 10] := by decide +kernel
  cases hds : directions plainKeys twoPayments [0, 1] with
  | error e => simp [hds, Except.bind, Except.toOption] at hrun
  | ok ds =>
    cases h0 : outgoingScan (twoPayments.databases 0) 0 20 10 2 true with
    | error e => simp [hds, h0, Except.bind, Except.toOption] at hrun
    | ok o0 =>
      cases h1 : outgoingScan (twoPayments.databases 1) 1 60 10 2 true with
      | error e => simp [hds, h0, h1, Except.bind, Except.map, Except.toOption] at hrun
      | ok o1 =>
        simp only [hds, h0, h1, Except.bind, Except.map, Except.toOption, Option.some.injEq] at hrun
        exact ⟨ds, o0, o1, rfl, rfl, rfl, hrun⟩

theorem honest_report_passes_mixed : ∃ ds o0 o1, directions plainKeys mixedSupply [0, 1] = .ok ds ∧
    outgoingScan (mixedSupply.databases 0) 0 20 10 2 true = .ok o0 ∧
    outgoingScan (mixedSupply.databases 1) 1 60 10 2 true = .ok o1 ∧
    (comparison ds (readOutgoing [o0.rows, o1.rows]) mixedSupply.comparisonCutoffs).problems = [] := by
  have hself : ∀ shard ≤ 1, ∀ g ∈ countedGroups (mixedSupply.scan shard), g.1.destination ≠ shard := by
    intro shard hshard
    rcases Nat.le_one_iff_eq_zero_or_eq_one.mp hshard with rfl | rfl <;> decide
  have halike : ∀ shard ≤ 1, Comparable (mixedSupply.scan shard) := by
    intro shard hshard
    rcases Nat.le_one_iff_eq_zero_or_eq_one.mp hshard with rfl | rfl
    · refine ⟨by decide, ?_⟩
      have hall : ∀ g ∈ countedGroups (mixedSupply.scan 0), ∀ r ∈ receiptsOf g,
          ∀ x ∈ lastReceipt (mixedSupply.scan 0) g.1.number r.txHash, x.paid = r.paid := by decide
      exact fun g hg _ => hall g hg
    · have hnone : countedGroups (mixedSupply.scan 1) = [] := rfl
      exact ⟨by simp [hnone], fun g hg => by simp [hnone] at hg⟩
  have hrun : (directions plainKeys mixedSupply [0, 1]).toBool = true ∧
      (outgoingScan (mixedSupply.databases 0) 0 20 10 2 true).toBool = true ∧
      (outgoingScan (mixedSupply.databases 1) 1 60 10 2 true).toBool = true := by decide +kernel
  obtain ⟨ds, hds⟩ := Except.exists_ok_of_toBool hrun.1
  obtain ⟨o0, h0⟩ := Except.exists_ok_of_toBool hrun.2.1
  obtain ⟨o1, h1⟩ := Except.exists_ok_of_toBool hrun.2.2
  exact ⟨ds, o0, o1, hds, h0, h1, ((honest_report_passes_iff plainKeys mixedSupply hself hds h0 h1).mpr halike).1⟩

end HarmonyMigration.Receipts
