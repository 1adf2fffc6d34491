import HarmonyMigration.Receipts.Rebuild

/-! The rebuilt direction is the scanned one. -/

namespace HarmonyMigration.Receipts

open Except Claims

variable {K : Keys} {s : Supply} {shard : ℕ} {p : Scan} {g : Group}

/-! ### The groups of the list -/

theorem canonicalGroups_filter (p : Scan) :
    (canonicalGroups p.source).filter (fun g => g.1.number ≤ p.sourceCutoff) = countedGroups p := by
  rw [canonicalGroups, countedGroups, List.filter_filter]
  refine List.filter_congr fun g _ => ?_
  rw [← Bool.decide_and, decide_eq_decide, Canonical, Counted]
  tauto

theorem mem_rowsOf {k : GroupKey} {rs : List Receipt} {row : OutgoingRow} (h : row ∈ rowsOf shard k rs) :
    row.sourceShard = shard ∧ row.key = k ∧ row.sourceBlock = k.number := by
  obtain ⟨x, -, rfl⟩ := List.mem_map.mp h
  exact ⟨rfl, rfl, rfl⟩

theorem outgoingRows_filter (shard cutoff : ℕ) (gs : List Group) :
    (outgoingRows shard gs).filter (fun row => row.sourceBlock ≤ cutoff) =
      outgoingRows shard (gs.filter fun g => g.1.number ≤ cutoff) := by
  induction gs with
  | nil => rfl
  | cons g gs ih =>
    rw [outgoingRows, List.flatMap_cons, List.filter_append, ← outgoingRows, ih, List.filter_cons]
    by_cases hle : g.1.number ≤ cutoff
    · rw [List.filter_eq_self.mpr fun row hrow => by simpa [(mem_rowsOf hrow).2.2] using hle]
      simp [hle, outgoingRows]
    · rw [List.filter_eq_nil_iff.mpr fun row hrow => by simpa [(mem_rowsOf hrow).2.2] using hle]
      simp [hle]

theorem groups_keys_nodup {gs : List Group} (h : gs.Pairwise fun a b => a.1.order < b.1.order) :
    (gs.map Prod.fst).Nodup := by
  rw [List.nodup_iff_pairwise_ne, List.pairwise_map]
  exact h.imp fun hlt heq => by
    rw [heq] at hlt
    exact lt_irrefl _ hlt

theorem countedGroups_sorted (p : Scan) : (countedGroups p).Pairwise fun a b => a.1.order < b.1.order :=
  p.source.sorted.sublist List.filter_sublist

/-- Whatever the order of the rows, the sorted groups are the counted groups of the database. -/
theorem sorted_loadGroups {rows : List OutgoingRow} (hrows : rows.Perm (outgoingRows shard (canonicalGroups p.source)))
    (hne : ∀ g ∈ countedGroups p, receiptsOf g ≠ []) :
    ((loadGroups rows shard p.sourceCutoff).1.entries.insertionSort fun a b => a.1.order ≤ b.1.order) =
      (countedGroups p).map fun g => (g.1, rowsOf shard g.1 (receiptsOf g)) := by
  have hown : rows.filter (fun row => row.sourceShard = shard) = rows :=
    List.filter_eq_self.mpr fun row hrow => by
      obtain ⟨g, -, hg⟩ := List.mem_flatMap.mp (hrows.mem_iff.mp hrow)
      simpa using (mem_rowsOf hg).1
  have hearly : (rows.filter fun row => row.sourceBlock ≤ p.sourceCutoff).Perm
      ((countedGroups p).flatMap fun g => rowsOf shard g.1 (receiptsOf g)) := by
    have := hrows.filter fun row => row.sourceBlock ≤ p.sourceCutoff
    rwa [outgoingRows_filter, canonicalGroups_filter] at this
  have hnd := groups_keys_nodup (countedGroups_sorted p)
  have hpart : ∀ g ∈ countedGroups p, ((rows.filter fun row => row.sourceBlock ≤ p.sourceCutoff).filter
      fun row => row.key = g.1).Perm (rowsOf shard g.1 (receiptsOf g)) := fun g hg =>
    Dict.filter_perm_of_parts hearly hnd (fun _ _ _ hx => (mem_rowsOf hx).2.1) hg
  have hsorted : ((countedGroups p).map fun g => (g.1, rowsOf shard g.1 (receiptsOf g))).Pairwise
      fun a b => a.1.order ≤ b.1.order :=
    List.pairwise_map.mpr ((countedGroups_sorted p).imp fun h => h.le)
  have hkeys : ((countedGroups p).map fun g => (g.1, rowsOf shard g.1 (receiptsOf g))).map Prod.fst =
      (countedGroups p).map Prod.fst := by
    rw [List.map_map]
    rfl
  have hmem : ∀ e, e ∈ (loadGroups rows shard p.sourceCutoff).1.entries ↔
      e ∈ (countedGroups p).map fun g => (g.1, rowsOf shard g.1 (receiptsOf g)) := by
    rintro ⟨k, v⟩
    simp only [loadGroups, hown, Dict.mapValues, List.mem_map, Prod.exists, Prod.mk.injEq]
    constructor
    · rintro ⟨k', w, hw, rfl, rfl⟩
      obtain ⟨rfl, hnonempty⟩ := Dict.mem_entries_groupBy.mp hw
      obtain ⟨row, hrow⟩ := List.exists_mem_of_ne_nil _ hnonempty
      obtain ⟨hrow, hkey⟩ := List.mem_filter.mp hrow
      obtain ⟨g, hg, hgrow⟩ := List.mem_flatMap.mp (hearly.mem_iff.mp hrow)
      obtain rfl : g.1 = k' := (mem_rowsOf hgrow).2.1.symm.trans (by simpa using hkey)
      exact ⟨g.1, g.2, hg, rfl, (sort_rowsOf (hpart g hg)).symm⟩
    · rintro ⟨k', raw, hg, rfl, rfl⟩
      have hperm := hpart _ hg
      refine ⟨k', _, Dict.mem_entries_groupBy.mpr ⟨rfl, fun hnil => hne _ hg ?_⟩, rfl, sort_rowsOf hperm⟩
      rw [hnil] at hperm
      simpa [rowsOf] using hperm.symm.eq_nil
  have hperm : (loadGroups rows shard p.sourceCutoff).1.entries.Perm
      ((countedGroups p).map fun g => (g.1, rowsOf shard g.1 (receiptsOf g))) :=
    (List.perm_ext_iff_of_nodup (List.Nodup.of_map Prod.fst (loadGroups rows shard p.sourceCutoff).1.nodup)
      (List.Nodup.of_map Prod.fst (hkeys ▸ hnd))).mpr hmem
  rw [SortedBy.insertionSort_eq_of_perm (g := fun e : GroupKey × List OutgoingRow => e.1.order) hperm fun a ha b hb heq => ?_]
  · exact hsorted.insertionSort_eq
  · have ha' := hperm.mem_iff.mp ha
    have hb' := hperm.mem_iff.mp hb
    exact List.inj_on_of_nodup_map (hkeys ▸ hnd) ha' hb' (GroupKey.order_injective heq)

/-! ### The status of the receipts -/

/-- A hash, as the destination's database has it. -/
def statusRow (db : Database) (tx : Hash) : StatusRow :=
  match db.readCxLookup tx with
  | none => ⟨tx, false, none, false⟩
  | some entry => ⟨tx, true, some entry.blockIndex, db.readCanonicalHash entry.blockIndex == some entry.blockHash⟩

/-- The status of the receipts toward a shard, in any order. -/
structure StatusOf (db : Database) (toward : ℕ) (rows : List OutgoingRow) (status : List StatusRow) : Prop where
  row_eq : ∀ x ∈ status, x = statusRow db x.transactionHash
  covered : ∀ row ∈ rows, row.destinationShard = toward → row.txHash ∈ status.map StatusRow.transactionHash

theorem get?_loadStatus {db : Database} {toward : ℕ} {rows : List OutgoingRow} {status : List StatusRow}
    (h : StatusOf db toward rows status) {row : OutgoingRow} (hrow : row ∈ rows) (hd : row.destinationShard = toward) :
    (loadStatus status).get? row.txHash = some (statusRow db row.txHash) := by
  refine Dict.get?_ofList_of_forall (fun e he => ?_) ?_
  · obtain ⟨x, hx, rfl⟩ := List.mem_map.mp he
    exact h.row_eq x hx
  · rw [List.map_map]
    exact h.covered row hrow hd

/-- Looked up in one entry, or not at all. -/
def LookedUpTogether (db : Database) (rs : List Receipt) : Prop :=
  ∀ r ∈ rs, ∀ r' ∈ rs, db.readCxLookup r.txHash = db.readCxLookup r'.txHash

theorem LookedUpTogether.appliedTogether {db : Database} {rs : List Receipt} (h : LookedUpTogether db rs) :
    AppliedTogether db rs := fun r hr r' hr' => by
  rw [Database.appliedAt, Database.appliedAt, h r hr r' hr']

theorem LookedUpTogether.applied_eq {db : Database} {rs : List Receipt} (h : LookedUpTogether db rs)
    (cutoff : Option ℕ) {r r' : Receipt} (hr : r ∈ rs) (hr' : r' ∈ rs) : applied db cutoff r = applied db cutoff r' := by
  unfold applied
  rw [h r hr r' hr']

theorem entryApplied_statusRow (db : Database) (cutoff : ℕ) (r : Receipt) :
    entryApplied cutoff (statusRow db r.txHash) = .ok (applied db (some cutoff) r) := by
  unfold entryApplied statusRow applied
  cases db.readCxLookup r.txHash with
  | none => simp
  | some entry =>
    by_cases hcanonical : db.readCanonicalHash entry.blockIndex = some entry.blockHash
    · simp [hcanonical]
    · simp [hcanonical]

/-- The entries of a group that was looked up together name at most one block. -/
theorem blocks_le_one {db : Database} {rs : List Receipt} (h : LookedUpTogether db rs) :
    (((rs.map fun r => statusRow db r.txHash).filter StatusRow.found).map StatusRow.destinationBlock).dedup.length ≤ 1 := by
  rw [← List.card_toFinset, Finset.card_le_one]
  intro a ha b hb
  have hone : ∀ a ∈ (((rs.map fun r => statusRow db r.txHash).filter StatusRow.found).map
      StatusRow.destinationBlock).toFinset, ∃ r ∈ rs, a = (db.readCxLookup r.txHash).map LookupEntry.blockIndex := by
    intro a ha
    obtain ⟨x, hx, rfl⟩ := List.mem_map.mp (List.mem_toFinset.mp ha)
    obtain ⟨hx, -⟩ := List.mem_filter.mp hx
    obtain ⟨r, hr, rfl⟩ := List.mem_map.mp hx
    refine ⟨r, hr, ?_⟩
    unfold statusRow
    cases db.readCxLookup r.txHash <;> rfl
  obtain ⟨r, hr, rfl⟩ := hone a ha
  obtain ⟨r', hr', rfl⟩ := hone b hb
  rw [h r hr r' hr']

/-! ### The loop over the groups -/

/-- The rebuilt direction after the groups `gs`. -/
structure RebuiltOf (K : Keys) (p : Scan) (gs : List Group) (t : Rebuilt) : Prop where
  canonical : t.canonicalReceiptGroups = (ofKind p .spent gs).length + (ofKind p .pending gs).length
  spent : t.spent = classTotals (ofKind p .spent gs)
  pending : t.pending = classTotals (ofKind p .pending gs)
  unsupported : t.unsupported = classTotals (ofKind p .unsupported gs)
  pendingGroups : t.pendingGroups = (ofKind p .pending gs).map fun g => makeReceiptGroup K g.1 (receiptsOf g)
  unsupportedGroups : t.unsupportedGroups =
    (ofKind p .unsupported gs).map fun g => makeReceiptGroup K g.1 (receiptsOf g)
  placeholders : t.emptyReceiptGroups = none ∧ t.missingCanonicalHashGroups = 0 ∧ t.nonCanonicalReceiptGroups = 0

theorem rebuiltOf_zero (K : Keys) (p : Scan) : RebuiltOf K p [] .zero := ⟨rfl, rfl, rfl, rfl, rfl, rfl, rfl, rfl, rfl⟩

theorem addRecord_makeReceiptGroup (c : ClassTotals) (k : GroupKey) (rs : List Receipt) :
    c.addRecord (makeReceiptGroup K k rs) = c.add rs := rfl

/-- A counted group, with what the list and the status say of it. -/
structure GroupStatus (s : Supply) (shard : ℕ) (status : Dict Hash StatusRow) (g : Group) : Prop where
  counted : Counted (s.scan shard) g
  nonempty : receiptsOf g ≠ []
  destination : g.1.destination ≠ shard
  together : g.1.destination = partner shard → LookedUpTogether (s.databases (partner shard)) (receiptsOf g)
  status : g.1.destination = partner shard → ∀ r ∈ receiptsOf g,
    status.get? r.txHash = some (statusRow (s.databases (partner shard)) r.txHash)

theorem rebuildGroup_ok {status : Dict Hash StatusRow} {gs : List Group} {t : Rebuilt} (hshard : shard ≤ 1)
    (hg : GroupStatus s shard status g) (ht : RebuiltOf K (s.scan shard) gs t) :
    ∃ t', rebuildGroup K status (s.cutoffs (partner shard)) (g.1, rowsOf shard g.1 (receiptsOf g)) t = .ok t' ∧
      RebuiltOf K (s.scan shard) (gs ++ [g]) t' := by
  have hkind := kind_of_counted hg.counted
  have hpartner := partner_of_le hshard
  unfold rebuildGroup
  simp only [groupRecord_rowsOf, addRecord_makeReceiptGroup]
  by_cases hd : g.1.destination = partner shard
  · -- toward the other shard: spent or pending
    have hle : g.1.destination ≤ 1 := by omega
    have hdestination : (s.scan shard).destinations g.1.destination = some (s.databases (partner shard)) := by
      simp [Supply.scan, hd]
    have hcutoff : (s.scan shard).destinationCutoffs g.1.destination = some (s.cutoffs (partner shard)) := by
      simp [Supply.scan, hd]
      omega
    rw [hdestination, hcutoff] at hkind
    have hentries : (makeReceiptGroup K g.1 (receiptsOf g)).receipts.mapM (destinationEntry status) =
        .ok ((receiptsOf g).map fun r => statusRow (s.databases (partner shard)) r.txHash) := by
      have hall := mapM_ok_of_forall (f := fun r => destinationEntry status (receiptDetail K r))
        (g := fun r => statusRow (s.databases (partner shard)) r.txHash) (l := receiptsOf g) fun r hr => by
          simp [destinationEntry, receiptDetail, hg.status hd r hr]
      rw [makeReceiptGroup, List.mapM_map]
      exact hall
    have happlied : ((receiptsOf g).map fun r => statusRow (s.databases (partner shard)) r.txHash).mapM
        (entryApplied (s.cutoffs (partner shard))) =
          .ok ((receiptsOf g).map (applied (s.databases (partner shard)) (some (s.cutoffs (partner shard))))) := by
      rw [List.mapM_map]
      exact mapM_ok_of_forall fun r _ => entryApplied_statusRow _ _ r
    rw [if_neg (not_not.mpr hle), hentries, bind_ok_left, require, if_pos (blocks_le_one (hg.together hd)), bind_ok_left,
      happlied, bind_ok_left]
    by_cases hall : (receiptsOf g).all (applied (s.databases (partner shard)) (some (s.cutoffs (partner shard)))) = true
    · rw [if_pos (by simpa using hall)]
      have hk : kind (s.scan shard) g = .spent := hkind.trans (if_pos hall)
      refine ⟨_, rfl, ?_⟩
      constructor <;> simp only [ofKind_append, ofKind_singleton, hk, if_true, reduceCtorEq, if_false, List.append_nil, List.length_append,
        List.length_singleton, classTotals_snoc, ht.canonical, ht.spent, ht.pending, ht.unsupported, ht.pendingGroups,
        ht.unsupportedGroups, ht.placeholders, and_self]
      exact Nat.add_right_comm _ _ _
    · -- one receipt is not applied, so none is
      have hnone : ¬((receiptsOf g).map
          (applied (s.databases (partner shard)) (some (s.cutoffs (partner shard))))).any id = true := by
        simp only [List.all_eq_true, not_forall] at hall
        obtain ⟨r, hr, hnot⟩ := hall
        simp only [List.any_map, List.any_eq_true, not_exists, not_and]
        intro r' hr'
        rw [Function.comp_apply, id, ← (hg.together hd).applied_eq _ hr hr']
        exact hnot
      have hk : kind (s.scan shard) g = .pending := hkind.trans (if_neg hall)
      rw [if_neg (by simpa using hall), require, if_pos hnone]
      refine ⟨_, rfl, ?_⟩
      constructor <;> simp only [ofKind_append, ofKind_singleton, hk, if_true, reduceCtorEq, if_false, List.append_nil, List.length_append,
        List.length_singleton, classTotals_snoc, List.map_append, List.map_cons, List.map_nil, ht.canonical, ht.spent,
        ht.pending, ht.unsupported, ht.pendingGroups, ht.unsupportedGroups, ht.placeholders, and_self]
      exact Nat.add_assoc _ _ _
  · have hgt : ¬g.1.destination ≤ 1 := fun hle => by
      have := hg.destination
      omega
    have hdestination : (s.scan shard).destinations g.1.destination = none := by
      simp [Supply.scan, hd]
    have hk : kind (s.scan shard) g = .unsupported := (kind_unsupported hg.counted).mpr hdestination
    rw [if_pos hgt]
    refine ⟨_, rfl, ?_⟩
    constructor <;> simp only [ofKind_append, ofKind_singleton, hk, if_true, reduceCtorEq, if_false, List.append_nil, classTotals_snoc,
      List.map_append, List.map_cons, List.map_nil, ht.canonical, ht.spent, ht.pending, ht.unsupported, ht.pendingGroups,
      ht.unsupportedGroups, ht.placeholders, and_self]

theorem rebuildGroups_ok {status : Dict Hash StatusRow} {done gs : List Group} {t : Rebuilt} (hshard : shard ≤ 1)
    (hg : ∀ g ∈ gs, GroupStatus s shard status g) (ht : RebuiltOf K (s.scan shard) done t) :
    ∃ t', rebuildGroups K status (s.cutoffs (partner shard))
      (gs.map fun g => (g.1, rowsOf shard g.1 (receiptsOf g))) t = .ok t' ∧
        RebuiltOf K (s.scan shard) (done ++ gs) t' := by
  induction gs generalizing done t with
  | nil => exact ⟨t, rfl, by simpa using ht⟩
  | cons g gs ih =>
    obtain ⟨t1, hstep, ht1⟩ := rebuildGroup_ok hshard (hg g (by simp)) ht
    rw [List.map_cons, rebuildGroups, hstep, bind_ok_left]
    rw [← List.singleton_append, ← List.append_assoc]
    exact ih (fun x hx => hg x (by simp [hx])) ht1

/-- What the list and the status are taken from: well-formed receipts, none of them to their own shard,
and each group looked up in one block or not at all. -/
structure Rebuildable (s : Supply) (shard : ℕ) : Prop where
  receipts : ∀ g ∈ countedGroups (s.scan shard), checkReceipts shard g.1.destination g.2 = .ok (receiptsOf g)
  notSelf : ∀ g ∈ countedGroups (s.scan shard), g.1.destination ≠ shard
  together : ∀ g ∈ countedGroups (s.scan shard), g.1.destination = partner shard →
    LookedUpTogether (s.databases (partner shard)) (receiptsOf g)

theorem Rebuildable.wellFormed (h : Rebuildable s shard) (hg : g ∈ countedGroups (s.scan shard)) :
    WellFormed (s.scan shard) g := by
  refine ⟨h.receipts g hg, fun db hdb => ?_⟩
  simp only [Supply.scan, Option.mem_def, Option.ite_none_right_eq_some, Option.some.injEq] at hdb
  obtain ⟨hd, rfl⟩ := hdb
  rw [hd]
  exact (h.together g hg hd).appliedTogether

/-- From the list of a database's receipts, in any order, and their status, the direction is rebuilt as it is
scanned; the counters of what is not in the list aside. -/
theorem rebuild_eq_scan (K : Keys) (s : Supply) {shard : ℕ} (hshard : shard ≤ 1) (h : Rebuildable s shard)
    {rows : List OutgoingRow} (hrows : rows.Perm (outgoingRows shard (canonicalGroups (s.databases shard))))
    {status : List StatusRow} (hstatus : StatusOf (s.databases (partner shard)) (partner shard) rows status) :
    ∃ t d, sumReceipts K (s.scan shard) = .ok t ∧
      rebuild K (loadGroups rows shard (s.cutoffs shard)).1 (loadStatus status) (s.cutoffs (partner shard)) = .ok d ∧
      d.canonicalReceiptGroups = t.canonicalReceiptGroups ∧ d.spent = t.spent ∧ d.pending = t.pending ∧
      d.unsupported = t.unsupported ∧ d.pendingGroups = t.pendingGroups ∧ d.unsupportedGroups = t.unsupportedGroups ∧
      agreement d t = [] := by
  obtain ⟨t, ht⟩ := exists_sumReceipts (p := s.scan shard) K fun g hg => h.wellFormed hg
  have hmem : ∀ g ∈ countedGroups (s.scan shard), Counted (s.scan shard) g := fun g hg =>
    by simpa using (List.mem_filter.mp hg).2
  have hnonempty : ∀ g ∈ countedGroups (s.scan shard), receiptsOf g ≠ [] := fun g hg hnil => by
    have hlength := (checkReceipts_ok (h.receipts g hg)).2
    rw [hnil] at hlength
    exact (hmem g hg).1 (List.length_eq_zero_iff.mp hlength.symm)
  have hgroups : ∀ g ∈ countedGroups (s.scan shard), GroupStatus s shard (loadStatus status) g := fun g hg => by
    refine ⟨hmem g hg, hnonempty g hg, h.notSelf g hg, h.together g hg, fun hd r hr => ?_⟩
    obtain ⟨x, hx, hrow⟩ : ∃ x ∈ rowsOf shard g.1 (receiptsOf g), x.txHash = r.txHash := by
      rw [← List.zipIdx_map_fst 0 (receiptsOf g)] at hr
      obtain ⟨y, hy, rfl⟩ := List.mem_map.mp hr
      exact ⟨_, List.mem_map_of_mem hy, rfl⟩
    have hlist : x ∈ rows := by
      refine hrows.mem_iff.mpr (List.mem_flatMap.mpr ⟨g, ?_, hx⟩)
      exact (List.mem_filter.mp (canonicalGroups_filter (s.scan shard) ▸ hg)).1
    rw [← hrow]
    exact get?_loadStatus hstatus hlist (congrArg GroupKey.destination (mem_rowsOf hx).2.1 |>.trans hd)
  obtain ⟨d, hd, hrebuilt⟩ := rebuildGroups_ok (K := K) hshard hgroups (rebuiltOf_zero K (s.scan shard))
  have hsorted := sorted_loadGroups (p := s.scan shard) hrows hnonempty
  have hcount := (sumRun_of_sumReceipts ht).countedOnce
  have hspent : d.spent = t.spent := hrebuilt.spent.trans hcount.spent.symm
  have hpending : d.pending = t.pending := hrebuilt.pending.trans hcount.pending.symm
  have hunsupported : d.unsupported = t.unsupported := hrebuilt.unsupported.trans hcount.unsupported.symm
  have hpendingGroups : d.pendingGroups = t.pendingGroups := hrebuilt.pendingGroups.trans hcount.pendingGroups.symm
  have hunsupportedGroups : d.unsupportedGroups = t.unsupportedGroups :=
    hrebuilt.unsupportedGroups.trans hcount.unsupportedGroups.symm
  have hcanonical : d.canonicalReceiptGroups = t.canonicalReceiptGroups := by
    rw [hrebuilt.canonical, hcount.canonicalReceiptGroups, hcount.spent, hcount.pending]
    rfl
  refine ⟨t, d, ht, ?_, hcanonical, hspent, hpending, hunsupported, hpendingGroups, hunsupportedGroups, ?_⟩
  · rw [rebuild]
    exact hsorted ▸ hd
  · simp [agreement, classAgreement, hcanonical, hspent, hpending, hunsupported, hpendingGroups, hunsupportedGroups]

theorem mixedCutoffs_lt (shard : ℕ) : (if shard = 0 then 20 else 60) < 2 ^ 64 := by
  split_ifs <;> decide

/-- Shard 0 with its mixed groups, and the destination of two of them. -/
def mixedSupply : Supply where
  databases shard := if shard = 0 then mixedSource else mixedDestination
  cutoffs shard := if shard = 0 then 20 else 60
  cutoffs_lt := mixedCutoffs_lt
  coverageFrom := 10
  probes := 2

def mixedStatus : List StatusRow := [1, 2, 3].map (statusRow mixedDestination)

theorem rebuildable_mixed : Rebuildable mixedSupply 0 where
  receipts := by decide
  notSelf := by decide
  together := by
    have hall : ∀ g ∈ countedGroups (mixedSupply.scan 0), g.1.destination = partner 0 → ∀ r ∈ receiptsOf g,
        ∀ r' ∈ receiptsOf g, mixedDestination.readCxLookup r.txHash = mixedDestination.readCxLookup r'.txHash := by decide
    exact hall

theorem statusOf_mixed : StatusOf (mixedSupply.databases (partner 0)) (partner 0)
    (outgoingRows 0 (canonicalGroups (mixedSupply.databases 0))) mixedStatus where
  row_eq := by decide
  covered := by decide

theorem rebuild_eq_scan_mixed : ∃ t d, sumReceipts plainKeys (mixedSupply.scan 0) = .ok t ∧
    rebuild plainKeys (loadGroups (outgoingRows 0 (canonicalGroups (mixedSupply.databases 0))) 0 20).1
      (loadStatus mixedStatus) 60 = .ok d ∧ d.spent = t.spent ∧ agreement d t = [] := by
  obtain ⟨t, d, ht, hd, -, hspent, -, -, -, -, hagreement⟩ :=
    rebuild_eq_scan plainKeys mixedSupply (Nat.zero_le 1) rebuildable_mixed (List.Perm.refl _) statusOf_mixed
  exact ⟨t, d, ht, hd, hspent, hagreement⟩

/-- The rebuilt direction has no groups of side chains, and the scanned one has. -/
theorem placeholder_differs : ∃ t d, Rebuildable mixedSupply 0 ∧ sumReceipts plainKeys (mixedSupply.scan 0) = .ok t ∧
    rebuild plainKeys (loadGroups (outgoingRows 0 (canonicalGroups (mixedSupply.databases 0))) 0 20).1
      (loadStatus mixedStatus) 60 = .ok d ∧
    t.nonCanonicalReceiptGroups = 1 ∧ d.nonCanonicalReceiptGroups = 0 ∧
    t.emptyReceiptGroups = 1 ∧ d.emptyReceiptGroups = none := by
  have ht : (sumReceipts plainKeys (mixedSupply.scan 0)).toOption.map
      (fun t => (t.nonCanonicalReceiptGroups, t.emptyReceiptGroups)) = some (1, 1) := by decide +kernel
  have hd : (rebuild plainKeys (loadGroups (outgoingRows 0 (canonicalGroups (mixedSupply.databases 0))) 0 20).1
      (loadStatus mixedStatus) 60).toOption.map (fun d => (d.nonCanonicalReceiptGroups, d.emptyReceiptGroups)) =
        some (0, none) := by decide +kernel
  obtain ⟨t, hscan, hcounts⟩ := Except.exists_ok_of_map ht
  obtain ⟨d, hrebuild, hcounts'⟩ := Except.exists_ok_of_map hd
  obtain ⟨hside, hempty⟩ := Prod.mk.inj hcounts
  obtain ⟨hside', hempty'⟩ := Prod.mk.inj hcounts'
  exact ⟨t, d, rebuildable_mixed, hscan, hrebuild, hside, hside', hempty, hempty'⟩

end HarmonyMigration.Receipts
