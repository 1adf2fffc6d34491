import HarmonyMigration.Receipts.Supply

/-! What an empty list of coverage problems leaves open. -/

namespace HarmonyMigration.Receipts

open Except Claims

variable {K : Keys} {s : Supply}

/-- The canonical blocks of a shard, and the group of each toward the other shard. -/
structure Chain where
  hash : ℕ → Hash
  groups : ℕ → List (Option CxReceipt)

/-- A database of a chain: headers and bodies are there, canonical hashes and groups are the chain's, and
other groups are of other blocks. -/
structure Intact (chain : Chain) (db : Database) (toward cutoff : ℕ) : Prop where
  header : ∀ n ≤ cutoff, db.hasHeader n (chain.hash n) = true
  body : ∀ n ≤ cutoff, db.hasBody n (chain.hash n) = true
  canonicalHash : ∀ n ≤ cutoff, ∀ h ∈ db.canonicalHashes n, h = chain.hash n
  group : ∀ g ∈ db.receiptGroups, g.1.destination = toward → g.1.number ≤ cutoff → g.1.hash = chain.hash g.1.number →
    mainnetCrossTxFirstBlock ≤ g.1.number ∧ g.2 = chain.groups g.1.number

/-- The group of a canonical block and the canonical hash of the block are both there. -/
def KeptGroup (chain : Chain) (db : Database) (toward n : ℕ) : Prop :=
  (⟨toward, n, chain.hash n⟩ : GroupKey) ∈ db.receiptGroups.map Prod.fst ∧ db.canonicalHashes n ≠ none

instance (chain : Chain) (db : Database) (toward n : ℕ) : Decidable (KeptGroup chain db toward n) :=
  inferInstanceAs (Decidable (_ ∧ _))

/-- The receipts of the chain toward the other shard, at or below the cutoff. -/
def chainReceipts (chain : Chain) (cutoff : ℕ) : ℕ :=
  ∑ n ∈ Finset.Icc mainnetCrossTxFirstBlock cutoff, (chain.groups n).length

/-- A non-empty group whose key or canonical hash is not there. -/
def Lost (chain : Chain) (db : Database) (toward cutoff n : ℕ) : Prop :=
  mainnetCrossTxFirstBlock ≤ n ∧ n ≤ cutoff ∧ chain.groups n ≠ [] ∧ ¬KeptGroup chain db toward n

/-! ### The counted groups of an intact database -/

section Intact
variable {chain : Chain} {shard : ℕ} {t : DirectionTotals}

theorem mem_countedGroups {p : Scan} {g : Group} :
    g ∈ countedGroups p ↔ g ∈ p.source.receiptGroups ∧ Counted p g := by
  rw [countedGroups, List.mem_filter, decide_eq_true_iff]

/-- Of the counted groups, those toward the other shard are the kept groups of the chain. -/
theorem counted_number_iff (h : Intact chain (s.databases shard) (partner shard) (s.cutoffs shard)) {n : ℕ} :
    n ∈ ((countedGroups (s.scan shard)).filter fun g => g.1.destination = partner shard).map (fun g => g.1.number) ↔
      n ∈ (Finset.Icc mainnetCrossTxFirstBlock (s.cutoffs shard)).filter fun n =>
        chain.groups n ≠ [] ∧ KeptGroup chain (s.databases shard) (partner shard) n := by
  rw [List.mem_map, Finset.mem_filter, Finset.mem_Icc]
  constructor
  · rintro ⟨g, hg, rfl⟩
    obtain ⟨hg, hd⟩ := List.mem_filter.mp hg
    obtain ⟨hmem, hne, hle, hcanonical⟩ := mem_countedGroups.mp hg
    simp only [decide_eq_true_eq] at hd
    have hhash := h.canonicalHash _ hle _ hcanonical
    obtain ⟨hfirst, hgroup⟩ := h.group g hmem hd hle hhash
    refine ⟨⟨hfirst, hle⟩, hgroup ▸ hne, List.mem_map.mpr ⟨g, hmem, ?_⟩, fun hnone => ?_⟩
    · obtain ⟨⟨d, n, hash⟩, rs⟩ := g
      simp only [GroupKey.mk.injEq, true_and]
      exact ⟨hd, hhash⟩
    · exact absurd (hcanonical.symm.trans hnone) (by simp)
  · rintro ⟨⟨hfirst, hle⟩, hne, hkey, hcanonical⟩
    obtain ⟨g, hmem, heq⟩ := List.mem_map.mp hkey
    obtain ⟨hash, hhash⟩ := Option.ne_none_iff_exists'.mp hcanonical
    have hgroup := (h.group g hmem (by rw [heq]) (by rw [heq]; exact hle) (by rw [heq])).2
    have hn : g.1.number = n := by rw [heq]
    refine ⟨g, List.mem_filter.mpr ⟨mem_countedGroups.mpr ⟨hmem, ?_, ?_, ?_⟩, by simp [heq]⟩, hn⟩
    · rw [hgroup, hn]
      exact hne
    · rw [hn]
      exact hle
    · rw [hn, show g.1.hash = chain.hash n by rw [heq], ← h.canonicalHash n hle hash hhash]
      exact hhash

theorem counted_numbers_nodup (h : Intact chain (s.databases shard) (partner shard) (s.cutoffs shard)) :
    (((countedGroups (s.scan shard)).filter fun g => g.1.destination = partner shard).map
      fun g => g.1.number).Nodup := by
  have hnd : (s.databases shard).receiptGroups.Pairwise fun a b => a.1 ≠ b.1 :=
    (s.databases shard).sorted.imp fun hlt heq => by
      rw [heq] at hlt
      exact lt_irrefl _ hlt
  rw [List.nodup_iff_pairwise_ne, List.pairwise_map]
  have hsub : ((countedGroups (s.scan shard)).filter fun g => g.1.destination = partner shard).Sublist
      (s.databases shard).receiptGroups := List.filter_sublist.trans List.filter_sublist
  refine (hnd.sublist hsub).imp_of_mem fun {a b} ha hb hne heq => hne ?_
  -- a canonical group is told by its number
  obtain ⟨ha, hda⟩ := List.mem_filter.mp ha
  obtain ⟨hb, hdb⟩ := List.mem_filter.mp hb
  obtain ⟨-, -, hla, hca⟩ := mem_countedGroups.mp ha
  obtain ⟨-, -, hlb, hcb⟩ := mem_countedGroups.mp hb
  have hha := h.canonicalHash _ hla _ hca
  have hhb := h.canonicalHash _ hlb _ hcb
  obtain ⟨⟨d, n, hash⟩, rs⟩ := a
  obtain ⟨⟨d', n', hash'⟩, rs'⟩ := b
  simp only [decide_eq_true_eq] at hda hdb
  simp only at heq hha hhb
  rw [GroupKey.mk.injEq]
  exact ⟨hda.trans hdb.symm, heq, by rw [hha, hhb, heq]⟩

/-- The counters of spent and pending receipts are about the groups toward the other shard. -/
theorem spent_add_pending (r : SumRun K (s.scan shard) t) :
    t.spent.receiptCount + t.pending.receiptCount =
      (((countedGroups (s.scan shard)).filter fun g => g.1.destination = partner shard).map
        fun g => g.2.length).sum := by
  have hcount := r.countedOnce
  have hlength : ∀ g ∈ countedGroups (s.scan shard), (receiptsOf g).length = g.2.length := fun g hg =>
    (checkReceipts_ok (r.receipts g (mem_countedGroups.mp hg).1 (mem_countedGroups.mp hg).2)).2
  have hkind : ∀ g ∈ countedGroups (s.scan shard), (kind (s.scan shard) g = .spent ∨ kind (s.scan shard) g = .pending) ↔
      g.1.destination = partner shard := fun g hg => by
    have hun := hcount.unsupported_iff g hg
    have hall := counted_iff_kind.mp (mem_countedGroups.mp hg).2
    simp only [Supply.scan, ite_eq_right_iff, reduceCtorEq, imp_false] at hun
    constructor
    · intro hk
      by_contra hd
      rcases hk with hk | hk <;> exact absurd ((hun.mpr hd).symm.trans hk) (by simp)
    · intro hd
      exact hall.resolve_left fun hk => hun.mp hk hd
  rw [hcount.spent, hcount.pending]
  simp only [classTotals]
  generalize countedGroups (s.scan shard) = gs at hlength hkind
  induction gs with
  | nil => rfl
  | cons g gs ih =>
    have hrest := ih (fun x hx => hlength x (by simp [hx])) fun x hx => hkind x (by simp [hx])
    have hk := hkind g (by simp)
    have hl := hlength g (by simp)
    by_cases hd : g.1.destination = partner shard
    · rcases hk.mpr hd with hk | hk <;> simp [hk, hd, hl] <;> omega
    · have hne := mt hk.mp hd
      rw [not_or] at hne
      simp [hne.1, hne.2, hd, hrest]

/-- Every receipt of the chain is spent or pending unless one of its groups is lost. -/
theorem counted_all_iff (h : Intact chain (s.databases shard) (partner shard) (s.cutoffs shard))
    (r : SumRun K (s.scan shard) t) :
    t.spent.receiptCount + t.pending.receiptCount = chainReceipts chain (s.cutoffs shard) ↔
      ∀ n, ¬Lost chain (s.databases shard) (partner shard) (s.cutoffs shard) n := by
  have hlength : ∀ g ∈ (countedGroups (s.scan shard)).filter (fun g => g.1.destination = partner shard),
      g.2.length = (chain.groups g.1.number).length := fun g hg => by
    obtain ⟨hg, hd⟩ := List.mem_filter.mp hg
    obtain ⟨hmem, -, hle, hcanonical⟩ := mem_countedGroups.mp hg
    rw [(h.group g hmem (by simpa using hd) hle (h.canonicalHash _ hle _ hcanonical)).2]
  have hsum : t.spent.receiptCount + t.pending.receiptCount =
      ∑ n ∈ Finset.Icc mainnetCrossTxFirstBlock (s.cutoffs shard),
        if KeptGroup chain (s.databases shard) (partner shard) n then (chain.groups n).length else 0 := by
    rw [spent_add_pending r, List.map_congr_left hlength]
    have hmap := List.sum_toFinset (fun n => (chain.groups n).length) (counted_numbers_nodup h)
    rw [List.map_map] at hmap
    refine hmap.symm.trans ?_
    have hset : (((countedGroups (s.scan shard)).filter fun g => g.1.destination = partner shard).map
        fun g => g.1.number).toFinset = (Finset.Icc mainnetCrossTxFirstBlock (s.cutoffs shard)).filter fun n =>
          chain.groups n ≠ [] ∧ KeptGroup chain (s.databases shard) (partner shard) n := by
      ext n
      rw [List.mem_toFinset, counted_number_iff h]
    rw [hset, Finset.sum_filter]
    refine Finset.sum_congr rfl fun n _ => ?_
    by_cases hn : chain.groups n = [] <;> simp [hn]
  rw [hsum, chainReceipts, Finset.sum_eq_sum_iff_of_le fun n _ => by split_ifs <;> simp]
  simp only [Finset.mem_Icc, Lost, not_and, not_not]
  refine forall_congr' fun n => ⟨fun hn h1 h2 hne => ?_, fun hn hrange => ?_⟩
  · by_contra hkept
    have := hn ⟨h1, h2⟩
    rw [if_neg hkept] at this
    exact hne (List.length_eq_zero_iff.mp this.symm)
  · by_cases hne : chain.groups n = []
    · simp [hne]
    · rw [if_pos (hn hrange.1 hrange.2 hne)]

end Intact

/-! ### What is noticed -/

/-- No problem comes of it: every probed block has its canonical hash, and every block of the coverage some
group toward the other shard, of whatever block hash. -/
def Unnoticed (s : Supply) : Prop :=
  s.coverageFrom ≤ mainnetCrossTxFirstBlock ∧ ∀ shard ≤ 1,
    (s.databases shard).lookupSnapshot = none ∧ (s.databases shard).snapDbMarker = false ∧
    (∀ n ∈ probeBlocks 0 (s.cutoffs shard) s.probes, (s.databases shard).canonicalHashes n ≠ none) ∧
    ((∀ n, s.coverageFrom ≤ n → n ≤ s.cutoffs shard →
        ∃ g ∈ (s.databases shard).receiptGroups, g.1.destination = partner shard ∧ g.1.number = n) ∨
      (s.coverageFrom = 0 ∧ s.cutoffs shard = 2 ^ 64 - 1 ∧
        ∀ g ∈ (s.databases shard).receiptGroups, g.1.destination ≠ partner shard))

theorem mem_probeBlocks_le {start stop n : ℕ} {probes : ℤ} (hstop : stop < 2 ^ 64) (h : n ∈ probeBlocks start stop probes) :
    n ≤ stop := by
  unfold probeBlocks at h
  split_ifs at h with hlt
  · simp at h
  · simp only at h
    generalize hp : (if stop - start < (max probes 2).toNat then stop - start + 1 else (max probes 2).toNat) = q at h
    split_ifs at h with hone
    · obtain rfl := List.mem_singleton.mp h
      omega
    · obtain ⟨i, hi, rfl⟩ := List.mem_map.mp h
      have hq : 0 < q - 1 := by
        split_ifs at hp <;> omega
      have hle : (stop - start) * i % 2 ^ 64 / (q - 1) ≤ stop - start := by
        refine (Nat.div_le_div_right (Nat.mod_le _ _)).trans ?_
        refine Nat.div_le_of_le_mul ?_
        rw [Nat.mul_comm (q - 1)]
        exact Nat.mul_le_mul_left _ (Nat.le_sub_one_of_lt (List.mem_range.mp hi))
      rw [Nat.mod_eq_of_lt] <;> omega

theorem mem_numbersToward {d start stop n : ℕ} {gs : List Group} : n ∈ numbersToward d start stop gs ↔
    (start ≤ n ∧ n ≤ stop) ∧ ∃ g ∈ gs, g.1.destination = d ∧ g.1.number = n := by
  simp only [numbersToward, List.mem_map, List.mem_filter, decide_eq_true_eq]
  constructor
  · rintro ⟨g, ⟨hg, hd, h1, h2⟩, rfl⟩
    exact ⟨⟨h1, h2⟩, g, hg, hd, rfl⟩
  · rintro ⟨⟨h1, h2⟩, g, hg, hd, rfl⟩
    exact ⟨g, ⟨hg, hd, h1, h2⟩, rfl⟩

theorem coverage_complete_iff {shard : ℕ} {t : DirectionTotals} (r : SumRun K (s.scan shard) t) :
    t.sourceCoverage.complete = true ↔
      (∀ n, s.coverageFrom ≤ n → n ≤ s.cutoffs shard →
        ∃ g ∈ (s.databases shard).receiptGroups, g.1.destination = partner shard ∧ g.1.number = n) ∨
      (s.coverageFrom = 0 ∧ s.cutoffs shard = 2 ^ 64 - 1 ∧
        ∀ g ∈ (s.databases shard).receiptGroups, g.1.destination ≠ partner shard) := by
  obtain ⟨coverage, heq, htracked⟩ := r.coverage
  rw [heq, htracked.complete_iff (s.cutoffs_lt shard)]
  refine or_congr (forall_congr' fun n => ?_) (and_congr_right fun hstart => and_congr_right fun hstop => ?_)
  · rw [mem_numbersToward]
    exact ⟨fun h h1 h2 => (h h1 h2).2, fun h h1 h2 => ⟨⟨h1, h2⟩, h h1 h2⟩⟩
  · -- every stored number is in the range of all numbers
    rw [List.eq_nil_iff_forall_not_mem]
    simp only [mem_numbersToward, not_and, not_exists]
    refine ⟨fun h g hg hd => ?_, fun h n _ g hg hd => absurd hd (h g hg)⟩
    have hlt := (s.databases shard).number_lt g hg
    exact h g.1.number ⟨hstart.le.trans (Nat.zero_le _), by
      have : (s.scan shard).sourceCutoff = s.cutoffs shard := rfl
      omega⟩ g hg hd rfl

theorem report_complete_iff {chain : Chain} {shard : ℕ}
    (h : Intact chain (s.databases shard) (partner shard) (s.cutoffs shard)) :
    (probe (s.databases shard) 0 (s.cutoffs shard) s.probes).complete = true ↔
      (s.databases shard).snapDbMarker = false ∧
        ∀ n ∈ probeBlocks 0 (s.cutoffs shard) s.probes, (s.databases shard).canonicalHashes n ≠ none := by
  rw [probe_complete_iff]
  refine and_congr_right fun _ => forall₂_congr fun n hn => ?_
  have hle := mem_probeBlocks_le (s.cutoffs_lt shard) hn
  unfold blockPresent
  cases hhash : (s.databases shard).canonicalHashes n with
  | none => simp
  | some hash =>
    obtain rfl := h.canonicalHash n hle hash hhash
    simp [h.header n hle, h.body n hle]

/-- The list of problems is empty exactly when nothing is noticed. -/
theorem problems_nil_iff {chains : ℕ → Chain}
    (hintact : ∀ shard ≤ 1, Intact (chains shard) (s.databases shard) (partner shard) (s.cutoffs shard))
    {t0 t1 : DirectionTotals} (r0 : SumRun K (s.scan 0) t0) (r1 : SumRun K (s.scan 1) t1) :
    s.problems [0, 1] [t0, t1] = [] ↔ Unnoticed s := by
  have hdatabase : ∀ shard ≤ 1, (let db := inspectDatabase (s.databases shard) (s.cutoffs shard) s.probes
      ((if shard ∈ [0, 1] ∧ db.kind ≠ .chain then [Problem.snapshotSource shard] else []) ++
      (if db.report.complete then [] else [.history shard db.kind db.report]) ++
      if db.kind = .cxLookupSnapshot ∧ db.lookupCutoff < s.cutoffs shard then
        [.snapshotCutoff shard db.lookupCutoff (s.cutoffs shard)]
      else []) = []) ↔ (s.databases shard).lookupSnapshot = none ∧ (s.databases shard).snapDbMarker = false ∧
        ∀ n ∈ probeBlocks 0 (s.cutoffs shard) s.probes, (s.databases shard).canonicalHashes n ≠ none := by
    intro shard hshard
    have hsource : shard ∈ [0, 1] := by simp only [List.mem_cons, List.not_mem_nil, or_false]; omega
    rw [← report_complete_iff (hintact shard hshard)]
    unfold inspectDatabase
    cases (s.databases shard).lookupSnapshot with
    | some info => simp [hsource]
    | none => simp
  have hcoverage : (mainnetCrossTxFirstBlock < s.coverageFrom ↔ ¬s.coverageFrom ≤ mainnetCrossTxFirstBlock) := by
    omega
  have h0 := hdatabase 0 (by omega)
  have h1 := hdatabase 1 (by omega)
  have hc0 := coverage_complete_iff r0
  have hc1 := coverage_complete_iff r1
  simp only [Supply.problems, coverageProblems, List.append_eq_nil_iff, List.flatMap_cons, List.flatMap_nil,
    List.append_nil] at h0 h1 ⊢
  rw [h0, h1]
  unfold Unnoticed
  have hsplit : ∀ P : ℕ → Prop, (∀ shard ≤ 1, P shard) ↔ P 0 ∧ P 1 := fun P =>
    ⟨fun h => ⟨h 0 (by omega), h 1 le_rfl⟩, fun h shard hle => by
      rcases Nat.le_one_iff_eq_zero_or_eq_one.mp hle with rfl | rfl
      · exact h.1
      · exact h.2⟩
  rw [hsplit, ← hc0, ← hc1]
  split_ifs <;> simp_all

/-- With no problem reported, every receipt of the chains is counted, exactly when nothing is lost that
goes unnoticed. -/
theorem counted_unless_lost (K : Keys) (s : Supply) (chains : ℕ → Chain)
    (hintact : ∀ shard ≤ 1, Intact (chains shard) (s.databases shard) (partner shard) (s.cutoffs shard))
    {ds : List DirectionTotals} (hd : directions K s [0, 1] = .ok ds) :
    (s.problems [0, 1] ds = [] → ∀ t ∈ ds, t.spent.receiptCount + t.pending.receiptCount =
      chainReceipts (chains t.sourceShard) (s.cutoffs t.sourceShard)) ↔
    (Unnoticed s → ∀ shard ≤ 1, ∀ n, ¬Lost (chains shard) (s.databases shard) (partner shard) (s.cutoffs shard) n) := by
  obtain ⟨t0, ds1, h0, hd1, rfl⟩ := List.forall₂_cons_left_iff.mp (forall₂_of_mapM_ok hd)
  obtain ⟨t1, ds2, h1, hd2, rfl⟩ := List.forall₂_cons_left_iff.mp hd1
  obtain rfl := List.forall₂_nil_left_iff.mp hd2
  have r0 := sumRun_of_sumReceipts h0
  have r1 := sumRun_of_sumReceipts h1
  have hs0 : t0.sourceShard = 0 := r0.sourceShard
  have hs1 : t1.sourceShard = 1 := r1.sourceShard
  rw [problems_nil_iff hintact r0 r1, List.forall_mem_cons, List.forall_mem_singleton, hs0, hs1,
    counted_all_iff (hintact 0 (by omega)) r0, counted_all_iff (hintact 1 le_rfl) r1]
  refine imp_congr_right fun _ => ⟨fun h shard hle => ?_, fun h => ⟨h 0 (by omega), h 1 le_rfl⟩⟩
  rcases Nat.le_one_iff_eq_zero_or_eq_one.mp hle with rfl | rfl
  · exact h.1
  · exact h.2

/-- One receipt from shard 0 in the first cross-shard block, and none from shard 1. -/
def oneReceipt (shard : ℕ) : Chain where
  hash n := BitVec.ofNat 256 (n + 1)
  groups n := if shard = 0 ∧ n = 786432 then [some ⟨1, 0x5, some 0x6, 0, 1, some 30⟩] else []

def emptyGroupAt (destination : ℕ) (hash : Hash) : Database where
  receiptGroups := [(⟨destination, 786432, hash⟩, [])]
  sorted := .cons (by simp) .nil
  number_lt := by simp
  cxLookups := .empty
  canonicalHashes n := some (BitVec.ofNat 256 (n + 1))
  hasHeader _ _ := true
  hasBody _ _ := true
  snapDbMarker := false
  lookupSnapshot := none

/-- The database of shard 0 has lost the group of its block, and holds the group of a side block. -/
def sideBlockStored : Supply where
  databases shard := if shard = 0 then emptyGroupAt 1 0x51de else emptyGroupAt 0 (BitVec.ofNat 256 786433)
  cutoffs _ := 786432
  cutoffs_lt _ := by decide
  coverageFrom := 786432
  probes := 2

theorem intact_sideBlockStored : ∀ shard ≤ 1, Intact (oneReceipt shard) (sideBlockStored.databases shard)
    (partner shard) (sideBlockStored.cutoffs shard) := by
  intro shard hshard
  rcases Nat.le_one_iff_eq_zero_or_eq_one.mp hshard with rfl | rfl
  · refine ⟨fun _ _ => rfl, fun _ _ => rfl, fun n _ h hh => (Option.some.inj hh).symm, fun g hg _ _ hhash => ?_⟩
    obtain rfl := List.mem_singleton.mp hg
    exact absurd hhash (by decide)
  · refine ⟨fun _ _ => rfl, fun _ _ => rfl, fun n _ h hh => (Option.some.inj hh).symm, fun g hg _ _ _ => ?_⟩
    obtain rfl := List.mem_singleton.mp hg
    exact ⟨le_rfl, rfl⟩

/-- No problem is reported, and the receipt is not counted. -/
theorem side_block_hides_receipt : ∃ ds, directions plainKeys sideBlockStored [0, 1] = .ok ds ∧
    sideBlockStored.problems [0, 1] ds = [] ∧ ∃ t ∈ ds, t.spent.receiptCount + t.pending.receiptCount ≠
      chainReceipts (oneReceipt t.sourceShard) (sideBlockStored.cutoffs t.sourceShard) := by
  have hrun : (directions plainKeys sideBlockStored [0, 1]).toOption.map (fun ds =>
      (sideBlockStored.problems [0, 1] ds, ds.map fun t => (t.sourceShard, t.spent.receiptCount + t.pending.receiptCount))) =
        some ([], [(0, 0), (1, 0)]) := by decide +kernel
  obtain ⟨ds, hds, heval⟩ := Except.exists_ok_of_map hrun
  obtain ⟨hnone, hcounts⟩ := Prod.mk.inj heval
  obtain ⟨t, ht, heq⟩ := List.mem_map.mp (hcounts ▸ List.mem_cons_self : (0, 0) ∈ ds.map _)
  obtain ⟨hshard, hcount⟩ := Prod.mk.inj heq
  refine ⟨ds, hds, hnone, t, ht, ?_⟩
  rw [hshard, hcount, chainReceipts]
  simp [sideBlockStored, oneReceipt, mainnetCrossTxFirstBlock]

theorem counted_unless_lost_side : ∃ ds, directions plainKeys sideBlockStored [0, 1] = .ok ds ∧
    ((sideBlockStored.problems [0, 1] ds = [] → ∀ t ∈ ds, t.spent.receiptCount + t.pending.receiptCount =
      chainReceipts (oneReceipt t.sourceShard) (sideBlockStored.cutoffs t.sourceShard)) ↔
    (Unnoticed sideBlockStored → ∀ shard ≤ 1, ∀ n, ¬Lost (oneReceipt shard) (sideBlockStored.databases shard)
      (partner shard) (sideBlockStored.cutoffs shard) n)) := by
  have hrun : (directions plainKeys sideBlockStored [0, 1]).toBool = true := by decide +kernel
  obtain ⟨ds, hds⟩ := Except.exists_ok_of_toBool hrun
  exact ⟨ds, hds, counted_unless_lost plainKeys sideBlockStored oneReceipt intact_sideBlockStored hds⟩

end HarmonyMigration.Receipts
