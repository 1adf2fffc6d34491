import HarmonyMigration.Receipts.SumReceipts

/-! Every outgoing receipt is counted once. -/

namespace HarmonyMigration.Receipts

open Erc20 Except Claims

variable {K : Keys} {p : Scan} {g : Group} {t t' : Totals}

/-! ### A group's receipts are applied together -/

/-- The canonical block that applied a transaction's receipt. -/
def Database.appliedAt (db : Database) (tx : Hash) : Option ℕ :=
  (db.readCxLookup tx).bind fun entry =>
    if db.readCanonicalHash entry.blockIndex = some entry.blockHash then some entry.blockIndex else none

/-- In one block, or none of them. -/
def AppliedTogether (db : Database) (rs : List Receipt) : Prop :=
  ∀ r ∈ rs, ∀ r' ∈ rs, db.appliedAt r.txHash = db.appliedAt r'.txHash

theorem appliedAt_of_applied {db : Database} {cutoff : Option ℕ} {r : Receipt} (h : applied db cutoff r = true) :
    ∃ entry, db.readCxLookup r.txHash = some entry ∧ db.appliedAt r.txHash = some entry.blockIndex := by
  unfold applied at h
  cases hlookup : db.readCxLookup r.txHash with
  | none => simp [hlookup] at h
  | some entry =>
    cases cutoff with
    | none => simp [hlookup] at h
    | some c =>
      simp only [hlookup, Bool.and_eq_true, beq_iff_eq] at h
      exact ⟨entry, rfl, by simp [Database.appliedAt, hlookup, h.2]⟩

/-- What the loop does with its next receipt. -/
theorem allSpent_cons (db : Database) (cutoff : Option ℕ) (r : Receipt) (rest : List Receipt) (b : ℕ) :
    allSpent db cutoff (r :: rest) b =
      if applied db cutoff r then
        if b ≠ 0 ∧ some b ≠ db.appliedAt r.txHash then .error .splitGroup
        else allSpent db cutoff rest ((db.appliedAt r.txHash).getD 0)
      else .ok false := by
  rw [allSpent]
  unfold applied Database.appliedAt
  cases hlookup : db.readCxLookup r.txHash with
  | none => simp
  | some entry =>
    cases cutoff with
    | none => simp
    | some c =>
      by_cases hc : c < entry.blockIndex
      · simp [hc]
      · cases hhash : db.readCanonicalHash entry.blockIndex with
        | none => simp [hc, hhash]
        | some hash =>
          by_cases heq : hash = entry.blockHash
          · have hle : entry.blockIndex ≤ c := not_lt.mp hc
            simp [hc, hhash, heq, hle]
          · simp [hc, hhash, heq]

theorem allSpent_ok {db : Database} {cutoff : Option ℕ} {rs : List Receipt} {b : ℕ} {x : Bool}
    (h : allSpent db cutoff rs b = .ok x) : x = rs.all (applied db cutoff) := by
  induction rs generalizing b with
  | nil => exact (Except.ok.inj h).symm
  | cons r rest ih =>
    rw [allSpent_cons] at h
    split_ifs at h with happlied hsplit
    · rw [List.all_cons, happlied, Bool.true_and]
      exact ih h
    · rw [List.all_cons, Bool.eq_false_of_not_eq_true happlied, Bool.false_and]
      exact (Except.ok.inj h).symm

theorem exists_allSpent {db : Database} {cutoff : Option ℕ} {rs : List Receipt} {b : ℕ} (h : AppliedTogether db rs)
    (hb : b = 0 ∨ ∀ r ∈ rs, db.appliedAt r.txHash = some b) : ∃ x, allSpent db cutoff rs b = .ok x := by
  induction rs generalizing b with
  | nil => exact ⟨true, rfl⟩
  | cons r rest ih =>
    rw [allSpent_cons]
    by_cases happlied : applied db cutoff r = true
    · obtain ⟨entry, -, hat⟩ := appliedAt_of_applied happlied
      have hsplit : ¬(b ≠ 0 ∧ some b ≠ db.appliedAt r.txHash) := by
        rintro ⟨hne, hsome⟩
        exact hsome ((hb.resolve_left hne) r (by simp)).symm
      rw [if_pos happlied, if_neg hsplit, hat]
      refine ih (fun x hx y hy => h x (by simp [hx]) y (by simp [hy])) (Or.inr fun x hx => ?_)
      rw [h x (by simp [hx]) r (by simp), hat]
      rfl
    · rw [if_neg happlied]
      exact ⟨false, rfl⟩

/-! ### One group -/

/-- What a group adds, by its kind. -/
def Totals.addKind (K : Keys) (p : Scan) (g : Group) (t : Totals) : Totals :=
  match kind p g with
  | .empty => { t with emptyReceiptGroups := t.emptyReceiptGroups + 1 }
  | .afterCutoff => { t with afterCutoffGroups := t.afterCutoffGroups + 1 }
  | .missingCanonicalHash => { t with missingCanonicalHashGroups := t.missingCanonicalHashGroups + 1 }
  | .nonCanonical => { t with nonCanonicalReceiptGroups := t.nonCanonicalReceiptGroups + 1 }
  | .unsupported =>
    { t with
      unsupported := t.unsupported.add (receiptsOf g)
      unsupportedGroups := t.unsupportedGroups ++ [makeReceiptGroup K g.1 (receiptsOf g)] }
  | .spent =>
    { t with canonicalReceiptGroups := t.canonicalReceiptGroups + 1, spent := t.spent.add (receiptsOf g) }
  | .pending =>
    { t with
      canonicalReceiptGroups := t.canonicalReceiptGroups + 1
      pending := t.pending.add (receiptsOf g)
      pendingGroups := t.pendingGroups ++ [makeReceiptGroup K g.1 (receiptsOf g)] }

theorem addCanonical_ok (hg : Counted p g) (h : addCanonical K p g.1 (receiptsOf g) t = .ok t') :
    t' = t.addKind K p g := by
  unfold addCanonical at h
  rw [Totals.addKind, kind_of_counted hg]
  cases hdb : p.destinations g.1.destination with
  | none =>
    simp only [hdb] at h
    exact (Except.ok.inj h).symm
  | some db =>
    simp only [hdb] at h
    obtain ⟨spent, hspent, rfl⟩ := of_map_ok h
    rw [allSpent_ok hspent]
    dsimp only
    split_ifs <;> rfl

/-- The receipts that count are well-formed, and applied together. -/
structure WellFormed (p : Scan) (g : Group) : Prop where
  receipts : checkReceipts p.sourceShard g.1.destination g.2 = .ok (receiptsOf g)
  together : ∀ db ∈ p.destinations g.1.destination, AppliedTogether db (receiptsOf g)

theorem addGroup_ok (h : addGroup K p g t = .ok t') : t' = t.addKind K p g ∧
    (Counted p g → checkReceipts p.sourceShard g.1.destination g.2 = .ok (receiptsOf g)) := by
  by_cases hg : Counted p g
  · obtain ⟨hne, hle, hcanonical⟩ := hg
    rw [addGroup, if_neg hne, if_neg hle.not_gt, hcanonical] at h
    simp only [ne_eq, not_true_eq_false, if_false] at h
    obtain ⟨rs, hrs, h⟩ := of_bind_ok h
    obtain rfl := (checkReceipts_ok hrs).1
    exact ⟨addCanonical_ok ⟨hne, hle, hcanonical⟩ h, fun _ => hrs⟩
  · refine ⟨?_, fun hc => absurd hc hg⟩
    unfold addGroup at h
    unfold Totals.addKind kind
    split_ifs at h ⊢ with hne hle hnone hcanonical
    · exact (Except.ok.inj h).symm
    · exact (Except.ok.inj h).symm
    · simp only [hnone] at h
      exact (Except.ok.inj h).symm
    · obtain ⟨hash, hhash⟩ := Option.ne_none_iff_exists'.mp hnone
      simp only [hhash] at h hcanonical
      rw [if_pos fun heq => hcanonical (congrArg some heq)] at h
      exact (Except.ok.inj h).symm
    · exact absurd ⟨hne, not_lt.mp hle, by simpa using hcanonical⟩ hg

theorem exists_addGroup (K : Keys) (t : Totals) (h : Counted p g → WellFormed p g) :
    ∃ t', addGroup K p g t = .ok t' := by
  unfold addGroup
  split_ifs with hne hle
  · exact ⟨_, rfl⟩
  · exact ⟨_, rfl⟩
  · cases hhash : p.source.readCanonicalHash g.1.number with
    | none => exact ⟨_, rfl⟩
    | some hash =>
      dsimp only
      split_ifs with heq
      · exact ⟨_, rfl⟩
      · obtain rfl := not_not.mp heq
        obtain ⟨hreceipts, htogether⟩ := h ⟨hne, not_lt.mp hle, hhash⟩
        rw [hreceipts, bind_ok_left]
        unfold addCanonical
        cases hdb : p.destinations g.1.destination with
        | none => exact ⟨_, rfl⟩
        | some db =>
          obtain ⟨spent, hspent⟩ : ∃ spent, allSpent db (p.destinationCutoffs g.1.destination) (receiptsOf g) 0 = .ok spent :=
            exists_allSpent (htogether db hdb) (Or.inl rfl)
          simp only [hspent]
          exact ⟨_, rfl⟩

/-! ### All groups -/

/-- The groups of a kind. -/
def ofKind (p : Scan) (c : Kind) (gs : List Group) : List Group := gs.filter fun g => kind p g = c

def classTotals (gs : List Group) : ClassTotals :=
  ⟨gs.length, (gs.map fun g => (receiptsOf g).length).sum, (gs.map fun g => totalAmount (receiptsOf g)).sum⟩

theorem ofKind_append (p : Scan) (c : Kind) (gs gs' : List Group) :
    ofKind p c (gs ++ gs') = ofKind p c gs ++ ofKind p c gs' := List.filter_append ..

theorem ofKind_singleton (p : Scan) (c : Kind) (g : Group) : ofKind p c [g] = if kind p g = c then [g] else [] := by
  unfold ofKind
  by_cases h : kind p g = c <;> simp [h]

theorem classTotals_snoc (gs : List Group) (g : Group) :
    classTotals (gs ++ [g]) = (classTotals gs).add (receiptsOf g) := by
  simp [classTotals, ClassTotals.add]

/-- The totals after the groups `gs`. -/
structure TotalsOf (K : Keys) (p : Scan) (gs : List Group) (t : Totals) : Prop where
  empty : t.emptyReceiptGroups = (ofKind p .empty gs).length
  afterCutoff : t.afterCutoffGroups = (ofKind p .afterCutoff gs).length
  missingCanonicalHash : t.missingCanonicalHashGroups = (ofKind p .missingCanonicalHash gs).length
  nonCanonical : t.nonCanonicalReceiptGroups = (ofKind p .nonCanonical gs).length
  canonical : t.canonicalReceiptGroups = (ofKind p .spent gs).length + (ofKind p .pending gs).length
  spent : t.spent = classTotals (ofKind p .spent gs)
  pending : t.pending = classTotals (ofKind p .pending gs)
  unsupported : t.unsupported = classTotals (ofKind p .unsupported gs)
  pendingGroups : t.pendingGroups = (ofKind p .pending gs).map fun g => makeReceiptGroup K g.1 (receiptsOf g)
  unsupportedGroups : t.unsupportedGroups =
    (ofKind p .unsupported gs).map fun g => makeReceiptGroup K g.1 (receiptsOf g)

theorem totalsOf_zero (K : Keys) (p : Scan) : TotalsOf K p [] .zero :=
  ⟨rfl, rfl, rfl, rfl, rfl, rfl, rfl, rfl, rfl, rfl⟩

theorem TotalsOf.addKind {gs : List Group} (h : TotalsOf K p gs t) (g : Group) :
    TotalsOf K p (gs ++ [g]) (t.addKind K p g) := by
  unfold Totals.addKind
  cases hk : kind p g <;>
    constructor <;>
    simp only [ofKind_append, ofKind_singleton, hk, if_true, reduceCtorEq, if_false, List.append_nil,
      List.length_append, List.length_singleton, classTotals_snoc, List.map_append, List.map_cons, List.map_nil,
      h.empty, h.afterCutoff, h.missingCanonicalHash, h.nonCanonical, h.canonical, h.spent, h.pending, h.unsupported,
      h.pendingGroups, h.unsupportedGroups]
  all_goals omega

/-- The numbers of the groups that the coverage is about. -/
def numbersToward (d start stop : ℕ) (gs : List Group) : List ℕ :=
  (gs.filter fun g => g.1.destination = d ∧ start ≤ g.1.number ∧ g.1.number ≤ stop).map fun g => g.1.number

/-- Below a key, in the database's order, numbers toward its shard are at most its own. -/
theorem number_le_of_sorted {gs : List Group} {g : Group} {d start stop : ℕ} (hd : g.1.destination = d)
    (h : ∀ x ∈ gs, x.1.order < g.1.order) : ∀ n ∈ numbersToward d start stop gs, n ≤ g.1.number := by
  intro n hn
  obtain ⟨x, hx, rfl⟩ := List.mem_map.mp hn
  obtain ⟨hmem, hcond⟩ := List.mem_filter.mp hx
  have hdest : x.1.destination = g.1.destination := by
    simp only [decide_eq_true_eq] at hcond
    omega
  have hlt := h x hmem
  simp only [GroupKey.order, Prod.Lex.toLex_lt_toLex, hdest, lt_irrefl, true_and, false_or] at hlt
  rcases hlt with hlt | ⟨heq, -⟩
  · exact hlt.le
  · exact heq.le

theorem observe_group {d start stop : ℕ} {gs : List Group} {coverage : CoverageTracker}
    (h : Tracked d start stop (numbersToward d start stop gs) coverage) (hstop : stop < 2 ^ 64)
    (hs : ∀ x ∈ gs, x.1.order < g.1.order) :
    ∃ coverage', coverage.observe g.1.destination g.1.number = .ok coverage' ∧
      Tracked d start stop (numbersToward d start stop (gs ++ [g])) coverage' := by
  by_cases hin : g.1.destination = d ∧ start ≤ g.1.number ∧ g.1.number ≤ stop
  · have heq : numbersToward d start stop (gs ++ [g]) = numbersToward d start stop gs ++ [g.1.number] := by
      simp [numbersToward, List.filter_append, hin]
    rw [heq, hin.1]
    exact h.observe_mem hstop hin.2 (number_le_of_sorted hin.1 hs)
  · have heq : numbersToward d start stop (gs ++ [g]) = numbersToward d start stop gs := by
      simp [numbersToward, List.filter_append, hin]
    rw [heq]
    exact h.observe_other hin

/-- The scan, from anywhere in the database. -/
theorem scanGroups_ok {d start stop : ℕ} (hstop : stop < 2 ^ 64) {done rest : List Group}
    {coverage coverage' : CoverageTracker} (h : scanGroups K p rest t coverage = .ok (t', coverage'))
    (hs : (done ++ rest).Pairwise fun a b => a.1.order < b.1.order) (ht : TotalsOf K p done t)
    (hc : Tracked d start stop (numbersToward d start stop done) coverage) :
    TotalsOf K p (done ++ rest) t' ∧ Tracked d start stop (numbersToward d start stop (done ++ rest)) coverage' ∧
      ∀ g ∈ rest, Counted p g → checkReceipts p.sourceShard g.1.destination g.2 = .ok (receiptsOf g) := by
  induction rest generalizing done t coverage with
  | nil =>
    obtain ⟨rfl, rfl⟩ := Prod.mk.inj (Except.ok.inj h)
    simpa using ⟨ht, hc⟩
  | cons g rest ih =>
    have hbefore : ∀ x ∈ done, x.1.order < g.1.order := fun x hx =>
      (List.pairwise_append.mp hs).2.2 x hx g (by simp)
    rw [← List.singleton_append, ← List.append_assoc] at hs ⊢
    obtain ⟨c1, hc1, h⟩ := of_bind_ok h
    obtain ⟨t1, ht1, h⟩ := of_bind_ok h
    obtain ⟨c1', hc1', htracked⟩ := observe_group hc hstop hbefore
    obtain rfl : c1 = c1' := Except.ok.inj (hc1.symm.trans hc1')
    obtain ⟨rfl, hchecked⟩ := addGroup_ok ht1
    obtain ⟨htotals, hcoverage, hrest⟩ := ih h hs (ht.addKind g) htracked
    exact ⟨htotals, hcoverage, List.forall_mem_cons.mpr ⟨hchecked, hrest⟩⟩

theorem exists_scanGroups {d start stop : ℕ} (hstop : stop < 2 ^ 64) {done rest : List Group}
    {coverage : CoverageTracker} (hs : (done ++ rest).Pairwise fun a b => a.1.order < b.1.order)
    (hc : Tracked d start stop (numbersToward d start stop done) coverage)
    (hw : ∀ g ∈ rest, Counted p g → WellFormed p g) : ∃ r, scanGroups K p rest t coverage = .ok r := by
  induction rest generalizing done t coverage with
  | nil => exact ⟨_, rfl⟩
  | cons g rest ih =>
    have hbefore : ∀ x ∈ done, x.1.order < g.1.order := fun x hx =>
      (List.pairwise_append.mp hs).2.2 x hx g (by simp)
    rw [← List.singleton_append, ← List.append_assoc] at hs
    obtain ⟨c1, hc1, htracked⟩ := observe_group hc hstop hbefore
    obtain ⟨t1, ht1⟩ := exists_addGroup K t (hw g (by simp))
    rw [scanGroups, hc1, bind_ok_left, ht1, bind_ok_left]
    exact ih hs htracked fun x hx => hw x (by simp [hx])

/-! ### The scan of a database -/

/-- The groups that count, in the order of the database. -/
def countedGroups (p : Scan) : List Group := p.source.receiptGroups.filter (Counted p)

theorem ofKind_countedGroups {c : Kind} (hc : c = .unsupported ∨ c = .spent ∨ c = .pending) :
    ofKind p c p.source.receiptGroups = (countedGroups p).filter fun g => kind p g = c := by
  rw [ofKind, countedGroups, List.filter_filter]
  refine List.filter_congr fun g _ => ?_
  rw [← Bool.decide_and, decide_eq_decide]
  refine ⟨fun hk => ⟨hk, counted_iff_kind.mpr (hk ▸ hc)⟩, fun h => h.1⟩

/-- `sumReceipts`, once it returns. -/
structure SumRun (K : Keys) (p : Scan) (t : DirectionTotals) : Prop where
  totals : TotalsOf K p p.source.receiptGroups t.toTotals
  sourceShard : t.sourceShard = p.sourceShard
  coverage : ∃ coverage, t.sourceCoverage = coverage.finish ∧ Tracked (partner p.sourceShard) p.coverageFrom
    p.sourceCutoff (numbersToward (partner p.sourceShard) p.coverageFrom p.sourceCutoff p.source.receiptGroups) coverage
  receipts : ∀ g ∈ p.source.receiptGroups, Counted p g →
    checkReceipts p.sourceShard g.1.destination g.2 = .ok (receiptsOf g)

theorem sumRun_of_sumReceipts {t : DirectionTotals} (h : sumReceipts K p = .ok t) : SumRun K p t := by
  obtain ⟨⟨t', coverage⟩, hscan, rfl⟩ := of_map_ok h
  obtain ⟨htotals, htracked, hreceipts⟩ := scanGroups_ok p.sourceCutoff_lt hscan (by simpa using p.source.sorted)
    (totalsOf_zero K p) (tracked_new _ _ _)
  exact ⟨htotals, rfl, ⟨coverage, rfl, htracked⟩, hreceipts⟩

theorem exists_sumReceipts (K : Keys) (h : ∀ g ∈ countedGroups p, WellFormed p g) : ∃ t, sumReceipts K p = .ok t := by
  have hsorted : ([] ++ p.source.receiptGroups).Pairwise fun a b : Group => a.1.order < b.1.order := p.source.sorted
  obtain ⟨r, hr⟩ := exists_scanGroups (K := K) (t := .zero) p.sourceCutoff_lt hsorted
    (tracked_new (partner p.sourceShard) p.coverageFrom p.sourceCutoff) fun g hg hc =>
      h g (List.mem_filter.mpr ⟨hg, by simpa using hc⟩)
  exact ⟨_, by rw [sumReceipts, hr]; rfl⟩

/-- Every length or sum over the counted groups is one over the three kinds. -/
theorem sum_countedGroups (f : Group → ℕ) :
    ((ofKind p .spent p.source.receiptGroups).map f).sum + ((ofKind p .pending p.source.receiptGroups).map f).sum +
      ((ofKind p .unsupported p.source.receiptGroups).map f).sum = ((countedGroups p).map f).sum := by
  rw [ofKind_countedGroups (by simp), ofKind_countedGroups (by simp), ofKind_countedGroups (by simp)]
  have hkind : ∀ g ∈ countedGroups p, kind p g = .unsupported ∨ kind p g = .spent ∨ kind p g = .pending :=
    fun g hg => counted_iff_kind.mp (by simpa using (List.mem_filter.mp hg).2)
  generalize countedGroups p = gs at hkind
  induction gs with
  | nil => rfl
  | cons g gs ih =>
    have hrest := ih fun x hx => hkind x (by simp [hx])
    rcases hkind g (by simp) with hk | hk | hk <;> simp [hk] <;> omega

/-- A group that counts is spent, pending or unsupported, by what its destination's database says. -/
structure CountedOnce (K : Keys) (p : Scan) (t : DirectionTotals) : Prop where
  unsupported_iff : ∀ g ∈ countedGroups p, kind p g = .unsupported ↔ p.destinations g.1.destination = none
  spent_iff : ∀ g ∈ countedGroups p, kind p g = .spent ↔ ∃ db, p.destinations g.1.destination = some db ∧
    ∀ r ∈ receiptsOf g, ∃ entry cutoff, db.readCxLookup r.txHash = some entry ∧
      p.destinationCutoffs g.1.destination = some cutoff ∧ entry.blockIndex ≤ cutoff ∧
      db.readCanonicalHash entry.blockIndex = some entry.blockHash
  pending_iff : ∀ g ∈ countedGroups p, kind p g = .pending ↔ kind p g ≠ .unsupported ∧ kind p g ≠ .spent
  spent : t.spent = classTotals ((countedGroups p).filter fun g => kind p g = .spent)
  pending : t.pending = classTotals ((countedGroups p).filter fun g => kind p g = .pending)
  unsupported : t.unsupported = classTotals ((countedGroups p).filter fun g => kind p g = .unsupported)
  canonicalReceiptGroups : t.canonicalReceiptGroups = t.spent.receiptGroups + t.pending.receiptGroups
  groups : t.spent.receiptGroups + t.pending.receiptGroups + t.unsupported.receiptGroups = (countedGroups p).length
  counts : t.spent.receiptCount + t.pending.receiptCount + t.unsupported.receiptCount =
    ((countedGroups p).map fun g => g.2.length).sum
  amounts : t.spent.amountAtto + t.pending.amountAtto + t.unsupported.amountAtto =
    ((countedGroups p).map fun g => totalAmount (receiptsOf g)).sum
  pendingGroups : t.pendingGroups =
    ((countedGroups p).filter fun g => kind p g = .pending).map fun g => makeReceiptGroup K g.1 (receiptsOf g)
  unsupportedGroups : t.unsupportedGroups =
    ((countedGroups p).filter fun g => kind p g = .unsupported).map fun g => makeReceiptGroup K g.1 (receiptsOf g)
  others : t.emptyReceiptGroups + t.afterCutoffGroups + t.missingCanonicalHashGroups + t.nonCanonicalReceiptGroups +
    (countedGroups p).length = p.source.receiptGroups.length

theorem applied_iff {db : Database} {cutoff : Option ℕ} {r : Receipt} : applied db cutoff r = true ↔
    ∃ entry c, db.readCxLookup r.txHash = some entry ∧ cutoff = some c ∧ entry.blockIndex ≤ c ∧
      db.readCanonicalHash entry.blockIndex = some entry.blockHash := by
  unfold applied
  cases db.readCxLookup r.txHash with
  | none => simp
  | some entry => cases cutoff <;> simp

/-- Every group is of one kind. -/
theorem length_kinds (gs : List Group) :
    (ofKind p .empty gs).length + (ofKind p .afterCutoff gs).length + (ofKind p .missingCanonicalHash gs).length +
      (ofKind p .nonCanonical gs).length + (gs.filter (Counted p)).length = gs.length := by
  induction gs with
  | nil => rfl
  | cons g gs ih =>
    have hcounted := counted_iff_kind (p := p) (g := g)
    simp only [ofKind] at ih ⊢
    cases hk : kind p g <;> simp [hk] at hcounted <;> simp [hk, hcounted] <;> omega

theorem SumRun.countedOnce {t : DirectionTotals} (r : SumRun K p t) : CountedOnce K p t := by
  have hmem : ∀ g ∈ countedGroups p, g ∈ p.source.receiptGroups ∧ Counted p g := fun g hg => by
    simpa using List.mem_filter.mp hg
  have h := r.totals
  refine ⟨fun g hg => kind_unsupported (hmem g hg).2, fun g hg => ?_, fun g hg => ?_, ?_, ?_, ?_, ?_, ?_, ?_, ?_, ?_, ?_,
    ?_⟩
  · simp only [kind_spent (hmem g hg).2, applied_iff]
  · rcases counted_iff_kind.mp (hmem g hg).2 with hk | hk | hk <;> simp [hk]
  · rw [h.spent, ofKind_countedGroups (by simp)]
  · rw [h.pending, ofKind_countedGroups (by simp)]
  · rw [h.unsupported, ofKind_countedGroups (by simp)]
  · rw [h.canonical, h.spent, h.pending]
    rfl
  · have hsum := sum_countedGroups (p := p) fun _ => 1
    simp only [List.map_const', List.sum_replicate, smul_eq_mul, mul_one] at hsum
    rw [h.spent, h.pending, h.unsupported]
    exact hsum
  · have hsum := sum_countedGroups (p := p) fun g => (receiptsOf g).length
    rw [h.spent, h.pending, h.unsupported]
    refine hsum.trans (congrArg List.sum (List.map_congr_left fun g hg => ?_))
    exact (checkReceipts_ok (r.receipts g (hmem g hg).1 (hmem g hg).2)).2
  · rw [h.spent, h.pending, h.unsupported]
    exact sum_countedGroups fun g => totalAmount (receiptsOf g)
  · rw [h.pendingGroups, ofKind_countedGroups (by simp)]
  · rw [h.unsupportedGroups, ofKind_countedGroups (by simp)]
  · rw [h.empty, h.afterCutoff, h.missingCanonicalHash, h.nonCanonical]
    exact length_kinds p.source.receiptGroups

/-- Of well-formed receipts that are applied together, the scan counts each group once; and whatever
the databases hold, it does so if it returns. -/
theorem receipts_counted_once (K : Keys) (p : Scan) :
    ((∀ g ∈ countedGroups p, WellFormed p g) → ∃ t, sumReceipts K p = .ok t) ∧
      ∀ t, sumReceipts K p = .ok t → CountedOnce K p t :=
  ⟨exists_sumReceipts K, fun _ h => (sumRun_of_sumReceipts h).countedOnce⟩

/-- Two receipts of shard 0 to shard 1 applied in block 50, one that is not, one to a retired shard, and a
group of a side chain. -/
def mixedSource : Database where
  receiptGroups :=
    [(⟨1, 10, 0xa#256⟩, [some ⟨1, 0x5, some 0x6, 0, 1, some 30⟩, some ⟨2, 0x5, some 0x6, 0, 1, some 4⟩]),
      (⟨1, 11, 0xb#256⟩, []), (⟨1, 12, 0xc#256⟩, [some ⟨3, 0x5, some 0x7, 0, 1, some 9⟩]),
      (⟨1, 12, 0xd#256⟩, [some ⟨4, 0x5, some 0x7, 0, 1, some 8⟩]),
      (⟨2, 10, 0xa#256⟩, [some ⟨5, 0x5, some 0x6, 0, 2, some 1⟩])]
  sorted := by decide
  number_lt := by decide
  cxLookups := .empty
  canonicalHashes n := if n = 10 then some 0xa#256 else if n = 11 then some 0xb#256 else if n = 12 then some 0xc#256 else none
  hasHeader _ _ := true
  hasBody _ _ := true
  snapDbMarker := false
  lookupSnapshot := none

def mixedDestination : Database where
  receiptGroups := []
  sorted := sorted_nil
  number_lt := number_lt_nil
  cxLookups := ((Dict.empty.insert 1 ⟨0x50, 50⟩).insert 2 ⟨0x50, 50⟩).insert 3 ⟨0x90, 90⟩
  canonicalHashes n := if n = 50 then some 0x50#256 else if n = 90 then some 0x90#256 else none
  hasHeader _ _ := true
  hasBody _ _ := true
  snapDbMarker := false
  lookupSnapshot := none

def mixedScan : Scan where
  sourceShard := 0
  source := mixedSource
  destinations d := if d = 1 then some mixedDestination else none
  sourceCutoff := 20
  sourceCutoff_lt := by decide
  destinationCutoffs d := if d < 2 then some 60 else none
  coverageFrom := 10

theorem receipts_counted_once_mixed : ∃ t, sumReceipts plainKeys mixedScan = .ok t ∧
    CountedOnce plainKeys mixedScan t ∧ t.spent = ⟨1, 2, 34⟩ ∧ t.pending = ⟨1, 1, 9⟩ ∧ t.unsupported = ⟨1, 1, 1⟩ := by
  obtain ⟨hexists, hcounted⟩ := receipts_counted_once plainKeys mixedScan
  have hwell : ∀ g ∈ countedGroups mixedScan, WellFormed mixedScan g := by
    intro g hg
    refine ⟨?_, fun db hdb => ?_⟩
    · revert g
      decide
    · have hall : ∀ g ∈ countedGroups mixedScan, ∀ r ∈ receiptsOf g, ∀ r' ∈ receiptsOf g,
          mixedDestination.appliedAt r.txHash = mixedDestination.appliedAt r'.txHash := by decide
      obtain rfl : mixedDestination = db := by
        simp only [mixedScan, Option.mem_def] at hdb
        split_ifs at hdb
        exact Option.some.inj hdb
      exact hall g hg
  obtain ⟨t, ht⟩ := hexists hwell
  have hcount := hcounted t ht
  refine ⟨t, ht, hcount, ?_, ?_, ?_⟩
  · rw [hcount.spent]
    decide
  · rw [hcount.pending]
    decide
  · rw [hcount.unsupported]
    decide

end HarmonyMigration.Receipts
