import HarmonyMigration.Receipts.CountedOnce
import HarmonyMigration.Lib.Loader

/-! `cx-lookup-snapshot`: the lookups of a destination database, exported; the export can stand in for
the database. -/

namespace HarmonyMigration.Receipts

open Except Claims

/-- What the export has collected. -/
structure Exported where
  lookupEntries : ℕ
  afterCutoff : ℕ
  nonCanonical : ℕ
  lookups : Dict Hash LookupEntry
  blocks : Dict ℕ Hash

def Exported.zero : Exported := ⟨0, 0, 0, .empty, .empty⟩

def exportLookup (source : Database) (cutoff : ℕ) (tx : Hash) (entry : LookupEntry) (s : Exported) :
    Except Error Exported :=
  let s := { s with lookupEntries := s.lookupEntries + 1 }
  if cutoff < entry.blockIndex then .ok { s with afterCutoff := s.afterCutoff + 1 }
  else if source.canonicalHash entry.blockIndex ≠ entry.blockHash then .ok { s with nonCanonical := s.nonCanonical + 1 }
  else
    (require (∀ prior ∈ s.blocks.get? entry.blockIndex, prior = entry.blockHash) .conflictingHashes).map fun _ =>
      { s with
        lookups := s.lookups.insert tx entry
        blocks := s.blocks.insert entry.blockIndex entry.blockHash }

def exportLookups (source : Database) (cutoff : ℕ) : List (Hash × LookupEntry) → Exported → Except Error Exported
  | [], s => .ok s
  | e :: rest, s => (exportLookup source cutoff e.1 e.2 s).bind fun s => exportLookups source cutoff rest s

/-- `main`: the output database. -/
def exportSnapshot (source : Database) (cutoff : ℕ) (probes : ℤ) (allowIncomplete : Bool) : Except Error Database :=
  let history := probe source 0 cutoff probes
  (require (history.complete ∨ allowIncomplete) .incompleteHistory).bind fun _ =>
  (exportLookups source cutoff source.cxLookups.entries .zero).map fun s =>
    { receiptGroups := []
      sorted := sorted_nil
      number_lt := number_lt_nil
      cxLookups := s.lookups
      canonicalHashes := s.blocks.get?
      hasHeader _ _ := false
      hasBody _ _ := false
      snapDbMarker := false
      lookupSnapshot := some ⟨cutoff, history, allowIncomplete⟩ }

/-! ### What is exported -/

/-- A lookup that is exported. -/
def Kept (source : Database) (cutoff : ℕ) (entry : LookupEntry) : Prop :=
  entry.blockIndex ≤ cutoff ∧ source.canonicalHash entry.blockIndex = entry.blockHash

/-- The export after the entries `done`. -/
structure ExportedOf (source : Database) (cutoff : ℕ) (done : List (Hash × LookupEntry)) (s : Exported) : Prop where
  lookups : ∀ e, e ∈ s.lookups.entries ↔ e ∈ done ∧ Kept source cutoff e.2
  blocks : ∀ n h, s.blocks.get? n = some h ↔ ∃ e ∈ done, Kept source cutoff e.2 ∧ e.2.blockIndex = n ∧ h = e.2.blockHash

variable {source : Database} {cutoff : ℕ} {s s' : Exported} {done rest : List (Hash × LookupEntry)}

theorem exportLookup_kept {e : Hash × LookupEntry} (hs : ExportedOf source cutoff done s) (he : e.1 ∉ done.map Prod.fst) :
    ∃ s', exportLookup source cutoff e.1 e.2 s = .ok s' ∧ ExportedOf source cutoff (done ++ [e]) s' := by
  obtain ⟨tx, entry⟩ := e
  by_cases hkept : Kept source cutoff entry
  · have hnew : tx ∉ s.lookups.keys := fun hm => by
      obtain ⟨v, hv⟩ := Dict.exists_of_mem_keys hm
      exact he (List.mem_map.mpr ⟨_, ((hs.lookups (tx, v)).mp hv).1, rfl⟩)
    have hprior : ∀ prior ∈ s.blocks.get? entry.blockIndex, prior = entry.blockHash := fun prior hp => by
      obtain ⟨x, -, hx, hindex, rfl⟩ := (hs.blocks _ _).mp hp
      rw [← hkept.2, ← hx.2, hindex]
    refine ⟨_, by rw [exportLookup, if_neg hkept.1.not_gt, if_neg (not_not.mpr hkept.2), require, if_pos hprior]; rfl,
      fun x => ?_, fun n h => ?_⟩
    · rw [Dict.entries_insert_of_notMem hnew, List.mem_append, hs.lookups, List.mem_append, List.mem_singleton]
      constructor
      · rintro (hx | rfl)
        · exact ⟨Or.inl hx.1, hx.2⟩
        · exact ⟨Or.inr rfl, hkept⟩
      · rintro ⟨hx | rfl, hx'⟩
        · exact Or.inl ⟨hx, hx'⟩
        · exact Or.inr rfl
    · rw [Dict.get?_insert]
      split_ifs with hn
      · subst hn
        refine ⟨fun h => ⟨(tx, entry), by simp, hkept, rfl, (Option.some.inj h).symm⟩, ?_⟩
        rintro ⟨x, -, hx, hindex, rfl⟩
        rw [← hkept.2, ← hx.2, hindex]
      · rw [hs.blocks]
        constructor
        · rintro ⟨x, hx, hx'⟩
          exact ⟨x, by simp [hx], hx'⟩
        · rintro ⟨x, hx, hx', hindex, heq⟩
          rcases List.mem_append.mp hx with hx | hx
          · exact ⟨x, hx, hx', hindex, heq⟩
          · obtain rfl := List.mem_singleton.mp hx
            exact absurd hindex.symm hn
  · have hsame : ∀ x : Hash × LookupEntry, (x ∈ done ++ [(tx, entry)] ∧ Kept source cutoff x.2) ↔
        x ∈ done ∧ Kept source cutoff x.2 := fun x => by
      rw [List.mem_append, List.mem_singleton]
      constructor
      · rintro ⟨hx | rfl, hx'⟩
        · exact ⟨hx, hx'⟩
        · exact absurd hx' hkept
      · rintro ⟨hx, hx'⟩
        exact ⟨Or.inl hx, hx'⟩
    have hdone : ∀ s' : Exported, s'.lookups = s.lookups → s'.blocks = s.blocks →
        ExportedOf source cutoff (done ++ [(tx, entry)]) s' := fun s' h1 h2 => by
      refine ⟨fun x => by rw [h1, hs.lookups, hsame], fun n h => ?_⟩
      rw [h2, hs.blocks]
      constructor
      · rintro ⟨x, hx, hx', h⟩
        exact ⟨x, by simp [hx], hx', h⟩
      · rintro ⟨x, hx, hx', h⟩
        exact ⟨x, ((hsame x).mp ⟨hx, hx'⟩).1, hx', h⟩
    unfold exportLookup
    by_cases hcut : cutoff < entry.blockIndex
    · rw [if_pos hcut]
      exact ⟨_, rfl, hdone _ rfl rfl⟩
    · have hne : source.canonicalHash entry.blockIndex ≠ entry.blockHash := fun heq => hkept ⟨not_lt.mp hcut, heq⟩
      rw [if_neg hcut, if_pos hne]
      exact ⟨_, rfl, hdone _ rfl rfl⟩

/-- The export does not fail on its way. -/
theorem exportedOf_zero (source : Database) (cutoff : ℕ) : ExportedOf source cutoff [] .zero :=
  ⟨by simp [Exported.zero, Dict.empty], by simp [Exported.zero, Dict.get?, Dict.empty]⟩

theorem exists_exportLookups (hs : ExportedOf source cutoff done s) (hnd : ((done ++ rest).map Prod.fst).Nodup) :
    ∃ s', exportLookups source cutoff rest s = .ok s' ∧ ExportedOf source cutoff (done ++ rest) s' := by
  induction rest generalizing done s with
  | nil => exact ⟨s, rfl, by simpa using hs⟩
  | cons e rest ih =>
    have he : e.1 ∉ done.map Prod.fst := fun hm => by
      rw [List.map_append, List.nodup_append] at hnd
      exact hnd.2.2 e.1 hm e.1 (by simp) rfl
    obtain ⟨s1, hs1, hdone⟩ := exportLookup_kept hs he
    rw [exportLookups, hs1, bind_ok_left]
    rw [← List.singleton_append, ← List.append_assoc] at hnd ⊢
    exact ih hdone hnd

/-- The exported database: the kept lookups, and the canonical hashes of their blocks. -/
theorem exportSnapshot_ok {probes : ℤ} {allowIncomplete : Bool} {snapshot : Database}
    (h : exportSnapshot source cutoff probes allowIncomplete = .ok snapshot) :
    (∀ tx entry, snapshot.readCxLookup tx = some entry ↔
      source.readCxLookup tx = some entry ∧ Kept source cutoff entry) ∧
      ∀ n hash, snapshot.readCanonicalHash n = some hash ↔
        ∃ tx entry, source.readCxLookup tx = some entry ∧ Kept source cutoff entry ∧ entry.blockIndex = n ∧
          hash = entry.blockHash := by
  unfold exportSnapshot at h
  rw [require_bind_ok] at h
  obtain ⟨s, hs, rfl⟩ := of_map_ok h.2
  obtain ⟨s', hs', hdone⟩ := exists_exportLookups (exportedOf_zero source cutoff) (by simpa using source.cxLookups.nodup)
  obtain rfl : s = s' := Except.ok.inj (hs.symm.trans hs')
  rw [List.nil_append] at hdone
  refine ⟨fun tx entry => ?_, fun n hash => ?_⟩
  · rw [Database.readCxLookup, Database.readCxLookup, Dict.get?_eq_some_iff, Dict.get?_eq_some_iff]
    exact hdone.lookups (tx, entry)
  · rw [Database.readCanonicalHash, hdone.blocks]
    simp only [Prod.exists, Database.readCxLookup, Dict.get?_eq_some_iff]

theorem exists_exportSnapshot {probes : ℤ} {allowIncomplete : Bool}
    (h : (probe source 0 cutoff probes).complete = true ∨ allowIncomplete = true) :
    ∃ snapshot, exportSnapshot source cutoff probes allowIncomplete = .ok snapshot := by
  obtain ⟨s, hs, -⟩ := exists_exportLookups (exportedOf_zero source cutoff) (by simpa using source.cxLookups.nodup)
  unfold exportSnapshot
  dsimp only
  rw [require, if_pos h, bind_ok_left, hs]
  exact ⟨_, rfl⟩

/-! ### The scan cannot tell the two apart -/

/-- Two databases that give every receipt the same answer. -/
structure SameAnswers (db db' : Database) (cutoff : Option ℕ) : Prop where
  applied : ∀ r, applied db cutoff r = applied db' cutoff r
  appliedAt : ∀ r, Receipts.applied db cutoff r = true → db.appliedAt r.txHash = db'.appliedAt r.txHash

theorem SameAnswers.allSpent_eq {db db' : Database} {cutoff : Option ℕ} (h : SameAnswers db db' cutoff)
    (rs : List Receipt) (b : ℕ) : allSpent db cutoff rs b = allSpent db' cutoff rs b := by
  induction rs generalizing b with
  | nil => rfl
  | cons r rest ih =>
    rw [allSpent_cons, allSpent_cons, ← h.applied r]
    split_ifs with happlied h1 h2 h2
    · rfl
    · exact absurd (h.appliedAt r happlied ▸ h1) h2
    · exact absurd (h.appliedAt r happlied ▸ h2) h1
    · rw [h.appliedAt r happlied, ih]
    · rfl

/-- A scan with another database for a destination. -/
def Scan.withDestination (p : Scan) (d : ℕ) (db : Database) : Scan :=
  { p with destinations := fun d' => if d' = d then some db else p.destinations d' }

variable {p : Scan} {d : ℕ} {db db' : Database}

theorem addGroup_withDestination (K : Keys) (hdb : p.destinations d = some db)
    (h : SameAnswers db db' (p.destinationCutoffs d)) (g : Group) (t : Totals) :
    addGroup K (p.withDestination d db') g t = addGroup K p g t := by
  have hcanonical : ∀ rs, addCanonical K (p.withDestination d db') g.1 rs t = addCanonical K p g.1 rs t := fun rs => by
    unfold addCanonical
    by_cases hd : g.1.destination = d
    · simp only [Scan.withDestination, hd, if_true, hdb, h.allSpent_eq]
    · simp only [Scan.withDestination, if_neg hd]
  unfold addGroup
  simp only [hcanonical]
  rfl

theorem scanGroups_withDestination (K : Keys) (hdb : p.destinations d = some db)
    (h : SameAnswers db db' (p.destinationCutoffs d)) (gs : List Group) (t : Totals) (coverage : CoverageTracker) :
    scanGroups K (p.withDestination d db') gs t coverage = scanGroups K p gs t coverage := by
  induction gs generalizing t coverage with
  | nil => rfl
  | cons g rest ih => simp only [scanGroups, addGroup_withDestination K hdb h, ih]

theorem sameAnswers_snapshot {snapshot : Database} {probes : ℤ} {allowIncomplete : Bool} {c : Option ℕ}
    (hnz : ∀ e ∈ db.cxLookups.entries, e.2.blockHash ≠ 0) (hc : ∀ n ∈ c, n ≤ cutoff)
    (h : exportSnapshot db cutoff probes allowIncomplete = .ok snapshot) : SameAnswers db snapshot c := by
  obtain ⟨hlookup, hhash⟩ := exportSnapshot_ok h
  -- a lookup is kept exactly when its block is canonical, because no block hash is zero
  have hkept : ∀ tx entry, db.readCxLookup tx = some entry →
      (Kept db cutoff entry ↔ entry.blockIndex ≤ cutoff ∧ db.readCanonicalHash entry.blockIndex = some entry.blockHash) := by
    intro tx entry hentry
    have hne := hnz _ (Dict.get?_eq_some_iff.mp hentry)
    refine and_congr_right fun _ => ?_
    rw [Database.canonicalHash, Database.readCanonicalHash]
    cases db.canonicalHashes entry.blockIndex with
    | none => simpa using hne.symm
    | some hash => simp
  have hcanonical : ∀ tx entry, snapshot.readCxLookup tx = some entry →
      snapshot.readCanonicalHash entry.blockIndex = some entry.blockHash := fun tx entry hentry =>
    (hhash _ _).mpr ⟨tx, entry, ((hlookup _ _).mp hentry).1, ((hlookup _ _).mp hentry).2, rfl, rfl⟩
  have happlied : ∀ r, applied db c r = applied snapshot c r := fun r => by
    rw [Bool.eq_iff_iff, applied_iff, applied_iff]
    constructor
    · rintro ⟨entry, n, hentry, hn, hle, hcan⟩
      have hk := (hkept _ _ hentry).mpr ⟨hle.trans (hc n hn), hcan⟩
      have hsnap := (hlookup _ _).mpr ⟨hentry, hk⟩
      exact ⟨entry, n, hsnap, hn, hle, hcanonical _ _ hsnap⟩
    · rintro ⟨entry, n, hentry, hn, hle, -⟩
      obtain ⟨hentry, hk⟩ := (hlookup _ _).mp hentry
      exact ⟨entry, n, hentry, hn, hle, ((hkept _ _ hentry).mp hk).2⟩
  refine ⟨happlied, fun r hr => ?_⟩
  obtain ⟨entry, hentry, hat⟩ := appliedAt_of_applied hr
  obtain ⟨entry', hentry', hat'⟩ := appliedAt_of_applied ((happlied r).symm.trans hr)
  obtain rfl : entry' = entry :=
    Option.some.inj (((hlookup _ _).mp hentry').1.symm.trans hentry)
  rw [hat, hat']

/-- With the exported snapshot of its destination, the scan returns what it returns with the database. -/
theorem snapshot_stands_in (K : Keys) (p : Scan) {d cutoff : ℕ} {db snapshot : Database} {probes : ℤ}
    {allowIncomplete : Bool} (hdb : p.destinations d = some db)
    (hnz : ∀ e ∈ db.cxLookups.entries, e.2.blockHash ≠ 0) (hc : ∀ c ∈ p.destinationCutoffs d, c ≤ cutoff)
    (h : exportSnapshot db cutoff probes allowIncomplete = .ok snapshot) :
    sumReceipts K (p.withDestination d snapshot) = sumReceipts K p := by
  unfold sumReceipts
  rw [show (p.withDestination d snapshot).source = p.source from rfl,
    scanGroups_withDestination K hdb (sameAnswers_snapshot hnz hc h)]
  rfl

theorem snapshot_stands_in_mixed : ∃ snapshot, exportSnapshot mixedDestination 70 2 true = .ok snapshot ∧
    snapshot.readCxLookup 3 = none ∧
    sumReceipts plainKeys (mixedScan.withDestination 1 snapshot) = sumReceipts plainKeys mixedScan := by
  obtain ⟨snapshot, h⟩ : ∃ snapshot, exportSnapshot mixedDestination 70 2 true = .ok snapshot :=
    exists_exportSnapshot (Or.inr rfl)
  refine ⟨snapshot, h, ?_, snapshot_stands_in plainKeys mixedScan rfl (by decide) (by decide) h⟩
  rw [← Option.not_isSome_iff_eq_none, Option.isSome_iff_exists]
  rintro ⟨entry, hentry⟩
  obtain ⟨hsource, hle, -⟩ := ((exportSnapshot_ok h).1 3 entry).mp hentry
  obtain rfl : (⟨0x90, 90⟩ : LookupEntry) = entry := Option.some.inj hsource
  exact absurd hle (by decide)

end HarmonyMigration.Receipts
