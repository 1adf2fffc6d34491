import HarmonyMigration.Receipts.CountedOnce

/-! `outgoing-cx-scan`: the receipts of the canonical groups of a database, as rows of a table. -/

namespace HarmonyMigration.Receipts

open Erc20 Except

structure OutgoingRow where
  sourceShard : ℕ
  destinationShard : ℕ
  sourceBlock : ℕ
  sourceBlockHash : Hash
  receiptIndex : ℕ
  txHash : Hash
  sender : Address
  recipient : Address
  amountAtto : ℕ
  deriving DecidableEq

def outgoingRow (shard : ℕ) (k : GroupKey) (r : Receipt × ℕ) : OutgoingRow :=
  ⟨shard, k.destination, k.number, k.hash, r.2, r.1.txHash, r.1.sender, r.1.recipient, r.1.amount⟩

def rowsOf (shard : ℕ) (k : GroupKey) (rs : List Receipt) : List OutgoingRow := rs.zipIdx.map (outgoingRow shard k)

/-- The one check of a receipt. -/
def outgoingReceipt (source destination : ℕ) : Option CxReceipt → Except Error Receipt
  | none => .error .invalidReceipt
  | some r =>
    match r.recipient, r.amount with
    | some recipient, some amount =>
      (require (0 ≤ amount ∧ r.shardId = source ∧ r.toShardId = destination) .invalidReceipt).map fun _ =>
        ⟨r.txHash, r.sender, recipient, amount.toNat⟩
    | _, _ => .error .invalidReceipt

structure OutgoingSummary where
  canonicalGroups : ℕ
  noncanonicalGroups : ℕ
  missingCanonicalHashGroups : ℕ
  emptyGroups : ℕ
  rows : List OutgoingRow

def OutgoingSummary.zero : OutgoingSummary := ⟨0, 0, 0, 0, []⟩

def listGroup (db : Database) (shard : ℕ) (g : Group) (s : OutgoingSummary) : Except Error OutgoingSummary :=
  if db.canonicalHash g.1.number = 0 then .ok { s with missingCanonicalHashGroups := s.missingCanonicalHashGroups + 1 }
  else if db.canonicalHash g.1.number ≠ g.1.hash then .ok { s with noncanonicalGroups := s.noncanonicalGroups + 1 }
  else if g.2 = [] then .ok { s with emptyGroups := s.emptyGroups + 1 }
  else
    (g.2.mapM (outgoingReceipt shard g.1.destination)).map fun rs =>
      { s with canonicalGroups := s.canonicalGroups + 1, rows := s.rows ++ rowsOf shard g.1 rs }

def listGroups (db : Database) (shard : ℕ) :
    List Group → OutgoingSummary → CoverageTracker → Except Error (OutgoingSummary × CoverageTracker)
  | [], s, coverage => .ok (s, coverage)
  | g :: rest, s, coverage =>
    (coverage.observe g.1.destination g.1.number).bind fun coverage =>
    (listGroup db shard g s).bind fun s => listGroups db shard rest s coverage

/-- `main`; the table is published where the history is complete, or need not be. -/
def outgoingScan (db : Database) (shard coverageTo coverageFrom : ℕ) (probes : ℤ) (allowIncomplete : Bool) :
    Except Error OutgoingSummary :=
  let history := probe db 0 coverageTo probes
  let partner := if shard ≠ 0 then 0 else 1
  (listGroups db shard db.receiptGroups .zero (newCoverageTracker partner coverageFrom coverageTo)).bind fun r =>
  (require ((history.complete ∧ r.2.finish.complete ∧ coverageFrom ≤ mainnetCrossTxFirstBlock) ∨ allowIncomplete)
    .incompleteHistory).map fun _ => r.1

/-! ### What is listed -/

/-- A canonical group with receipts. -/
def Canonical (db : Database) (g : Group) : Prop :=
  g.2 ≠ [] ∧ db.readCanonicalHash g.1.number = some g.1.hash

instance (db : Database) (g : Group) : Decidable (Canonical db g) := inferInstanceAs (Decidable (_ ∧ _))

def canonicalGroups (db : Database) : List Group := db.receiptGroups.filter (Canonical db)

/-- `rawdb.ReadCanonicalHash` takes the zero hash for none. -/
def Listed (db : Database) (g : Group) : Prop := Canonical db g ∧ g.1.hash ≠ 0

instance (db : Database) (g : Group) : Decidable (Listed db g) := inferInstanceAs (Decidable (_ ∧ _))

/-- The rows of the canonical groups. -/
def outgoingRows (shard : ℕ) (gs : List Group) : List OutgoingRow := gs.flatMap fun g => rowsOf shard g.1 (receiptsOf g)

theorem canonicalHash_iff {db : Database} {n : ℕ} {h : Hash} :
    ¬db.canonicalHash n = 0 ∧ db.canonicalHash n = h ↔ db.readCanonicalHash n = some h ∧ h ≠ 0 := by
  unfold Database.canonicalHash Database.readCanonicalHash
  cases db.canonicalHashes n with
  | none => simp
  | some hash =>
    simp only [Option.getD_some, Option.some.injEq]
    exact ⟨fun h => ⟨h.2, h.2 ▸ h.1⟩, fun h => ⟨h.1 ▸ h.2, h.1⟩⟩

theorem outgoingReceipt_ok {source destination : ℕ} {r : Option CxReceipt} {x : Receipt}
    (h : outgoingReceipt source destination r = .ok x) : receiptOf r = some x := by
  cases r with
  | none => cases h
  | some r =>
    obtain ⟨txHash, sender, recipient, shardId, toShardId, amount⟩ := r
    cases recipient with
    | none => cases h
    | some recipient =>
      cases amount with
      | none => cases h
      | some amount =>
        obtain ⟨u, -, rfl⟩ := of_map_ok h
        rfl

theorem outgoingReceipts_ok {source : ℕ} {g : Group} {rs : List Receipt}
    (h : g.2.mapM (outgoingReceipt source g.1.destination) = .ok rs) : rs = receiptsOf g := by
  have hall := forall₂_of_mapM_ok h
  clear h
  rw [receiptsOf]
  generalize g.2 = raw at hall
  induction hall with
  | nil => rfl
  | cons hx _ ih => rw [List.filterMap_cons_some (outgoingReceipt_ok hx), ← ih]

theorem listGroup_ok {db : Database} {shard : ℕ} {g : Group} {s s' : OutgoingSummary}
    (h : listGroup db shard g s = .ok s') :
    s'.rows = s.rows ++ outgoingRows shard ([g].filter (Listed db)) := by
  have hcanonical : ¬db.canonicalHash g.1.number = 0 ∧ db.canonicalHash g.1.number = g.1.hash ↔
      db.readCanonicalHash g.1.number = some g.1.hash ∧ g.1.hash ≠ 0 := canonicalHash_iff
  unfold listGroup at h
  split_ifs at h with hzero hhash hempty
  · have hnot : ¬Listed db g := fun hc => (hcanonical.mpr ⟨hc.1.2, hc.2⟩).1 hzero
    obtain rfl := Except.ok.inj h
    simp [hnot, outgoingRows]
  · have hnot : ¬Listed db g := fun hc => hhash (hcanonical.mpr ⟨hc.1.2, hc.2⟩).2
    obtain rfl := Except.ok.inj h
    simp [hnot, outgoingRows]
  · have hnot : ¬Listed db g := fun hc => hc.1.1 hempty
    obtain rfl := Except.ok.inj h
    simp [hnot, outgoingRows]
  · obtain ⟨rs, hrs, rfl⟩ := of_map_ok h
    have hc := hcanonical.mp ⟨hzero, not_not.mp hhash⟩
    have hlisted : Listed db g := ⟨⟨hempty, hc.1⟩, hc.2⟩
    rw [outgoingReceipts_ok hrs]
    simp [hlisted, outgoingRows]

theorem listGroups_ok {db : Database} {shard : ℕ} {gs : List Group} {s s' : OutgoingSummary}
    {coverage coverage' : CoverageTracker} (h : listGroups db shard gs s coverage = .ok (s', coverage')) :
    s'.rows = s.rows ++ outgoingRows shard (gs.filter (Listed db)) := by
  induction gs generalizing s coverage with
  | nil =>
    obtain ⟨rfl, -⟩ := Prod.mk.inj (Except.ok.inj h)
    simp [outgoingRows]
  | cons g rest ih =>
    obtain ⟨c1, -, h⟩ := of_bind_ok h
    obtain ⟨s1, hs1, h⟩ := of_bind_ok h
    have hsplit : (g :: rest).filter (Listed db) = [g].filter (Listed db) ++ rest.filter (Listed db) := by
      rw [← List.filter_append, List.singleton_append]
    rw [ih h, listGroup_ok hs1, hsplit, outgoingRows, outgoingRows, outgoingRows, List.flatMap_append, List.append_assoc]

/-- The scan lists the canonical groups, but for one under the zero hash. -/
theorem outgoingScan_ok {db : Database} {shard coverageTo coverageFrom : ℕ} {probes : ℤ} {allowIncomplete : Bool}
    {s : OutgoingSummary} (h : outgoingScan db shard coverageTo coverageFrom probes allowIncomplete = .ok s) :
    s.rows = outgoingRows shard (db.receiptGroups.filter (Listed db)) := by
  obtain ⟨⟨r, coverage⟩, hr, h⟩ := of_bind_ok h
  obtain ⟨u, -, rfl⟩ := of_map_ok h
  exact listGroups_ok hr

end HarmonyMigration.Receipts
