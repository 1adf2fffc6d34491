import HarmonyMigration.Receipts.HistoryGuard

/-! `cross-shard-supply`: the outgoing receipt groups of a shard, spent, pending or unsupported. -/

namespace HarmonyMigration.Receipts

open Erc20 Except Claims

/-- The arguments of `sumReceipts`. -/
structure Scan where
  sourceShard : ℕ
  source : Database
  destinations : ℕ → Option Database
  sourceCutoff : ℕ
  sourceCutoff_lt : sourceCutoff < 2 ^ 64
  destinationCutoffs : ℕ → Option ℕ
  coverageFrom : ℕ

/-- `receiptDetail`. -/
structure ReceiptDetail where
  transactionHash : Hash
  recipient : Address
  secureKey : ℕ
  amountAtto : ℕ
  deriving DecidableEq

/-- `receiptGroup`. -/
structure ReceiptGroup where
  destinationShard : ℕ
  blockNumber : ℕ
  blockHash : Hash
  receiptCount : ℕ
  amountAtto : ℕ
  transactionHashes : List Hash
  receipts : List ReceiptDetail
  deriving DecidableEq

def receiptDetail (K : Keys) (r : Receipt) : ReceiptDetail := ⟨r.txHash, r.recipient, K.key r.recipient, r.amount⟩

def makeReceiptGroup (K : Keys) (k : GroupKey) (rs : List Receipt) : ReceiptGroup :=
  ⟨k.destination, k.number, k.hash, rs.length, totalAmount rs, rs.map Receipt.txHash, rs.map (receiptDetail K)⟩

/-- The groups, receipts and amount of a class. -/
structure ClassTotals where
  receiptGroups : ℕ
  receiptCount : ℕ
  amountAtto : ℕ
  deriving DecidableEq

def ClassTotals.zero : ClassTotals := ⟨0, 0, 0⟩

def ClassTotals.add (c : ClassTotals) (rs : List Receipt) : ClassTotals :=
  ⟨c.receiptGroups + 1, c.receiptCount + rs.length, c.amountAtto + totalAmount rs⟩

/-- `directionTotals`, less the coverage. -/
structure Totals where
  emptyReceiptGroups : ℕ
  canonicalReceiptGroups : ℕ
  nonCanonicalReceiptGroups : ℕ
  missingCanonicalHashGroups : ℕ
  afterCutoffGroups : ℕ
  spent : ClassTotals
  pending : ClassTotals
  unsupported : ClassTotals
  pendingGroups : List ReceiptGroup
  unsupportedGroups : List ReceiptGroup
  deriving DecidableEq

def Totals.zero : Totals := ⟨0, 0, 0, 0, 0, .zero, .zero, .zero, [], []⟩

structure DirectionTotals extends Totals where
  sourceShard : ℕ
  sourceCoverage : Coverage
  deriving DecidableEq

/-! ### A group -/

/-- The loop over the receipts of a group; `destinationBlock` is zero before the first. -/
def allSpent (db : Database) (cutoff : Option ℕ) : List Receipt → ℕ → Except Error Bool
  | [], _ => .ok true
  | receipt :: rest, destinationBlock =>
    match db.readCxLookup receipt.txHash with
    | none => .ok false
    | some entry =>
      if ∀ c ∈ cutoff, c < entry.blockIndex then .ok false
      else
        match db.readCanonicalHash entry.blockIndex with
        | none => .ok false
        | some canonicalHash =>
          if canonicalHash ≠ entry.blockHash then .ok false
          else if destinationBlock ≠ 0 ∧ destinationBlock ≠ entry.blockIndex then .error .splitGroup
          else allSpent db cutoff rest entry.blockIndex

/-- A canonical group with receipts, at or below the cutoff. -/
def addCanonical (K : Keys) (p : Scan) (k : GroupKey) (rs : List Receipt) (t : Totals) : Except Error Totals :=
  match p.destinations k.destination with
  | none =>
    .ok { t with
      unsupported := t.unsupported.add rs
      unsupportedGroups := t.unsupportedGroups ++ [makeReceiptGroup K k rs] }
  | some db =>
    (allSpent db (p.destinationCutoffs k.destination) rs 0).map fun spent =>
      if spent then { t with canonicalReceiptGroups := t.canonicalReceiptGroups + 1, spent := t.spent.add rs }
      else
        { t with
          canonicalReceiptGroups := t.canonicalReceiptGroups + 1
          pending := t.pending.add rs
          pendingGroups := t.pendingGroups ++ [makeReceiptGroup K k rs] }

/-- The body of the scan, after the coverage. -/
def addGroup (K : Keys) (p : Scan) (g : Group) (t : Totals) : Except Error Totals :=
  if g.2 = [] then .ok { t with emptyReceiptGroups := t.emptyReceiptGroups + 1 }
  else if p.sourceCutoff < g.1.number then .ok { t with afterCutoffGroups := t.afterCutoffGroups + 1 }
  else
    match p.source.readCanonicalHash g.1.number with
    | none => .ok { t with missingCanonicalHashGroups := t.missingCanonicalHashGroups + 1 }
    | some canonicalHash =>
      if canonicalHash ≠ g.1.hash then .ok { t with nonCanonicalReceiptGroups := t.nonCanonicalReceiptGroups + 1 }
      else (checkReceipts p.sourceShard g.1.destination g.2).bind fun rs => addCanonical K p g.1 rs t

/-! ### The scan -/

def scanGroups (K : Keys) (p : Scan) : List Group → Totals → CoverageTracker → Except Error (Totals × CoverageTracker)
  | [], t, coverage => .ok (t, coverage)
  | g :: rest, t, coverage =>
    (coverage.observe g.1.destination g.1.number).bind fun coverage =>
    (addGroup K p g t).bind fun t => scanGroups K p rest t coverage

/-- `1 - sourceShard`, of 32 bits. -/
def partner (sourceShard : ℕ) : ℕ := (2 ^ 32 + 1 - sourceShard) % 2 ^ 32

def sumReceipts (K : Keys) (p : Scan) : Except Error DirectionTotals :=
  (scanGroups K p p.source.receiptGroups .zero
    (newCoverageTracker (partner p.sourceShard) p.coverageFrom p.sourceCutoff)).map fun r =>
      { r.1 with sourceShard := p.sourceShard, sourceCoverage := r.2.finish }

/-! ### What becomes of a group -/

/-- A receipt whose lookup is in a canonical block, at or below the cutoff. -/
def applied (db : Database) (cutoff : Option ℕ) (r : Receipt) : Bool :=
  match db.readCxLookup r.txHash, cutoff with
  | some entry, some c => entry.blockIndex ≤ c && db.readCanonicalHash entry.blockIndex == some entry.blockHash
  | _, _ => false

inductive Kind where
  | empty
  | afterCutoff
  | missingCanonicalHash
  | nonCanonical
  | unsupported
  | spent
  | pending
  deriving DecidableEq

def kind (p : Scan) (g : Group) : Kind :=
  if g.2 = [] then .empty
  else if p.sourceCutoff < g.1.number then .afterCutoff
  else if p.source.readCanonicalHash g.1.number = none then .missingCanonicalHash
  else if p.source.readCanonicalHash g.1.number ≠ some g.1.hash then .nonCanonical
  else
    match p.destinations g.1.destination with
    | none => .unsupported
    | some db =>
      if (receiptsOf g).all (applied db (p.destinationCutoffs g.1.destination)) then .spent else .pending

/-- The group's receipts count. -/
def Counted (p : Scan) (g : Group) : Prop :=
  g.2 ≠ [] ∧ g.1.number ≤ p.sourceCutoff ∧ p.source.readCanonicalHash g.1.number = some g.1.hash

instance (p : Scan) (g : Group) : Decidable (Counted p g) := inferInstanceAs (Decidable (_ ∧ _ ∧ _))

theorem kind_of_counted {p : Scan} {g : Group} (h : Counted p g) : kind p g =
    match p.destinations g.1.destination with
    | none => .unsupported
    | some db =>
      if (receiptsOf g).all (applied db (p.destinationCutoffs g.1.destination)) then .spent else .pending := by
  obtain ⟨hne, hle, hcanonical⟩ := h
  rw [kind, if_neg hne, if_neg hle.not_gt, hcanonical, if_neg (by simp), if_neg (by simp)]

theorem counted_iff_kind {p : Scan} {g : Group} :
    Counted p g ↔ kind p g = .unsupported ∨ kind p g = .spent ∨ kind p g = .pending := by
  refine ⟨fun h => ?_, fun h => ?_⟩
  · rw [kind_of_counted h]
    cases p.destinations g.1.destination with
    | none => exact Or.inl rfl
    | some db =>
      dsimp only
      split_ifs
      · exact Or.inr (Or.inl rfl)
      · exact Or.inr (Or.inr rfl)
  · unfold kind at h
    split_ifs at h with hne hle hnone hcanonical
    · simp at h
    · simp at h
    · simp at h
    · simp at h
    · exact ⟨hne, not_lt.mp hle, by simpa using hcanonical⟩

theorem kind_unsupported {p : Scan} {g : Group} (h : Counted p g) :
    kind p g = .unsupported ↔ p.destinations g.1.destination = none := by
  rw [kind_of_counted h]
  cases p.destinations g.1.destination with
  | none => simp
  | some db =>
    dsimp only
    split_ifs <;> simp

theorem kind_spent {p : Scan} {g : Group} (h : Counted p g) :
    kind p g = .spent ↔ ∃ db, p.destinations g.1.destination = some db ∧
      ∀ r ∈ receiptsOf g, applied db (p.destinationCutoffs g.1.destination) r = true := by
  rw [kind_of_counted h]
  cases p.destinations g.1.destination with
  | none => simp
  | some db =>
    simp only [Option.some.injEq, exists_eq_left']
    split_ifs with hall
    · simpa using hall
    · simpa using hall

end HarmonyMigration.Receipts
