import HarmonyMigration.Lib.Group
import HarmonyMigration.Receipts.OutgoingScan
import HarmonyMigration.Receipts.Supply

/-! `rebuild-receipt-direction.py`: a direction rebuilt from the list of outgoing receipts and the status
of each at its destination. -/

namespace HarmonyMigration.Receipts

open Erc20 Except Claims

inductive RebuildError where
  | noDestinationStatus
  | splitGroup
  | partlyApplied
  | noDestinationBlock
  deriving DecidableEq

/-- A row of the destination status; without a lookup, the last two columns are blank. -/
structure StatusRow where
  transactionHash : Hash
  found : Bool
  destinationBlock : Option ℕ
  canonical : Bool
  deriving DecidableEq

/-! ### The files -/

def OutgoingRow.key (row : OutgoingRow) : GroupKey := ⟨row.destinationShard, row.sourceBlock, row.sourceBlockHash⟩

/-- The groups up to the cutoff, and how many there are after it. -/
def loadGroups (rows : List OutgoingRow) (sourceShard sourceCutoff : ℕ) : Dict GroupKey (List OutgoingRow) × ℕ :=
  let own := rows.filter fun row => row.sourceShard = sourceShard
  let groups := Dict.groupBy OutgoingRow.key (own.filter fun row => row.sourceBlock ≤ sourceCutoff)
  (groups.mapValues fun rows => rows.insertionSort fun a b => a.receiptIndex ≤ b.receiptIndex,
    ((own.filter fun row => sourceCutoff < row.sourceBlock).map OutgoingRow.key).dedup.length)

def loadStatus (rows : List StatusRow) : Dict Hash StatusRow := .ofList (rows.map fun row => (row.transactionHash, row))

/-! ### A group -/

def groupRecord (K : Keys) (k : GroupKey) (rows : List OutgoingRow) : ReceiptGroup :=
  let receipts := rows.map fun row => ⟨row.txHash, row.recipient, K.key row.recipient, row.amountAtto⟩
  { destinationShard := k.destination
    blockNumber := k.number
    blockHash := k.hash
    receiptCount := receipts.length
    amountAtto := (receipts.map ReceiptDetail.amountAtto).sum
    transactionHashes := receipts.map ReceiptDetail.transactionHash
    receipts }

/-- The direction; its other counters are placeholders. -/
structure Rebuilt where
  canonicalReceiptGroups : ℕ
  spent : ClassTotals
  pending : ClassTotals
  unsupported : ClassTotals
  pendingGroups : List ReceiptGroup
  unsupportedGroups : List ReceiptGroup
  emptyReceiptGroups : Option ℕ
  missingCanonicalHashGroups : ℕ
  nonCanonicalReceiptGroups : ℕ

def Rebuilt.zero : Rebuilt := ⟨0, .zero, .zero, .zero, [], [], none, 0, 0⟩

def ClassTotals.addRecord (c : ClassTotals) (record : ReceiptGroup) : ClassTotals :=
  ⟨c.receiptGroups + 1, c.receiptCount + record.receiptCount, c.amountAtto + record.amountAtto⟩

def destinationEntry (status : Dict Hash StatusRow) (receipt : ReceiptDetail) : Except RebuildError StatusRow :=
  match status.get? receipt.transactionHash with
  | none => .error .noDestinationStatus
  | some entry => .ok entry

def entryApplied (destinationCutoff : ℕ) (entry : StatusRow) : Except RebuildError Bool :=
  if entry.found ∧ entry.canonical then
    match entry.destinationBlock with
    | none => .error .noDestinationBlock
    | some block => .ok (block ≤ destinationCutoff)
  else .ok false

def rebuildGroup (K : Keys) (status : Dict Hash StatusRow) (destinationCutoff : ℕ)
    (group : GroupKey × List OutgoingRow) (t : Rebuilt) : Except RebuildError Rebuilt :=
  let record := groupRecord K group.1 group.2
  if ¬group.1.destination ≤ 1 then
    .ok { t with
      unsupported := t.unsupported.addRecord record
      unsupportedGroups := t.unsupportedGroups ++ [record] }
  else
    (record.receipts.mapM (destinationEntry status)).bind fun entries =>
    (require (((entries.filter StatusRow.found).map StatusRow.destinationBlock).dedup.length ≤ 1) .splitGroup).bind
      fun _ =>
    (entries.mapM (entryApplied destinationCutoff)).bind fun applied =>
    if applied.all id then
      .ok { t with
        canonicalReceiptGroups := t.canonicalReceiptGroups + 1
        spent := t.spent.addRecord record }
    else
      (require (¬applied.any id) .partlyApplied).map fun _ =>
        { t with
          canonicalReceiptGroups := t.canonicalReceiptGroups + 1
          pending := t.pending.addRecord record
          pendingGroups := t.pendingGroups ++ [record] }

def rebuildGroups (K : Keys) (status : Dict Hash StatusRow) (destinationCutoff : ℕ) :
    List (GroupKey × List OutgoingRow) → Rebuilt → Except RebuildError Rebuilt
  | [], t => .ok t
  | group :: rest, t =>
    (rebuildGroup K status destinationCutoff group t).bind fun t => rebuildGroups K status destinationCutoff rest t

def rebuild (K : Keys) (groups : Dict GroupKey (List OutgoingRow)) (status : Dict Hash StatusRow)
    (destinationCutoff : ℕ) : Except RebuildError Rebuilt :=
  rebuildGroups K status destinationCutoff
    (groups.entries.insertionSort fun a b => a.1.order ≤ b.1.order) .zero

/-! ### Agreement -/

/-- The receipts of groups, as `receipt_set` sorts them. -/
def receiptSet (groups : List ReceiptGroup) : List (ℕ × Hash × Address × ℕ) :=
  (groups.flatMap fun g => g.receipts.map fun r => (g.blockNumber, r.transactionHash, r.recipient, r.amountAtto)).insertionSort
    fun a b => toLex (a.1, toLex (a.2.1.toNat, toLex (a.2.2.1.toNat, a.2.2.2))) ≤
      toLex (b.1, toLex (b.2.1.toNat, toLex (b.2.2.1.toNat, b.2.2.2)))

/-- A field that differs, or the receipts of a class. -/
inductive Difference where
  | canonicalReceiptGroups
  | receiptGroups (kind : Kind)
  | receiptCount (kind : Kind)
  | amountAtto (kind : Kind)
  | receipts (kind : Kind)
  deriving DecidableEq

def classAgreement (kind : Kind) (c c' : ClassTotals) : List Difference :=
  (if c.receiptGroups ≠ c'.receiptGroups then [.receiptGroups kind] else []) ++
  (if c.receiptCount ≠ c'.receiptCount then [.receiptCount kind] else []) ++
  if c.amountAtto ≠ c'.amountAtto then [.amountAtto kind] else []

def agreement (d : Rebuilt) (independent : DirectionTotals) : List Difference :=
  (if d.canonicalReceiptGroups ≠ independent.canonicalReceiptGroups then [.canonicalReceiptGroups] else []) ++
  classAgreement .spent d.spent independent.spent ++ classAgreement .pending d.pending independent.pending ++
  classAgreement .unsupported d.unsupported independent.unsupported ++
  (if receiptSet d.pendingGroups ≠ receiptSet independent.pendingGroups then [.receipts .pending] else []) ++
  if receiptSet d.unsupportedGroups ≠ receiptSet independent.unsupportedGroups then [.receipts .unsupported] else []

/-! ### The rows of a group -/

variable {K : Keys} {shard : ℕ}

theorem groupRecord_rowsOf (K : Keys) (shard : ℕ) (k : GroupKey) (rs : List Receipt) :
    groupRecord K k (rowsOf shard k rs) = makeReceiptGroup K k rs := by
  have hmap : ∀ {β : Type} (f : Receipt → β), (rs.zipIdx.map fun x => f x.1) = rs.map f := fun f => by
    rw [← List.zipIdx_map_fst 0 rs, List.map_map, List.zipIdx_map_fst]
    rfl
  have hdetail := hmap (receiptDetail K)
  simp only [receiptDetail] at hdetail
  simp only [groupRecord, rowsOf, makeReceiptGroup, totalAmount, List.map_map, List.length_map, Function.comp_def,
    outgoingRow, hdetail]
  rfl

theorem receiptIndex_rowsOf (shard : ℕ) (k : GroupKey) (rs : List Receipt) :
    (rowsOf shard k rs).map OutgoingRow.receiptIndex = List.range' 0 rs.length := by
  rw [← List.zipIdx_map_snd 0 rs, rowsOf, List.map_map]
  rfl

/-- Sorted by index, the rows of a group are in its order. -/
theorem sort_rowsOf {k : GroupKey} {rs : List Receipt} {rows : List OutgoingRow} (h : rows.Perm (rowsOf shard k rs)) :
    rows.insertionSort (fun a b => a.receiptIndex ≤ b.receiptIndex) = rowsOf shard k rs := by
  have hindex := receiptIndex_rowsOf shard k rs
  have hinj : ∀ a ∈ rows, ∀ b ∈ rows, a.receiptIndex = b.receiptIndex → a = b := fun a ha b hb heq =>
    List.inj_on_of_nodup_map (hindex ▸ List.nodup_range') (h.mem_iff.mp ha) (h.mem_iff.mp hb) heq
  rw [SortedBy.insertionSort_eq_of_perm (g := OutgoingRow.receiptIndex) h hinj]
  refine List.Pairwise.insertionSort_eq (List.pairwise_map.mp ?_)
  rw [hindex]
  exact List.pairwise_le_range'

end HarmonyMigration.Receipts
