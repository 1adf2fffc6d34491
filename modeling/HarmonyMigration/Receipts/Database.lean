import HarmonyMigration.Claims.Basic

/-! A Harmony database, as far as the scans of cross-shard receipts read it. -/

namespace HarmonyMigration.Receipts

open Erc20 Except

abbrev Hash := BitVec 256

/-- `cxReceipt`, as decoded; a pointer may be nil. -/
structure CxReceipt where
  txHash : Hash
  sender : Address
  recipient : Option Address
  shardId : ℕ
  toShardId : ℕ
  amount : Option ℤ
  deriving DecidableEq

/-- What a receipt key is made of. -/
structure GroupKey where
  destination : ℕ
  number : ℕ
  hash : Hash
  deriving DecidableEq

/-- The order of the keys in the database. -/
def GroupKey.order (k : GroupKey) : ℕ ×ₗ ℕ ×ₗ ℕ := toLex (k.destination, toLex (k.number, k.hash.toNat))

theorem GroupKey.order_injective : Function.Injective GroupKey.order := by
  rintro ⟨d, n, h⟩ ⟨d', n', h'⟩ heq
  simp only [GroupKey.order, EmbeddingLike.apply_eq_iff_eq, Prod.mk.injEq] at heq
  obtain ⟨rfl, rfl, hhash⟩ := heq
  rw [BitVec.eq_of_toNat_eq hhash]

/-- A key and its receipts; the empty group is the value `0xc0`. -/
abbrev Group := GroupKey × List (Option CxReceipt)

/-- `txLookupEntry`, without its index. -/
structure LookupEntry where
  blockHash : Hash
  blockIndex : ℕ
  deriving DecidableEq

/-- `historyguard.Report`. -/
structure Report where
  snapDbMarker : Bool
  start : ℕ
  stop : ℕ
  probes : ℕ
  missingProbes : ℕ
  missingBlocks : List ℕ
  complete : Bool
  deriving DecidableEq

/-- What a lookup snapshot records about itself. -/
structure LookupSnapshotInfo where
  cutoff : ℕ
  sourceHistory : Report
  incompleteAllowed : Bool
  deriving DecidableEq

/-- The receipt groups in the order of the iterator, the lookups of applied receipts, the canonical
hashes, and the keys that a probe of the history looks for. -/
structure Database where
  receiptGroups : List Group
  sorted : receiptGroups.Pairwise fun a b => a.1.order < b.1.order
  number_lt : ∀ g ∈ receiptGroups, g.1.number < 2 ^ 64
  cxLookups : Dict Hash LookupEntry
  canonicalHashes : ℕ → Option Hash
  hasHeader : ℕ → Hash → Bool
  hasBody : ℕ → Hash → Bool
  snapDbMarker : Bool
  lookupSnapshot : Option LookupSnapshotInfo

/-- No groups at all are in order. -/
theorem sorted_nil : ([] : List Group).Pairwise fun a b => a.1.order < b.1.order := .nil

theorem number_lt_nil : ∀ g ∈ ([] : List Group), g.1.number < 2 ^ 64 := by simp

/-- `readCanonicalHash`. -/
def Database.readCanonicalHash (db : Database) (number : ℕ) : Option Hash := db.canonicalHashes number

/-- `rawdb.ReadCanonicalHash`: the zero hash where there is none. -/
def Database.canonicalHash (db : Database) (number : ℕ) : Hash := (db.canonicalHashes number).getD 0

/-- `readCXLookup`. -/
def Database.readCxLookup (db : Database) (tx : Hash) : Option LookupEntry := db.cxLookups.get? tx

inductive Error where
  | keyOrder
  | invalidReceipt
  | identityMismatch
  | negativeAmount
  | splitGroup
  | conflictingHashes
  | incompleteHistory
  deriving DecidableEq

/-! ### Receipts -/

/-- A receipt that passed the checks. -/
structure Receipt where
  txHash : Hash
  sender : Address
  recipient : Address
  amount : ℕ
  deriving DecidableEq

def checkReceipt (source destination : ℕ) : Option CxReceipt → Except Error Receipt
  | none => .error .invalidReceipt
  | some r =>
    match r.recipient, r.amount with
    | some recipient, some amount =>
      (require (r.shardId = source ∧ r.toShardId = destination) .identityMismatch).bind fun _ =>
      (require (0 ≤ amount) .negativeAmount).map fun _ => ⟨r.txHash, r.sender, recipient, amount.toNat⟩
    | _, _ => .error .invalidReceipt

def checkReceipts (source destination : ℕ) (receipts : List (Option CxReceipt)) : Except Error (List Receipt) :=
  receipts.mapM (checkReceipt source destination)

/-- A receipt without its checks. -/
def receiptOf : Option CxReceipt → Option Receipt
  | none => none
  | some r => r.recipient.bind fun recipient => r.amount.map fun amount => ⟨r.txHash, r.sender, recipient, amount.toNat⟩

/-- The receipts of a group. -/
def receiptsOf (g : Group) : List Receipt := g.2.filterMap receiptOf

theorem checkReceipt_ok {source destination : ℕ} {r : Option CxReceipt} {x : Receipt}
    (h : checkReceipt source destination r = .ok x) : receiptOf r = some x := by
  cases r with
  | none => cases h
  | some r =>
    obtain ⟨txHash, sender, recipient, shardId, toShardId, amount⟩ := r
    cases recipient with
    | none => cases h
    | some recipient =>
      cases amount with
      | none => cases h
      | some amount =>
        rw [checkReceipt, require_bind_ok] at h
        obtain ⟨u, -, rfl⟩ := of_map_ok h.2
        rfl

/-- Checked receipts are the receipts of the group, one for one. -/
theorem checkReceipts_ok {source destination : ℕ} {g : Group} {rs : List Receipt}
    (h : checkReceipts source destination g.2 = .ok rs) : rs = receiptsOf g ∧ rs.length = g.2.length := by
  have hall := forall₂_of_mapM_ok h
  refine ⟨?_, hall.length_eq.symm⟩
  clear h
  rw [receiptsOf]
  generalize g.2 = raw at hall
  induction hall with
  | nil => rfl
  | cons hx _ ih => rw [List.filterMap_cons_some (checkReceipt_ok hx), ← ih]

/-- An address as its own key. -/
def plainKeys : Claims.Keys := ⟨BitVec.toNat, Erc20.address_toNat_injective⟩

/-- The amount of a group. -/
def totalAmount (rs : List Receipt) : ℕ := (rs.map Receipt.amount).sum

end HarmonyMigration.Receipts
