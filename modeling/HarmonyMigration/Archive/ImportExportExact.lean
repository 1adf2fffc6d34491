import HarmonyMigration.Archive.ImportExport
import HarmonyMigration.Archive.Links

/-! An accepted export is consistent exactly where no transaction is exported twice and no two pins differ. The receipts
are only counted: a transaction that is exported twice makes up for a receipt of none. -/

namespace HarmonyMigration.Archive.ImportExport

open Airdrop.One1 ContractReview Decimal Except Slices

/-- The blocks of an export, in the order in which they are read. -/
def exportBlocks (e : Export) : List Block := (sortedResponses e).flatMap fun r => r.2.getD []

def exported (exports : List Export) : List Block := exports.flatMap exportBlocks

/-- The transactions of the blocks with the hashes of their blocks. -/
def transactionPairs (u : Lower) (blocks : List Block) : List (Text × Text) :=
  blocks.flatMap fun b => (txHashes b).map fun hash => (hash, u.lower b.hash)

/-- The receipts with the hashes of their blocks. -/
def receiptPairs (u : Lower) (exports : List Export) : List (Text × Text) :=
  exports.flatMap fun e => e.receipts.map fun r => (r.transactionHash, u.lower r.blockHash)

/-- What an accepted export promises. -/
structure Consistent (u : Lower) (a : Args) (exports : List Export) (s : Setup) : Prop where
  linked : Linked u s.fork.number s.fork.hash (exported exports)
  last : ∀ e ∈ exports.getLast?, s.fork.number + (exported exports).length = e.manifest.blockRange.stop
  pinned : ∀ pin ∈ s.expect, pin = s.fork ∨ ∃ b ∈ exported exports, pin = ⟨b.number, u.lower b.hash⟩
  /-- One receipt for each transaction, from its block, and no other. -/
  matched : (transactionPairs u (exported exports)).Perm (receiptPairs u exports) ∧
    ((receiptPairs u exports).map Prod.fst).Nodup
  reproduced : ∀ b ∈ exported exports, s.start ≤ b.number → b.number ≤ s.stop → ∀ tx ∈ b.transactions,
    a.minValueAtto ≤ tx.value → signedValueMatches u tx tx.value = .ok true

section Walk

variable {u : Lower} {sha256 : Bytes → Text} {s : Setup}

/-! ### One block -/

/-- What the loop checks of a block by itself. -/
structure Checked (u : Lower) (s : Setup) (b : Block) : Prop where
  pin : ∀ hash, s.pins.get? b.number = some hash → hash = u.lower b.hash
  receipt : ∀ hash ∈ txHashes b, ∃ entry, s.receipts.get? hash = some entry ∧ entry.blockHash = u.lower b.hash
  reproduced : s.start ≤ b.number → b.number ≤ s.stop → ∀ tx ∈ b.transactions, s.imported.minValue ≤ tx.value →
    signedValueMatches u tx tx.value = .ok true

/-- The loop after the blocks `blocks`. -/
structure Walked (u : Lower) (s : Setup) (blocks : List Block) (w : Walk) : Prop where
  linked : Linked u s.fork.number s.fork.hash blocks
  checked : ∀ b ∈ blocks, Checked u s b
  hashes : w.hashes.entries =
    (s.fork.number, s.fork.hash) :: blocks.map fun b => ((b.number : ℤ), u.lower b.hash)
  previous : w.previousHash = tip u s.fork.hash blocks
  expected : w.expectedNumber = s.fork.number + blocks.length + 1

theorem walked_begin : Walked u s [] s.begin where
  linked := trivial
  checked := fun _ h => absurd h List.not_mem_nil
  hashes := Dict.entries_ofList (List.nodup_singleton _)
  previous := rfl
  expected := by simp [Setup.begin]

theorem reproduced_of_txRow {c : Collector} {block : Block} {blockHash : Text} {tx : PlainTx} {row : TxKind × Option TxRow}
    (h : c.txRow u block blockHash tx = .ok row) (hc : c.requireSignedValues = true) (hmin : c.minValue ≤ tx.value) :
    signedValueMatches u tx tx.value = .ok true := by
  obtain ⟨toHex, -, h⟩ := of_bind_ok h
  simp only [if_neg (Nat.not_lt.mpr hmin)] at h
  obtain ⟨entry, -, h⟩ := of_bind_ok h
  obtain ⟨reproduced, hmatches, h⟩ := of_bind_ok h
  obtain ⟨hor, -⟩ := require_bind_ok.mp h
  have htrue : reproduced = true := hor.resolve_right (by simp [hc])
  exact htrue ▸ mapError_ok hmatches

theorem reproduced_of_add {c : Collector} {block : Block} {blockHash : Text} {w w' : Collected}
    (h : c.add u block blockHash w = .ok w') (hc : c.requireSignedValues = true) {tx : PlainTx}
    (htx : tx ∈ block.transactions) (hmin : c.minValue ≤ tx.value) : signedValueMatches u tx tx.value = .ok true := by
  obtain ⟨txs, htxs, -⟩ := of_bind_ok h
  obtain ⟨row, -, hrow⟩ := ok_of_mem_left (forall₂_of_mapM_ok htxs) htx
  exact reproduced_of_txRow hrow hc hmin

theorem receipt_of_checkReceipts {block : Block} {blockHash : Text} {l : List Unit}
    (h : checkReceipts s block blockHash = .ok l) {hash : Text} (hmem : hash ∈ txHashes block) :
    ∃ entry, s.receipts.get? hash = some entry ∧ entry.blockHash = blockHash := by
  obtain ⟨x, -, hx⟩ := ok_of_mem_left (forall₂_of_mapM_ok h) hmem
  have hany := of_require_ok hx
  cases hget : s.receipts.get? hash with
  | none => simp [hget] at hany
  | some entry => exact ⟨entry, rfl, by simpa [hget] using hany⟩

/-- What reading a block checks and changes. -/
theorem addBlock_ok {range : BlockRange} {w w' : Walk} {b : Block} (h : addBlock u s range w b = .ok w')
    (hsigned : s.imported.requireSignedValues = true) :
    ((b.number : ℤ) = w.expectedNumber ∧ u.lower b.parentHash = w.previousHash) ∧ Checked u s b ∧
      w'.hashes = w.hashes.insert b.number (u.lower b.hash) ∧ w'.previousHash = u.lower b.hash ∧
      w'.expectedNumber = b.number + 1 ∧ w'.regular = w.regular + b.transactions.length ∧
      w'.staking = w.staking + b.stakingTransactions.length := by
  obtain ⟨hfollows, h⟩ := require_bind_ok.mp h
  obtain ⟨hpin, h⟩ := require_bind_ok.mp h
  obtain ⟨-, h⟩ := require_bind_ok.mp h
  obtain ⟨l, hreceipts, h⟩ := of_bind_ok h
  obtain ⟨imported, himported, h⟩ := of_bind_ok h
  obtain ⟨overlap, -, rfl⟩ := of_map_ok h
  refine ⟨hfollows, ⟨?_, ?_, ?_⟩, rfl, rfl, rfl, rfl, rfl⟩
  · intro hash hget
    simpa [hget] using hpin
  · intro hash hmem
    exact receipt_of_checkReceipts hreceipts hmem
  · intro hstart hstop tx htx hmin
    rw [if_pos ⟨hstart, hstop⟩] at himported
    exact reproduced_of_add himported hsigned htx hmin

theorem Walked.step {range : BlockRange} {blocks : List Block} {w w' : Walk} {b : Block} (hw : Walked u s blocks w)
    (h : addBlock u s range w b = .ok w') (hsigned : s.imported.requireSignedValues = true) :
    Walked u s (blocks ++ [b]) w' := by
  obtain ⟨⟨hnumber, hparent⟩, hchecked, hhashes, hprevious, hexpected, -, -⟩ := addBlock_ok h hsigned
  rw [hw.expected] at hnumber
  rw [hw.previous] at hparent
  have hfresh : (b.number : ℤ) ∉ w.hashes.keys := by
    rw [Dict.keys, hw.hashes, List.map_cons, List.map_map, List.mem_cons]
    rintro (heq | hmem)
    · simp only at heq
      omega
    · obtain ⟨c, hc, heq⟩ := List.mem_map.mp hmem
      have hbound := hw.linked.numbers.1 c hc
      simp only [Function.comp_apply] at heq
      omega
  constructor
  · exact linked_snoc.mpr ⟨hw.linked, hnumber, hparent⟩
  · intro c hc
    rcases List.mem_append.mp hc with hc | hc
    · exact hw.checked c hc
    · exact List.mem_singleton.mp hc ▸ hchecked
  · rw [hhashes, Dict.entries_insert_of_notMem hfresh, hw.hashes, List.map_append, List.cons_append]
    rfl
  · rw [hprevious, tip_snoc]
  · rw [hexpected, hnumber, List.length_append, List.length_singleton]
    push_cast
    ring

/-! ### One export -/

/-- The loop within an export: the blocks read before it, and its own, which are counted. -/
structure InExport (u : Lower) (s : Setup) (before blocks : List Block) (w : Walk) : Prop where
  walked : Walked u s (before ++ blocks) w
  regular : w.regular = (blocks.map fun b => b.transactions.length).sum
  staking : w.staking = (blocks.map fun b => b.stakingTransactions.length).sum

theorem InExport.step {range : BlockRange} {before blocks : List Block} {w w' : Walk} {b : Block}
    (hw : InExport u s before blocks w) (h : addBlock u s range w b = .ok w')
    (hsigned : s.imported.requireSignedValues = true) : InExport u s before (blocks ++ [b]) w' := by
  obtain ⟨-, -, -, -, -, hregular, hstaking⟩ := addBlock_ok h hsigned
  constructor
  · rw [← List.append_assoc]
    exact hw.walked.step h hsigned
  · simp [hregular, hw.regular]
  · simp [hstaking, hw.staking]

theorem InExport.addResponse {range : BlockRange} {before blocks : List Block} {w w' : Walk} {r : ℕ × Option (List Block)}
    (hw : InExport u s before blocks w) (h : addResponse u s range w r = .ok w')
    (hsigned : s.imported.requireSignedValues = true) : InExport u s before (blocks ++ r.2.getD []) w' := by
  obtain ⟨list, hlist, h⟩ := ofOption_bind_ok.mp h
  rw [hlist]
  refine foldlM_invariant (I := fun done w => InExport u s before (blocks ++ done) w) ?_ (by simpa using hw) h
  intro done b w w' hdone hstep
  rw [← List.append_assoc]
  exact hdone.step hstep hsigned

theorem length_txHashes_sum (blocks : List Block) : (blocks.map fun b => b.transactions.length).sum +
    (blocks.map fun b => b.stakingTransactions.length).sum = (blocks.flatMap txHashes).length := by
  induction blocks with
  | nil => rfl
  | cons b rest ih =>
    simp only [List.map_cons, List.sum_cons, List.flatMap_cons, List.length_append, txHashes, List.length_map, ← ih]
    omega

theorem addExport_ok {before : List Block} {w w' : Walk} {e : Export} (hw : Walked u s before w)
    (h : addExport u s w e = .ok w') (hsigned : s.imported.requireSignedValues = true) :
    Walked u s (before ++ exportBlocks e) w' ∧ w'.expectedNumber - 1 = e.manifest.blockRange.stop ∧
      e.manifest.counts.receipts = ((exportBlocks e).flatMap txHashes).length := by
  obtain ⟨w₁, hfold, h⟩ := of_bind_ok h
  obtain ⟨_, hcounts, rfl⟩ := of_map_ok h
  obtain ⟨hstop, -, hregular, hstaking, hreceipts⟩ := of_require_ok hcounts
  have hbegin : InExport u s before [] { w with regular := 0, staking := 0 } :=
    ⟨by simpa using ⟨hw.linked, hw.checked, hw.hashes, hw.previous, hw.expected⟩, rfl, rfl⟩
  have hread : InExport u s before (exportBlocks e) w₁ := by
    refine foldlM_invariant (I := fun done w => InExport u s before (done.flatMap fun r => r.2.getD []) w) ?_
      (by simpa using hbegin) hfold
    intro done r w w' hdone hstep
    simpa using hdone.addResponse hstep hsigned
  exact ⟨hread.walked, hstop, by rw [← hreceipts, hread.regular, hread.staking, length_txHashes_sum]⟩

/-! ### All exports -/

/-- The loop after the exports `exports`. -/
structure Read (u : Lower) (s : Setup) (exports : List Export) (w : Walk) : Prop where
  walked : Walked u s (exported exports) w
  stop : ∀ e ∈ exports.getLast?, w.expectedNumber - 1 = e.manifest.blockRange.stop
  counted : (exports.map fun e => e.manifest.counts.receipts).sum = ((exported exports).flatMap txHashes).length

theorem read_of_foldlM {exports : List Export} {w : Walk} (h : exports.foldlM (addExport u s) s.begin = .ok w)
    (hsigned : s.imported.requireSignedValues = true) : Read u s exports w := by
  have hbegin : Read u s [] s.begin := ⟨walked_begin, by simp, rfl⟩
  refine foldlM_invariant (I := fun done w => Read u s done w) ?_ hbegin h
  intro done e w w' hdone hstep
  obtain ⟨hwalked, hstop, hcount⟩ := addExport_ok hdone.walked hstep hsigned
  have hexported : exported (done ++ [e]) = exported done ++ exportBlocks e := by simp [exported]
  constructor
  · rw [hexported]
    exact hwalked
  · intro e' he'
    rw [List.getLast?_concat] at he'
    exact Option.some.inj he' ▸ hstop
  · rw [hexported, List.map_append, List.sum_append, hdone.counted, List.flatMap_append, List.length_append, ← hcount]
    simp

/-! ### Receipts -/

theorem loadReceipts_reader : Dict.Reader Receipt.transactionHash (readReceipt u) (loadReceipts u) where
  nil := fun _ => rfl
  cons := fun row rest d d' => by
    rw [loadReceipts, require_bind_ok]
    refine and_congr_right fun _ => ⟨of_bind_ok, ?_⟩
    rintro ⟨v, hv, hrest⟩
    rw [hv]
    exact hrest

/-- The indexed receipts: by transaction hash, with the hash of the block. -/
def indexPairs (index : Dict Text ReceiptEntry) : List (Text × Text) := index.entries.map fun e => (e.1, e.2.blockHash)

theorem indexPairs_loadReceipts {rows : List Receipt} {index index' : Dict Text ReceiptEntry}
    (h : loadReceipts u rows index = .ok index') :
    indexPairs index' = indexPairs index ++ rows.map fun r => (r.transactionHash, u.lower r.blockHash) := by
  obtain ⟨-, -, es, hes, hentries⟩ := loadReceipts_reader.ok_iff.mp h
  rw [indexPairs, hentries, List.map_append]
  refine congrArg (indexPairs index ++ ·) (map_eq_of_forall₂ hes fun r e he => ?_).symm
  obtain ⟨reward, -, hread⟩ := of_map_ok he.2
  rw [he.1, ← hread]

theorem indexPairs_foldlM {exports : List Export} {index : Dict Text ReceiptEntry}
    (h : exports.foldlM (fun index e => loadReceipts u e.receipts index) .empty = .ok index) :
    indexPairs index = receiptPairs u exports := by
  refine foldlM_invariant (I := fun done index => indexPairs index = receiptPairs u done) ?_ rfl h
  intro done e index index' hdone hstep
  rw [indexPairs_loadReceipts hstep, hdone]
  simp [receiptPairs]

theorem keys_eq_indexPairs (index : Dict Text ReceiptEntry) : (indexPairs index).map Prod.fst = index.keys := by
  rw [indexPairs, List.map_map]
  rfl

theorem mem_indexPairs {index : Dict Text ReceiptEntry} {hash : Text} {entry : ReceiptEntry}
    (h : index.get? hash = some entry) : (hash, entry.blockHash) ∈ indexPairs index :=
  List.mem_map.mpr ⟨(hash, entry), Dict.get?_eq_some_iff.mp h, rfl⟩

/-! ### The import -/

/-- What a run that reached its output has established. -/
structure Accepted (u : Lower) (a : Args) (exports : List Export) (out : Imported) : Prop where
  read : Read u out.setup exports out.walk
  minimum : out.setup.imported.minValue = a.minValueAtto
  receipts : indexPairs out.setup.receipts = receiptPairs u exports
  total : out.setup.receipts.keys.length = ((exported exports).flatMap txHashes).length
  pins : ∀ n ∈ out.setup.pins.keys, n ∈ out.walk.hashes.keys

theorem prepare_ok {a : Args} {exports : List Export} (h : prepare u sha256 a exports = .ok s) :
    indexPairs s.receipts = receiptPairs u exports ∧ s.imported = ⟨a.shard, a.minValueAtto, s.receipts, true⟩ := by
  obtain ⟨fork, -, h⟩ := of_bind_ok h
  obtain ⟨expect, -, h⟩ := of_bind_ok h
  obtain ⟨manifests, -, h⟩ := of_bind_ok h
  obtain ⟨receipts, hreceipts, h⟩ := of_bind_ok h
  obtain ⟨first, -, h⟩ := of_bind_ok h
  obtain ⟨last, -, h⟩ := of_bind_ok h
  obtain ⟨-, h⟩ := require_bind_ok.mp h
  obtain ⟨_, -, rfl⟩ := of_map_ok h
  exact ⟨indexPairs_foldlM hreceipts, rfl⟩

theorem accepted_of_main {a : Args} {exports : List Export} {out : Imported} (h : main u sha256 a exports = .ok out) :
    Accepted u a exports out := by
  obtain ⟨s, hs, h⟩ := of_bind_ok h
  obtain ⟨w, hw, h⟩ := of_bind_ok h
  obtain ⟨htotal, h⟩ := require_bind_ok.mp h
  obtain ⟨hpins, h⟩ := require_bind_ok.mp h
  obtain ⟨mismatches, -, h⟩ := of_bind_ok h
  obtain ⟨_, -, rfl⟩ := of_map_ok h
  obtain ⟨hreceipts, himported⟩ := prepare_ok hs
  have hread : Read u s exports w := read_of_foldlM hw (by rw [himported])
  exact ⟨hread, by rw [himported], hreceipts, htotal.trans hread.counted, fun n hn => by
    by_contra hnot
    have hmem : n ∈ s.pins.keys.filter (· ∉ w.hashes.keys) := List.mem_filter.mpr ⟨hn, by simpa using hnot⟩
    rw [hpins] at hmem
    exact List.not_mem_nil hmem⟩

theorem fst_transactionPairs (blocks : List Block) :
    (transactionPairs u blocks).map Prod.fst = blocks.flatMap txHashes := by
  rw [transactionPairs, List.map_flatMap]
  refine List.flatMap_congr fun b _ => ?_
  rw [List.map_map]
  exact List.map_id _

namespace Accepted

variable {a : Args} {exports : List Export} {out : Imported}

/-- Every exported transaction has a receipt from its block. -/
theorem subset (h : Accepted u a exports out) : transactionPairs u (exported exports) ⊆ receiptPairs u exports := by
  intro p hp
  obtain ⟨b, hb, hp⟩ := List.mem_flatMap.mp hp
  obtain ⟨hash, hhash, rfl⟩ := List.mem_map.mp hp
  obtain ⟨entry, hget, hblock⟩ := (h.read.walked.checked b hb).receipt hash hhash
  rw [← h.receipts, ← hblock]
  exact mem_indexPairs hget

theorem nodup_receipts (h : Accepted u a exports out) : ((receiptPairs u exports).map Prod.fst).Nodup := by
  rw [← h.receipts, keys_eq_indexPairs]
  exact out.setup.receipts.nodup

theorem length_eq (h : Accepted u a exports out) :
    (receiptPairs u exports).length = (transactionPairs u (exported exports)).length := by
  calc (receiptPairs u exports).length = ((receiptPairs u exports).map Prod.fst).length := (List.length_map _).symm
    _ = out.setup.receipts.keys.length := by rw [← h.receipts, keys_eq_indexPairs]
    _ = ((transactionPairs u (exported exports)).map Prod.fst).length := by rw [h.total, fst_transactionPairs]
    _ = (transactionPairs u (exported exports)).length := List.length_map _

/-- As many receipts as transactions, and each transaction with one: a bijection where no transaction is repeated. -/
theorem matched_iff (h : Accepted u a exports out) :
    ((transactionPairs u (exported exports)).Perm (receiptPairs u exports) ∧
      ((receiptPairs u exports).map Prod.fst).Nodup) ↔ ((exported exports).flatMap txHashes).Nodup := by
  rw [← fst_transactionPairs (u := u)]
  constructor
  · rintro ⟨hperm, hnd⟩
    exact (hperm.map Prod.fst).nodup_iff.mpr hnd
  · intro hnd
    have hsub : (transactionPairs u (exported exports)).Subperm (receiptPairs u exports) :=
      (List.Nodup.of_map _ hnd).subperm h.subset
    exact ⟨hsub.perm_of_length_le h.length_eq.le, h.nodup_receipts⟩

theorem pins_get? {pin : BlockPin} (hpin : pin ∈ out.setup.expect)
    (hone : ∀ p ∈ out.setup.expect, ∀ q ∈ out.setup.expect, p.number = q.number → p = q) :
    out.setup.pins.get? pin.number = some pin.hash := by
  have hkey : pin.number ∈ out.setup.pins.keys :=
    Dict.mem_keys_foldl_insert.mpr (Or.inr ⟨_, List.mem_map_of_mem hpin, rfl⟩)
  obtain ⟨v, hv⟩ := Dict.exists_of_mem_keys hkey
  obtain ⟨q, hq, heq⟩ := List.mem_map.mp (Dict.mem_of_mem_ofList hv)
  obtain ⟨hnumber, rfl⟩ := Prod.mk.inj heq
  rw [hone pin hpin q hq hnumber.symm] at hkey ⊢
  exact Dict.get?_eq_some_iff.mpr (by rwa [← hone pin hpin q hq hnumber.symm] at hv ⊢)

theorem pinned_iff (h : Accepted u a exports out) :
    (∀ pin ∈ out.setup.expect, pin = out.setup.fork ∨ ∃ b ∈ exported exports, pin = ⟨b.number, u.lower b.hash⟩) ↔
      (∀ pin ∈ out.setup.expect, pin.number = out.setup.fork.number → pin = out.setup.fork) ∧
        ∀ p ∈ out.setup.expect, ∀ q ∈ out.setup.expect, p.number = q.number → p = q := by
  have hnumbers := h.read.walked.linked.numbers
  constructor
  · intro hall
    constructor
    · intro pin hpin heq
      rcases hall pin hpin with hfork | ⟨b, hb, rfl⟩
      · exact hfork
      · have hbound := hnumbers.1 b hb
        simp only at heq
        omega
    · intro p hp q hq heq
      rcases hall p hp with rfl | ⟨b, hb, rfl⟩ <;> rcases hall q hq with rfl | ⟨c, hc, rfl⟩
      · rfl
      · have hbound := hnumbers.1 c hc
        simp only at heq
        omega
      · have hbound := hnumbers.1 b hb
        simp only at heq
        omega
      · simp only [Nat.cast_inj] at heq
        rw [List.inj_on_of_nodup_map hnumbers.2 hb hc heq]
  · rintro ⟨hfork, hone⟩ pin hpin
    have hget := pins_get? hpin hone
    have hkey := h.pins _ (Dict.mem_keys (Dict.get?_eq_some_iff.mp hget))
    rw [Dict.keys, h.read.walked.hashes, List.map_cons, List.map_map, List.mem_cons] at hkey
    rcases hkey with heq | hmem
    · exact Or.inl (hfork pin hpin heq)
    · obtain ⟨b, hb, heq⟩ := List.mem_map.mp hmem
      simp only [Function.comp_apply] at heq
      have hhash := (h.read.walked.checked b hb).pin pin.hash (heq ▸ hget)
      refine Or.inr ⟨b, hb, ?_⟩
      rw [heq, ← hhash]

end Accepted

/-- An accepted export is consistent exactly where no transaction is exported twice, a pin of the fork block is the fork
pin, and no two pins give one block different hashes. -/
theorem consistent_iff (u : Lower) (sha256 : Bytes → Text) (a : Args) (exports : List Export) {out : Imported}
    (h : main u sha256 a exports = .ok out) :
    Consistent u a exports out.setup ↔
      ((exported exports).flatMap txHashes).Nodup ∧
        (∀ pin ∈ out.setup.expect, pin.number = out.setup.fork.number → pin = out.setup.fork) ∧
        ∀ p ∈ out.setup.expect, ∀ q ∈ out.setup.expect, p.number = q.number → p = q := by
  have ha := accepted_of_main h
  constructor
  · intro hc
    exact ⟨ha.matched_iff.mp hc.matched, ha.pinned_iff.mp hc.pinned⟩
  · rintro ⟨hnd, hpins⟩
    refine ⟨ha.read.walked.linked, fun e he => ?_, ha.pinned_iff.mpr hpins, ha.matched_iff.mpr hnd, fun b hb => ?_⟩
    · have hexpected := ha.read.walked.expected
      have hstop := ha.read.stop e he
      omega
    · rw [← ha.minimum]
      exact (ha.read.walked.checked b hb).reproduced

/-! ### A receipt without a transaction -/

def forkText : Text := "0:".toList ++ hexPrefix ++ List.replicate 64 'a'

def blockHash : Text := hexPrefix ++ List.replicate 64 'b'

/-- A transaction of nothing. -/
def idleTx : PlainTx := ⟨['t'], [], [], [], 0, [], 0, 0, 0, 0, 0, 0, 0, 0, 0⟩

/-- The one block after the fork block, with the given transactions. -/
def oneBlock (txs : List PlainTx) : Block := ⟨1, blockHash, hexPrefix ++ List.replicate 64 'a', 0, 0, txs, []⟩

def oneExport (txs : List PlainTx) (receipts : List Receipt) : Export where
  manifest := ⟨⟨1, 1, blockHash, blockHash⟩, ⟨txs.length, 0, txs.length⟩, []⟩
  file _ := none
  receipts := receipts
  responses := [(1, some [oneBlock txs])]

def plainArgs : Args := ⟨0, .canonical, forkText, none, none, [], 1, none, none⟩

def noFiles : Bytes → Text := fun _ => []

/-- The receipt `o` belongs to no transaction; the block holds `t` twice. -/
def orphanExport : Export := oneExport [idleTx, idleTx] [⟨['t'], blockHash, 1, 0, []⟩, ⟨['o'], [], 1, 0, []⟩]

theorem orphan_receipt_imported : ∃ out, main asciiLower noFiles plainArgs [orphanExport] = .ok out ∧
    ¬Consistent asciiLower plainArgs [orphanExport] out.setup := by
  have hok : (main asciiLower noFiles plainArgs [orphanExport]).toBool = true := by decide +kernel
  obtain ⟨out, hmain⟩ := Except.exists_ok_of_toBool hok
  refine ⟨out, hmain, fun hc => ?_⟩
  have horphan : (['o'], []) ∈ receiptPairs asciiLower [orphanExport] := by decide
  have hnot : (['o'], []) ∉ transactionPairs asciiLower (exported [orphanExport]) := by decide
  exact hnot (hc.matched.1.mem_iff.mpr horphan)

theorem consistent_one_block : ∃ out,
    main asciiLower noFiles plainArgs [oneExport [idleTx] [⟨['t'], blockHash, 1, 0, []⟩]] = .ok out ∧
      Consistent asciiLower plainArgs [oneExport [idleTx] [⟨['t'], blockHash, 1, 0, []⟩]] out.setup := by
  have hread : ((main asciiLower noFiles plainArgs [oneExport [idleTx] [⟨['t'], blockHash, 1, 0, []⟩]]).toOption.map
      fun out => out.setup.expect) = some [] := by decide +kernel
  obtain ⟨out, hmain, hexpect⟩ := Except.exists_ok_of_map hread
  refine ⟨out, hmain, (consistent_iff asciiLower noFiles plainArgs _ hmain).mpr ⟨by decide, ?_, ?_⟩⟩
  · intro pin hpin
    simp [hexpect] at hpin
  · intro p hp
    simp [hexpect] at hp

end Walk

end HarmonyMigration.Archive.ImportExport
