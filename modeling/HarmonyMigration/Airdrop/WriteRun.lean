import HarmonyMigration.Lib.Except
import HarmonyMigration.Lib.Slices
import HarmonyMigration.Airdrop.Contract

/-! `write_run` of `airdrop/tools/common.py`: the list cut into batches, the tree over
them, and one payload for each batch, which the contract accepts as it stands. -/

namespace HarmonyMigration.Airdrop

open Keccak Erc20 BatchTree Slices

variable {D : Type}

def MAX_BATCH_SIZE : ℤ := 500

/-- A line of the recipient list. -/
structure ListRow where
  address : Address
  amount : ℕ

/-- `_word`, which raises on what does not fit. -/
def _word (value : ℕ) : Except String Word :=
  if value < 2 ^ 256 then .ok (BitVec.ofNat 256 value) else .error "value does not fit in 256 bits"

/-- `chunk`. -/
def chunk (rows : List ListRow) (size : ℕ) : List (List ListRow) := chunks size rows

/-- `batch_leaf` of a batch as `write_run` calls it. -/
def leafOf (K : HashFn D) (batchIndex : ℕ) (b : List ListRow) : Except String D :=
  (_word batchIndex).bind fun index =>
  (b.mapM fun r => _word r.amount).bind fun amounts =>
  BatchTree.batchLeaf K index (b.map ListRow.address) amounts

/-- A batch file. -/
structure Payload (D : Type) where
  batchIndex : ℕ
  leaf : D
  proof : List D
  recipients : List Address
  amounts : List ℕ

structure RunManifest (D : Type) where
  batchCount : ℕ
  recipientCount : ℕ
  totalAmount : ℕ
  root : D
  payloads : List (Payload D)

section
variable [LinearOrder D] (K : HashFn D)

def writeRun (rows : List ListRow) (batchSize : ℤ) : Except String (RunManifest D) :=
  if batchSize < 1 ∨ MAX_BATCH_SIZE < batchSize then .error "batch size must be between 1 and 500"
  else
    let batches := chunk rows batchSize.toNat
    (batches.zipIdx.mapM fun p => leafOf K p.2 p.1).bind fun leaves =>
    (treeLevels (hashPair K) leaves).bind fun levels =>
    match treeRoot levels with
    | none => .error "list index out of range"
    | some root => .ok {
        batchCount := batches.length
        recipientCount := rows.length
        totalAmount := (rows.map ListRow.amount).sum
        root := root
        payloads := (batches.zip leaves).zipIdx.map fun p =>
          ⟨p.2, p.1.2, treeProof levels p.2, p.1.1.map ListRow.address, p.1.1.map ListRow.amount⟩ }

/-- What is left of `execute` when every check has passed: the payments and the counters. -/
def settle (T : Tokens) (cfg : Config D) (s : State D) (batchIndex : Word)
    (recipients : List Address) (amounts : List Word) : Except (Error D) (State D) :=
  (pay T cfg s.ledger 0 (recipients.zip amounts)).bind fun r =>
  (addChecked s.executedBatches 1).bind fun executedBatches =>
  (addChecked s.distributedAmount r.2).bind fun distributedAmount =>
  .ok { s with
    executedBitmap := Bitmap.set s.executedBitmap batchIndex
    ledger := r.1
    executedBatches := executedBatches
    distributedAmount := distributedAmount
    logs := s.logs ++ [.batchExecuted batchIndex (batchLeaf K batchIndex recipients amounts)
      recipients.length r.2] }

end

theorem word_ok {value : ℕ} {w : Word} (h : _word value = .ok w) : w = BitVec.ofNat 256 value := by
  unfold _word at h
  split_ifs at h
  exact (Except.ok.inj h).symm

/-- The leaf of a batch is that of its rows, the numbers as words. -/
theorem leafOf_ok {K : HashFn D} {i : ℕ} {b : List ListRow} {leaf : D} (h : leafOf K i b = .ok leaf) :
    leaf = batchLeaf K (BitVec.ofNat 256 i) (b.map ListRow.address)
      ((b.map ListRow.amount).map (BitVec.ofNat 256)) := by
  obtain ⟨index, hindex, h⟩ := Except.of_bind_ok h
  obtain ⟨amounts, hamounts, h⟩ := Except.of_bind_ok h
  obtain rfl := word_ok hindex
  have hwords : (b.map ListRow.amount).map (BitVec.ofNat 256) = amounts := by
    rw [List.map_map]
    have h2 := Except.map_eq_of_forall₂ (Except.forall₂_of_mapM_ok hamounts)
      (f := fun r => BitVec.ofNat 256 r.amount) (g := id) fun r w hw => (word_ok hw).symm
    simpa [Function.comp_def] using h2
  have hlen : (b.map ListRow.address).length = amounts.length := by simp [← hwords]
  rw [BatchTree.batchLeaf, abiEncodeBatch_eq hlen] at h
  rw [hwords]
  exact (Except.ok.inj h).symm

theorem chunks_ne_nil {α : Type*} {step : ℕ} (h : 0 < step) (xs : List α) :
    ∀ c ∈ chunks step xs, c ≠ [] := by
  induction xs using drop_induction h with
  | nil => simp [chunks_nil h]
  | cut xs hne ih =>
    rw [chunks_cons h hne]
    intro c hc
    rcases List.mem_cons.mp hc with rfl | hc
    · exact List.ne_nil_of_length_pos (by
        have := List.length_pos_of_ne_nil hne
        rw [List.length_take]
        omega)
    · exact ih c hc

section
variable [LinearOrder D] {K : HashFn D}

/-- A payload is that of its batch: the batch is not empty, and its leaf stands in the tree at
the batch's index. -/
theorem writeRun_ok {rows : List ListRow} {batchSize : ℤ} {run : RunManifest D}
    (h : writeRun K rows batchSize = .ok run) {payload : Payload D} (hp : payload ∈ run.payloads) :
    ∃ leaves levels b, treeLevels (hashPair K) leaves = .ok levels ∧
      treeRoot levels = some run.root ∧ run.batchCount = leaves.length ∧
      leaves[payload.batchIndex]? = some payload.leaf ∧ b ≠ [] ∧
      leafOf K payload.batchIndex b = .ok payload.leaf ∧
      payload.proof = treeProof levels payload.batchIndex ∧
      payload.recipients = b.map ListRow.address ∧ payload.amounts = b.map ListRow.amount := by
  unfold writeRun at h
  split_ifs at h with hsize
  obtain ⟨leaves, hleaves, h⟩ := Except.of_bind_ok h
  obtain ⟨levels, hlevels, h⟩ := Except.of_bind_ok h
  cases hroot : treeRoot levels with
  | none => simp [hroot] at h
  | some root =>
    simp only [hroot] at h
    obtain rfl := Except.ok.inj h
    obtain ⟨⟨⟨b, leaf⟩, i⟩, hmem, rfl⟩ := List.mem_map.mp hp
    have hget := List.mem_zipIdx_iff_getElem?.mp hmem
    obtain ⟨hb, hleaf⟩ : (chunk rows batchSize.toNat)[i]? = some b ∧ leaves[i]? = some leaf :=
      List.getElem?_zip_eq_some.mp hget
    have hall := Except.forall₂_of_mapM_ok hleaves
    have hlen : (chunk rows batchSize.toNat).length = leaves.length := by
      simpa using hall.length_eq
    have hi : i < leaves.length := (List.getElem?_eq_some_iff.mp hleaf).1
    have hone : leafOf K i (chunk rows batchSize.toNat)[i] = .ok leaves[i] := by
      simpa using hall.get (by simpa [hlen] using hi) hi
    have hb' : (chunk rows batchSize.toNat)[i] = b := (List.getElem?_eq_some_iff.mp hb).2
    have hleaf' : leaves[i] = leaf := (List.getElem?_eq_some_iff.mp hleaf).2
    rw [hb', hleaf'] at hone
    have hne : b ≠ [] := chunks_ne_nil (by omega) rows b (List.mem_of_getElem? hb)
    exact ⟨leaves, levels, b, hlevels, hroot, hlen, hleaf, hne, hone, rfl, rfl, rfl⟩

/-- `execute` on an accepted batch of the list is its payment. -/
theorem execute_of_verify {T : Tokens} {cfg : Config D} {s : State D} {i : Word} {r : List Address}
    {a : List Word} {proof : List D} (hpaused : s.paused = false) (hr : r ≠ [])
    (ha : a.length = r.length) (hi : i < cfg.batchCount)
    (hv : _verify K cfg proof (batchLeaf K i r a) = true) (hnew : isExecuted s i = false) :
    execute T cfg K s s.executor i r a proof = settle K T cfg s i r a := by
  unfold execute
  rw [if_neg (by simp), if_neg (by simp [hpaused]), if_neg (by simpa using hr), if_neg (by simp [ha]),
    if_neg (BitVec.not_le.mpr hi), if_neg (by simp [hv]), if_neg (by simp [hnew])]
  rfl

theorem _verify_treeProof {cfg : Config D} {leaves : List D} {levels : List (List D)}
    (h : treeLevels (hashPair K) leaves = .ok levels) (hroot : treeRoot levels = some cfg.root)
    {i : ℕ} {leaf : D} (hi : leaves[i]? = some leaf) :
    _verify K cfg (treeProof levels i) leaf = true := by
  obtain ⟨root, hr, hv⟩ := treeVerify_treeProof (hashPair_comm K) h hi
  obtain rfl := Option.some.inj (hroot.symm.trans hr)
  exact hv

/-- Every batch of a run can be executed: a contract deployed for it pays the batch as
`write_run` wrote it. -/
def Executable (K : HashFn D) (run : RunManifest D) : Prop :=
  ∀ payload ∈ run.payloads, ∀ (T : Tokens) (cfg : Config D) (s : State D), cfg.root = run.root →
    cfg.batchCount.toNat = run.batchCount → s.paused = false →
    isExecuted s (BitVec.ofNat 256 payload.batchIndex) = false →
    execute T cfg K s s.executor (BitVec.ofNat 256 payload.batchIndex) payload.recipients
        (payload.amounts.map (BitVec.ofNat 256)) payload.proof =
      settle K T cfg s (BitVec.ofNat 256 payload.batchIndex) payload.recipients
        (payload.amounts.map (BitVec.ofNat 256))

theorem writeRun_executable {rows : List ListRow} {batchSize : ℤ} {run : RunManifest D}
    (h : writeRun K rows batchSize = .ok run) : Executable K run := by
  intro payload hp T cfg s hroot hcount hpaused hnew
  obtain ⟨leaves, levels, b, hlevels, htop, hlen, hleaf, hb, hof, hproof, hr, ha⟩ := writeRun_ok h hp
  have hv := _verify_treeProof hlevels (hroot ▸ htop) hleaf
  have hi := (List.getElem?_eq_some_iff.mp hleaf).1
  have hlt := cfg.batchCount.isLt
  rw [leafOf_ok hof, ← hr, ← ha, ← hproof] at hv
  apply execute_of_verify hpaused (by simpa [hr] using hb) (by simp [hr, ha]) ?_ hv hnew
  rw [BitVec.lt_def, BitVec.toNat_ofNat, Nat.mod_eq_of_lt (by omega)]
  omega

end

end HarmonyMigration.Airdrop
