import HarmonyMigration.Lib.Bitmap
import HarmonyMigration.Lib.Keccak
import HarmonyMigration.Lib.Merkle
import HarmonyMigration.Lib.Erc20

/-! The batch tree of `airdrop/tools/common.py`: the ABI encoding of a batch, its
leaf, and the levels over all leaves. -/

namespace HarmonyMigration.BatchTree

open Keccak Erc20 Bitmap

variable {D : Type}

/-- One published batch. -/
structure Batch where
  recipients : List Address
  amounts : List Word
  deriving DecidableEq

/-- Solidity's `abi.encode(batchIndex, recipients, amounts)`, in words: three heads,
of which two are the byte offsets of the arrays, then each array after its length. -/
def abiEncode (batchIndex : Word) (recipients : List Address) (amounts : List Word) : List Word :=
  [batchIndex, 3 * 32, BitVec.ofNat 256 (3 * 32 + 32 * (1 + recipients.length))] ++
    (BitVec.ofNat 256 recipients.length :: recipients.map addressWord) ++
    (BitVec.ofNat 256 amounts.length :: amounts)

def abiEncodeBatch (batchIndex : Word) (recipients : List Address) (amounts : List Word) :
    Except String (List Word) :=
  if recipients.length ≠ amounts.length then .error "recipients and amounts differ in length"
  else
    let n := recipients.length
    let head := [batchIndex, BitVec.ofNat 256 (3 * 32), BitVec.ofNat 256 (3 * 32 + 32 + 32 * n)]
    let tail := [BitVec.ofNat 256 n] ++ recipients.map addressWord
    .ok (head ++ (tail ++ ([BitVec.ofNat 256 n] ++ amounts)))

def batchLeaf (K : HashFn D) (batchIndex : Word) (recipients : List Address) (amounts : List Word) :
    Except String D :=
  (abiEncodeBatch batchIndex recipients amounts).map K.double

/-- `common.hash_pair`: smaller node first. -/
def hashPair [LinearOrder D] (K : HashFn D) (a b : D) : D :=
  if a < b then K.pair a b else K.pair b a

/-- The inner loop of `tree_levels`, over `i = 0, 2, ..`. -/
def nextLevel (hashPair : D → D → D) (prev : List D) : List D :=
  (List.range ((prev.length + 1) / 2)).filterMap fun k =>
    match prev[2 * k]?, prev[2 * k + 1]? with
    | some a, some b => some (hashPair a b)
    | some a, none => some a
    | none, _ => none

def treeLevels (hashPair : D → D → D) (leaves : List D) : Except String (List (List D)) :=
  if leaves = [] then .error "no leaves"
  else .ok (Merkle.climb (nextLevel hashPair) leaves.length leaves)

def treeRoot (levels : List (List D)) : Option D := Merkle.top levels

/-- `tree_proof`: the siblings of a position, leaves' level first; the root has none. -/
def treeProof (levels : List (List D)) (index : ℕ) : List D :=
  (levels.dropLast.foldl (fun (s : List D × ℕ) level =>
    let sibling := s.2 ^^^ 1
    (match level[sibling]? with
      | some node => s.1 ++ [node]
      | none => s.1, s.2 >>> 1)) ([], index)).1

def treeVerify [DecidableEq D] (hashPair : D → D → D) (proof : List D) (root leaf : D) : Bool :=
  proof.foldl hashPair leaf = root

/-- The leaves `write_run` hashes: batch `i` under index `i`. -/
def leaves (K : HashFn D) (B : List Batch) : Except String (List D) :=
  (enumerate B).mapM fun p => batchLeaf K p.1 p.2.recipients p.2.amounts

theorem nextLevel_eq (hashPair : D → D → D) (prev : List D) :
    nextLevel hashPair prev = Merkle.levelUp hashPair prev := by
  have hget : ∀ k ∈ List.range ((prev.length + 1) / 2),
      (match prev[2 * k]?, prev[2 * k + 1]? with
        | some a, some b => some (hashPair a b)
        | some a, none => some a
        | none, _ => none) = (Merkle.levelUp hashPair prev)[k]? :=
    fun k _ => (Merkle.levelUp_getElem? hashPair prev k).symm
  rw [nextLevel, List.filterMap_congr hget, ← Merkle.levelUp_length hashPair prev]
  exact Merkle.filterMap_range_getElem? _

theorem treeProof_eq (levels : List (List D)) (index : ℕ) :
    treeProof levels index = Merkle.path levels.dropLast index := by
  have hfold : ∀ (below : List (List D)) (proof : List D) (i : ℕ),
      (below.foldl (fun (s : List D × ℕ) level =>
        let sibling := s.2 ^^^ 1
        (match level[sibling]? with
          | some node => s.1 ++ [node]
          | none => s.1, s.2 >>> 1)) (proof, i)).1 = proof ++ Merkle.path below i := by
    intro below
    induction below with
    | nil => simp [Merkle.path]
    | cons level below ih =>
      intro proof i
      rw [List.foldl_cons, ih, Merkle.path, Nat.shiftRight_one]
      cases level[i ^^^ 1]? with
      | none => simp
      | some node => simp
  exact hfold _ _ _

/-- The tree has a root, and every leaf's proof leads to it. -/
theorem treeVerify_treeProof [DecidableEq D] {hashPair : D → D → D}
    (hcomm : ∀ a b, hashPair a b = hashPair b a) {leaves : List D} {levels : List (List D)}
    (h : treeLevels hashPair leaves = .ok levels) {i : ℕ} {leaf : D} (hi : leaves[i]? = some leaf) :
    ∃ root, treeRoot levels = some root ∧
      treeVerify hashPair (treeProof levels i) root leaf = true := by
  unfold treeLevels at h
  split_ifs at h
  obtain rfl := Except.ok.inj h
  rw [funext (nextLevel_eq hashPair)]
  refine ⟨_, Merkle.top_eq_foldl_path hcomm (Nat.le_succ _) hi, ?_⟩
  rw [treeVerify, treeProof_eq, decide_eq_true_eq]

theorem hashPair_comm [LinearOrder D] (K : HashFn D) (a b : D) : hashPair K a b = hashPair K b a :=
  Merkle.sorted_comm a b

/-- For arrays of equal length the Python and the Solidity encoding coincide. -/
theorem abiEncodeBatch_eq {i : Word} {r : List Address} {a : List Word} (h : r.length = a.length) :
    abiEncodeBatch i r a = .ok (abiEncode i r a) := by
  have ho : 3 * 32 + 32 * (1 + a.length) = 3 * 32 + 32 + 32 * a.length := by ring
  simp only [abiEncodeBatch, abiEncode, h, ho, ne_eq, not_true_eq_false, if_false,
    List.cons_append, List.nil_append]
  rfl

/-- The encoding of a batch with equally many recipients and amounts pins the batch. -/
theorem abiEncode_injective {i j : Word} {r r' : List Address} {a a' : List Word}
    (h : r.length = a.length) (h' : r'.length = a'.length) (he : abiEncode i r a = abiEncode j r' a') :
    i = j ∧ r = r' ∧ a = a' := by
  have hlen := congrArg List.length he
  simp only [abiEncode, List.length_append, List.length_cons, List.length_map, List.length_nil] at hlen
  have hr : r.length = r'.length := by omega
  simp only [abiEncode, List.cons_append, List.nil_append, List.cons.injEq, true_and] at he
  obtain ⟨hi, -, -, he⟩ := he
  obtain ⟨h1, h2⟩ := List.append_inj he (by simpa using hr)
  exact ⟨hi, List.map_injective_iff.mpr addressWord_injective h1, (List.cons.inj h2).2⟩

/-- With equal lengths in every batch all leaves exist, and leaf `i` is that of batch `i`. -/
theorem leaves_ok (K : HashFn D) {B : List Batch}
    (hB : ∀ b ∈ B, b.recipients.length = b.amounts.length) :
    leaves K B = .ok ((enumerate B).map fun p =>
      K.double (abiEncode p.1 p.2.recipients p.2.amounts)) := by
  have hone : ∀ p ∈ enumerate B, batchLeaf K p.1 p.2.recipients p.2.amounts =
      .ok (K.double (abiEncode p.1 p.2.recipients p.2.amounts)) := by
    intro p hp
    obtain ⟨q, hq, rfl⟩ := List.mem_map.mp hp
    have hb := hB q.1 (List.fst_mem_of_mem_zipIdx hq)
    simp [batchLeaf, abiEncodeBatch_eq hb, Except.map]
  unfold leaves
  generalize enumerate B = l at hone
  induction l with
  | nil => rfl
  | cons p l ih =>
    rw [List.mapM_cons, hone p (by simp), ih (fun q hq => hone q (by simp [hq]))]
    rfl

/-- Every non-empty list of such batches has a root. -/
theorem exists_root [LinearOrder D] (K : HashFn D) {B : List Batch} (hne : B ≠ [])
    (hB : ∀ b ∈ B, b.recipients.length = b.amounts.length) :
    ∃ ls lv r, leaves K B = .ok ls ∧ treeLevels (hashPair K) ls = .ok lv ∧ treeRoot lv = some r := by
  have hls := leaves_ok K hB
  generalize hdef : ((enumerate B).map fun p =>
    K.double (abiEncode p.1 p.2.recipients p.2.amounts)) = ls at hls
  have hne' : ls ≠ [] := by simpa [← hdef, enumerate] using hne
  have hnext : nextLevel (hashPair K) = Merkle.levelUp (hashPair K) := funext (nextLevel_eq _)
  obtain ⟨r, hr⟩ := Merkle.exists_top (hashPair K) hne' (Nat.le_succ _)
  exact ⟨ls, _, r, hls, if_neg hne', by rw [treeRoot, hnext, hr]⟩

/-- An accepted proof against the root is about the batch with the index it names. -/
theorem batch_of_fold [LinearOrder D] (K : Hash D) {B : List Batch} (hlen : B.length < 2 ^ 256)
    (hB : ∀ b ∈ B, b.recipients.length = b.amounts.length) {ls : List D} {lv : List (List D)} {root : D}
    (hls : leaves K B = .ok ls) (hlv : treeLevels (hashPair K) ls = .ok lv) (hr : treeRoot lv = some root)
    {i : Word} {r : List Address} {a : List Word} (hra : r.length = a.length) (proof : List D)
    (h : Merkle.fold K.pair (K.double (abiEncode i r a)) proof = root) :
    B[i.toNat]? = some ⟨r, a⟩ := by
  rw [leaves_ok K.toHashFn hB] at hls
  obtain rfl := Except.ok.inj hls
  unfold treeLevels at hlv
  split_ifs at hlv with hne
  have hnext : nextLevel (hashPair K) = Merkle.levelUp (Merkle.sorted K.pair) :=
    funext (nextLevel_eq (Merkle.sorted K.pair))
  rw [← Except.ok.inj hlv, hnext] at hr
  have hm := Merkle.mem_leaves_of_fold K.pair_injective2 (by
    intro d hd x y
    obtain ⟨p, -, rfl⟩ := List.mem_map.mp hd
    exact K.pair_ne_double _ x y) (Merkle.node_top _ hr) (K.pair_ne_double _) proof h
  obtain ⟨⟨j, b⟩, hj, he⟩ := List.mem_map.mp hm
  have hget := (mem_enumerate hlen).mp hj
  obtain ⟨rfl, rfl, rfl⟩ := abiEncode_injective (hB b (List.mem_of_getElem? hget)) hra
    (K.double_injective he)
  exact hget

end HarmonyMigration.BatchTree
