import HarmonyMigration.Airdrop.WriteRun
import HarmonyMigration.BridgeClaims.Executable
import HarmonyMigration.Tree.Builders
import Mathlib.Order.Lattice

/-! Every leaf's proof is accepted, by the Python check, by the Solidity library and by both
contracts, on 32-byte strings and for any hash. -/

namespace HarmonyMigration.Builders

open Slices Keccak

/-- Solidity compares `bytes32` as numbers. -/
instance : LinearOrder Bytes32 :=
  LinearOrder.lift' (fun b => beNat b.val) fun a b h =>
    Subtype.ext (beNat_inj (a.property.trans b.property.symm) h)

variable (keccak256 : Bytes → Bytes32)

/-- `BatchTree.verify`. -/
def Sol.verify (proof_ : List Bytes32) (root_ leaf_ : Bytes32) : Bool :=
  proof_.foldl (Sol.hashPair keccak256) leaf_ = root_

def chunkBytes : Chunk Bytes32 → Bytes
  | .word w => toBytes 32 w.toNat
  | .digest d => d.val

/-- The hash of the contracts on 32-byte digests. -/
def hashFn : HashFn Bytes32 :=
  ⟨fun preimage => keccak256 (preimage.flatMap chunkBytes), ⟨List.replicate 32 0, rfl⟩⟩

theorem hashPair_hashFn : BatchTree.hashPair (hashFn keccak256) = Sol.hashPair keccak256 := by
  funext a b
  have hpair : ∀ c d : Bytes32, (hashFn keccak256).pair c d = keccak256 (c.val ++ d.val) := by
    intro c d
    simp [HashFn.pair, hashFn, chunkBytes]
  unfold BatchTree.hashPair Sol.hashPair
  rw [hpair, hpair]
  rfl

theorem solHashPair_comm (a b : Bytes32) : Sol.hashPair keccak256 a b = Sol.hashPair keccak256 b a := by
  rw [← hashPair_hashFn]
  exact BatchTree.hashPair_comm _ a b

theorem path_map {D E : Type*} (f : D → E) (levels : List (List D)) (i : ℕ) :
    Merkle.path (levels.map (List.map f)) i = (Merkle.path levels i).map f := by
  induction levels generalizing i with
  | nil => rfl
  | cons level levels ih =>
    rw [List.map_cons, Merkle.path, Merkle.path, ih, List.map_append, List.getElem?_map]
    cases level[i ^^^ 1]? <;> rfl

theorem treeProof_map {D E : Type} (f : D → E) (levels : List (List D)) (i : ℕ) :
    BatchTree.treeProof (levels.map (List.map f)) i = (BatchTree.treeProof levels i).map f := by
  rw [BatchTree.treeProof_eq, BatchTree.treeProof_eq, ← path_map, List.map_dropLast]

theorem treeRoot_map {D E : Type} (f : D → E) (levels : List (List D)) :
    BatchTree.treeRoot (levels.map (List.map f)) = (BatchTree.treeRoot levels).map f := by
  unfold BatchTree.treeRoot Merkle.top
  rw [List.getLast?_map]
  cases levels.getLast? with
  | none => rfl
  | some level => simp

theorem foldl_hashPair_val (proof : List Bytes32) (leaf : Bytes32) :
    (proof.map Subtype.val).foldl (hashPair keccak256) leaf.val =
      (proof.foldl (Sol.hashPair keccak256) leaf).val := by
  induction proof generalizing leaf with
  | nil => rfl
  | cons p proof ih => rw [List.map_cons, List.foldl_cons, List.foldl_cons, hashPair_val, ih]

/-- The Python tree of a leaf list, and the proof it gives for position `i`, which every
verifier accepts. -/
structure Accepted (leafList : List Bytes32) (i : ℕ) (leaf : Bytes32) (levels : List (List Bytes32))
    (root : Bytes32) : Prop where
  treeLevels : BatchTree.treeLevels (hashPair keccak256) (leafList.map Subtype.val) =
    .ok (levels.map (List.map Subtype.val))
  treeRoot : BatchTree.treeRoot (levels.map (List.map Subtype.val)) = some root.val
  treeProof : BatchTree.treeProof (levels.map (List.map Subtype.val)) i =
    (BatchTree.treeProof levels i).map Subtype.val
  treeVerify : BatchTree.treeVerify (hashPair keccak256)
    (BatchTree.treeProof (levels.map (List.map Subtype.val)) i) root.val leaf.val = true
  batchTree : Sol.verify keccak256 (BatchTree.treeProof levels i) root leaf = true
  airdrop : ∀ cfg : Airdrop.Config Bytes32, cfg.root = root →
    Airdrop._verify (hashFn keccak256) cfg (BatchTree.treeProof levels i) leaf = true
  bridgeClaims : ∀ cfg : BridgeClaims.Config Bytes32, cfg.root = root →
    BridgeClaims._verify (hashFn keccak256) cfg (BatchTree.treeProof levels i) leaf = true

theorem exists_accepted {leafList : List Bytes32} {i : ℕ} {leaf : Bytes32} (hi : leafList[i]? = some leaf) :
    ∃ levels root, Accepted keccak256 leafList i leaf levels root := by
  have hne : leafList ≠ [] := by
    rintro rfl
    simp at hi
  obtain ⟨⟨levels, -, hpython, hsol, -⟩, -⟩ := builders_agree keccak256 .default hne 1 false
  have hlevels : BatchTree.treeLevels (Sol.hashPair keccak256) leafList = .ok levels := by
    rw [BatchTree.treeLevels, if_neg hne, funext (BatchTree.nextLevel_eq _), ← Sol.levels_eq keccak256 hne]
    exact hsol
  obtain ⟨root, hroot, hv⟩ := BatchTree.treeVerify_treeProof (solHashPair_comm keccak256) hlevels hi
  have hend : (BatchTree.treeProof levels i).foldl (Sol.hashPair keccak256) leaf = root :=
    of_decide_eq_true hv
  refine ⟨levels, root, hpython, ?_, treeProof_map _ _ _, ?_, hv, ?_, ?_⟩
  · rw [treeRoot_map, hroot]
    rfl
  · rw [BatchTree.treeVerify, treeProof_map, foldl_hashPair_val, hend, decide_eq_true_eq]
  · rintro cfg rfl
    rw [← hashPair_hashFn] at hend
    simp only [Airdrop._verify, decide_eq_true_eq]
    exact hend
  · rintro cfg rfl
    rw [← hashPair_hashFn] at hend
    simp only [BridgeClaims._verify, decide_eq_true_eq]
    exact hend

/-- Merkle completeness: the proof of every position is accepted, so that every batch of a
`write_run` and every row of a `build_group` can be executed. -/
theorem proofs_accepted {leafList : List Bytes32} {i : ℕ} {leaf : Bytes32} (hi : leafList[i]? = some leaf) :
    (∃ levels root, Accepted keccak256 leafList i leaf levels root) ∧
    (∀ {D : Type} [LinearOrder D] {K : HashFn D} {rows : List Airdrop.ListRow} {batchSize : ℤ}
      {run : Airdrop.RunManifest D}, Airdrop.writeRun K rows batchSize = .ok run →
      Airdrop.Executable K run) ∧
    ∀ {D : Type} [LinearOrder D] {K : HashFn D} {wrapped : Option Erc20.Address}
      {assets : Dict Erc20.Address BridgeClaims.Asset} {rows : List BridgeClaims.ClaimRow}
      {m : BridgeClaims.Manifest D}, BridgeClaims.buildGroup K wrapped assets rows = .ok m →
      BridgeClaims.Claimable K m :=
  ⟨exists_accepted keccak256 hi, fun h => Airdrop.writeRun_executable h,
    fun h => BridgeClaims.buildGroup_claimable h⟩

/-- Three batches of one row. -/
def threeRows : List Airdrop.ListRow := [⟨1, 5⟩, ⟨2, 6⟩, ⟨3, 7⟩]

def threeClaims : List BridgeClaims.ClaimRow := [⟨1, 7, 5, ""⟩, ⟨2, 7, 6, ""⟩, ⟨3, 7, 8, ""⟩]

/-- The third of three leaves is carried up past the first level. -/
theorem proofs_accepted_carried :
    (∃ levels root, Accepted keccak256Reference threeLeaves 2 (keccak256Reference [3]) levels root) ∧
    (∃ run, Airdrop.writeRun Hash.nat.toHashFn threeRows 1 = .ok run ∧ run.batchCount = 3 ∧
      Airdrop.Executable Hash.nat.toHashFn run) ∧
    ∃ m, BridgeClaims.buildGroup Hash.nat.toHashFn none .empty threeClaims = .ok m ∧
      BridgeClaims.Claimable Hash.nat.toHashFn m := by
  obtain ⟨haccepted, hrun, hgroup⟩ :=
    proofs_accepted keccak256Reference (show threeLeaves[2]? = some (keccak256Reference [3]) from rfl)
  have hcount : (Airdrop.writeRun Hash.nat.toHashFn threeRows 1).toOption.map
      Airdrop.RunManifest.batchCount = some 3 := by decide +kernel
  have hok : (BridgeClaims.buildGroup Hash.nat.toHashFn none .empty threeClaims).isOk = true := by
    decide +kernel
  obtain ⟨run, h, hthree⟩ := Except.exists_ok_of_map hcount
  obtain ⟨m, h'⟩ := Except.exists_ok_of_toBool hok
  exact ⟨haccepted, ⟨run, h, hthree, hrun h⟩, m, h', hgroup h'⟩

end HarmonyMigration.Builders
