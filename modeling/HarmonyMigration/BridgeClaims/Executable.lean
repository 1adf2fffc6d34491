import HarmonyMigration.BridgeClaims.Build
import HarmonyMigration.BridgeClaims.Contract
import HarmonyMigration.Tree.BatchTree

/-! The proofs `claim_tree.py` cuts out of a contract's tree: the samples of `build_group`
verify, and the contract pays every row against its proof. -/

namespace HarmonyMigration.BridgeClaims

open Keccak Erc20 ClaimTree Bitmap

variable {D : Type} [LinearOrder D] {K : HashFn D}

/-- `claim_tree.proof`. -/
def proof (treeLevels : List (List D)) (index : ℕ) : List D := BatchTree.treeProof treeLevels index

/-- `claim_tree.verify`. -/
def verify (K : HashFn D) (proofNodes : List D) (rootNode leafNode : D) : Bool :=
  BatchTree.treeVerify (hashPair K) proofNodes rootNode leafNode

/-- What is left of `_claim` when every check has passed: the mark and the payment. -/
def payClaim (T : Tokens) (cfg : Config D) (send : Send) (s : State) (index : Word)
    (account token : Address) (amount : Word) : Except Error State :=
  if token = NATIVE then
    _payNative T cfg send (mark s index account token amount) index account amount
  else
    _safeTransferFrom T cfg (mark s index account token amount) token cfg.funder account amount.toNat

/-- `_claim` on an unpaid row with an accepted proof is its payment. -/
theorem claim_of_verify {T : Tokens} {cfg : Config D} {send : Send} {s : State} {index : Word}
    {account token : Address} {amount : Word} {nodes : List D} (hi : index < cfg.claimCount)
    (hnew : isClaimed s index = false)
    (hv : _verify K cfg nodes (leaf K index account token amount) = true) :
    _claim T cfg send K s index account token amount nodes =
      payClaim T cfg send s index account token amount := by
  unfold _claim
  rw [if_neg (BitVec.not_le.mpr hi), if_neg (by simp [hnew]), if_neg (by simp [hv])]
  rfl

/-- Every leaf's proof leads to the root, and the leaf stands where the tree file has it. -/
theorem verify_proof {ls : List D} {tree : List (List D)} (h : levels (hashPair K) ls = .ok tree)
    {i : ℕ} {l : D} (hi : ls[i]? = some l) :
    (tree.head?.bind fun nodes => nodes[i]?) = some l ∧
      ∃ r, root tree = some r ∧ verify K (proof tree i) r l = true := by
  have hlevels : BatchTree.treeLevels (hashPair K) ls = .ok tree := by
    unfold levels at h
    unfold BatchTree.treeLevels
    rw [← h, funext (BatchTree.nextLevel_eq _), funext (ClaimTree.nextLevel_eq _)]
  refine ⟨?_, BatchTree.treeVerify_treeProof (Merkle.sorted_comm (H := K.pair)) hlevels hi⟩
  unfold levels at h
  split_ifs at h
  obtain rfl := Except.ok.inj h
  rw [Merkle.climb_head?]
  exact hi

omit [LinearOrder D] in
theorem leaves_getElem? (rows : List ClaimRow) (i : ℕ) :
    (leaves K (enumerate (rows.map ClaimRow.row)))[i]? = rows[i]?.map fun r =>
      leaf K (BitVec.ofNat 256 i) r.account r.token (BitVec.ofNat 256 r.amount) := by
  simp only [leaves, enumerate, List.getElem?_map, List.getElem?_zipIdx, Option.map_map]
  cases rows[i]? with
  | none => rfl
  | some r => simp [ClaimRow.row]

/-- The published list has a tree, every row's proof out of it verifies, as the samples of
`build_group` have to, and a contract deployed for the list pays the row against it. -/
def Claimable (K : HashFn D) (m : Manifest D) : Prop :=
  ∃ tree r, levels (hashPair K) (leaves K (enumerate (m.rows.map ClaimRow.row))) = .ok tree ∧
    root tree = some r ∧ m.root = some r ∧
    ∀ i row, m.rows[i]? = some row →
      (let l := leaf K (BitVec.ofNat 256 i) row.account row.token (BitVec.ofNat 256 row.amount)
      (tree.head?.bind fun nodes => nodes[i]?) = some l ∧ verify K (proof tree i) r l = true) ∧
      ∀ (T : Tokens) (cfg : Config D) (send : Send) (s : State), cfg.root = r →
        cfg.claimCount.toNat = m.rows.length → isClaimed s (BitVec.ofNat 256 i) = false →
        _claim T cfg send K s (BitVec.ofNat 256 i) row.account row.token
            (BitVec.ofNat 256 row.amount) (proof tree i) =
          payClaim T cfg send s (BitVec.ofNat 256 i) row.account row.token
            (BitVec.ofNat 256 row.amount)

theorem buildGroup_claimable {wrapped : Option Address} {assets : Dict Address Asset}
    {rows : List ClaimRow} {m : Manifest D} (h : buildGroup K wrapped assets rows = .ok m) :
    Claimable K m := by
  obtain ⟨-, -, -, tree, htree, hroot⟩ := buildGroup_ok h
  have hleaf : ∀ i row, m.rows[i]? = some row →
      (leaves K (enumerate (m.rows.map ClaimRow.row)))[i]? =
        some (leaf K (BitVec.ofNat 256 i) row.account row.token (BitVec.ofNat 256 row.amount)) := by
    intro i row hrow
    rw [leaves_getElem?, hrow]
    rfl
  have hpos : m.rows ≠ [] := by
    intro hnil
    simp [levels, hnil, leaves, enumerate] at htree
  obtain ⟨r, hr, -⟩ := (verify_proof htree
    (hleaf 0 _ (List.getElem?_eq_getElem (List.length_pos_of_ne_nil hpos)))).2
  refine ⟨tree, r, htree, hr, hroot.trans hr, ?_⟩
  intro i row hrow
  obtain ⟨hfile, r', hr', hv⟩ := verify_proof htree (hleaf i row hrow)
  obtain rfl := Option.some.inj (hr.symm.trans hr')
  refine ⟨⟨hfile, hv⟩, ?_⟩
  intro T cfg send s hcfg hcount hnew
  have hi := (List.getElem?_eq_some_iff.mp hrow).1
  have hlt := cfg.claimCount.isLt
  apply claim_of_verify ?_ hnew (by rw [← hcfg] at hv; exact hv)
  rw [BitVec.lt_def, BitVec.toNat_ofNat, Nat.mod_eq_of_lt (by omega)]
  omega

end HarmonyMigration.BridgeClaims
