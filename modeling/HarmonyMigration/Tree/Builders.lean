import HarmonyMigration.Lib.Except
import HarmonyMigration.Lib.Slices
import HarmonyMigration.Tree.BatchTree
import HarmonyMigration.Tree.ClaimTree
import HarmonyMigration.Tree.Keccak256

/-! The tree builders side by side on 32-byte strings: `claim_tree.py` with its worker
processes, `common.tree_levels`, and the Solidity libraries. -/

namespace HarmonyMigration.Builders

open Slices

/-- A `bytes32`. -/
abbrev Bytes32 := { b : Bytes // b.length = 32 }

variable (keccak256 : Bytes → Bytes32)

/-! ### Python -/

/-- `common.hash_pair`: Python orders `bytes` lexicographically. -/
def hashPair (a b : Bytes) : Bytes :=
  if a < b then (keccak256 (a ++ b)).val else (keccak256 (b ++ a)).val

/-- `CHUNK` and `PARALLEL_MIN`. -/
structure Chunking where
  chunk : ℕ
  parallelMin : ℕ
  chunk_pos : 0 < chunk

def Chunking.default : Chunking := ⟨8192, 4 * 8192, by decide⟩

variable (cfg : Chunking)

/-- `_pool`: `started` says whether the operating system let the pool start. -/
def pool (workers : ℤ) (size : ℕ) (started : Bool) : Bool :=
  if workers ≤ 1 ∨ size < cfg.parallelMin then false else started

def pairChunk (nodes : Bytes) : Bytes :=
  ((starts nodes.length 64).map fun offset =>
    hashPair keccak256 (slice nodes offset (offset + 32)) (slice nodes (offset + 32) (offset + 64))).flatten

def split (blob : Bytes) (size : ℕ) : List Bytes := if size ≠ 0 then chunks 32 blob else []

/-- One round of the loop of `levels`; without the pool it is `ClaimTree.nextLevel`. -/
def nextLevel (pooled : Bool) (prev : List Bytes) : List Bytes :=
  let paired := prev.length - prev.length % 2
  if pooled ∧ cfg.parallelMin ≤ paired then
    let step := 2 * cfg.chunk
    let blobs := (starts paired step).map fun i => (slice prev i (min (i + step) paired)).flatten
    -- `pool.map` returns the results in the order of the blobs
    let nxt := split (blobs.map (pairChunk keccak256)).flatten (paired / 2)
    if paired < prev.length then nxt ++ prev.getLast?.toList else nxt
  else ClaimTree.nextLevel (hashPair keccak256) prev

def levels (workers : ℤ) (started : Bool) (leafList : List Bytes) : Except String (List (List Bytes)) :=
  if leafList = [] then .error "no leaves"
  else
    let pooled := pool cfg workers leafList.length started
    .ok (Merkle.climb (nextLevel keccak256 cfg pooled) leafList.length leafList)

/-- A row as `leaf` takes it, the addresses read as numbers. -/
structure LeafRow where
  index : ℤ
  account : ℤ
  token : ℤ
  amount : ℤ

/-- `_word`: `to_bytes(32, "big")` raises on what does not fit. -/
def word (value : ℤ) : Except String Bytes :=
  if value < 0 then .error "can't convert negative int to unsigned"
  else if 2 ^ 256 ≤ value then .error "int too big to convert"
  else .ok (toBytes 32 value.toNat)

def encodeRow (row : LeafRow) : Except String Bytes := do
  return (← word row.index) ++ (← word row.account) ++ (← word row.token) ++ (← word row.amount)

def leaf (row : LeafRow) : Except String Bytes :=
  (encodeRow row).map fun bytes => (keccak256 (keccak256 bytes).val).val

def leafChunk (rows : List LeafRow) : Except String Bytes :=
  (rows.mapM (leaf keccak256)).map List.flatten

def leaves (workers : ℤ) (started : Bool) (rows : List LeafRow) : Except String (List Bytes) :=
  if pool cfg workers rows.length started then
    ((chunks cfg.chunk rows).mapM (leafChunk keccak256)).map fun blobs =>
      split blobs.flatten rows.length
  else rows.mapM (leaf keccak256)

/-! ### Solidity -/

namespace Sol

/-- Solidity compares `bytes32` as numbers. -/
def hashPair (a b : Bytes32) : Bytes32 :=
  if beNat a.val < beNat b.val then keccak256 (a.val ++ b.val) else keccak256 (b.val ++ a.val)

/-- A checked array read. -/
def read {α : Type} (xs : List α) (i : ℕ) : Except String α :=
  match xs[i]? with
  | some x => .ok x
  | none => .error "array out-of-bounds access"

/-- `for (n = leaves.length; n > 1; n = (n + 1) / 2) depth++`. -/
def depthFrom (n depth : ℕ) : ℕ :=
  if 1 < n then depthFrom ((n + 1) / 2) (depth + 1) else depth
termination_by n

/-- The inner loop of `levels`. -/
def next (prev : List Bytes32) : Except String (List Bytes32) :=
  (List.range ((prev.length + 1) / 2)).mapM fun i => do
    let l := 2 * i
    if l + 1 < prev.length then
      return hashPair keccak256 (← read prev l) (← read prev (l + 1))
    else read prev l

/-- Round `d` of the outer loop: `out[d]` from `out[d - 1]`. -/
def fillLevel (out : List (List Bytes32)) (d : ℕ) : Except String (List (List Bytes32)) := do
  let prev ← read out (d - 1)
  return out.set d (← next keccak256 prev)

/-- `levels`, the same text in both libraries. -/
def levels (leaves : List Bytes32) : Except String (List (List Bytes32)) :=
  if leaves.length = 0 then .error "no leaves"
  else
    let depth := depthFrom leaves.length 1
    let out := (List.replicate depth []).set 0 leaves
    (List.range' 1 (depth - 1)).foldlM (fillLevel keccak256) out

end Sol

/-- `BatchTree.levels` of the airdrop scripts. -/
def batchTreeLevels : List Bytes32 → Except String (List (List Bytes32)) := Sol.levels keccak256

/-- `ClaimTree.levels` of the claim contract's tests. -/
def claimTreeLevels : List Bytes32 → Except String (List (List Bytes32)) := Sol.levels keccak256

/-! ### Agreement -/

theorem hashPair_val (a b : Bytes32) :
    hashPair keccak256 a.val b.val = (Sol.hashPair keccak256 a b).val := by
  simp only [hashPair, Sol.hashPair, lt_iff_beNat_lt (a.property.trans b.property.symm)]
  split_ifs <;> rfl

theorem hashPair_length (a b : Bytes) : (hashPair keccak256 a b).length = 32 := by
  unfold hashPair
  split_ifs <;> exact (keccak256 _).property

/-- What a level is at every height: 32-byte nodes. -/
def Nodes (l : List Bytes) : Prop := ∀ n ∈ l, n.length = 32

theorem nodes_levelUp {l : List Bytes} (h : Nodes l) :
    Nodes (Merkle.levelUp (hashPair keccak256) l) :=
  Merkle.levelUp_forall _ (fun a b _ _ => hashPair_length keccak256 a b) h

/-- A worker finds the pairs again in the joined nodes. -/
theorem pairChunk_flatten {ns : List Bytes} (h : Nodes ns ∧ 2 ∣ ns.length) :
    pairChunk keccak256 ns.flatten = (Merkle.levelUp (hashPair keccak256) ns).flatten := by
  obtain ⟨hn, he⟩ := h
  induction ns using Merkle.levelUp.induct with
  | case1 a b rest ih =>
    have ha : a.length = 32 := hn a (by simp)
    have hb : b.length = 32 := hn b (by simp)
    have hr : 2 ∣ rest.length := by simp only [List.length_cons] at he; omega
    have hlen : (a :: b :: rest).flatten.length = 64 + rest.flatten.length := by
      simp only [List.flatten_cons, List.length_append]; omega
    have hdrop : (a :: b :: rest).flatten.drop 64 = rest.flatten := by
      rw [List.flatten_cons, List.flatten_cons, ← List.append_assoc]
      exact List.drop_left' (by simp [ha, hb])
    have hfst : slice (a :: b :: rest).flatten 0 32 = a := List.take_left' ha
    have hsnd : slice (a :: b :: rest).flatten 32 64 = b := by
      have := slice_add (a :: b :: rest).flatten 32 0 32
      simp only [Nat.add_zero, List.flatten_cons, List.drop_left' ha] at this
      simpa [slice_zero, List.take_left' hb] using this
    rw [pairChunk, starts_succ (by decide) (by omega), List.map_cons, List.map_map, hlen,
      Nat.add_sub_cancel_left, hfst, hsnd, Merkle.levelUp, List.flatten_cons,
      List.flatten_cons (l := hashPair keccak256 a b), ← ih (fun n hm => hn n (by simp [hm])) hr]
    refine congrArg _ (congrArg _ (List.map_congr_left fun i _ => ?_))
    simp only [Function.comp_apply, Nat.add_assoc, slice_add, ← hdrop, List.drop_drop]
  | case2 a => simp at he
  | case3 => rfl

/-- A cut after whole pairs leaves 32-byte nodes in whole pairs on both sides. -/
theorem nodes_cut {chunk : ℕ} {xs : List Bytes} (h : Nodes xs ∧ 2 ∣ xs.length) :
    (Nodes (xs.take (2 * chunk)) ∧ 2 ∣ (xs.take (2 * chunk)).length) ∧
      Nodes (xs.drop (2 * chunk)) ∧ 2 ∣ (xs.drop (2 * chunk)).length := by
  obtain ⟨hn, he⟩ := h
  refine ⟨⟨fun n hm => hn n (List.mem_of_mem_take hm), ?_⟩,
    fun n hm => hn n (List.mem_of_mem_drop hm), ?_⟩
  · rw [List.length_take]; omega
  · rw [List.length_drop]; omega

/-- What the workers return, joined: the blobs cover the paired prefix, and every blob
ends at a pair. -/
theorem pooled_pairs {paired : ℕ} {prev : List Bytes} (h : Nodes prev) (he : 2 ∣ paired)
    (hle : paired ≤ prev.length) :
    (((starts paired (2 * cfg.chunk)).map fun i =>
      (slice prev i (min (i + 2 * cfg.chunk) paired)).flatten).map (pairChunk keccak256)).flatten =
      (Merkle.levelUp (hashPair keccak256) (prev.take paired)).flatten := by
  have hstep : 0 < 2 * cfg.chunk := Nat.mul_pos (by decide) cfg.chunk_pos
  have hlen : (prev.take paired).length = paired := by simp [hle]
  have hs : ∀ i, slice prev i (min (i + 2 * cfg.chunk) paired) =
      slice (prev.take paired) i (i + 2 * cfg.chunk) := by
    intro i
    simp only [slice, List.take_take]
  have hwork := flatMap_chunks hstep (f := fun c => (Merkle.levelUp (hashPair keccak256) c).flatten)
    (fun _ => nodes_cut) (fun _ hc => pairChunk_flatten keccak256 hc) rfl
    (fun a b ha => by simp [Merkle.levelUp_append _ (Dvd.intro cfg.chunk ha.symm)])
    (prev.take paired) ⟨fun n hn => h n (List.mem_of_mem_take hn), by rwa [hlen]⟩
  simp only [hs, List.map_map, ← hwork, chunks, hlen, List.flatMap_def]
  rfl

/-- The pooled round builds the same level. -/
theorem nextLevel_eq (pooled : Bool) {prev : List Bytes} (h : Nodes prev) :
    nextLevel keccak256 cfg pooled prev = Merkle.levelUp (hashPair keccak256) prev := by
  have hsplit : ∀ n : ℕ, 2 ∣ n →
      split (Merkle.levelUp (hashPair keccak256) (prev.take n)).flatten (n / 2) =
        Merkle.levelUp (hashPair keccak256) (prev.take n) := by
    intro n hn
    unfold split
    split_ifs with h0
    · exact chunks_flatten (by decide)
        (nodes_levelUp keccak256 fun m hm => h m (List.mem_of_mem_take hm))
    · rw [show n = 0 by omega]
      rfl
  simp only [nextLevel]
  by_cases hp : pooled ∧ cfg.parallelMin ≤ prev.length - prev.length % 2
  · rw [if_pos hp, pooled_pairs keccak256 cfg h (by omega) (by omega), hsplit _ (by omega)]
    exact (Merkle.levelUp_paired _ prev).symm
  · rw [if_neg hp]
    exact ClaimTree.nextLevel_eq _ _

/-- With or without worker processes `levels` is the one-process `ClaimTree.levels`. -/
theorem levels_eq_serial (workers : ℤ) (started : Bool) {leafList : List Bytes} (h : Nodes leafList) :
    levels keccak256 cfg workers started leafList = ClaimTree.levels (hashPair keccak256) leafList := by
  have hser : ClaimTree.nextLevel (hashPair keccak256) = Merkle.levelUp (hashPair keccak256) :=
    funext (ClaimTree.nextLevel_eq _)
  simp only [levels, ClaimTree.levels]
  rw [hser, Merkle.climb_congr (P := Nodes) (fun l hl => nextLevel_eq keccak256 cfg _ hl)
    (fun l hl => nodes_levelUp keccak256 hl) _ h]

theorem leaf_length {row : LeafRow} {d : Bytes} (h : leaf keccak256 row = .ok d) : d.length = 32 := by
  obtain ⟨bytes, -, rfl⟩ := Except.of_map_ok h
  exact (keccak256 _).property

theorem mapM_leaf_nodes {rows : List LeafRow} {ls : List Bytes}
    (h : rows.mapM (leaf keccak256) = .ok ls) : Nodes ls ∧ ls.length = rows.length := by
  induction rows generalizing ls with
  | nil =>
    obtain rfl : [] = ls := by simpa [pure, Except.pure] using h
    exact ⟨by simp [Nodes], rfl⟩
  | cons row rows ih =>
    rw [List.mapM_cons] at h
    obtain ⟨d, hd, h⟩ := Except.of_bind_ok h
    obtain ⟨ds, hds, h⟩ := Except.of_bind_ok h
    obtain rfl : d :: ds = ls := by simpa [pure, Except.pure] using h
    obtain ⟨hn, hl⟩ := ih hds
    refine ⟨?_, by simp [hl]⟩
    intro n hm
    rcases List.mem_cons.mp hm with rfl | hm
    · exact leaf_length keccak256 hd
    · exact hn n hm

/-- The leaves come in row order, chunked or not, and an unencodable row fails both ways. -/
theorem leaves_eq (workers : ℤ) (started : Bool) (rows : List LeafRow) :
    leaves keccak256 cfg workers started rows = rows.mapM (leaf keccak256) := by
  unfold leaves
  split_ifs with hp
  · have hchunk : (chunks cfg.chunk rows).mapM (leafChunk keccak256) =
        ((chunks cfg.chunk rows).mapM fun r : List LeafRow => r.mapM (leaf keccak256)).map
          (List.map List.flatten) := by
      generalize chunks cfg.chunk rows = cs
      induction cs with
      | nil => rfl
      | cons c cs ih =>
        rw [List.mapM_cons, List.mapM_cons, ih, leafChunk]
        cases c.mapM (leaf keccak256) with
        | error e => rfl
        | ok ls =>
          cases cs.mapM fun r : List LeafRow => r.mapM (leaf keccak256) <;> rfl
    have hall := mapM_chunks cfg.chunk_pos (leaf keccak256) rows
    rw [hchunk]
    cases hc : (chunks cfg.chunk rows).mapM fun r : List LeafRow => r.mapM (leaf keccak256) with
    | error e => rw [hc] at hall; exact hall
    | ok parts =>
      rw [hc] at hall
      obtain ⟨hn, hl⟩ := mapM_leaf_nodes keccak256 hall.symm
      rw [← hall]
      simp only [Except.map, split, ← List.flatten_flatten, ← hl]
      split_ifs with h0
      · exact congrArg _ (chunks_flatten (by decide) hn)
      · exact congrArg _ (List.length_eq_zero_iff.mp (not_not.mp h0)).symm
  · rfl

namespace Sol

theorem mapM_read {α : Type} (xs : List α) : (List.range xs.length).mapM (read xs) = .ok xs := by
  induction xs with
  | nil => rfl
  | cons x xs ih =>
    have hshift : read (x :: xs) ∘ Nat.succ = read xs := by
      funext i
      simp [read]
    rw [List.length_cons, List.range_succ_eq_map, List.mapM_cons, List.mapM_map, hshift, ih]
    rfl

/-- Every read of the inner loop is inside the array, and position `i` gets node `i`. -/
theorem next_eq (prev : List Bytes32) :
    next keccak256 prev = .ok (Merkle.levelUp (hashPair keccak256) prev) := by
  rw [← mapM_read (Merkle.levelUp (hashPair keccak256) prev), Merkle.levelUp_length, next]
  refine Except.mapM_congr fun i hi => ?_
  have hi' : 2 * i < prev.length := by have := List.mem_range.mp hi; omega
  simp only [read, Merkle.levelUp_getElem?, List.getElem?_eq_getElem hi']
  by_cases h1 : 2 * i + 1 < prev.length
  · simp only [h1, if_true, List.getElem?_eq_getElem h1]
    rfl
  · simp [h1]

theorem depthFrom_add (n depth : ℕ) : depthFrom n depth = depth + depthFrom n 0 := by
  induction n using Nat.strong_induction_on generalizing depth with
  | _ n ih =>
    rw [depthFrom, depthFrom.eq_1 n 0]
    split_ifs with h
    · rw [ih _ (by omega) (depth + 1), ih _ (by omega) (0 + 1)]
      omega
    · rfl

/-- The outer loop from level `l` on, which stands after the levels in `below`. -/
theorem fill_eq (n : ℕ) {l : List Bytes32} (hl : l.length ≤ n + 1) (below : List (List Bytes32)) :
    (List.range' (below.length + 1) (depthFrom l.length 0)).foldlM (fillLevel keccak256)
        (below ++ l :: List.replicate (depthFrom l.length 0) []) =
      .ok (below ++ Merkle.climb (Merkle.levelUp (hashPair keccak256)) n l) := by
  induction n generalizing l below with
  | zero =>
    have h0 : depthFrom l.length 0 = 0 := by rw [depthFrom, if_neg (by omega)]
    rw [h0]
    rfl
  | succ n ih =>
    by_cases h1 : 1 < l.length
    · set k := depthFrom ((l.length + 1) / 2) 0 with hk
      have hd : depthFrom l.length 0 = k + 1 := by
        rw [depthFrom, if_pos h1, depthFrom_add, hk]
        omega
      have hread : read (below ++ l :: List.replicate (k + 1) []) (below.length + 1 - 1) = .ok l := by
        simp [read]
      have hset : (below ++ l :: List.replicate (k + 1) []).set (below.length + 1)
          (Merkle.levelUp (hashPair keccak256) l) =
          (below ++ [l]) ++ Merkle.levelUp (hashPair keccak256) l :: List.replicate k [] := by
        simp [List.replicate_succ]
      have hup := ih (l := Merkle.levelUp (hashPair keccak256) l)
        (by rw [Merkle.levelUp_length]; omega) (below ++ [l])
      rw [Merkle.levelUp_length, ← hk, List.length_append, List.length_singleton] at hup
      rw [hd, List.range'_succ, List.foldlM_cons, fillLevel, hread]
      simp only [bind, Except.bind, next_eq, pure, Except.pure, hset, Merkle.climb, if_pos h1]
      simpa using hup
    · have h0 : depthFrom l.length 0 = 0 := by rw [depthFrom, if_neg h1]
      rw [h0, Merkle.climb, if_neg h1]
      rfl

/-- The depth is counted beforehand, yet the array is filled to its last level. -/
theorem levels_eq {leaves : List Bytes32} (h : leaves ≠ []) :
    levels keccak256 leaves =
      .ok (Merkle.climb (Merkle.levelUp (hashPair keccak256)) leaves.length leaves) := by
  have hlen : leaves.length ≠ 0 := by simpa using h
  have hfill := fill_eq keccak256 leaves.length (Nat.le_succ leaves.length) []
  simp only [levels, if_neg hlen, depthFrom_add leaves.length 1, Nat.add_sub_cancel_left]
  simpa [Nat.add_comm 1, List.replicate_succ] using hfill

end Sol

/-- Every builder makes the same levels from the same leaves, whatever the worker count and
the chunking, and the leaves of any rows come in row order. -/
theorem builders_agree {leafList : List Bytes32} (hne : leafList ≠ []) (workers : ℤ) (started : Bool) :
    (∃ lv : List (List Bytes32),
      levels keccak256 cfg workers started (leafList.map Subtype.val) =
        .ok (lv.map (List.map Subtype.val)) ∧
      BatchTree.treeLevels (hashPair keccak256) (leafList.map Subtype.val) =
        .ok (lv.map (List.map Subtype.val)) ∧
      batchTreeLevels keccak256 leafList = .ok lv ∧ claimTreeLevels keccak256 leafList = .ok lv) ∧
    ∀ rows, leaves keccak256 cfg workers started rows = rows.mapM (leaf keccak256) := by
  have hnodes : Nodes (leafList.map Subtype.val) := by
    intro n hn
    obtain ⟨d, -, rfl⟩ := List.mem_map.mp hn
    exact d.property
  have hne' : leafList.map Subtype.val ≠ [] := List.map_eq_nil_iff.not.mpr hne
  have hclimb : Merkle.climb (Merkle.levelUp (hashPair keccak256)) leafList.length
      (leafList.map Subtype.val) =
      (Merkle.climb (Merkle.levelUp (Sol.hashPair keccak256)) leafList.length leafList).map
        (List.map Subtype.val) :=
    Merkle.climb_map (Merkle.levelUp_map _ (hashPair_val keccak256)) _ _
  refine ⟨⟨_, ?_, ?_, Sol.levels_eq keccak256 hne, Sol.levels_eq keccak256 hne⟩,
    leaves_eq keccak256 cfg workers started⟩
  · rw [levels_eq_serial keccak256 cfg workers started hnodes, ClaimTree.levels, if_neg hne',
      List.length_map, funext (ClaimTree.nextLevel_eq _), hclimb]
  · rw [BatchTree.treeLevels, if_neg hne', List.length_map, funext (BatchTree.nextLevel_eq _), hclimb]

/-- The reference hash of the Python tools. -/
def keccak256Reference (data : Bytes) : Bytes32 :=
  ⟨Keccak256.keccak256Pure data, Keccak256.keccak256Pure_length data⟩

/-- Three leaves, the source's own chunking and four workers. -/
def threeLeaves : List Bytes32 := [[1], [2], [3]].map keccak256Reference

theorem builders_agree_three_leaves :
    threeLeaves ≠ [] ∧
    (∃ lv : List (List Bytes32),
      levels keccak256Reference .default 4 true (threeLeaves.map Subtype.val) =
        .ok (lv.map (List.map Subtype.val)) ∧
      BatchTree.treeLevels (hashPair keccak256Reference) (threeLeaves.map Subtype.val) =
        .ok (lv.map (List.map Subtype.val)) ∧
      batchTreeLevels keccak256Reference threeLeaves = .ok lv ∧
      claimTreeLevels keccak256Reference threeLeaves = .ok lv) ∧
    ∀ rows, leaves keccak256Reference .default 4 true rows = rows.mapM (leaf keccak256Reference) :=
  ⟨List.cons_ne_nil _ _, builders_agree keccak256Reference .default (List.cons_ne_nil _ _) 4 true⟩

end HarmonyMigration.Builders
