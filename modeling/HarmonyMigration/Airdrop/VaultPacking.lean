import HarmonyMigration.Airdrop.VaultPlan

/-! Where the deposits of a plan are: each in one call, no call and no transaction too large. -/

namespace HarmonyMigration.Airdrop.VaultBatch

open Erc20 Slices

/-! ### Cutting a list -/

section Cut

variable {α : Type*}

theorem splitSizes_none (count n : ℕ) : splitSizes count n none =
    if count = 0 then []
    else
      List.replicate (count % ((count + n - 1) / n)) (count / ((count + n - 1) / n) + 1) ++
        List.replicate ((count + n - 1) / n - count % ((count + n - 1) / n)) (count / ((count + n - 1) / n)) := rfl

/-- As many parts as are needed, and their least size. -/
theorem parts_bounds {count n : ℕ} (hn : 1 ≤ n) (hc : count ≠ 0) :
    0 < (count + n - 1) / n ∧ count ≤ (count + n - 1) / n * n := by
  constructor
  · exact Nat.div_pos (by omega) hn
  · have h := Nat.lt_div_mul_add (a := count + n - 1) hn
    omega

theorem sum_splitSizes {count n : ℕ} (hn : 1 ≤ n) : (splitSizes count n none).sum = count := by
  rw [splitSizes_none]
  split_ifs with hc
  · exact hc.symm
  · obtain ⟨hpos, -⟩ := parts_bounds hn hc
    set parts := (count + n - 1) / n
    have hmod := Nat.mod_lt count hpos
    rw [List.sum_append, List.sum_replicate, List.sum_replicate, smul_eq_mul, smul_eq_mul, Nat.mul_succ,
      Nat.sub_mul]
    have hle : count % parts * (count / parts) ≤ parts * (count / parts) := Nat.mul_le_mul_right _ hmod.le
    have hdiv := Nat.div_add_mod count parts
    omega

theorem splitSizes_le {count n : ℕ} (hn : 1 ≤ n) : ∀ size ∈ splitSizes count n none, size ≤ n := by
  intro size hsize
  rw [splitSizes_none] at hsize
  split_ifs at hsize with hc
  · cases hsize
  · obtain ⟨hpos, hle⟩ := parts_bounds hn hc
    set parts := (count + n - 1) / n
    have hdiv := Nat.div_add_mod count parts
    rcases List.mem_append.mp hsize with h | h
    · obtain ⟨hextra, rfl⟩ := List.mem_replicate.mp h
      -- a remainder means that the equal parts do not reach the limit
      apply Nat.lt_of_mul_lt_mul_left (a := parts)
      omega
    · obtain ⟨-, rfl⟩ := List.mem_replicate.mp h
      apply Nat.le_of_mul_le_mul_left _ hpos
      omega

theorem flatten_cut {sizes : List ℕ} {rows : List α} (h : sizes.sum = rows.length) : (cut rows sizes).flatten = rows := by
  induction sizes generalizing rows with
  | nil => exact (List.length_eq_zero_iff.mp h.symm).symm
  | cons size sizes ih =>
    rw [List.sum_cons] at h
    rw [cut, List.flatten_cons, ih (by rw [List.length_drop]; omega), List.take_append_drop]

theorem length_le_of_mem_cut {sizes : List ℕ} {rows chunk : List α} {n : ℕ} (h : ∀ size ∈ sizes, size ≤ n)
    (hchunk : chunk ∈ cut rows sizes) : chunk.length ≤ n := by
  induction sizes generalizing rows with
  | nil => cases hchunk
  | cons size sizes ih =>
    rw [cut] at hchunk
    rcases List.mem_cons.mp hchunk with rfl | hchunk
    · rw [List.length_take]
      have := h size List.mem_cons_self
      omega
    · exact ih (fun s hs => h s (List.mem_cons_of_mem size hs)) hchunk

end Cut

/-! ### Items -/

theorem vault_of_mem_itemsOf {maxRows : ℕ} {v : Vault} {m : Item} (h : m ∈ itemsOf maxRows v) : m.vault = v := by
  obtain ⟨c, -, rfl⟩ := List.mem_map.mp h
  rfl

theorem length_chunk_le {maxRows : ℕ} (hrows : 1 ≤ maxRows) {v : Vault} {m : Item} (h : m ∈ itemsOf maxRows v) :
    m.chunk.length ≤ maxRows := by
  obtain ⟨c, hc, rfl⟩ := List.mem_map.mp h
  exact length_le_of_mem_cut (splitSizes_le hrows) (List.fst_mem_of_mem_zipIdx hc)

/-- The parts of a vault are its deposits. -/
theorem flatMap_itemsOf {maxRows : ℕ} (hrows : 1 ≤ maxRows) (v : Vault) :
    (itemsOf maxRows v).flatMap Item.chunk = v.deposits := by
  have hmap : (itemsOf maxRows v).map Item.chunk = cut v.deposits (splitSizes v.deposits.length maxRows none) := by
    rw [itemsOf, List.map_map]
    exact List.zipIdx_map_fst 0 _
  rw [List.flatMap_def, hmap, flatten_cut (sum_splitSizes hrows)]

/-! ### The transactions -/

/-- The calls of a funding transaction, vault by vault. -/
structure Funds (token : Address) (gasTarget : ℕ) (members : List Item) (tx : PlannedTx) : Prop where
  kind_eq : tx.kind = .fund
  vaults_eq : tx.vaults = members.map Item.vault
  deposits_eq : tx.deposits = members.map Item.chunk
  calls_eq : ∃ calls, members.mapM (fundCalls token) = .ok calls ∧ tx.calls = calls.flatten
  gas_eq : tx.estimatedGas = fundBaseGas + (members.map Item.gas).sum
  gas_le : tx.estimatedGas ≤ gasTarget

/-- What `fund_txs` accepts for its limits. -/
structure Limits (gasTarget maxRows : ℕ) : Prop where
  rows_pos : 1 ≤ maxRows
  call_fits : fundBaseGas + fundCallGas + fundRowGas * maxRows ≤ gasTarget

variable {token : Address} {vaults : List Vault} {gasTarget maxRows : ℕ} {txs : List PlannedTx}

/-- The parts in the transactions, with their vaults. -/
def placed (txs : List PlannedTx) : List (Vault × List Deposit) := txs.flatMap fun tx => tx.vaults.zip tx.deposits

theorem gas_le_of_mem {m : Item} (hlim : Limits gasTarget maxRows) (hm : m ∈ vaults.flatMap (itemsOf maxRows)) :
    m.gas ≤ gasTarget - fundBaseGas := by
  obtain ⟨v, -, hv⟩ := List.mem_flatMap.mp hm
  have hlen := length_chunk_le hlim.rows_pos hv
  have hrows : fundRowGas * m.chunk.length ≤ fundRowGas * maxRows := Nat.mul_le_mul_left _ hlen
  have hfits := hlim.call_fits
  rw [Item.gas]
  omega

theorem funds_of_bin {b : FirstFit.Bin Item} {tx : PlannedTx} (hlim : Limits gasTarget maxRows)
    (hb : b.Ok Item.gas (gasTarget - fundBaseGas))
    (h : ((b.items.insertionSort Item.before).mapM (fundCalls token)).map (fun calls =>
      ({ kind := .fund, calls := calls.flatten, vaults := (b.items.insertionSort Item.before).map Item.vault,
         deposits := (b.items.insertionSort Item.before).map Item.chunk, estimatedGas := fundBaseGas + b.used } :
        PlannedTx)) = .ok tx) :
    Funds token gasTarget (b.items.insertionSort Item.before) tx := by
  obtain ⟨calls, hcalls, rfl⟩ := Except.of_map_ok h
  have hperm : (b.items.insertionSort Item.before).Perm b.items := List.perm_insertionSort _ b.items
  have hfits := hlim.call_fits
  have hused := hb.used_le
  refine ⟨rfl, rfl, rfl, ⟨calls, hcalls, rfl⟩, ?_, ?_⟩
  · show fundBaseGas + b.used = _
    rw [hb.used_eq, (hperm.map Item.gas).sum_eq]
  · show fundBaseGas + b.used ≤ gasTarget
    omega

/-- Sorting twice and packing move the parts about, and lose or double none. -/
theorem fundTxs_ok (hlim : Limits gasTarget maxRows) (h : fundTxs token vaults gasTarget maxRows = .ok txs) :
    ∃ groups : List (List Item), List.Forall₂ (Funds token gasTarget) groups txs ∧
      groups.flatten.Perm (vaults.flatMap (itemsOf maxRows)) := by
  have hall := Except.forall₂_of_mapM_ok h
  set items := vaults.flatMap (itemsOf maxRows)
  have hsort : (items.insertionSort Item.larger).Perm items := List.perm_insertionSort _ items
  have hsizes : ∀ m ∈ items.insertionSort Item.larger, m.gas ≤ gasTarget - fundBaseGas := by
    intro m hm
    exact gas_le_of_mem hlim (hsort.mem_iff.mp hm)
  have hok := FirstFit.pack_ok hsizes
  have hpack : ((FirstFit.pack Item.gas (gasTarget - fundBaseGas) (items.insertionSort Item.larger)).flatMap
      FirstFit.Bin.items).Perm (items.insertionSort Item.larger) := FirstFit.pack_perm _
  set bins := FirstFit.pack Item.gas (gasTarget - fundBaseGas) (items.insertionSort Item.larger)
  refine ⟨bins.map fun b => b.items.insertionSort Item.before, ?_, ?_⟩
  · rw [List.forall₂_map_left_iff]
    apply List.Forall₂.imp _ ((List.forall₂_and_left _ _).mpr ⟨hok, hall⟩)
    intro b tx hb
    exact funds_of_bin hlim hb.1 hb.2
  · apply List.Perm.trans _ (hpack.trans hsort)
    rw [← List.flatMap_def]
    exact List.Perm.flatMap_left bins fun b _ => List.perm_insertionSort _ b.items

theorem zip_vaults_deposits {members : List Item} {tx : PlannedTx} (h : Funds token gasTarget members tx) :
    tx.vaults.zip tx.deposits = members.map fun m => (m.vault, m.chunk) := by
  rw [h.vaults_eq, h.deposits_eq, List.zip_map']

/-- Every part of every vault is in one transaction. -/
theorem placed_perm (hlim : Limits gasTarget maxRows) (h : fundTxs token vaults gasTarget maxRows = .ok txs) :
    (placed txs).Perm ((vaults.flatMap (itemsOf maxRows)).map fun m => (m.vault, m.chunk)) := by
  obtain ⟨groups, hall, hperm⟩ := fundTxs_ok hlim h
  have hplaced : placed txs = groups.flatten.map fun m => (m.vault, m.chunk) := by
    clear h hperm
    induction hall with
    | nil => rfl
    | cons hfunds _ ih =>
      rw [placed, List.flatMap_cons, zip_vaults_deposits hfunds, List.flatten_cons, List.map_append, ← ih, placed]
  rw [hplaced]
  exact hperm.map _

/-- Every deposit of every vault is in one call. -/
theorem deposits_placed (hlim : Limits gasTarget maxRows) (h : fundTxs token vaults gasTarget maxRows = .ok txs) :
    ((placed txs).flatMap fun p => p.2.map fun d => (p.1, d)).Perm
      (vaults.flatMap fun v => v.deposits.map fun d => (v, d)) := by
  apply ((placed_perm hlim h).flatMap_right _).trans
  apply List.Perm.of_eq
  rw [List.flatMap_map, List.flatMap_assoc]
  apply List.flatMap_congr
  intro v _
  rw [← flatMap_itemsOf hlim.rows_pos v, List.map_flatMap]
  apply List.flatMap_congr
  intro m hm
  rw [vault_of_mem_itemsOf hm]

end HarmonyMigration.Airdrop.VaultBatch
