import HarmonyMigration.Lib.Bitmap
import HarmonyMigration.Lib.Keccak
import HarmonyMigration.Lib.Merkle
import HarmonyMigration.Lib.Erc20

/-! `claim_tree.py`: rows, leaves and the tree of a claim list, hashed in one
process. Nodes are digests of any ordered type; `Tree/Builders` treats the byte
strings and the worker processes. -/

namespace HarmonyMigration.ClaimTree

open Keccak Erc20 Bitmap

variable {D : Type}

/-- One published row: who is paid, in which token, how much. -/
structure Row where
  account : Address
  token : Address
  amount : Word
  deriving DecidableEq

/-- `encode_row`: `abi.encode(index, account, token, amount)` as four words. -/
def encodeRow (index : Word) (account token : Address) (amount : Word) : List Word :=
  [index, addressWord account, addressWord token, amount]

def leaf (K : HashFn D) (index : Word) (account token : Address) (amount : Word) : D :=
  K.double (encodeRow index account token amount)

/-- The leaves of numbered rows, in row order. -/
def leaves (K : HashFn D) (rows : List (Word × Row)) : List D :=
  rows.map fun p => leaf K p.1 p.2.account p.2.token p.2.amount

/-- `common.hash_pair`: smaller node first. -/
def hashPair [LinearOrder D] (K : HashFn D) (a b : D) : D :=
  if a < b then K.pair a b else K.pair b a

/-- The next level in `levels`: the paired prefix, then an unpaired last node. -/
def nextLevel (hashPair : D → D → D) (prev : List D) : List D :=
  let paired := prev.length - prev.length % 2
  let nxt := (List.range (paired / 2)).filterMap fun k =>
    prev[2 * k]?.bind fun a => prev[2 * k + 1]?.map fun b => hashPair a b
  if paired < prev.length then nxt ++ prev.getLast?.toList else nxt

def levels (hashPair : D → D → D) (leafList : List D) : Except String (List (List D)) :=
  if leafList = [] then .error "no leaves"
  else .ok (Merkle.climb (nextLevel hashPair) leafList.length leafList)

def root (treeLevels : List (List D)) : Option D := Merkle.top treeLevels

/-- A word list pins the row it encodes. -/
theorem encodeRow_injective {i j : Word} {a t b u : Address} {m n : Word}
    (h : encodeRow i a t m = encodeRow j b u n) : i = j ∧ a = b ∧ t = u ∧ m = n := by
  simp only [encodeRow, List.cons.injEq, and_true] at h
  obtain ⟨h1, h2, h3, h4⟩ := h
  exact ⟨h1, addressWord_injective h2, addressWord_injective h3, h4⟩

theorem leaf_injective (K : Hash D) {i j : Word} {a t b u : Address} {m n : Word}
    (h : leaf K.toHashFn i a t m = leaf K.toHashFn j b u n) : i = j ∧ a = b ∧ t = u ∧ m = n :=
  encodeRow_injective (K.double_injective h)

theorem nextLevel_eq (hashPair : D → D → D) (prev : List D) :
    nextLevel hashPair prev = Merkle.levelUp hashPair prev := by
  induction prev using Merkle.levelUp.induct with
  | case1 a b rest ih =>
    have hp : (a :: b :: rest).length - (a :: b :: rest).length % 2 =
        rest.length - rest.length % 2 + 2 := by simp only [List.length_cons]; omega
    have hk : (rest.length - rest.length % 2 + 2) / 2 = (rest.length - rest.length % 2) / 2 + 1 := by
      omega
    have hlast : rest.length - rest.length % 2 < rest.length →
        (a :: b :: rest).getLast? = rest.getLast? := by
      intro h
      cases rest with
      | nil => simp at h
      | cons c cs => simp
    simp only [nextLevel, Merkle.levelUp] at ih ⊢
    rw [← ih, hp, hk, List.range_succ_eq_map, List.filterMap_cons, List.filterMap_map]
    simp only [List.length_cons, Nat.mul_zero, List.getElem?_cons_zero, Nat.zero_add,
      List.getElem?_cons_succ, Option.bind_some, Option.map_some, Function.comp_def,
      Nat.succ_eq_add_one, Nat.mul_add]
    by_cases h : rest.length - rest.length % 2 < rest.length
    · rw [if_pos (by omega), if_pos h, hlast h]
      rfl
    · rw [if_neg (by omega), if_neg h]
  | case2 a => simp [nextLevel, Merkle.levelUp]
  | case3 => simp [nextLevel, Merkle.levelUp]

/-- Leaf `i` of the enumerated list is the fingerprint of row `i`. -/
theorem mem_leaves_enumerate (K : Hash D) {L : List Row} (hL : L.length < 2 ^ 256) {index : Word}
    {account token : Address} {amount : Word}
    (h : leaf K.toHashFn index account token amount ∈ leaves K.toHashFn (enumerate L)) :
    L[index.toNat]? = some ⟨account, token, amount⟩ := by
  obtain ⟨⟨i, row⟩, hm, he⟩ := List.mem_map.mp h
  obtain ⟨rfl, rfl, rfl, rfl⟩ := leaf_injective K he
  exact (mem_enumerate hL).mp hm

/-- Every non-empty list has a root. -/
theorem exists_root [LinearOrder D] (K : HashFn D) {L : List Row} (hL : L ≠ []) :
    ∃ lv r, levels (hashPair K) (leaves K (enumerate L)) = .ok lv ∧ root lv = some r := by
  have hne : leaves K (enumerate L) ≠ [] := by simpa [leaves, enumerate] using hL
  have hnext : nextLevel (hashPair K) = Merkle.levelUp (hashPair K) := funext (nextLevel_eq _)
  obtain ⟨r, hr⟩ := Merkle.exists_top (hashPair K) hne (Nat.le_succ _)
  exact ⟨_, r, if_neg hne, by rw [root, hnext, hr]⟩

/-- An accepted proof against the root of the list is about a row of the list. -/
theorem row_of_fold [LinearOrder D] (K : Hash D) {L : List Row} (hL : L.length < 2 ^ 256)
    {lv : List (List D)} {r : D}
    (hlv : levels (hashPair K) (leaves K (enumerate L)) = .ok lv) (hr : root lv = some r)
    {index : Word} {account token : Address} {amount : Word} (proof : List D)
    (h : Merkle.fold K.pair (leaf K index account token amount) proof = r) :
    L[index.toNat]? = some ⟨account, token, amount⟩ := by
  unfold levels at hlv
  split_ifs at hlv with hne
  have hnext : nextLevel (hashPair K) = Merkle.levelUp (Merkle.sorted K.pair) :=
    funext (nextLevel_eq (Merkle.sorted K.pair))
  rw [← Except.ok.inj hlv, hnext] at hr
  refine mem_leaves_enumerate K hL
    (Merkle.mem_leaves_of_fold K.pair_injective2 ?_ (Merkle.node_top _ hr)
      (K.pair_ne_double _) proof h)
  intro d hd a b
  obtain ⟨p, -, rfl⟩ := List.mem_map.mp hd
  exact K.pair_ne_double _ a b

end HarmonyMigration.ClaimTree
