import HarmonyMigration.Archive.AbandonedBlocksSearch
import HarmonyMigration.Archive.Links

/-! A list of abandoned blocks that succeeds is linked from the fork block on. Its blocks are abandoned exactly where no
branch of a found block leaves the canonical chain above the fork: the walk back stops at a height, not where it meets the
canonical chain. -/

namespace HarmonyMigration.Archive.AbandonedBlocks

open Airdrop.One1 ContractReview Decimal Except Worklist

section Branch

variable (u : Lower) (node : Node u)

/-- `p` is the parent of `b`. -/
def Parent (p b : Block) : Prop := p ∈ node.blocks ∧ b ∈ node.blocks ∧ u.lower b.parentHash = u.lower p.hash

/-- The branch of every abandoned block that is reached from the seeds leaves the canonical chain at the fork. -/
def LeavesAtFork (fork : ℕ) (upper : ℤ) (a : Args) : Prop :=
  ∀ hash, (∀ S ∈ ClosedSets u node fork upper a, hash ∈ S) → ∀ b, node.byHash u hash = some b →
    ∀ p, Relation.ReflTransGen (Parent u node) p b → p.number = fork + 1 → node.canonical (fork + 1) ≠ some p

end Branch

def rowOf (u : Lower) (b : Block) : ChainRow := ⟨b.number, u.lower b.hash, u.lower b.parentHash⟩

/-- What the list promises. -/
structure Exact (u : Lower) (node : Node u) (a : Args) (fork : ℕ) (forkHash : Text) (out : Output) : Prop where
  complete : Complete u node a fork out.found
  linked : ∃ blocks ≠ [], out.chain = blocks.map (rowOf u) ∧ (∀ b ∈ blocks, b ∈ node.blocks) ∧ Linked u fork forkHash blocks
  contains : ∀ hash ∈ out.found.stale.keys, hash ∈ out.chain.map ChainRow.blockHash
  abandoned : ∀ row ∈ out.chain, ∃ c, node.canonical row.blockNumber = some c ∧ u.lower c.hash ≠ row.blockHash

section List

variable {u : Lower} {node : Node u} {fork : ℕ} {upper : ℤ} {a : Args}

/-! ### The tree -/

theorem Parent.number {p b : Block} (h : Parent u node p b) : b.number = p.number + 1 :=
  node.parent_number b h.2.1 p h.1 h.2.2

theorem parent_unique {p q b : Block} (hp : Parent u node p b) (hq : Parent u node q b) : p = q :=
  eq_of_hash hp.1 hq.1 (hp.2.2.symm.trans hq.2.2)

theorem number_le_of_ancestor {p b : Block} (h : Relation.ReflTransGen (Parent u node) p b) : p.number ≤ b.number := by
  induction h with
  | refl => exact le_rfl
  | tail _ hstep ih =>
    have hnumber := hstep.number
    omega

/-- Of one number, a block has one ancestor. -/
theorem ancestor_unique {p q b : Block} (hp : Relation.ReflTransGen (Parent u node) p b)
    (hq : Relation.ReflTransGen (Parent u node) q b) (h : p.number = q.number) : p = q := by
  induction hp with
  | refl =>
    cases hq.cases_tail with
    | inl heq => exact heq
    | inr htail =>
      obtain ⟨c, hqc, hcp⟩ := htail
      have hle := number_le_of_ancestor hqc
      have hnumber := hcp.number
      omega
  | tail hpc hcb ih =>
    cases hq.cases_tail with
    | inl heq =>
      have hle := number_le_of_ancestor hpc
      have hnumber := hcb.number
      subst heq
      omega
    | inr htail =>
      obtain ⟨d, hqd, hdb⟩ := htail
      exact ih (parent_unique hdb hcb ▸ hqd)

/-- The ancestors of a canonical block are canonical. -/
theorem canonical_ancestor {p b : Block} (h : Relation.ReflTransGen (Parent u node) p b)
    (hb : node.canonical b.number = some b) : node.canonical p.number = some p := by
  induction h using Relation.ReflTransGen.head_induction_on with
  | refl => exact hb
  | head hstep _ ih =>
    rw [hstep.number] at ih
    obtain ⟨q, hq, hparent⟩ := node.canonical_parent _ _ ih
    have hqp := eq_of_hash (node.canonical_mem _ _ hq).1 hstep.1 (hparent.symm.trans hstep.2.2)
    exact hqp ▸ hq

/-- The first of linked blocks is an ancestor of each. -/
theorem first_ancestor {number : ℤ} {hash : Text} {first : Block} {rest : List Block}
    (hlinked : Linked u number hash (first :: rest)) (hmem : ∀ b ∈ first :: rest, b ∈ node.blocks) :
    ∀ b ∈ first :: rest, Relation.ReflTransGen (Parent u node) first b := by
  induction rest generalizing number hash first with
  | nil =>
    intro b hb
    obtain rfl := List.mem_singleton.mp hb
    exact .refl
  | cons c rest ih =>
    obtain ⟨-, -, hrest⟩ := hlinked
    have hparent : Parent u node first c := ⟨hmem first (by simp), hmem c (by simp), hrest.2.1⟩
    intro b hb
    rcases List.mem_cons.mp hb with rfl | hb
    · exact .refl
    · exact .head hparent (ih hrest (fun b hb => hmem b (List.mem_cons_of_mem _ hb)) b hb)

/-! ### The walk back -/

theorem walkBack_ok {forkHash : Text} {fuel : ℕ} {cursor : Text} {chain out : List ChainRow}
    (h : walkBack u node fork forkHash fuel cursor chain = .ok out) :
    ∃ blocks, out = blocks.map (rowOf u) ++ chain ∧ (∀ b ∈ blocks, b ∈ node.blocks) ∧ Linked u fork forkHash blocks ∧
      ∃ b, blocks.getLast? = some b ∧ u.lower b.hash = cursor := by
  induction fuel generalizing cursor chain with
  | zero => cases h
  | succ fuel ih =>
    obtain ⟨block, hblock, h⟩ := ofOption_bind_ok.mp h
    obtain ⟨hmem, hhash⟩ := mem_of_byHash hblock
    simp only at h
    split_ifs at h with hnumber
    · obtain ⟨_, hattached, rfl⟩ := of_map_ok h
      refine ⟨[block], rfl, by simpa using hmem, ⟨?_, of_require_ok hattached, trivial⟩, block, rfl, hhash⟩
      exact_mod_cast hnumber
    · obtain ⟨blocks, rfl, hblocks, hlinked, b, hlast, hparent⟩ := ih h
      have hbnumber := hlinked.last_number hlast
      have hchild := node.parent_number block hmem b (hblocks b (List.mem_of_getLast? hlast)) hparent.symm
      refine ⟨blocks ++ [block], by simp [rowOf], fun c hc => ?_, linked_snoc.mpr ⟨hlinked, ?_, ?_⟩, block, by simp, hhash⟩
      · rcases List.mem_append.mp hc with hc | hc
        · exact hblocks c hc
        · exact List.mem_singleton.mp hc ▸ hmem
      · push_cast [hchild]
        omega
      · rw [tip, hlast]
        exact hparent.symm

/-- Numbers fall on the walk back, so it ends above the fork. -/
theorem walkBack_total {forkHash : Text} {fuel : ℕ} {cursor : Text} {chain : List ChainRow}
    (hfuel : ∀ b, node.byHash u cursor = some b → fork < b.number ∧ b.number ≤ fork + fuel) (hpos : 0 < fuel) :
    walkBack u node fork forkHash fuel cursor chain ≠ .error .outOfFuel := by
  induction fuel generalizing cursor chain with
  | zero => omega
  | succ fuel ih =>
    rw [walkBack]
    cases hblock : node.byHash u cursor with
    | none => simp [ofOption, Except.bind]
    | some block =>
      obtain ⟨habove, hbelow⟩ := hfuel block hblock
      rw [ofOption, Option.elim_some, bind_ok_left]
      simp only
      split_ifs with hnumber
      · unfold require
        split_ifs <;> simp [Except.map]
      · refine ih (fun p hp => ?_) (by omega)
        obtain ⟨hp, hhash⟩ := mem_of_byHash hp
        have hchild := node.parent_number block (mem_of_byHash hblock).1 p hp hhash.symm
        omega

/-! ### The list -/

theorem upperBound_le (node : Node u) (a : Args) : upperBound u node a ≤ node.head := min_le_right _ _

/-- What a run that succeeds went through. -/
structure Ran (u : Lower) (node : Node u) (a : Args) (fork : ℕ) (forkHash : Text) (fuel : ℕ) (out : Output) : Prop where
  found : Running u node a fork (upperBound u node a) out.found
  pending : out.found.pending = []
  top : ∃ top n, (top, n) ∈ out.found.stale.entries ∧ walkBack u node fork forkHash fuel top [] = .ok out.chain
  contains : ∀ hash ∈ out.found.stale.keys, hash ∈ out.chain.map ChainRow.blockHash

theorem ran_of_main {forkHash : Text} (hfork : parseBlockPin u a.fork = .ok ⟨fork, forkHash⟩)
    (hindex : ∀ i ∈ [node.regular, node.staking], i.Descends fork (a.maxPages * a.pageSize)) {fuel : ℕ} {out : Output}
    (h : main u node a fuel = .ok out) : Ran u node a fork forkHash fuel out := by
  obtain ⟨-, h⟩ := require_bind_ok.mp h
  obtain ⟨pin, hpin, h⟩ := of_bind_ok h
  obtain rfl := Except.ok.inj (hfork.symm.trans (mapError_ok hpin))
  obtain ⟨-, h⟩ := require_bind_ok.mp h
  rw [Int.toNat_natCast] at h
  obtain ⟨hash, -, h⟩ := of_bind_ok h
  obtain ⟨-, h⟩ := require_bind_ok.mp h
  obtain ⟨found, hfound, h⟩ := of_bind_ok h
  obtain ⟨top, htop, h⟩ := ofOption_bind_ok.mp h
  obtain ⟨chain, hchain, h⟩ := of_bind_ok h
  obtain ⟨_, hoff, rfl⟩ := of_map_ok h
  obtain ⟨hrunning, hpending⟩ := search_ok hindex running_begin hfound
  refine ⟨hrunning, hpending, ⟨top.1, top.2, List.argmax_mem htop, hchain⟩, fun hash hhash => ?_⟩
  by_contra hnot
  have hmem : hash ∈ found.stale.keys.filter (· ∉ chain.map ChainRow.blockHash) :=
    List.mem_filter.mpr ⟨hhash, decide_eq_true hnot⟩
  rw [of_require_ok hoff] at hmem
  exact List.not_mem_nil hmem

theorem numbers_le {blocks : List Block} {forkHash : Text} (hlinked : Linked u fork forkHash blocks) {last : Block}
    (hlast : blocks.getLast? = some last) {b : Block} (hb : b ∈ blocks) : b.number ≤ last.number := by
  have hbound := (hlinked.numbers.1 b hb).2
  have hnumber := hlinked.last_number hlast
  omega

/-- A canonical block among linked ones makes the first canonical. -/
theorem abandoned_of_first {first : Block} {rest : List Block} {forkHash : Text}
    (hlinked : Linked u fork forkHash (first :: rest)) (hmem : ∀ b ∈ first :: rest, b ∈ node.blocks)
    (hfirst : node.canonical (fork + 1) ≠ some first) {b : Block} (hb : b ∈ first :: rest) (hhead : b.number ≤ node.head) :
    ∃ c, node.canonical b.number = some c ∧ u.lower c.hash ≠ u.lower b.hash := by
  obtain ⟨c, hc⟩ := Option.isSome_iff_exists.mp (node.canonical_head b.number hhead)
  refine ⟨c, hc, fun heq => hfirst ?_⟩
  have hcb := eq_of_hash (node.canonical_mem _ _ hc).1 (hmem b hb) heq
  have hcanonical := canonical_ancestor (first_ancestor hlinked hmem b hb) (hcb ▸ hc)
  have hnumber : first.number = fork + 1 := by exact_mod_cast hlinked.1
  rwa [hnumber] at hcanonical

theorem Ran.exact_iff {forkHash : Text} {fuel : ℕ} {out : Output} (h : Ran u node a fork forkHash fuel out) :
    Exact u node a fork forkHash out ↔ LeavesAtFork u node fork (upperBound u node a) a := by
  have hcomplete := complete_of_running h.found h.pending
  obtain ⟨top, n, htop, hchain⟩ := h.top
  obtain ⟨blocks, hout, hblocks, hlinked, last, hlast, hlasthash⟩ := walkBack_ok hchain
  rw [List.append_nil] at hout
  obtain ⟨first, rest, rfl⟩ := List.exists_cons_of_ne_nil (List.ne_nil_of_mem (List.mem_of_getLast? hlast))
  have hnumber : first.number = fork + 1 := by exact_mod_cast hlinked.1
  constructor
  · intro hexact hash hreached b hb p hp hpnumber hcanonical
    have hstale : hash ∈ out.found.stale.keys := hreached _ hcomplete.least.1
    obtain ⟨row, hrow, hrowhash⟩ := List.mem_map.mp (h.contains hash hstale)
    rw [hout] at hrow
    obtain ⟨b', hb', rfl⟩ := List.mem_map.mp hrow
    obtain rfl : b' = b := by
      obtain ⟨hbmem, hbhash⟩ := mem_of_byHash hb
      exact eq_of_hash (hblocks b' hb') hbmem (hrowhash.trans hbhash.symm)
    have hpfirst := ancestor_unique hp (first_ancestor hlinked hblocks b' hb') (hpnumber.trans hnumber.symm)
    obtain ⟨c, hc, hne⟩ := hexact.abandoned (rowOf u first) (hout ▸ List.mem_map_of_mem List.mem_cons_self)
    have hc' : node.canonical (fork + 1) = some c := hnumber ▸ hc
    obtain rfl := Option.some.inj (hc'.symm.trans hcanonical)
    exact hne (hpfirst ▸ rfl)
  · intro hleaves
    refine ⟨hcomplete, ⟨_, List.cons_ne_nil _ _, hout, hblocks, hlinked⟩, h.contains, fun row hrow => ?_⟩
    rw [hout] at hrow
    obtain ⟨b, hb, rfl⟩ := List.mem_map.mp hrow
    obtain ⟨e, t, hlisted, hstale, -⟩ := h.found.numbers top n htop
    obtain ⟨b', hb', hb'number⟩ := stored_of_stale hlisted hstale
    have hlastmem := List.mem_of_getLast? hlast
    have hfirst : node.canonical (fork + 1) ≠ some first := by
      refine hleaves top (fun S hS => hcomplete.least.2 hS (Dict.mem_keys htop)) b' hb' first ?_ hnumber
      obtain ⟨hmem', hhash'⟩ := mem_of_byHash hb'
      rw [eq_of_hash hmem' (hblocks last hlastmem) (hhash'.trans hlasthash.symm)]
      exact first_ancestor hlinked hblocks last hlastmem
    have hhead : b.number ≤ node.head := by
      have hle := numbers_le hlinked hlast hb
      obtain ⟨hmem', hhash'⟩ := mem_of_byHash hb'
      have heq := eq_of_hash hmem' (hblocks last hlastmem) (hhash'.trans hlasthash.symm)
      have hupper := hstale.2.2.1
      have hbound := upperBound_le node a
      rw [heq] at hb'number
      omega
    exact abandoned_of_first hlinked hblocks hfirst hb hhead

theorem walkBack_top_total {forkHash : Text} {fuel n : ℕ} {top : Text} {s : Search}
    (hs : Running u node a fork (upperBound u node a) s) (htop : (top, n) ∈ s.stale.entries) (hfuel : node.head < fuel) :
    walkBack u node fork forkHash fuel top [] ≠ .error .outOfFuel := by
  obtain ⟨e, t, hlisted, hstale, -⟩ := hs.numbers top n htop
  obtain ⟨b, hb, hnumber⟩ := stored_of_stale hlisted hstale
  refine walkBack_total (fun b' hb' => ?_) (by omega)
  obtain rfl := Option.some.inj (hb.symm.trans hb')
  have habove := hstale.2.1
  have hupper := hstale.2.2.1
  have hbound := upperBound_le node a
  omega

theorem search_fuel (hindex : ∀ i ∈ [node.regular, node.staking], i.Descends fork (a.maxPages * a.pageSize)) {fuel : ℕ}
    (hfuel : (queryable u node a).length < fuel) :
    (∃ s, search u node a fork (upperBound u node a) fuel (begin u a) = .ok s) ∨
      ∃ e, search u node a fork (upperBound u node a) fuel (begin u a) = .error (.lib e) := by
  have hsubset : (queryable u node a).toFinset \ (begin u a).queried.toFinset ⊆ (queryable u node a).toFinset :=
    Finset.sdiff_subset
  have hle := (Finset.card_le_card hsubset).trans (List.toFinset_card_le _)
  exact search_total hindex (upperBound_le node a) running_begin (hle.trans_lt hfuel)

theorem main_total {forkHash : Text} (hfork : parseBlockPin u a.fork = .ok ⟨fork, forkHash⟩)
    (hindex : ∀ i ∈ [node.regular, node.staking], i.Descends fork (a.maxPages * a.pageSize)) {fuel : ℕ}
    (hfuel : (queryable u node a).length + node.head < fuel) : main u node a fuel ≠ .error .outOfFuel := by
  refine bind_ne_error (require_ne_error (by simp)) fun _ _ => ?_
  refine bind_ne_error (mapError_ne_error (by simp)) fun pin hpin => ?_
  obtain rfl := Except.ok.inj (hfork.symm.trans (mapError_ok hpin))
  refine bind_ne_error (require_ne_error (by simp)) fun _ _ => ?_
  rw [Int.toNat_natCast]
  refine bind_ne_error (map_ne_error (ofOption_ne_error (by simp))) fun _ _ => ?_
  refine bind_ne_error (require_ne_error (by simp)) fun _ _ => ?_
  refine bind_ne_error ?_ fun found hfound => ?_
  · rcases search_fuel hindex (Nat.lt_of_le_of_lt (Nat.le_add_right _ _) hfuel) with ⟨s, hs⟩ | ⟨e, he⟩
    · rw [hs]
      simp
    · rw [he]
      simp
  · refine bind_ne_error (ofOption_ne_error (by simp)) fun top htop => ?_
    obtain ⟨hrunning, -⟩ := search_ok hindex running_begin hfound
    have hentry : (top.1, top.2) ∈ found.stale.entries := by
      refine List.argmax_mem (f := Prod.snd) ?_
      cases hargmax : found.stale.entries.argmax Prod.snd with
      | none => simp [hargmax, ofOption] at htop
      | some top' => simpa [hargmax, ofOption] using htop
    refine bind_ne_error (walkBack_top_total hrunning hentry (by omega)) fun _ _ => ?_
    exact map_ne_error (require_ne_error (by simp))

/-- The search ends; what it finds is the least closed set; and the list of a run that succeeds is exact exactly where the
branches of the found blocks leave the canonical chain at the fork. -/
theorem list_exact_iff (u : Lower) (node : Node u) (a : Args) (fork : ℕ) (forkHash : Text)
    (hfork : parseBlockPin u a.fork = .ok ⟨fork, forkHash⟩)
    (hindex : ∀ i ∈ [node.regular, node.staking], i.Descends fork (a.maxPages * a.pageSize)) :
    (∀ fuel, (queryable u node a).length + node.head < fuel → main u node a fuel ≠ .error .outOfFuel ∧
      ((∃ s, search u node a fork (upperBound u node a) fuel (begin u a) = .ok s) ∨
        ∃ e, search u node a fork (upperBound u node a) fuel (begin u a) = .error (.lib e))) ∧
    (∀ fuel s, search u node a fork (upperBound u node a) fuel (begin u a) = .ok s → Complete u node a fork s) ∧
    ∀ fuel out, main u node a fuel = .ok out →
      (Exact u node a fork forkHash out ↔ LeavesAtFork u node fork (upperBound u node a) a) := by
  refine ⟨fun fuel hfuel => ⟨main_total hfork hindex hfuel, ?_⟩, fun fuel s hs => ?_, fun fuel out hout => ?_⟩
  · exact search_fuel hindex (Nat.lt_of_le_of_lt (Nat.le_add_right _ _) hfuel)
  · obtain ⟨hrunning, hpending⟩ := search_ok hindex running_begin hs
    exact complete_of_running hrunning hpending
  · exact (ran_of_main hfork hindex hout).exact_iff

end List

/-! ### A branch that leaves above the fork -/

def forkHash : Text := hexPrefix ++ List.replicate 64 'a'

def sender : Text := hexPrefix ++ List.replicate 40 '1'

/-- A transaction of nothing. -/
def staleTx : PlainTx := ⟨['x'], [], sender, [], 0, [], 0, 0, 0, 0, 0, 0, 0, 0, 0⟩

def block (number : ℕ) (hash parentHash : Text) (txs : List PlainTx) : Block := ⟨number, hash, parentHash, 0, 0, txs, []⟩

def canonicalBlocks : List Block := [block 0 forkHash [] [], block 1 ['c'] forkHash [], block 2 ['d'] ['c'] []]

theorem canonicalBlocks_number {n : ℕ} {b : Block} (h : canonicalBlocks[n]? = some b) :
    b ∈ canonicalBlocks ∧ b.number = n := by
  refine ⟨List.mem_of_getElem? h, ?_⟩
  match n with
  | 0 | 1 | 2 => exact (Option.some.inj h) ▸ rfl
  | n + 3 => cases h

theorem canonicalBlocks_parent {n : ℕ} {b : Block} (h : canonicalBlocks[n + 1]? = some b) :
    ∃ p, canonicalBlocks[n]? = some p ∧ asciiLower.lower b.parentHash = asciiLower.lower p.hash := by
  match n with
  | 0 | 1 =>
    obtain rfl := Option.some.inj h
    exact ⟨_, rfl, by decide⟩
  | n + 2 => cases h

/-- The one transaction is in a block with this number and hash. -/
def oneTx (number : ℕ) (hash : Text) : TxIndex where
  hashes t := if t = sender then [['x']] else []
  lookup x := if x = ['x'] then some ⟨number, hash⟩ else none

theorem oneTx_descends (number : ℕ) (hash : Text) (fork reach : ℕ) (h : 0 < reach) :
    (oneTx number hash).Descends fork reach := by
  have hlength : ∀ t, ((oneTx number hash).hashes t).length ≤ 1 := by
    intro t
    unfold oneTx
    dsimp only
    split_ifs <;> simp
  constructor
  · intro t
    refine List.pairwise_iff_getElem.mpr fun i j hi hj hij => ?_
    have hle := hlength t
    omega
  · intro t x hx
    rw [List.drop_eq_nil_of_le ((hlength t).trans h)] at hx
    exact absurd hx List.not_mem_nil

/-- The three canonical blocks, and an abandoned one with the transaction. -/
def treeBlocks (stale : Block) : List Block := canonicalBlocks ++ [stale]

def noTx : TxIndex := ⟨fun _ => [], fun _ => none⟩

theorem noTx_descends (fork reach : ℕ) : noTx.Descends fork reach :=
  ⟨fun _ => List.Pairwise.nil, fun _ x hx => by simp [noTx] at hx⟩

/-- The abandoned block forks off the canonical block `c`, one above the fork. -/
def lateNode : Node asciiLower where
  blocks := treeBlocks (block 2 ['s'] ['c'] [staleTx])
  canonical n := canonicalBlocks[n]?
  head := 2
  regular := oneTx 2 ['s']
  staking := noTx
  nodup := by decide
  parent_number := by decide
  canonical_mem := fun n b h => (canonicalBlocks_number h).imp_left (List.mem_append_left _)
  canonical_parent := fun n b h => canonicalBlocks_parent h
  canonical_head := by decide
  indexed_mem := fun i hi x e h => by
    rcases List.mem_pair.mp hi with rfl | rfl
    · refine ⟨block 2 ['s'] ['c'] [staleTx], by simp [treeBlocks], ?_⟩
      simp only [oneTx] at h
      split_ifs at h
      obtain rfl := Option.some.inj h
      exact ⟨rfl, rfl⟩
    · simp [noTx] at h

def searchArgs : Args := ⟨"0:".toList ++ forkHash, none, [[⟨sender, [], [], []⟩]], false, false, 100, 200⟩

/-- The canonical block one above the fork is listed. -/
theorem canonical_block_listed :
    (∀ i ∈ [lateNode.regular, lateNode.staking], i.Descends 0 (searchArgs.maxPages * searchArgs.pageSize)) ∧
    ∃ out, main asciiLower lateNode searchArgs 10 = .ok out ∧ ¬Exact asciiLower lateNode searchArgs 0 forkHash out := by
  constructor
  · intro i hi
    rcases List.mem_pair.mp hi with rfl | rfl
    · exact oneTx_descends _ _ _ _ (by decide)
    · exact noTx_descends _ _
  · have hrun : ((main asciiLower lateNode searchArgs 10).toOption.map Output.chain) =
        some [⟨1, ['c'], forkHash⟩, ⟨2, ['s'], ['c']⟩] := by decide +kernel
    obtain ⟨out, hmain, hchain⟩ := Except.exists_ok_of_map hrun
    refine ⟨out, hmain, fun hexact => ?_⟩
    obtain ⟨c, hc, hne⟩ := hexact.abandoned ⟨1, ['c'], forkHash⟩ (by simp [hchain])
    obtain rfl := Option.some.inj hc
    exact hne (by decide)

/-- The abandoned block forks off the fork block. -/
def forkNode : Node asciiLower where
  blocks := treeBlocks (block 1 ['s'] forkHash [staleTx])
  canonical n := canonicalBlocks[n]?
  head := 2
  regular := oneTx 1 ['s']
  staking := noTx
  nodup := by decide
  parent_number := by decide
  canonical_mem := fun n b h => (canonicalBlocks_number h).imp_left (List.mem_append_left _)
  canonical_parent := fun n b h => canonicalBlocks_parent h
  canonical_head := by decide
  indexed_mem := fun i hi x e h => by
    rcases List.mem_pair.mp hi with rfl | rfl
    · refine ⟨block 1 ['s'] forkHash [staleTx], by simp [treeBlocks], ?_⟩
      simp only [oneTx] at h
      split_ifs at h
      obtain rfl := Option.some.inj h
      exact ⟨rfl, rfl⟩
    · simp [noTx] at h

theorem forkNode_indexed {t hash : Text} {upper : ℤ} (h : hash ∈ IndexedFor asciiLower forkNode 0 upper t) : hash = ['s'] := by
  obtain ⟨e, ⟨i, hi, x, -, hlook⟩, rfl, -⟩ := h
  rcases List.mem_pair.mp hi with rfl | rfl
  · simp only [forkNode, oneTx] at hlook
    split_ifs at hlook
    obtain rfl := Option.some.inj hlook
    decide
  · simp [forkNode, noTx] at hlook

theorem list_exact_one_branch : ∃ out, main asciiLower forkNode searchArgs 10 = .ok out ∧
    Exact asciiLower forkNode searchArgs 0 forkHash out := by
  have hok : (main asciiLower forkNode searchArgs 10).toBool = true := by decide +kernel
  obtain ⟨out, hmain⟩ := Except.exists_ok_of_toBool hok
  have hindex : ∀ i ∈ [forkNode.regular, forkNode.staking], i.Descends 0 (searchArgs.maxPages * searchArgs.pageSize) := by
    intro i hi
    rcases List.mem_pair.mp hi with rfl | rfl
    · exact oneTx_descends _ _ _ _ (by decide)
    · exact noTx_descends _ _
  refine ⟨out, hmain, ((list_exact_iff asciiLower forkNode searchArgs 0 forkHash (by decide) hindex).2.2 10 out hmain).mpr ?_⟩
  intro hash hreached b hb p hp hnumber hcanonical
  have hclosed : {h : Text | h = ['s']} ∈
      ClosedSets asciiLower forkNode 0 (upperBound asciiLower forkNode searchArgs) searchArgs :=
    fun t _ h hh => forkNode_indexed hh
  obtain rfl : hash = ['s'] := hreached _ hclosed
  obtain rfl : block 1 ['s'] forkHash [staleTx] = b := Option.some.inj hb
  have heq := ancestor_unique hp Relation.ReflTransGen.refl hnumber
  rw [heq] at hcanonical
  exact absurd hcanonical (by decide)

end HarmonyMigration.Archive.AbandonedBlocks
