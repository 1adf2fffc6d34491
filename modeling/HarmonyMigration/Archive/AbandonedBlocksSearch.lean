import HarmonyMigration.Archive.AbandonedBlocks
import HarmonyMigration.Lib.Worklist

/-! The search for abandoned blocks ends with the least set of blocks closed under its queries. -/

namespace HarmonyMigration.Archive.AbandonedBlocks

open Airdrop.One1 ContractReview Decimal Except Worklist

section Index

variable (u : Lower) (node : Node u) (fork : ℕ) (upper : ℤ)

/-- What is at or below the fork is listed after what is above, and all that is above is within the pages. -/
structure TxIndex.Descends (i : TxIndex) (fork reach : ℕ) : Prop where
  last : ∀ address, (i.hashes address).Pairwise fun x y => ∀ e, i.lookup x = some e → e.blockNumber ≤ fork →
    ∀ e', i.lookup y = some e' → e'.blockNumber ≤ fork
  reached : ∀ address, ∀ x ∈ (i.hashes address).drop reach, ∀ e, i.lookup x = some e → e.blockNumber ≤ fork

/-- The transaction is in the block `hash`, which is not the canonical one at its height. -/
def Stale (e : TxInfo) (hash : Text) : Prop :=
  hash = u.lower e.blockHash ∧ fork < e.blockNumber ∧ (e.blockNumber : ℤ) ≤ upper ∧
    ∃ c, node.canonical e.blockNumber = some c ∧ u.lower c.hash ≠ hash

/-- The transaction is listed for the address. -/
def ListedFor (address : Text) (e : TxInfo) : Prop :=
  ∃ i ∈ [node.regular, node.staking], ∃ x ∈ i.hashes address, i.lookup x = some e

/-- The abandoned blocks that are indexed for an address. -/
def IndexedFor (address : Text) : Set Text := {hash | ∃ e, ListedFor u node address e ∧ Stale u node fork upper e hash}

/-- The addresses that occur in a block. -/
def OccursIn (hash : Text) : Set Text := {a | ∃ b, node.byHash u hash = some b ∧ ∃ v ∈ blockAddresses b, address u v = .ok a}

def seedsOf (a : Args) : Set Text := {t | t ∈ seedSet u a}

/-- The sets of blocks that are closed under the queries. -/
def ClosedSets (a : Args) : Set (Set Text) :=
  {S | Closed (seedsOf u a) (IndexedFor u node fork upper) (OccursIn u node) S}

end Index

/-- Every address of a found block was queried, and the found blocks are the least closed set. -/
structure Complete (u : Lower) (node : Node u) (a : Args) (fork : ℕ) (s : Search) : Prop where
  queried : ∀ hash ∈ s.stale.keys, ∀ t ∈ OccursIn u node hash, t ∈ s.queried
  least : IsLeast (ClosedSets u node fork (upperBound u node a) a) {hash | hash ∈ s.stale.keys}

section Rules

variable {u : Lower} {node : Node u} {fork : ℕ} {upper : ℤ}

/-! ### The tree -/

theorem mem_of_byHash {hash : Text} {b : Block} (h : node.byHash u hash = some b) : b ∈ node.blocks ∧ u.lower b.hash = hash :=
  ⟨List.mem_of_find?_eq_some h, by simpa using List.find?_some h⟩

theorem eq_of_hash {b c : Block} (hb : b ∈ node.blocks) (hc : c ∈ node.blocks) (h : u.lower b.hash = u.lower c.hash) :
    b = c :=
  List.inj_on_of_nodup_map node.nodup hb hc h

theorem byHash_of_mem {b : Block} (hb : b ∈ node.blocks) : node.byHash u (u.lower b.hash) = some b := by
  cases hfind : node.byHash u (u.lower b.hash) with
  | none =>
    have hnone := List.find?_eq_none.mp hfind b hb
    simp at hnone
  | some c =>
    obtain ⟨hc, heq⟩ := mem_of_byHash hfind
    rw [eq_of_hash hc hb heq]

/-! ### The index of one address -/

/-- `d'` is `d` with the stale blocks of the transactions in `P`. -/
structure Adds (u : Lower) (node : Node u) (fork : ℕ) (upper : ℤ) (P : TxInfo → Prop) (d d' : Dict Text ℕ) : Prop where
  keys : ∀ hash, hash ∈ d'.keys ↔ hash ∈ d.keys ∨ ∃ e, P e ∧ Stale u node fork upper e hash
  numbers : ∀ hash n, (hash, n) ∈ d'.entries →
    (hash, n) ∈ d.entries ∨ ∃ e, P e ∧ Stale u node fork upper e hash ∧ e.blockNumber = n

namespace Adds

variable {P Q : TxInfo → Prop} {d d' d'' : Dict Text ℕ}

theorem refl (h : ∀ e, P e → ∀ hash, ¬Stale u node fork upper e hash) : Adds u node fork upper P d d where
  keys := fun hash => ⟨Or.inl, fun hor => hor.resolve_right fun ⟨e, hP, he⟩ => h e hP hash he⟩
  numbers := fun _ _ hmem => Or.inl hmem

theorem congr (h : Adds u node fork upper P d d')
    (hPQ : ∀ e hash, Stale u node fork upper e hash → (P e ↔ Q e)) : Adds u node fork upper Q d d' where
  keys := fun hash => (h.keys hash).trans (or_congr_right (exists_congr fun e => and_congr_left (hPQ e hash)))
  numbers := fun hash n hmem => (h.numbers hash n hmem).imp_right fun ⟨e, hP, he, hn⟩ => ⟨e, (hPQ e hash he).mp hP, he, hn⟩

theorem trans (h : Adds u node fork upper P d d') (h' : Adds u node fork upper Q d' d'') :
    Adds u node fork upper (fun e => P e ∨ Q e) d d'' := by
  constructor
  · intro hash
    rw [h'.keys, h.keys, or_assoc, ← exists_or]
    exact or_congr_right (exists_congr fun e => or_and_right.symm)
  · intro hash n hmem
    rcases h'.numbers hash n hmem with hmem | ⟨e, hQ, he, hn⟩
    · rcases h.numbers hash n hmem with hmem | ⟨e, hP, he, hn⟩
      · exact Or.inl hmem
      · exact Or.inr ⟨e, Or.inl hP, he, hn⟩
    · exact Or.inr ⟨e, Or.inr hQ, he, hn⟩

theorem insert {e : TxInfo} {hash : Text} (he : Stale u node fork upper e hash) :
    Adds u node fork upper (· = e) d (d.insert hash e.blockNumber) := by
  constructor
  · intro hash'
    rw [Dict.mem_keys_insert, or_comm]
    refine or_congr_right ⟨?_, ?_⟩
    · rintro rfl
      exact ⟨e, rfl, he⟩
    · rintro ⟨e', rfl, he'⟩
      rw [he'.1, he.1]
  · intro hash' n hmem
    rcases Dict.mem_entries_insert.mp hmem with ⟨rfl, rfl⟩ | ⟨-, hmem⟩
    · exact Or.inr ⟨e, rfl, he, rfl⟩
    · exact Or.inl hmem

/-- `dict.update` with what was found from nothing. -/
theorem update {found : Dict Text ℕ} (h : Adds u node fork upper P .empty found) :
    Adds u node fork upper P d (update d found) := by
  constructor
  · intro hash
    rw [AbandonedBlocks.update, Dict.mem_keys_foldl_insert]
    refine or_congr_right ?_
    have hkeys := h.keys hash
    rw [Dict.keys, List.mem_map] at hkeys
    simpa [Dict.empty, Dict.keys] using hkeys
  · intro hash n hmem
    have hfold : ∀ {l : List (Text × ℕ)} {d : Dict Text ℕ},
        (hash, n) ∈ (l.foldl (fun d e => d.insert e.1 e.2) d).entries → (hash, n) ∈ d.entries ∨ (hash, n) ∈ l := by
      intro l
      induction l with
      | nil => exact fun h => Or.inl h
      | cons p l ih =>
        intro d h
        rcases ih h with h | h
        · rcases Dict.mem_entries_insert.mp h with ⟨rfl, rfl⟩ | ⟨-, h⟩
          · exact Or.inr List.mem_cons_self
          · exact Or.inl h
        · exact Or.inr (List.mem_cons_of_mem _ h)
    rcases hfold hmem with hmem | hmem
    · exact Or.inl hmem
    · exact Or.inr ((h.numbers hash n hmem).resolve_left (by simp [Dict.empty]))

end Adds

theorem canonicalHash_ok {n : ℕ} {hash : Text} (h : canonicalHash u node n = .ok hash) :
    ∃ c, node.canonical n = some c ∧ u.lower c.hash = hash := by
  obtain ⟨c, hc, rfl⟩ := of_map_ok h
  cases hcanonical : node.canonical n with
  | none => simp [hcanonical, ofOption] at hc
  | some c' =>
    obtain rfl : c' = c := by simpa [hcanonical, ofOption] using hc
    exact ⟨c', rfl, rfl⟩

theorem canonicalHash_total (node : Node u) {n : ℕ} (h : n ≤ node.head) : ∃ c, node.canonical n = some c ∧ canonicalHash u node n = .ok (u.lower c.hash) := by
  obtain ⟨c, hc⟩ := Option.isSome_iff_exists.mp (node.canonical_head n h)
  exact ⟨c, hc, by rw [canonicalHash, hc]; rfl⟩

theorem historyPage_ok {l : List (Option TxInfo)} {found found' : Dict Text ℕ} {below : Bool}
    (h : historyPage u node fork upper l found = .ok (found', below))
    (hlast : l.Pairwise fun o o' => ∀ e, o = some e → e.blockNumber ≤ fork → ∀ e', o' = some e' → e'.blockNumber ≤ fork) :
    Adds u node fork upper (fun e => some e ∈ l) found found' ∧
      (below = true → ∃ e, some e ∈ l ∧ e.blockNumber ≤ fork) := by
  induction l generalizing found with
  | nil =>
    obtain ⟨rfl, rfl⟩ := Prod.mk.inj (Except.ok.inj h)
    exact ⟨.refl fun e he => absurd he List.not_mem_nil, by simp⟩
  | cons o rest ih =>
    obtain ⟨hhead, hrest⟩ := List.pairwise_cons.mp hlast
    cases o with
    | none =>
      obtain ⟨hadds, hbelow⟩ := ih h hrest
      refine ⟨hadds.congr fun e _ _ => by simp, fun hb => ?_⟩
      obtain ⟨e, he, hle⟩ := hbelow hb
      exact ⟨e, List.mem_cons_of_mem _ he, hle⟩
    | some tx =>
      rw [historyPage] at h
      split_ifs at h with hfork hupper
      · obtain ⟨rfl, rfl⟩ := Prod.mk.inj (Except.ok.inj h)
        refine ⟨.refl fun e he hash hstale => ?_, fun _ => ⟨tx, List.mem_cons_self, hfork⟩⟩
        have hle : e.blockNumber ≤ fork := by
          rcases List.mem_cons.mp he with heq | he
          · exact Option.some.inj heq ▸ hfork
          · exact hhead _ he tx rfl hfork e rfl
        exact absurd hstale.2.1 (Nat.not_lt.mpr hle)
      · obtain ⟨canonical, hcanonical, h⟩ := of_bind_ok h
        obtain ⟨c, hc, rfl⟩ := canonicalHash_ok hcanonical
        obtain ⟨hadds, hbelow⟩ := ih h hrest
        constructor
        · split_ifs at hadds with hne
          · have hstale : Stale u node fork upper tx (u.lower tx.blockHash) :=
              ⟨rfl, Nat.lt_of_not_le hfork, hupper, c, hc, Ne.symm hne⟩
            exact ((Adds.insert hstale).trans hadds).congr fun e _ _ => by simp
          · refine hadds.congr fun e hash hstale => ⟨List.mem_cons_of_mem _, fun he => ?_⟩
            refine (List.mem_cons.mp he).resolve_left fun heq => ?_
            obtain rfl := Option.some.inj heq
            obtain ⟨rfl, -, -, c', hc', hcne⟩ := hstale
            obtain rfl := Option.some.inj (hc.symm.trans hc')
            exact hne fun heq => hcne heq.symm
        · intro hb
          obtain ⟨e, he, hle⟩ := hbelow hb
          exact ⟨e, List.mem_cons_of_mem _ he, hle⟩
      · obtain ⟨hadds, hbelow⟩ := ih h hrest
        constructor
        · refine hadds.congr fun e hash hstale => ⟨List.mem_cons_of_mem _, fun he => ?_⟩
          refine (List.mem_cons.mp he).resolve_left fun heq => ?_
          obtain rfl := Option.some.inj heq
          exact hupper hstale.2.2.1
        · intro hb
          obtain ⟨e, he, hle⟩ := hbelow hb
          exact ⟨e, List.mem_cons_of_mem _ he, hle⟩

variable (fork) in
theorem historyPage_total (hupper : upper ≤ node.head) (l : List (Option TxInfo)) (found : Dict Text ℕ) :
    ∃ r, historyPage u node fork upper l found = .ok r := by
  induction l generalizing found with
  | nil => exact ⟨_, rfl⟩
  | cons o rest ih =>
    cases o with
    | none => exact ih found
    | some tx =>
      rw [historyPage]
      split_ifs with hfork hle
      · exact ⟨_, rfl⟩
      · obtain ⟨c, -, hc⟩ := canonicalHash_total node (show tx.blockNumber ≤ node.head by omega)
        rw [hc]
        exact ih _
      · exact ih found

/-- The pages from `page` on add what stands in them. -/
theorem historyPages_ok {index : TxIndex} {t : Text} {size pages page : ℕ} {found found' : Dict Text ℕ} {reach : ℕ}
    (hindex : index.Descends fork reach)
    (h : historyPages u node fork upper index t size pages page found = .ok found') :
    Adds u node fork upper
      (fun e => ∃ x ∈ ((index.hashes t).drop (page * size)).take (pages * size), index.lookup x = some e) found found' := by
  induction pages generalizing page found with
  | zero =>
    obtain rfl := Except.ok.inj h
    exact .refl fun e ⟨x, hx, _⟩ => by simp at hx
  | succ pages ih =>
    obtain ⟨⟨found₁, below⟩, hpage, h⟩ := of_bind_ok h
    have hsplit : ((index.hashes t).drop (page * size)).take ((pages + 1) * size) =
        ((index.hashes t).drop (page * size)).take size ++
          ((index.hashes t).drop ((page + 1) * size)).take (pages * size) := by
      rw [Nat.succ_mul pages, Nat.add_comm, List.take_add, List.drop_drop, Nat.succ_mul page]
    have hlast := ((hindex.last t).sublist (List.drop_sublist (page * size) _))
    have hlastPage : ((((index.hashes t).drop (page * size)).take size).map index.lookup).Pairwise
        fun o o' => ∀ e, o = some e → e.blockNumber ≤ fork → ∀ e', o' = some e' → e'.blockNumber ≤ fork :=
      List.pairwise_map.mpr (hlast.sublist (List.take_sublist _ _))
    obtain ⟨hadds, hbelow⟩ := historyPage_ok hpage hlastPage
    have hadds : Adds u node fork upper
        (fun e => ∃ x ∈ ((index.hashes t).drop (page * size)).take size, index.lookup x = some e) found found₁ :=
      hadds.congr fun e _ _ => List.mem_map
    simp only at h
    split_ifs at h with hstop
    · obtain rfl := Except.ok.inj h
      refine hadds.congr fun e hash hstale => ?_
      rw [hsplit]
      refine ⟨fun ⟨x, hx, he⟩ => ⟨x, List.mem_append_left _ hx, he⟩, ?_⟩
      rintro ⟨x, hx, he⟩
      refine (List.mem_append.mp hx).elim (fun hx => ⟨x, hx, he⟩) fun hx => ?_
      rcases hstop with hb | hshort
      · -- a page that reaches below the fork leaves nothing above it
        obtain ⟨e', he', hle⟩ := hbelow hb
        obtain ⟨y, hy, hlook⟩ := List.mem_map.mp he'
        rw [← List.take_append_drop size ((index.hashes t).drop (page * size)), List.drop_drop,
          ← Nat.succ_mul] at hlast
        have hcross := (List.pairwise_append.mp hlast).2.2 y hy x (List.mem_of_mem_take hx) e' hlook hle e he
        exact absurd hstale.2.1 (Nat.not_lt.mpr hcross)
      · -- a short page is the last
        have hnil : (index.hashes t).drop ((page + 1) * size) = [] := by
          rw [List.length_take, List.length_drop] at hshort
          rw [List.drop_eq_nil_iff, Nat.succ_mul]
          omega
        rw [hnil] at hx
        simp at hx
    · refine (hadds.trans (ih h)).congr fun e _ _ => ?_
      rw [hsplit]
      simp only [List.mem_append, or_and_right, exists_or]

variable (fork) in
theorem historyPages_total (hupper : upper ≤ node.head) (index : TxIndex) (t : Text) (size pages page : ℕ)
    (found : Dict Text ℕ) : ∃ r, historyPages u node fork upper index t size pages page found = .ok r := by
  induction pages generalizing page found with
  | zero => exact ⟨_, rfl⟩
  | succ pages ih =>
    obtain ⟨⟨found₁, below⟩, hpage⟩ := historyPage_total fork hupper
      ((((index.hashes t).drop (page * size)).take size).map index.lookup) found
    rw [historyPages, hpage, bind_ok_left]
    simp only
    split_ifs
    · exact ⟨_, rfl⟩
    · exact ih _ _

theorem mem_pages_iff {index : TxIndex} {t : Text} {reach : ℕ} (hindex : index.Descends fork reach) {e : TxInfo} {hash : Text}
    (hstale : Stale u node fork upper e hash) :
    (∃ x ∈ (index.hashes t).take reach, index.lookup x = some e) ↔ ∃ x ∈ index.hashes t, index.lookup x = some e := by
  constructor
  · rintro ⟨x, hx, he⟩
    exact ⟨x, List.mem_of_mem_take hx, he⟩
  · rintro ⟨x, hx, he⟩
    rw [← List.take_append_drop reach (index.hashes t)] at hx
    refine (List.mem_append.mp hx).elim (fun hx => ⟨x, hx, he⟩) fun hx => ?_
    exact absurd hstale.2.1 (Nat.not_lt.mpr (hindex.reached t x hx e he))

variable {a : Args}

theorem history_ok (hindex : ∀ i ∈ [node.regular, node.staking], i.Descends fork (a.maxPages * a.pageSize)) {t : Text}
    {found : Dict Text ℕ} (h : history u node fork upper a t = .ok found) :
    Adds u node fork upper (ListedFor u node t) .empty found := by
  obtain ⟨found₁, hregular, hstaking⟩ := of_bind_ok h
  have hr := historyPages_ok (hindex node.regular (by simp)) hregular
  have hs := historyPages_ok (hindex node.staking (by simp)) hstaking
  rw [Nat.zero_mul, List.drop_zero] at hr hs
  refine (hr.trans hs).congr fun e hash hstale => ?_
  rw [mem_pages_iff (hindex node.regular (by simp)) hstale, mem_pages_iff (hindex node.staking (by simp)) hstale, ListedFor]
  simp only [List.mem_cons, List.not_mem_nil, or_false, exists_eq_or_imp, exists_eq_left]

variable (fork) in
theorem history_total (hupper : upper ≤ node.head) (t : Text) : ∃ r, history u node fork upper a t = .ok r := by
  obtain ⟨found₁, hregular⟩ := historyPages_total fork hupper node.regular t a.pageSize a.maxPages 0 .empty
  obtain ⟨found, hstaking⟩ := historyPages_total fork hupper node.staking t a.pageSize a.maxPages 0 found₁
  exact ⟨found, by rw [history, hregular, bind_ok_left, hstaking]⟩

theorem updates_ok {l : List Text} {found : List (Dict Text ℕ)} {d : Dict Text ℕ}
    (h : List.Forall₂ (fun t f => Adds u node fork upper (ListedFor u node t) .empty f) l found) :
    Adds u node fork upper (fun e => ∃ t ∈ l, ListedFor u node t e) d (found.foldl update d) := by
  induction h generalizing d with
  | nil => exact .refl fun e ⟨t, ht, _⟩ => absurd ht List.not_mem_nil
  | cons hf _ ih => exact (hf.update.trans ih).congr fun e _ _ => by simp

/-! ### Rounds -/

/-- The addresses that a search can ever query. -/
def queryable (u : Lower) (node : Node u) (a : Args) : List Text :=
  seedSet u a ++ (node.blocks.flatMap blockAddresses).filterMap fun v => (address u v).toOption

theorem mem_queryable_of_occurs {hash t : Text} (h : t ∈ OccursIn u node hash) : t ∈ queryable u node a := by
  obtain ⟨b, hb, v, hv, hok⟩ := h
  refine List.mem_append_right _ (List.mem_filterMap.mpr ⟨v, List.mem_flatMap.mpr ⟨b, (mem_of_byHash hb).1, hv⟩, ?_⟩)
  rw [hok]
  rfl

theorem mem_sortedSet {l : List Text} {t : Text} : t ∈ sortedSet l ↔ t ∈ l := by
  rw [sortedSet, List.mem_insertionSort, List.mem_dedup]

/-- Where a search stands at the start of a round. -/
structure Running (u : Lower) (node : Node u) (a : Args) (fork : ℕ) (upper : ℤ) (s : Search) : Prop where
  stands : Stands (seedsOf u a) (IndexedFor u node fork upper) (OccursIn u node) {t | t ∈ s.queried} {t | t ∈ s.pending}
    {hash | hash ∈ s.stale.keys}
  expanded : ∀ hash, hash ∈ s.rounds.flatMap Round.blocks ↔ hash ∈ s.stale.keys
  numbers : ∀ hash n, (hash, n) ∈ s.stale.entries → ∃ e t, ListedFor u node t e ∧ Stale u node fork upper e hash ∧
    e.blockNumber = n
  fresh : ∀ t ∈ s.pending, t ∉ s.queried
  within : ∀ t ∈ s.pending, t ∈ queryable u node a

theorem running_begin : Running u node a fork upper (begin u a) where
  stands := by
    have hqueried : {t | t ∈ (begin u a).queried} = ∅ := Set.eq_empty_of_forall_notMem fun t ht => List.not_mem_nil ht
    have hpending : {t | t ∈ (begin u a).pending} = seedsOf u a := Set.ext fun t => mem_sortedSet
    have hstale : {hash | hash ∈ (begin u a).stale.keys} = ∅ := Set.eq_empty_of_forall_notMem fun t ht => List.not_mem_nil ht
    rw [hqueried, hpending, hstale]
    exact stands_start
  expanded := fun _ => Iff.rfl
  numbers := fun _ _ h => absurd h List.not_mem_nil
  fresh := fun _ _ => List.not_mem_nil
  within := fun _ ht => List.mem_append_left _ (mem_sortedSet.mp ht)

theorem expand_ok {hash : Text} {l : List Text} (h : expand u node hash = .ok l) (t : Text) :
    t ∈ l ↔ t ∈ OccursIn u node hash := by
  obtain ⟨b, hb, h⟩ := ofOption_bind_ok.mp h
  have hok := forall₂_of_mapM_ok (mapError_ok h)
  constructor
  · intro ht
    obtain ⟨v, hv, hvt⟩ := ok_of_mem_right hok ht
    exact ⟨b, hb, v, hv, hvt⟩
  · rintro ⟨b', hb', v, hv, hvt⟩
    obtain rfl := Option.some.inj (hb.symm.trans hb')
    obtain ⟨t', ht', hvt'⟩ := ok_of_mem_left hok hv
    exact Except.ok.inj (hvt'.symm.trans hvt) ▸ ht'

theorem Running.round (hindex : ∀ i ∈ [node.regular, node.staking], i.Descends fork (a.maxPages * a.pageSize))
    {s s' : Search} (hs : Running u node a fork upper s) (h : round u node a fork upper s = .ok s') :
    Running u node a fork upper s' ∧ s'.queried = s.queried ++ s.pending := by
  obtain ⟨found, hfound, h⟩ := of_bind_ok h
  obtain ⟨addresses, haddresses, rfl⟩ := of_map_ok h
  have hadds : Adds u node fork upper (fun e => ∃ t ∈ s.pending, ListedFor u node t e) s.stale (found.foldl update s.stale) :=
    updates_ok ((forall₂_of_mapM_ok hfound).imp fun t f hf => history_ok hindex hf)
  have hmem : ∀ hash, hash ∈ (found.foldl update s.stale).keys ↔
      hash ∈ s.stale.keys ∨ ∃ t ∈ s.pending, hash ∈ IndexedFor u node fork upper t := by
    intro hash
    rw [hadds.keys]
    refine or_congr_right ⟨?_, ?_⟩
    · rintro ⟨e, ⟨t, ht, hlisted⟩, hstale⟩
      exact ⟨t, ht, e, hlisted, hstale⟩
    · rintro ⟨t, ht, e, hlisted, hstale⟩
      exact ⟨e, ⟨t, ht, hlisted⟩, hstale⟩
  have hnew : ∀ t, t ∈ addresses.flatten ↔
      ∃ hash ∈ (found.foldl update s.stale).keys, hash ∉ s.stale.keys ∧ t ∈ OccursIn u node hash := by
    intro t
    have hok := forall₂_of_mapM_ok haddresses
    rw [List.mem_flatten]
    constructor
    · rintro ⟨l, hl, ht⟩
      obtain ⟨hash, hhash, hexpand⟩ := ok_of_mem_right hok hl
      obtain ⟨hkey, hnot⟩ := List.mem_filter.mp hhash
      refine ⟨hash, hkey, fun hold => ?_, (expand_ok hexpand t).mp ht⟩
      exact (by simpa using hnot : hash ∉ s.rounds.flatMap Round.blocks) ((hs.expanded hash).mpr hold)
    · rintro ⟨hash, hkey, hnot, ht⟩
      have hfilter : hash ∈ (found.foldl update s.stale).keys.filter (· ∉ s.rounds.flatMap Round.blocks) :=
        List.mem_filter.mpr ⟨hkey, decide_eq_true fun hold => hnot ((hs.expanded hash).mp hold)⟩
      obtain ⟨l, hl, hexpand⟩ := ok_of_mem_left hok hfilter
      exact ⟨l, hl, (expand_ok hexpand t).mpr ht⟩
  have hpending : ∀ t, t ∈ sortedSet (addresses.flatten.filter (· ∉ s.queried ++ s.pending)) ↔
      (∃ hash ∈ (found.foldl update s.stale).keys, hash ∉ s.stale.keys ∧ t ∈ OccursIn u node hash) ∧
        t ∉ s.queried ++ s.pending := by
    intro t
    rw [mem_sortedSet, List.mem_filter, hnew, decide_eq_true_iff]
  refine ⟨⟨?_, ?_, ?_, ?_, ?_⟩, rfl⟩
  · have hunion : {t | t ∈ s.queried ++ s.pending} = {t | t ∈ s.queried} ∪ {t | t ∈ s.pending} :=
      Set.ext fun t => List.mem_append
    change Stands _ _ _ {t | t ∈ s.queried ++ s.pending} _ _
    rw [hunion]
    refine hs.stands.round hmem fun t => ?_
    rw [← hunion]
    exact hpending t
  · intro hash
    rw [List.flatMap_append, List.mem_append, hs.expanded]
    simp only [List.flatMap_cons, List.flatMap_nil, List.append_nil]
    exact ⟨fun hor => hor.elim (fun hold => (hmem hash).mpr (Or.inl hold)) id, Or.inr⟩
  · intro hash n hentry
    rcases hadds.numbers hash n hentry with hold | ⟨e, ⟨t, -, hlisted⟩, hstale, hn⟩
    · exact hs.numbers hash n hold
    · exact ⟨e, t, hlisted, hstale, hn⟩
  · intro t ht
    exact ((hpending t).mp ht).2
  · intro t ht
    obtain ⟨⟨hash, -, -, hocc⟩, -⟩ := (hpending t).mp ht
    exact mem_queryable_of_occurs hocc

theorem search_ok (hindex : ∀ i ∈ [node.regular, node.staking], i.Descends fork (a.maxPages * a.pageSize)) {fuel : ℕ}
    {s r : Search} (hs : Running u node a fork upper s) (h : search u node a fork upper fuel s = .ok r) :
    Running u node a fork upper r ∧ r.pending = [] := by
  induction fuel generalizing s with
  | zero => cases h
  | succ fuel ih =>
    rw [search] at h
    split_ifs at h with hpending
    · obtain rfl := Except.ok.inj h
      exact ⟨hs, hpending⟩
    · obtain ⟨s', hround, h⟩ := of_bind_ok h
      exact ih (hs.round hindex hround).1 h

theorem complete_of_running {s : Search} (hs : Running u node a fork (upperBound u node a) s) (hpending : s.pending = []) :
    Complete u node a fork s := by
  have hempty : {t | t ∈ s.pending} = ∅ := by
    rw [hpending]
    exact Set.eq_empty_of_forall_notMem fun t ht => List.not_mem_nil ht
  have hstands := hs.stands
  rw [hempty] at hstands
  exact ⟨fun hash hhash t ht => hstands.occurs_queried hhash ht, hstands.isLeast⟩

/-! ### The search ends -/

/-- What was found is stored. -/
theorem stored_of_stale {hash t : Text} {e : TxInfo} (hlisted : ListedFor u node t e)
    (hstale : Stale u node fork upper e hash) : ∃ b, node.byHash u hash = some b ∧ b.number = e.blockNumber := by
  obtain ⟨i, hi, x, -, hlook⟩ := hlisted
  obtain ⟨b, hb, hhash, hnumber⟩ := node.indexed_mem i hi x e hlook
  exact ⟨b, by rw [hstale.1, ← hhash]; exact byHash_of_mem hb, hnumber⟩

/-- Only an address of a block that cannot be read stops a round. -/
theorem round_total (hindex : ∀ i ∈ [node.regular, node.staking], i.Descends fork (a.maxPages * a.pageSize))
    (hupper : upper ≤ node.head) {s : Search} (hs : Running u node a fork upper s) :
    (∃ s', round u node a fork upper s = .ok s') ∨ ∃ e, round u node a fork upper s = .error (.lib e) := by
  obtain ⟨found, hfound⟩ := exists_mapM_ok_iff.mpr fun t (_ : t ∈ s.pending) => history_total fork (a := a) hupper t
  have hadds : Adds u node fork upper (fun e => ∃ t ∈ s.pending, ListedFor u node t e) s.stale (found.foldl update s.stale) :=
    updates_ok ((forall₂_of_mapM_ok hfound).imp fun t f hf => history_ok hindex hf)
  have hexpand : ∀ hash ∈ (found.foldl update s.stale).keys.filter (· ∉ s.rounds.flatMap Round.blocks),
      (∃ l, expand u node hash = .ok l) ∨ ∃ e, expand u node hash = .error e ∧ ∃ e', e = .lib e' := by
    intro hash hhash
    obtain ⟨n, hentry⟩ := Dict.exists_of_mem_keys (List.mem_filter.mp hhash).1
    obtain ⟨e, t, hlisted, hstale⟩ : ∃ e t, ListedFor u node t e ∧ Stale u node fork upper e hash := by
      rcases hadds.numbers hash n hentry with hold | ⟨e, ⟨t, -, hlisted⟩, hstale, -⟩
      · obtain ⟨e, t, hlisted, hstale, -⟩ := hs.numbers hash n hold
        exact ⟨e, t, hlisted, hstale⟩
      · exact ⟨e, t, hlisted, hstale⟩
    obtain ⟨b, hb, -⟩ := stored_of_stale hlisted hstale
    rw [expand, hb]
    cases hm : (blockAddresses b).mapM (address u) with
    | ok l => exact Or.inl ⟨l, by simp [ofOption, Except.bind, hm, Except.mapError]⟩
    | error e => exact Or.inr ⟨.lib e, by simp [ofOption, Except.bind, hm, Except.mapError], e, rfl⟩
  rw [AbandonedBlocks.round, hfound, bind_ok_left]
  dsimp only
  rcases mapM_total hexpand with ⟨addresses, hok⟩ | ⟨e, herror, e', rfl⟩
  · exact Or.inl ⟨_, by rw [hok]; rfl⟩
  · exact Or.inr ⟨e', by rw [herror]; rfl⟩

/-- Every round queries addresses that were not queried, of which there are finitely many. -/
theorem search_total (hindex : ∀ i ∈ [node.regular, node.staking], i.Descends fork (a.maxPages * a.pageSize))
    (hupper : upper ≤ node.head) {fuel : ℕ} {s : Search} (hs : Running u node a fork upper s)
    (hfuel : ((queryable u node a).toFinset \ s.queried.toFinset).card < fuel) :
    (∃ r, search u node a fork upper fuel s = .ok r) ∨ ∃ e, search u node a fork upper fuel s = .error (.lib e) := by
  induction fuel generalizing s with
  | zero => omega
  | succ fuel ih =>
    rw [search]
    split_ifs with hpending
    · exact Or.inl ⟨s, rfl⟩
    · rcases round_total hindex hupper hs with ⟨s', hround⟩ | ⟨e, hround⟩
      · obtain ⟨hs', hqueried⟩ := hs.round hindex hround
        rw [hround, bind_ok_left]
        refine ih hs' ?_
        obtain ⟨t, ht⟩ := List.exists_mem_of_ne_nil _ hpending
        have hlt : ((queryable u node a).toFinset \ s'.queried.toFinset).card <
            ((queryable u node a).toFinset \ s.queried.toFinset).card := by
          refine Finset.card_lt_card (Finset.ssubset_iff_subset_ne.mpr ⟨?_, fun heq => ?_⟩)
          · refine Finset.sdiff_subset_sdiff (Finset.Subset.refl _) fun x hx => ?_
            rw [hqueried, List.mem_toFinset]
            exact List.mem_append_left _ (List.mem_toFinset.mp hx)
          · have hin : t ∈ (queryable u node a).toFinset \ s.queried.toFinset :=
              Finset.mem_sdiff.mpr ⟨List.mem_toFinset.mpr (hs.within t ht), fun hq => hs.fresh t ht (List.mem_toFinset.mp hq)⟩
            rw [← heq, hqueried, Finset.mem_sdiff, List.mem_toFinset, List.mem_toFinset] at hin
            exact hin.2 (List.mem_append_right _ ht)
        omega
      · exact Or.inr ⟨e, by rw [hround]; rfl⟩

end Rules

end HarmonyMigration.Archive.AbandonedBlocks
