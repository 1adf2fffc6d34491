import HarmonyMigration.Activity.AccountActivityRpc

/-! The collection ends, and whatever the pages, the chunks and the interruptions it records the latest canonical entry of
every candidate at the cutoff. -/

namespace HarmonyMigration.AccountActivity

open Airdrop.One1 Decimal Except Slices FirstPage

/-! ### What the node serves -/

section World
variable (u : Lower) (job : Job)

def Job.hashAt (number : ℕ) : Text := ((job.node.block number).map fun b => u.lower b.hash).getD []

def Job.activityOf (kind : Kind) (tx : Transaction) : Activity :=
  ⟨tx.timestamp, tx.blockNumber, job.shard, kind, u.lower tx.hash, tx.transactionIndex⟩

def Job.transactions (kind : Kind) (a : Text) : List Transaction :=
  (job.node.history kind a).filterMap (job.node.transaction kind)

/-- In the canonical chain, at or below the cutoff block. -/
def Job.Canonical (tx : Transaction) : Prop :=
  tx.blockNumber ≤ job.snapshot.block ∧ u.lower tx.blockHash = job.hashAt u tx.blockNumber

instance (tx : Transaction) : Decidable (job.Canonical u tx) := by unfold Job.Canonical; infer_instance

/-- The activity of a canonical transaction at or before the requested time. -/
def Job.countedTx (kind : Kind) (tx : Transaction) : Option Activity :=
  if job.Canonical u tx ∧ tx.timestamp ≤ job.snapshot.requestedTimestamp then some (job.activityOf u kind tx) else none

def Job.counted (kind : Kind) (h : Text) : Option Activity := (job.node.transaction kind h).bind (job.countedTx u kind)

/-- The entries of an address that count. -/
def Job.entries (kind : Kind) (a : Text) : List Activity := (job.node.history kind a).filterMap (job.counted u kind)

/-- The last activity of an address over all its histories. -/
def Job.lastActivity (a : Text) : Option Activity :=
  (job.kinds.flatMap fun kind => job.entries u kind a).argmax activitySortKey

/-- A history is newest first; among its canonical transactions time follows the blocks, and a place in a block is that of
one transaction. Stale entries and entries after the cutoff may stand anywhere in the order. -/
structure NewestFirst (kind : Kind) (a : Text) : Prop where
  ordered : (job.transactions kind a).Pairwise fun x y =>
    y.blockNumber < x.blockNumber ∨ y.blockNumber = x.blockNumber ∧ y.transactionIndex ≤ x.transactionIndex
  timestamps : ∀ x ∈ job.transactions kind a, ∀ y ∈ job.transactions kind a, job.Canonical u x → job.Canonical u y →
    x.blockNumber ≤ y.blockNumber → x.timestamp ≤ y.timestamp
  places : ∀ x ∈ job.transactions kind a, ∀ y ∈ job.transactions kind a, job.Canonical u x → job.Canonical u y →
    x.blockNumber = y.blockNumber → x.transactionIndex = y.transactionIndex → u.lower x.hash = u.lower y.hash

/-- The transaction of a listed hash. -/
structure Resolves (kind : Kind) (h : Text) (tx : Transaction) : Prop where
  found : job.node.transaction kind h = some tx
  named : u.lower h ∈ [u.lower tx.hash, u.lower tx.ethHash]
  hash : hexPrefix <+: tx.hash
  blockHash : hexPrefix <+: tx.blockHash

/-- The node answers what it is asked, with histories that are newest first. -/
structure Serves : Prop where
  listed : ∀ kind ∈ job.kinds, ∀ a ∈ job.candidates, ∀ h ∈ job.node.history kind a,
    hexPrefix <+: h ∧ ∃ tx, Resolves u job kind h tx
  blocks : ∀ n ≤ job.snapshot.block, ∃ b, job.node.block n = some b ∧ b.number = n ∧ hexPrefix <+: u.lower b.hash
  cutoff : job.hashAt u job.snapshot.block = job.snapshot.hash
  newestFirst : ∀ kind ∈ job.kinds, ∀ a ∈ job.candidates, NewestFirst u job kind a

/-- `max_pages` exceeds the full pages of every history. -/
def EnoughPages (args : Args) : Prop :=
  ∀ kind ∈ job.kinds, ∀ a ∈ job.candidates, (job.node.history kind a).length / args.pageSize < args.maxPages

end World

section Entries
variable {u : Lower} {job : Job} {kind : Kind} {a : Text}

theorem entries_eq : job.entries u kind a = (job.transactions kind a).filterMap (job.countedTx u kind) := by
  rw [Job.entries, Job.transactions, List.filterMap_filterMap]
  rfl

theorem countedTx_some {tx : Transaction} {x : Activity} (h : job.countedTx u kind tx = some x) :
    job.Canonical u tx ∧ x = job.activityOf u kind tx := by
  unfold Job.countedTx at h
  split_ifs at h with hcounted
  exact ⟨hcounted.1, (Option.some.inj h).symm⟩

/-- Time, block, place and hash descend along a history, as far as its entries count. -/
theorem NewestFirst.descends (h : NewestFirst u job kind a) :
    (job.entries u kind a).Pairwise fun x y => activitySortKey y ≤ activitySortKey x := by
  rw [entries_eq, List.pairwise_filterMap]
  refine h.ordered.imp_of_mem fun {x y} hx hy horder x' hx' y' hy' => ?_
  obtain ⟨hcx, rfl⟩ := countedTx_some hx'
  obtain ⟨hcy, rfl⟩ := countedTx_some hy'
  have hle : y.blockNumber ≤ x.blockNumber := by
    rcases horder with hlt | heq
    · exact hlt.le
    · exact heq.1.le
  have htime : y.timestamp ≤ x.timestamp := h.timestamps y hy x hx hcy hcx hle
  simp only [activitySortKey, Job.activityOf, Prod.Lex.toLex_le_toLex]
  rcases htime.lt_or_eq with hbefore | hsame
  · exact .inl hbefore
  refine .inr ⟨hsame, ?_⟩
  rcases horder with hblock | ⟨hblock, hindex⟩
  · exact .inl hblock
  refine .inr ⟨hblock, ?_⟩
  rcases hindex.lt_or_eq with hplace | hplace
  · exact .inl hplace
  · exact .inr ⟨hplace, .inr ⟨trivial, (h.places y hy x hx hcy hcx hblock hplace).le⟩⟩

theorem text_injective : Function.Injective Kind.text := by
  intro k k' h
  cases k <;> cases k' <;> first | rfl | exact absurd h (by decide)

/-- On one shard the sort key tells the activities apart. -/
theorem activitySortKey_injective {x y : Activity} (hshard : x.shard = y.shard) (h : activitySortKey x = activitySortKey y) :
    x = y := by
  obtain ⟨t, b, s, k, tx, i⟩ := x
  obtain ⟨t', b', s', k', tx', i'⟩ := y
  have hinj := toLex.injective h
  simp only [Prod.mk.injEq, EmbeddingLike.apply_eq_iff_eq] at hinj
  obtain ⟨rfl, rfl, rfl, hk, rfl⟩ := hinj
  obtain rfl := text_injective hk
  obtain rfl : s = s' := hshard
  rfl

theorem shard_of_mem_entries {x : Activity} (h : x ∈ job.entries u kind a) : x.shard = job.shard := by
  rw [entries_eq] at h
  obtain ⟨tx, -, htx⟩ := List.mem_filterMap.mp h
  obtain ⟨-, rfl⟩ := countedTx_some htx
  rfl

theorem IsBest.eq_argmax_entries {r : Option Activity} (h : IsBest activitySortKey (job.entries u kind a) r) :
    r = (job.entries u kind a).argmax activitySortKey :=
  h.unique (isBest_argmax _) fun _ hx _ hy =>
    activitySortKey_injective ((shard_of_mem_entries hx).trans (shard_of_mem_entries hy).symm)

/-- The latest of the sources is the latest of all. -/
theorem combine_eq : combine (job.kinds.map fun kind => (job.entries u kind a).argmax activitySortKey) =
    job.lastActivity u a := by
  have hbest : IsBest activitySortKey (job.kinds.flatMap fun kind => job.entries u kind a)
      (combine (job.kinds.map fun kind => (job.entries u kind a).argmax activitySortKey)) := by
    rw [combine, List.filterMap_map]
    exact isBest_flatMap fun kind _ => isBest_argmax _
  have hshard : ∀ x ∈ job.kinds.flatMap (fun kind => job.entries u kind a), x.shard = job.shard := fun x hx => by
    obtain ⟨kind, -, hx⟩ := List.mem_flatMap.mp hx
    exact shard_of_mem_entries hx
  exact hbest.unique (isBest_argmax _) fun x hx y hy =>
    activitySortKey_injective ((hshard x hx).trans (hshard y hy).symm)

end Entries

/-! ### One round -/

section Round
variable {u : Lower} {job : Job} {args : Args} {kind : Kind} {m m' : Memory}

/-- The remembered hashes are those of the canonical blocks. -/
def CacheOk (u : Lower) (job : Job) (d : Dict ℕ Text) : Prop := ∀ n, ∀ h ∈ d.get? n, h = job.hashAt u n

/-- The remembered hashes after the lookups of a round. -/
def Job.learned (u : Lower) (job : Job) (d : Dict ℕ Text) (blocks : List ℕ) : Dict ℕ Text :=
  (((blocks.filter (· ∉ d.keys)).dedup.insertionSort (· ≤ ·)).map fun n => (n, job.hashAt u n)).foldl
    (fun d b => d.insert b.1 b.2) d

def pageOf (job : Job) (args : Args) (kind : Kind) (item : Text × ℕ) : Page :=
  ⟨item.1, item.2, job.node.listing kind item.1 item.2 args.pageSize⟩

/-- An entry at or before the cutoff, canonical or not. -/
def Job.candidateOf (u : Lower) (job : Job) (kind : Kind) (owner : Text × Text) : Option Candidate :=
  (job.node.transaction kind owner.2).bind fun tx =>
    if job.snapshot.block < tx.blockNumber ∨ job.snapshot.requestedTimestamp < tx.timestamp then none
    else some ⟨owner.1, job.activityOf u kind tx, u.lower tx.blockHash⟩

theorem mem_history_of_mem_listing {a h : Text} {page pageSize : ℕ} (hmem : h ∈ job.node.listing kind a page pageSize) :
    h ∈ job.node.history kind a :=
  List.mem_of_mem_take (List.mem_of_mem_drop hmem)

theorem Serves.listPage_ok (hserves : Serves u job) (hkind : kind ∈ job.kinds) {item : Text × ℕ}
    (hitem : item.1 ∈ job.candidates) : listPage job args kind item = .ok (pageOf job args kind item) := by
  have hprefix : ∀ h ∈ job.node.listing kind item.1 item.2 args.pageSize, hexPrefix <+: h := fun h hh =>
    (hserves.listed kind hkind item.1 hitem h (mem_history_of_mem_listing hh)).1
  unfold listPage
  dsimp only
  rw [require, if_pos hprefix]
  rfl

theorem transactionActivity_ok {tx : Transaction} (hhash : hexPrefix <+: tx.hash) (hblock : hexPrefix <+: tx.blockHash) :
    transactionActivity u job kind tx =
      .ok (if job.snapshot.block < tx.blockNumber ∨ job.snapshot.requestedTimestamp < tx.timestamp then none
        else some (job.activityOf u kind tx, u.lower tx.blockHash)) := by
  have hrequire : require (hexPrefix <+: tx.hash ∧ hexPrefix <+: tx.blockHash) Error.missingHash = .ok () :=
    if_pos ⟨hhash, hblock⟩
  unfold transactionActivity
  rw [hrequire]
  rfl

theorem Serves.resolve_ok (hserves : Serves u job) (hkind : kind ∈ job.kinds) {owner : Text × Text}
    (howner : owner.1 ∈ job.candidates) (hh : owner.2 ∈ job.node.history kind owner.1) :
    resolve u job kind owner = .ok (job.candidateOf u kind owner) := by
  obtain ⟨-, tx, htx⟩ := hserves.listed kind hkind owner.1 howner owner.2 hh
  unfold resolve Job.candidateOf
  rw [htx.found, ofOption_bind_ok]
  refine ⟨tx, rfl, ?_⟩
  rw [require_bind_ok]
  refine ⟨htx.named, ?_⟩
  rw [transactionActivity_ok htx.hash htx.blockHash, Option.bind_some]
  by_cases hlate : job.snapshot.block < tx.blockNumber ∨ job.snapshot.requestedTimestamp < tx.timestamp
  · rw [if_pos hlate, if_pos hlate]
    rfl
  · rw [if_neg hlate, if_neg hlate]
    rfl

theorem Serves.canonicalBlock_ok (hserves : Serves u job) {n : ℕ} (hn : n ≤ job.snapshot.block) :
    canonicalBlock u job n = .ok (n, job.hashAt u n) := by
  obtain ⟨b, hb, hnumber, hhash⟩ := hserves.blocks n hn
  unfold canonicalBlock Job.hashAt
  rw [hb, ofOption_bind_ok]
  refine ⟨b, rfl, ?_⟩
  rw [require_bind_ok]
  refine ⟨hnumber, ?_⟩
  rw [require, if_pos hhash]
  rfl

theorem candidateOf_some {owner : Text × Text} {c : Candidate} (h : job.candidateOf u kind owner = some c) :
    c.address = owner.1 ∧ c.activity.block ≤ job.snapshot.block := by
  obtain ⟨tx, -, hc⟩ := Option.bind_eq_some_iff.mp h
  split_ifs at hc with hlate
  obtain rfl := Option.some.inj hc
  exact ⟨rfl, not_lt.mp (not_or.mp hlate).1⟩

theorem get?_foldl_insert {κ ν : Type} [DecidableEq κ] {f : κ → ν} (ks : List κ) (d : Dict κ ν) (k : κ) :
    (ks.foldl (fun d k => d.insert k (f k)) d).get? k = if k ∈ ks then some (f k) else d.get? k := by
  induction ks generalizing d with
  | nil => simp
  | cons k' ks ih =>
    rw [List.foldl_cons, ih, Dict.get?_insert]
    by_cases hk : k = k'
    · subst hk
      by_cases hmem : k ∈ ks <;> simp [hmem]
    · simp [hk]

/-- After the lookups the remembered hash of every block that is asked for is the canonical one. -/
theorem CacheOk.learned {d : Dict ℕ Text} (hd : CacheOk u job d) (blocks : List ℕ) :
    CacheOk u job (job.learned u d blocks) ∧ ∀ n ∈ blocks, (job.learned u d blocks).get? n = some (job.hashAt u n) := by
  have hget : ∀ n, (job.learned u d blocks).get? n =
      if n ∈ blocks ∧ n ∉ d.keys then some (job.hashAt u n) else d.get? n := fun n => by
    rw [Job.learned, List.foldl_map, get?_foldl_insert]
    simp
  refine ⟨fun n h hh => ?_, fun n hn => ?_⟩
  · rw [hget] at hh
    split_ifs at hh with hasked
    · exact (Option.some.inj hh).symm
    · exact hd n h hh
  · rw [hget]
    by_cases hknown : n ∈ d.keys
    · rw [if_neg fun h => h.2 hknown]
      cases hcached : d.get? n with
      | none => exact absurd hknown (Dict.get?_eq_none_iff.mp hcached)
      | some h => rw [hd n h hcached]
    · rw [if_pos ⟨hn, hknown⟩]

/-- Of the entries on a page those count that name the canonical block. -/
theorem kept_of_page {d : Dict ℕ Text} {a : Text} {hashes : List Text}
    (hd : ∀ c ∈ hashes.filterMap (fun h => job.candidateOf u kind (a, h)),
      d.get? c.activity.block = some (job.hashAt u c.activity.block)) :
    ((hashes.filterMap fun h => job.candidateOf u kind (a, h)).filter
      fun c => d.get? c.activity.block = some c.blockHash).map Candidate.activity = hashes.filterMap (job.counted u kind) := by
  rw [List.filter_filterMap, List.map_filterMap]
  refine List.filterMap_congr fun h hh => ?_
  have hc := fun c hsome => hd c (List.mem_filterMap.mpr ⟨h, hh, hsome⟩)
  unfold Job.candidateOf at hc ⊢
  unfold Job.counted
  cases htx : job.node.transaction kind h with
  | none => rfl
  | some tx =>
    rw [htx] at hc
    simp only [Option.bind_some] at hc ⊢
    unfold Job.countedTx Job.Canonical
    by_cases hlate : job.snapshot.block < tx.blockNumber ∨ job.snapshot.requestedTimestamp < tx.timestamp
    · rw [if_pos hlate, if_neg]
      · rfl
      · omega
    · have hcached := hc _ (if_neg hlate)
      rw [if_neg hlate]
      dsimp only [Job.activityOf] at hcached ⊢
      have hin : tx.blockNumber ≤ job.snapshot.block ∧ tx.timestamp ≤ job.snapshot.requestedTimestamp := by omega
      by_cases hcanonical : u.lower tx.blockHash = job.hashAt u tx.blockNumber
      · rw [if_pos ⟨⟨hin.1, hcanonical⟩, hin.2⟩, Option.filter_some, hcached, hcanonical]
        simp
      · rw [if_neg fun h => hcanonical h.1.2, Option.filter_some, hcached]
        simp [Ne.symm hcanonical]

/-- What counts on a page. -/
def Page.acts (u : Lower) (job : Job) (kind : Kind) (page : Page) : List Activity := page.hashes.filterMap (job.counted u kind)

/-- Nothing on the page counts, and there may be another one. -/
def Page.Unsettled (u : Lower) (job : Job) (args : Args) (kind : Kind) (page : Page) : Prop :=
  page.acts u job kind = [] ∧ args.pageSize ≤ page.hashes.length

instance (page : Page) : Decidable (page.Unsettled u job args kind) := by unfold Page.Unsettled; infer_instance

/-- An address is settled by what counts on its page, or by the end of its history. -/
theorem settle_eq {kept : List Candidate} {page : Page} {p : Progress}
    (hkept : (kept.filter fun c => c.address = page.address).map Candidate.activity = page.acts u job kind)
    (hmax : page.Unsettled u job args kind → page.page + 1 < args.maxPages) : settle args kept p page =
      .ok (if page.Unsettled u job args kind then { p with pending := p.pending ++ [(page.address, page.page + 1)] }
        else { p with results := p.results.insert page.address ((page.acts u job kind).argmax activitySortKey) }) := by
  unfold settle
  simp only [hkept]
  cases hacts : (page.acts u job kind).argmax activitySortKey with
  | some activity =>
    have hne : page.acts u job kind ≠ [] := fun hnil => by
      rw [hnil] at hacts
      cases hacts
    have hnot : ¬page.Unsettled u job args kind := fun h => hne h.1
    rw [if_neg hnot]
  | none =>
    have hnil : page.acts u job kind = [] := List.argmax_eq_none.mp hacts
    by_cases hshort : page.hashes.length < args.pageSize
    · have hnot : ¬page.Unsettled u job args kind := fun h => not_le.mpr hshort h.2
      rw [if_neg hnot]
      simp only [if_pos hshort]
    · have hunsettled : page.Unsettled u job args kind := ⟨hnil, not_lt.mp hshort⟩
      rw [if_pos hunsettled]
      simp only [if_neg hshort, if_neg (not_le.mpr (hmax hunsettled))]

theorem settle_run {kept : List Candidate} {pages : List Page} {p : Progress}
    (hkept : ∀ page ∈ pages,
      (kept.filter fun c => c.address = page.address).map Candidate.activity = page.acts u job kind)
    (hmax : ∀ page ∈ pages, page.Unsettled u job args kind → page.page + 1 < args.maxPages)
    (hnodup : (pages.map Page.address).Nodup) :
    ∃ q, pages.foldlM (settle args kept) p = .ok q ∧
      q.pending = p.pending ++ (pages.filter fun page => page.Unsettled u job args kind).map
        (fun page => (page.address, page.page + 1)) ∧
      (∀ page ∈ pages, ¬page.Unsettled u job args kind →
        q.results.get? page.address = some ((page.acts u job kind).argmax activitySortKey)) ∧
      ∀ a ∉ pages.map Page.address, q.results.get? a = p.results.get? a := by
  induction pages generalizing p with
  | nil => exact ⟨p, rfl, by simp, nofun, fun _ _ => rfl⟩
  | cons page pages ih =>
    obtain ⟨hkeptPage, hkept⟩ := List.forall_mem_cons.mp hkept
    obtain ⟨hmaxPage, hmax⟩ := List.forall_mem_cons.mp hmax
    obtain ⟨hnew, hnodup⟩ := List.nodup_cons.mp hnodup
    rw [List.foldlM_cons, settle_eq hkeptPage hmaxPage]
    by_cases hunsettled : page.Unsettled u job args kind
    · rw [if_pos hunsettled]
      obtain ⟨q, hq, hpending, hsettled, hother⟩ :=
        ih (p := { p with pending := p.pending ++ [(page.address, page.page + 1)] }) hkept hmax hnodup
      refine ⟨q, hq, ?_, List.forall_mem_cons.mpr ⟨fun h => absurd hunsettled h, hsettled⟩, fun a ha => ?_⟩
      · rw [hpending, List.filter_cons_of_pos (by simpa using hunsettled), List.map_cons, List.append_assoc]
        rfl
      · exact hother a fun hmem => ha (List.mem_cons_of_mem _ hmem)
    · rw [if_neg hunsettled]
      obtain ⟨q, hq, hpending, hsettled, hother⟩ :=
        ih (p := { p with results := p.results.insert page.address ((page.acts u job kind).argmax activitySortKey) })
          hkept hmax hnodup
      refine ⟨q, hq, ?_, List.forall_mem_cons.mpr ⟨fun _ => ?_, hsettled⟩, fun a ha => ?_⟩
      · rw [hpending, List.filter_cons_of_neg (by simpa using hunsettled)]
      · rw [hother _ hnew, Dict.get?_insert, if_pos rfl]
      · have hne : a ≠ page.address := fun h => ha (h ▸ List.mem_cons_self)
        rw [hother a fun hmem => ha (List.mem_cons_of_mem _ hmem), Dict.get?_insert, if_neg hne]

/-- The entries on these pages that are not after the cutoff. -/
def Job.candidatesOn (u : Lower) (job : Job) (kind : Kind) (pages : List Page) : List Candidate :=
  pages.flatMap fun page => page.hashes.filterMap fun h => job.candidateOf u kind (page.address, h)

/-- Pages of candidates. -/
def Listed (job : Job) (kind : Kind) (pages : List Page) : Prop :=
  ∀ page ∈ pages, page.address ∈ job.candidates ∧ ∀ h ∈ page.hashes, h ∈ job.node.history kind page.address

variable {pages : List Page}

theorem Serves.resolve_pages (hserves : Serves u job) (hkind : kind ∈ job.kinds) (hlisted : Listed job kind pages) :
    ∃ resolved, (pages.flatMap fun page => page.hashes.map fun h => (page.address, h)).mapM (resolve u job kind) =
      .ok resolved ∧ resolved.filterMap id = job.candidatesOn u kind pages := by
  refine ⟨_, mapM_ok_of_forall (g := job.candidateOf u kind) fun owner howner => ?_, ?_⟩
  · obtain ⟨page, hmem, howner⟩ := List.mem_flatMap.mp howner
    obtain ⟨h, hh, rfl⟩ := List.mem_map.mp howner
    exact hserves.resolve_ok hkind (hlisted page hmem).1 ((hlisted page hmem).2 h hh)
  · rw [List.filterMap_map, List.filterMap_flatMap]
    simp only [List.filterMap_map]
    rfl

theorem block_le_of_mem_candidatesOn {c : Candidate} (h : c ∈ job.candidatesOn u kind pages) :
    c.activity.block ≤ job.snapshot.block := by
  obtain ⟨page, -, hc⟩ := List.mem_flatMap.mp h
  obtain ⟨t, -, hc⟩ := List.mem_filterMap.mp hc
  exact (candidateOf_some hc).2

theorem Serves.blocks_ok (hserves : Serves u job) {blocks : List ℕ} (hblocks : ∀ n ∈ blocks, n ≤ job.snapshot.block) :
    ((blocks.filter (· ∉ m.canonical.keys)).dedup.insertionSort (· ≤ ·)).mapM (canonicalBlock u job) =
      .ok (((blocks.filter (· ∉ m.canonical.keys)).dedup.insertionSort (· ≤ ·)).map fun n => (n, job.hashAt u n)) := by
  refine mapM_ok_of_forall fun n hn => hserves.canonicalBlock_ok (hblocks n ?_)
  simp only [List.mem_insertionSort, List.mem_dedup, List.mem_filter] at hn
  exact hn.1

/-- The canonical entries of an address in this round. -/
theorem kept_of_pages {d : Dict ℕ Text} (hnodup : (pages.map Page.address).Nodup)
    (hd : ∀ c ∈ job.candidatesOn u kind pages, d.get? c.activity.block = some (job.hashAt u c.activity.block))
    {page : Page} (hpage : page ∈ pages) :
    ((((job.candidatesOn u kind pages).filter fun c => d.get? c.activity.block = some c.blockHash)).filter
      fun c => c.address = page.address).map Candidate.activity = page.acts u job kind := by
  have howner : ∀ page ∈ pages, ∀ c ∈ (page.hashes.filterMap fun h => job.candidateOf u kind (page.address, h)).filter
      (fun c => d.get? c.activity.block = some c.blockHash), c.address = page.address := by
    intro page _ c hc
    obtain ⟨h, -, hc⟩ := List.mem_filterMap.mp (List.mem_of_mem_filter hc)
    exact (candidateOf_some hc).1
  rw [Job.candidatesOn, List.filter_flatMap, filter_flatMap_of_owner hnodup howner hpage]
  exact kept_of_page fun c hc => hd c (List.mem_flatMap.mpr ⟨page, hpage, hc⟩)

variable {pending : List (Text × ℕ)}

/-- One round: each pending address is settled or goes to its next page. -/
theorem Serves.roundStep_ok (hserves : Serves u job) (results : Dict Text (Option Activity)) (hkind : kind ∈ job.kinds)
    (hm : CacheOk u job m.canonical)
    (hcandidates : ∀ i ∈ pending, i.1 ∈ job.candidates) (hnodup : (pending.map Prod.fst).Nodup)
    (hmax : ∀ i ∈ pending, (pageOf job args kind i).Unsettled u job args kind → i.2 + 1 < args.maxPages) :
    ∃ q m', roundStep u job args kind results pending m = .ok (q, m') ∧ CacheOk u job m'.canonical ∧
      q.pending = (pending.filter fun i => (pageOf job args kind i).Unsettled u job args kind).map
        (fun i => (i.1, i.2 + 1)) ∧
      (∀ i ∈ pending, ¬(pageOf job args kind i).Unsettled u job args kind →
        q.results.get? i.1 = some (((pageOf job args kind i).acts u job kind).argmax activitySortKey)) ∧
      ∀ a ∉ pending.map Prod.fst, q.results.get? a = results.get? a := by
  have hpages : pending.mapM (listPage job args kind) = .ok (pending.map (pageOf job args kind)) :=
    mapM_ok_of_forall fun i hi => hserves.listPage_ok hkind (hcandidates i hi)
  have hlisted : Listed job kind (pending.map (pageOf job args kind)) := by
    intro page hpage
    obtain ⟨i, hi, rfl⟩ := List.mem_map.mp hpage
    exact ⟨hcandidates i hi, fun h hh => mem_history_of_mem_listing hh⟩
  have haddress : (pending.map (pageOf job args kind)).map Page.address = pending.map Prod.fst := by
    rw [List.map_map]
    rfl
  obtain ⟨resolved, hresolve, hfound⟩ := hserves.resolve_pages hkind hlisted
  have hblocks : ∀ n ∈ (job.candidatesOn u kind (pending.map (pageOf job args kind))).map (fun c => c.activity.block),
      n ≤ job.snapshot.block := fun n hn => by
    obtain ⟨c, hc, rfl⟩ := List.mem_map.mp hn
    exact block_le_of_mem_candidatesOn hc
  obtain ⟨hmemory, hlookup⟩ := hm.learned
    ((job.candidatesOn u kind (pending.map (pageOf job args kind))).map fun c => c.activity.block)
  obtain ⟨q, hq, hpending, hsettled, hother⟩ := settle_run (p := ⟨results, []⟩)
    (fun page hpage => kept_of_pages (haddress ▸ hnodup) (fun c hc => hlookup _ (List.mem_map_of_mem hc)) hpage)
    (fun page hpage hunsettled => by
      obtain ⟨i, hi, rfl⟩ := List.mem_map.mp hpage
      exact hmax i hi hunsettled) (haddress ▸ hnodup)
  have hround : ∃ m', roundStep u job args kind results pending m = .ok (q, m') ∧ m'.canonical = job.learned u m.canonical
      ((job.candidatesOn u kind (pending.map (pageOf job args kind))).map fun c => c.activity.block) := by
    unfold Job.learned at hq ⊢
    unfold roundStep
    rw [hpages, bind_ok_left]
    dsimp only
    rw [hresolve, bind_ok_left, hfound, hserves.blocks_ok hblocks, bind_ok_left, hq]
    exact ⟨_, rfl, rfl⟩
  obtain ⟨m', hround, hcanonical⟩ := hround
  refine ⟨q, m', hround, hcanonical ▸ hmemory, ?_, fun i hi hnot => ?_, fun a ha => ?_⟩
  · rw [hpending, List.nil_append, List.filter_map, List.map_map]
    rfl
  · exact hsettled _ (List.mem_map_of_mem hi) hnot
  · exact hother a (haddress ▸ ha)

end Round

/-! ### Rounds until nothing is pending -/

section Loop
variable {u : Lower} {job : Job} {args : Args} {kind : Kind} {m : Memory} {pending : List (Text × ℕ)}
  {fuel k : ℕ}

/-- The addresses that are pending have passed their first `k` pages. -/
structure PendingOk (u : Lower) (job : Job) (args : Args) (kind : Kind) (k : ℕ) (pending : List (Text × ℕ)) : Prop where
  candidates : ∀ i ∈ pending, i.1 ∈ job.candidates
  nodup : (pending.map Prod.fst).Nodup
  page : ∀ i ∈ pending, i.2 = k
  passed : ∀ i ∈ pending, Passed (job.counted u kind) (job.node.history kind i.1) args.pageSize i.2

theorem acts_pageOf (i : Text × ℕ) : (pageOf job args kind i).acts u job kind =
    onPage (job.counted u kind) (job.node.history kind i.1) args.pageSize i.2 := rfl

theorem Passed.of_unsettled {i : Text × ℕ} (h : Passed (job.counted u kind) (job.node.history kind i.1) args.pageSize i.2)
    (hunsettled : (pageOf job args kind i).Unsettled u job args kind) :
    Passed (job.counted u kind) (job.node.history kind i.1) args.pageSize (i.2 + 1) :=
  h.next hunsettled.1 hunsettled.2

/-- What settles an address is its latest entry. -/
theorem Passed.settled {i : Text × ℕ} (h : Passed (job.counted u kind) (job.node.history kind i.1) args.pageSize i.2)
    (hnewest : NewestFirst u job kind i.1) (hsettled : ¬(pageOf job args kind i).Unsettled u job args kind) :
    ((pageOf job args kind i).acts u job kind).argmax activitySortKey =
      (job.entries u kind i.1).argmax activitySortKey := by
  have hbest := isBest_argmax (f := activitySortKey) ((pageOf job args kind i).acts u job kind)
  by_cases huse : (pageOf job args kind i).acts u job kind = []
  · have hshort : (slice (job.node.history kind i.1) (i.2 * args.pageSize) (i.2 * args.pageSize + args.pageSize)).length <
        args.pageSize := not_le.mp fun hfull => hsettled ⟨huse, hfull⟩
    have hnothing : job.entries u kind i.1 = [] := h.nothing huse hshort
    rw [huse, hnothing]
  · exact IsBest.eq_argmax_entries (h.isBest hnewest.descends huse hbest)

theorem Serves.collectLoop_ok (hserves : Serves u job) (results : Dict Text (Option Activity)) (hkind : kind ∈ job.kinds)
    (henough : EnoughPages job args)
    (hm : CacheOk u job m.canonical) (hpending : PendingOk u job args kind k pending) (hfuel : fuel + k = args.maxPages) :
    ∃ results' m', collectLoop u job args kind fuel results pending m = .ok (results', m') ∧
      CacheOk u job m'.canonical ∧
      (∀ i ∈ pending, results'.get? i.1 = some ((job.entries u kind i.1).argmax activitySortKey)) ∧
      ∀ a ∉ pending.map Prod.fst, results'.get? a = results.get? a := by
  have hbound : ∀ (i : Text × ℕ) (page : ℕ), i ∈ pending →
      Passed (job.counted u kind) (job.node.history kind i.1) args.pageSize page → page < args.maxPages :=
    fun i page hi hpassed =>
      (hpassed.page_le args.pageSize_pos).trans_lt (henough kind hkind i.1 (hpending.candidates i hi))
  induction fuel generalizing k pending results m with
  | zero =>
    cases pending with
    | nil => exact ⟨results, m, by simp [collectLoop], hm, nofun, fun _ _ => rfl⟩
    | cons i pending =>
      -- the page number has reached the bound, which no passed page does
      have hpage : i.2 = k := hpending.page i List.mem_cons_self
      have hlt := hbound i i.2 List.mem_cons_self (hpending.passed i List.mem_cons_self)
      omega
  | succ fuel ih =>
    cases hcase : pending with
    | nil => exact ⟨results, m, by simp [collectLoop], hm, nofun, fun _ _ => rfl⟩
    | cons i rest =>
      rw [← hcase]
      have hloop : collectLoop u job args kind (fuel + 1) results pending m =
          (roundStep u job args kind results pending m).bind fun p =>
            collectLoop u job args kind fuel p.1.results p.1.pending p.2 := by
        rw [hcase]
        rfl
      obtain ⟨q, m', hround, hm', hnext, hsettled, hother⟩ :=
        hserves.roundStep_ok results hkind hm hpending.candidates hpending.nodup
          fun j hj hunsettled => hbound j (j.2 + 1) hj (Passed.of_unsettled (hpending.passed j hj) hunsettled)
      have hmem : ∀ j ∈ q.pending, ∃ j' ∈ pending, (pageOf job args kind j').Unsettled u job args kind ∧
          j = (j'.1, j'.2 + 1) := fun j hj => by
        rw [hnext] at hj
        obtain ⟨j', hj', rfl⟩ := List.mem_map.mp hj
        obtain ⟨hj', hunsettled⟩ := List.mem_filter.mp hj'
        exact ⟨j', hj', by simpa using hunsettled, rfl⟩
      have hfst : q.pending.map Prod.fst =
          (pending.filter fun j => (pageOf job args kind j).Unsettled u job args kind).map Prod.fst := by
        rw [hnext, List.map_map]
        rfl
      have hok : PendingOk u job args kind (k + 1) q.pending := by
        refine ⟨fun j hj => ?_, ?_, fun j hj => ?_, fun j hj => ?_⟩
        · obtain ⟨j', hj', -, rfl⟩ := hmem j hj
          exact hpending.candidates j' hj'
        · rw [hfst]
          exact hpending.nodup.sublist (List.filter_sublist.map _)
        · obtain ⟨j', hj', -, rfl⟩ := hmem j hj
          exact congrArg (· + 1) (hpending.page j' hj')
        · obtain ⟨j', hj', hunsettled, rfl⟩ := hmem j hj
          exact Passed.of_unsettled (hpending.passed j' hj') hunsettled
      obtain ⟨results', m'', hrest, hm'', hlater, hkept⟩ := ih q.results hm' hok (by omega)
        fun j page hj hpassed => by
          obtain ⟨j', hj', -, rfl⟩ := hmem j hj
          exact hbound j' page hj' hpassed
      refine ⟨results', m'', ?_, hm'', fun j hj => ?_, fun a ha => ?_⟩
      · rw [hloop, hround, bind_ok_left]
        exact hrest
      · by_cases hunsettled : (pageOf job args kind j).Unsettled u job args kind
        · have hj' : (j.1, j.2 + 1) ∈ q.pending := by
            rw [hnext]
            exact List.mem_map.mpr ⟨j, List.mem_filter.mpr ⟨hj, by simpa using hunsettled⟩, rfl⟩
          exact hlater (j.1, j.2 + 1) hj'
        · have hnot : j.1 ∉ q.pending.map Prod.fst := by
            rw [hfst]
            intro hmemFst
            obtain ⟨j', hj', hsame⟩ := List.mem_map.mp hmemFst
            obtain ⟨hj', hun⟩ := List.mem_filter.mp hj'
            obtain rfl := List.inj_on_of_nodup_map hpending.nodup hj' hj hsame
            exact hunsettled (by simpa using hun)
          rw [hkept _ hnot, hsettled j hj hunsettled,
            Passed.settled (hpending.passed j hj) (hserves.newestFirst kind hkind j.1 (hpending.candidates j hj)) hunsettled]
      · have hnot : a ∉ q.pending.map Prod.fst := by
          rw [hfst]
          exact fun hmemFst => ha ((List.filter_sublist.map Prod.fst).subset hmemFst)
        rw [hkept a hnot, hother a ha]

theorem Serves.collectSource_ok (hserves : Serves u job) (hkind : kind ∈ job.kinds) (henough : EnoughPages job args)
    (hm : CacheOk u job m.canonical) {addresses : List Text} (hsub : ∀ a ∈ addresses, a ∈ job.candidates)
    (hnodup : addresses.Nodup) :
    ∃ results m', collectSource u job args kind addresses m = .ok (results, m') ∧ CacheOk u job m'.canonical ∧
      ∀ a ∈ addresses, results.get? a = some ((job.entries u kind a).argmax activitySortKey) := by
  have hfst : (addresses.map fun a => (a, 0)).map Prod.fst = addresses := by
    rw [List.map_map]
    exact List.map_id _
  have hpending : PendingOk u job args kind 0 (addresses.map fun a => (a, 0)) := by
    refine ⟨fun i hi => ?_, hfst.symm ▸ hnodup, fun i hi => ?_, fun i hi => ?_⟩
    · obtain ⟨a, ha, rfl⟩ := List.mem_map.mp hi
      exact hsub a ha
    · obtain ⟨a, -, rfl⟩ := List.mem_map.mp hi
      rfl
    · obtain ⟨a, -, rfl⟩ := List.mem_map.mp hi
      exact passed_zero
  obtain ⟨results, m', hloop, hm', hresults, -⟩ :=
    hserves.collectLoop_ok .empty hkind henough hm hpending (Nat.add_zero _)
  exact ⟨results, m', hloop, hm', fun a ha => hresults (a, 0) (List.mem_map_of_mem ha)⟩

end Loop

end HarmonyMigration.AccountActivity
