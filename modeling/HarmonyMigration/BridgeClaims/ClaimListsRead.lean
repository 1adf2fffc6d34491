import HarmonyMigration.BridgeClaims.ClaimListsExact
import HarmonyMigration.Lib.SortedBy

/-! Reading the lists back: every row is accepted, the totals match, and each row is published once. -/

namespace HarmonyMigration.BridgeClaims

open Erc20

/-! ### What is read -/

section Read

variable {u : Airdrop.One1.Lower} {assets : Dict Address Asset} {item : ClaimKey × ClaimItem}

/-- An entry of the list as it is read back. -/
def claimRow (item : ClaimKey × ClaimItem) : ClaimRow where
  account := item.1.2.1
  token := (item.1.2.2.map tokenAddress).getD 0
  amount := item.2.amount.toNat
  pools := (csvRow item).pools

structure ItemOk (assets : Dict Address Asset) (item : ClaimKey × ClaimItem) : Prop where
  payee_ne : item.1.2.1 ≠ 0
  token_mem : ∃ t, item.1.2.2 = some t ∧ tokenAddress t ∈ assets.keys
  pos : 0 < item.2.amount
  small : item.2.amount < 2 ^ 256

theorem readRow_csvRow (h : ItemOk assets item) {seen : List (Address × Address)}
    (hseen : ((claimRow item).account, (claimRow item).token) ∉ seen) (line : ℕ) :
    readRow (libAddress u) assets seen line (csvRow item) = .ok (claimRow item) := by
  obtain ⟨t, ht, hmem⟩ := h.token_mem
  have htoken : (claimRow item).token = tokenAddress t := by
    rw [claimRow, ht]
    rfl
  have haccount : parseAddress (libAddress u) line (csvRow item).account = .ok item.1.2.1 := by
    have hcolumn : (csvRow item).account = addressText item.1.2.1 := rfl
    rw [parseAddress, hcolumn, libAddress_addressText]
  have hread : parseToken (libAddress u) line (csvRow item).token = .ok (tokenAddress t) := by
    have hcolumn : (csvRow item).token = tokenText item.1.2.2 := rfl
    rw [hcolumn, ht, parseToken_tokenText]
  have hrange : ¬((csvRow item).amountRaw ≤ 0 ∨ (csvRow item).amountRaw ≥ 2 ^ 256) := by
    rw [not_or, not_le, not_le]
    exact ⟨h.pos, h.small⟩
  rw [htoken] at hseen
  rw [readRow, haccount, Except.bind_ok_left, if_neg h.payee_ne, hread, Except.bind_ok_left, if_neg (not_not.mpr hmem),
    if_neg hrange, if_neg (show (item.1.2.1, tokenAddress t) ∉ seen from hseen), ← htoken]
  rfl

/-- Entries that are in order and differ in payee or token are all accepted. -/
theorem readRows_csvRows {items : List (ClaimKey × ClaimItem)} {seen : List (Address × Address)} {line : ℕ}
    (hok : ∀ item ∈ items, ItemOk assets item)
    (hnd : ((items.map claimRow).map fun r => (r.account, r.token)).Nodup)
    (hnew : ∀ r ∈ items.map claimRow, (r.account, r.token) ∉ seen) :
    readRows (libAddress u) assets seen line (items.map csvRow) = .ok (items.map claimRow) := by
  induction items generalizing seen line with
  | nil => rfl
  | cons item items ih =>
    rw [List.map_cons, List.map_cons, List.nodup_cons] at hnd
    obtain ⟨hfirst, hnd⟩ := hnd
    have hrow := readRow_csvRow (u := u) (hok item (by simp)) (hnew (claimRow item) (by simp)) line
    have hrest : ∀ r ∈ items.map claimRow, (r.account, r.token) ∉ ((claimRow item).account, (claimRow item).token) :: seen := by
      intro r hr hmem
      rcases List.mem_cons.mp hmem with heq | hmem
      · exact hfirst (heq ▸ List.mem_map_of_mem hr)
      · exact hnew r (by simpa using Or.inr (by simpa using hr)) hmem
    rw [List.map_cons, readRows, hrow, Except.bind_ok_left,
      ih (fun item hitem => hok item (List.mem_cons_of_mem _ hitem)) hnd hrest]
    rfl

end Read

/-! ### What is published -/

section Publish

/-- Payee and token, as numbers. -/
def ClaimRow.order (r : ClaimRow) : ℕ ×ₗ ℕ := toLex (r.account.toNat, r.token.toNat)

variable {rows : List ClaimRow}

theorem ClaimRow.order_injective {r s : ClaimRow} (h : r.order = s.order) : (r.account, r.token) = (s.account, s.token) := by
  obtain ⟨haccount, htoken⟩ := Prod.mk.inj (toLex_inj.mp h)
  rw [BitVec.eq_of_toNat_eq haccount, BitVec.eq_of_toNat_eq htoken]

/-- Rows that differ in payee or token are published in strict order. -/
theorem sortRows_lt (hnd : (rows.map fun r => (r.account, r.token)).Nodup) :
    (sortRows rows).Pairwise fun r s => r.order < s.order := by
  have hperm : (sortRows rows).Perm rows := List.perm_insertionSort _ rows
  have hle : (sortRows rows).Pairwise fun r s => r.order ≤ s.order := SortedBy.pairwise_insertionSort ClaimRow.order rows
  have hne : (sortRows rows).Pairwise fun r s => (r.account, r.token) ≠ (s.account, s.token) := by
    apply List.pairwise_map.mp
    exact ((hperm.map _).nodup_iff).mpr hnd
  refine (hle.and hne).imp ?_
  rintro r s ⟨hrs, hdiffer⟩
  exact lt_of_le_of_ne hrs fun heq => hdiffer (ClaimRow.order_injective heq)

theorem map_snd_publishedList (rows : List ClaimRow) : (publishedList rows).map Prod.snd = List.range rows.length := by
  have hlength : (sortRows rows).length = rows.length := List.length_insertionSort _ rows
  rw [publishedList, List.zipIdx_map_snd, hlength, List.range_eq_range']

theorem map_fst_publishedList (rows : List ClaimRow) : (publishedList rows).map Prod.fst = sortRows rows :=
  List.zipIdx_map_fst 0 _

/-- The contracts share the rows out. -/
theorem flatMap_contractGroups (config : BridgeConfig) (chain : String) (rows : List ClaimRow) :
    ((contractGroups config chain rows).flatMap Group.rows).Perm rows := by
  have hnonempty : ∀ groups : List Group, (groups.filter fun g => ¬g.rows.isEmpty).flatMap Group.rows = groups.flatMap Group.rows := by
    intro groups
    induction groups with
    | nil => rfl
    | cons g groups ih =>
      by_cases hempty : g.rows = []
      · rw [List.filter_cons_of_neg (by simp [hempty]), ih, List.flatMap_cons, hempty, List.nil_append]
      · rw [List.filter_cons_of_pos (by simp [hempty]), List.flatMap_cons, List.flatMap_cons, ih]
  have hsplit := List.filter_append_perm (fun r : ClaimRow => decide (r.token ≠ config.oneClaimToken)) rows
  have hones : rows.filter (fun r => !decide (r.token ≠ config.oneClaimToken)) = rows.filter fun r => r.token = config.oneClaimToken := by
    apply List.filter_congr
    intro r _
    simp
  rw [hones] at hsplit
  unfold contractGroups
  dsimp only
  split_ifs with hone hrest
  · rw [hnonempty, List.flatMap_singleton]
    rw [hrest, List.nil_append] at hsplit
    exact hsplit
  · rw [hnonempty, List.flatMap_cons, List.flatMap_singleton]
    exact hsplit
  · rw [List.flatMap_singleton]

/-- Every row is on exactly one contract's list. -/
theorem existsUnique_group {config : BridgeConfig} {chain : String} (hnd : rows.Nodup) {r : ClaimRow} (hr : r ∈ rows) :
    ∃! g, g ∈ contractGroups config chain rows ∧ r ∈ g.rows := by
  have hperm := flatMap_contractGroups config chain rows
  obtain ⟨g, hg, hrg⟩ := List.mem_flatMap.mp (hperm.mem_iff.mpr hr)
  have hdisjoint := (List.nodup_flatMap.mp (hperm.nodup_iff.mpr hnd)).2
  refine ⟨g, ⟨hg, hrg⟩, ?_⟩
  rintro g' ⟨hg', hrg'⟩
  by_contra hne
  have hsymm : Std.Symm (Function.onFun List.Disjoint Group.rows) := ⟨fun _ _ h => h.symm⟩
  exact hdisjoint.forall hg' hg hne hrg' hrg

theorem nodup_of_mem_contractGroups {config : BridgeConfig} {chain : String} {g : Group}
    (hnd : (rows.map fun r => (r.account, r.token)).Nodup) (hg : g ∈ contractGroups config chain rows) :
    (g.rows.map fun r => (r.account, r.token)).Nodup := by
  have hperm := (flatMap_contractGroups config chain rows).map fun r => (r.account, r.token)
  rw [List.map_flatMap] at hperm
  exact (List.nodup_flatMap.mp (hperm.nodup_iff.mpr hnd)).1 g hg

end Publish

/-! ### The lists and their pools -/

section Match

open Allocation

variable {u : Airdrop.One1.Lower} {policy : Policy} {m : MinimumPolicy} {inputs : List PoolInput}
  {built : List (Summary × List Allocation.Row)} {chain : String}

/-- Two pools paid on the chain that pay one address spell it in one way: the coin is `native`, or a token with the zero address. -/
def OneSpelling (chain : String) (pools : List Summary) : Prop :=
  ∀ s ∈ pools, ∀ s' ∈ pools, s.claimChain = some chain → s'.claimChain = some chain →
    ∀ t t', s.claimToken = some t → s'.claimToken = some t' → tokenAddress t = tokenAddress t' → t = t'

theorem poolOk_of_buildPools (hok : OverridesOk policy) (hbuilt : buildPools policy m inputs = .ok built) :
    ∀ b ∈ built, ∃ i, PoolOk policy i b.1 b.2 := by
  intro b hb
  obtain ⟨i, -, hi⟩ := Except.ok_of_mem_right (Except.forall₂_of_mapM_ok hbuilt) hb
  exact ⟨i, poolOk_of_buildPool hok hi⟩

/-- An entry of a chain's list comes from a pool that is paid there, and pays an address that is not zero. -/
theorem pool_of_mem_claimItems (hall : ∀ b ∈ built, ∃ i, PoolOk policy i b.1 b.2) {item : ClaimKey × ClaimItem}
    (hitem : item ∈ claimItems chain (built.flatMap Prod.snd)) :
    item.1.2.1 ≠ 0 ∧ ∃ s ∈ built.map Prod.fst, ∃ t, s.claimChain = some chain ∧ s.claimToken = some t ∧ item.1.2.2 = some t := by
  obtain ⟨hentry, hchain⟩ := mem_claimItems.mp hitem
  obtain ⟨row, hrow, hkey⟩ := mem_keys_claims.mp (List.mem_map.mpr ⟨_, hentry, rfl⟩)
  obtain ⟨hrow, hcounts⟩ := List.mem_filter.mp hrow
  obtain ⟨b, hb, hrow⟩ := List.mem_flatMap.mp hrow
  obtain ⟨i, hpool⟩ := hall b hb
  obtain ⟨hrowChain, hrowToken⟩ := hpool.row_target row hrow
  have hpayee : item.1.2.1 = row.payee := by rw [← hkey]; rfl
  have htoken : item.1.2.2 = b.1.claimToken := by rw [← hrowToken, ← hkey]; rfl
  have hpoolChain : b.1.claimChain = some chain := by rw [← hrowChain, ← hchain, ← hkey]; rfl
  refine ⟨?_, b.1, List.mem_map_of_mem hb, ?_⟩
  · rw [hpayee]
    exact hpool.payee_ne row hrow (counts_iff.mp hcounts).1
  · -- a pool with a chain has a token
    have htarget := hpool.target_eq
    rw [hpoolChain, claimTarget] at htarget
    split at htarget
    · exact ⟨_, hpoolChain, (Prod.mk.inj htarget).2, htoken.trans (Prod.mk.inj htarget).2⟩
    · exact ⟨_, hpoolChain, (Prod.mk.inj htarget).2, htoken.trans (Prod.mk.inj htarget).2⟩
    · cases (Prod.mk.inj htarget).1

theorem nodup_claimRows (hall : ∀ b ∈ built, ∃ i, PoolOk policy i b.1 b.2) (hone : OneSpelling chain (built.map Prod.fst)) :
    (((claimItems chain (built.flatMap Prod.snd)).map claimRow).map fun r => (r.account, r.token)).Nodup := by
  rw [List.map_map]
  have hnd := nodup_claimItems chain (built.flatMap Prod.snd)
  apply List.Nodup.map_on _ (List.Nodup.of_map _ hnd)
  intro p hp q hq heq
  obtain ⟨-, s, hs, t, hsChain, hsToken, hpt⟩ := pool_of_mem_claimItems hall hp
  obtain ⟨-, s', hs', t', hsChain', hsToken', hqt⟩ := pool_of_mem_claimItems hall hq
  obtain ⟨haccount, htoken⟩ := Prod.mk.inj heq
  have haddress : tokenAddress t = tokenAddress t' := by
    dsimp only [Function.comp_apply, claimRow] at htoken
    rw [hpt, hqt] at htoken
    exact htoken
  have htt := hone s hs s' hs' hsChain hsChain' t t' hsToken hsToken' haddress
  have hkey : p.1 = q.1 := by
    refine Prod.ext ((mem_claimItems.mp hp).2.trans (mem_claimItems.mp hq).2.symm) (Prod.ext haccount ?_)
    rw [hpt, hqt, htt]
  exact List.inj_on_of_nodup_map hnd hp hq hkey

/-- The list's rows of a token add up to what its pools owe. -/
theorem sum_claimRows (hall : ∀ b ∈ built, ∃ i, PoolOk policy i b.1 b.2) (token : Address) :
    (((((claimItems chain (built.flatMap Prod.snd)).map claimRow).filter fun r => r.token = token).map ClaimRow.amount).sum : ℤ) =
      (((built.map Prod.fst).filter fun s => Owes chain token s).map Summary.claimable).sum := by
  have hnonneg : ∀ row ∈ built.flatMap Prod.snd, 0 ≤ row.allocation := by
    intro row hrow
    obtain ⟨b, hb, hrow⟩ := List.mem_flatMap.mp hrow
    obtain ⟨i, hpool⟩ := hall b hb
    exact hpool.nonneg row hrow
  have hrows : (((claimItems chain (built.flatMap Prod.snd)).map claimRow).filter fun r => r.token = token) =
      ((claimItems chain (built.flatMap Prod.snd)).filter fun item => item.1.2.2.map tokenAddress = some token).map claimRow := by
    rw [List.filter_map]
    congr 1
    apply List.filter_congr
    intro item hitem
    obtain ⟨-, s, -, t, -, -, hitemToken⟩ := pool_of_mem_claimItems hall hitem
    simp [claimRow, hitemToken]
  have hamounts : (((claimItems chain (built.flatMap Prod.snd)).filter fun item => item.1.2.2.map tokenAddress = some token).map
      fun item => ((claimRow item).amount : ℤ)) =
      ((claimItems chain (built.flatMap Prod.snd)).filter fun item => item.1.2.2.map tokenAddress = some token).map
        fun item => item.2.amount := by
    apply List.map_congr_left
    intro item hitem
    have hpos := amount_pos hnonneg (mem_claimItems.mp (List.mem_of_mem_filter hitem)).1
    exact Int.toNat_of_nonneg hpos.le
  have hsum := sum_claimItems chain (built.flatMap Prod.snd) fun k => decide (k.2.2.map tokenAddress = some token)
  have howed := sum_rows_owed hall chain token
  rw [hrows, List.map_map, Nat.cast_list_sum, List.map_map]
  refine (congrArg List.sum hamounts).trans (hsum.trans ?_)
  rw [← howed]
  congr 2
  apply List.filter_congr
  intro row _
  simp [claimKey]

theorem getD_totals (rows : List ClaimRow) (token : Address) :
    (totals rows).getD token 0 = ((rows.filter fun r => r.token = token).map ClaimRow.amount).sum := by
  have hsum := Dict.getD_foldl_add (rows.map fun r => (r.token, r.amount)) .empty token
  rw [List.foldl_map] at hsum
  rw [totals, hsum, Dict.sumAt, List.filter_map, List.map_map, Dict.getD_of_notMem (by simp [Dict.empty, Dict.keys]), zero_add]
  rfl

/-- The lists are read back and match their pools, token by token, and each row is published once, by its place in the order. -/
theorem claimLists_match (u : Airdrop.One1.Lower) (config : BridgeConfig) (hbuilt : buildPools policy m inputs = .ok built)
    (hok : OverridesOk policy) (hone : OneSpelling chain (built.map Prod.fst))
    (hsmall : ∀ item ∈ claimItems chain (built.flatMap Prod.snd), item.2.amount < 2 ^ 256)
    {assets : Dict Address AssetEntry} (htable : assetTable u ((built.map Prod.fst).map poolsCsvRow) chain = .ok assets) :
    ∃ rows groups,
      readClaims (libAddress u) (assets.mapValues AssetEntry.asset) (claimList chain (built.flatMap Prod.snd)) = .ok rows ∧
      (∀ token, (((rows.filter fun r => r.token = token).map ClaimRow.amount).sum : ℤ) =
        (((built.map Prod.fst).filter fun s => Owes chain token s).map Summary.claimable).sum) ∧
      (∀ e ∈ assets.entries, e.2.pools = ((built.map Prod.fst).filter fun s => Owes chain e.1 s).map Summary.poolId ∧
        e.2.claimable = (((built.map Prod.fst).filter fun s => Owes chain e.1 s).map Summary.claimable).sum) ∧
      chainContracts u config chain ((built.map Prod.fst).map poolsCsvRow) (claimList chain (built.flatMap Prod.snd)) = .ok groups ∧
      groups = contractGroups config chain rows ∧
      (∀ r ∈ rows, ∃! g, g ∈ groups ∧ r ∈ g.rows) ∧ (groups.flatMap Group.rows).Perm rows ∧
      ∀ g ∈ groups, (publishedList g.rows).map Prod.snd = List.range g.rows.length ∧
        ((publishedList g.rows).map Prod.fst).Perm g.rows ∧
        ((publishedList g.rows).map Prod.fst).Pairwise fun r s => r.order < s.order := by
  have hall := poolOk_of_buildPools hok hbuilt
  have hnonneg : ∀ row ∈ built.flatMap Prod.snd, 0 ≤ row.allocation := by
    intro row hrow
    obtain ⟨b, hb, hrow⟩ := List.mem_flatMap.mp hrow
    obtain ⟨i, hpool⟩ := hall b hb
    exact hpool.nonneg row hrow
  have hnd := nodup_claimRows hall hone
  have hkeys : (assets.mapValues AssetEntry.asset).keys = assets.keys := by
    rw [Dict.mapValues, Dict.keys, List.map_map]
    rfl
  have hitems : ∀ item ∈ claimItems chain (built.flatMap Prod.snd), ItemOk (assets.mapValues AssetEntry.asset) item := by
    intro item hitem
    obtain ⟨hpayee, s, hs, t, hchain, htoken, hitemToken⟩ := pool_of_mem_claimItems hall hitem
    refine ⟨hpayee, ⟨t, hitemToken, ?_⟩, amount_pos hnonneg (mem_claimItems.mp hitem).1, hsmall item hitem⟩
    rw [hkeys, mem_keys_assetTable htable]
    refine ⟨poolsCsvRow s, List.mem_map_of_mem hs, pays_poolsCsvRow.mpr ⟨hchain, ?_⟩⟩
    rw [htoken, Option.map_some]
  have hread : readRows (libAddress u) (assets.mapValues AssetEntry.asset) [] 2 (claimList chain (built.flatMap Prod.snd)) =
      .ok ((claimItems chain (built.flatMap Prod.snd)).map claimRow) := readRows_csvRows hitems hnd (by simp)
  have howed : ∀ e ∈ assets.entries, e.2.pools = ((built.map Prod.fst).filter fun s => Owes chain e.1 s).map Summary.poolId ∧
      e.2.claimable = (((built.map Prod.fst).filter fun s => Owes chain e.1 s).map Summary.claimable).sum := by
    intro e he
    obtain ⟨hpools, hclaimable⟩ := assetTable_ok htable he
    have hfilter : (((built.map Prod.fst).map poolsCsvRow).filter fun pool => Pays u chain e.1 pool) =
        ((built.map Prod.fst).filter fun s => Owes chain e.1 s).map poolsCsvRow := by
      rw [List.filter_map]
      congr 1
      apply List.filter_congr
      intro s _
      exact decide_eq_decide.mpr pays_poolsCsvRow
    rw [hfilter, List.map_map] at hpools hclaimable
    exact ⟨hpools, hclaimable⟩
  have htotals : assets.entries.find? (fun e => decide (((totals ((claimItems chain (built.flatMap Prod.snd)).map claimRow)).getD e.1 0 : ℤ) ≠
      e.2.claimable)) = none := by
    apply List.find?_eq_none.mpr
    intro e he
    rw [getD_totals, sum_claimRows hall, (howed e he).2]
    simp
  have hrows : ((claimItems chain (built.flatMap Prod.snd)).map claimRow).Nodup := List.Nodup.of_map _ hnd
  have hperm := flatMap_contractGroups config chain ((claimItems chain (built.flatMap Prod.snd)).map claimRow)
  refine ⟨_, _, hread, sum_claimRows hall, howed, ?_, rfl, ?_, hperm, ?_⟩
  · rw [chainContracts, htable, Except.bind_ok_left]
    rw [readClaims, hread, Except.mapError, Except.bind_ok_left, htotals]
  · intro r hr
    exact existsUnique_group hrows hr
  · intro g hg
    refine ⟨map_snd_publishedList g.rows, ?_, ?_⟩
    · rw [map_fst_publishedList]
      exact List.perm_insertionSort _ g.rows
    · rw [map_fst_publishedList]
      apply sortRows_lt
      exact nodup_of_mem_contractGroups hnd hg

/-- What is read of a chain's list, once the pools are built. -/
def readBack (policy : Policy) (inputs : List PoolInput) (chain : String) : Option (Except MainError (List ClaimRow)) :=
  (buildPools policy ⟨10, .empty⟩ inputs).toOption.map fun built =>
    (assetTable Airdrop.One1.asciiLower ((built.map Prod.fst).map poolsCsvRow) chain).bind fun assets =>
      (readClaims (libAddress Airdrop.One1.asciiLower) (assets.mapValues AssetEntry.asset)
        (claimList chain (built.flatMap Prod.snd))).mapError .read

/-- One holder of 25, and an override that lets the zero address claim its own 25. -/
def zeroClaims : Policy := { holderPolicy with overrides := .ofList [(("*", 0), ⟨.claim, ""⟩)] }

def zeroPool : PoolInput :=
  { holderPool 25 with planPool := ⟨"ethereum", "rollback", 7, [⟨"ethereum-one-7", true, true, 7, [(0, 25)]⟩]⟩ }

/-- A pool that pays a coin of the chain `base`, spelled as `coin`. -/
def coinPool (coin : Allocation.Asset) : PoolInput where
  pool := ⟨"base-coin", .remoteEscrow, "base", "ETH", 18, .escrow, coin⟩
  planPool := ⟨"ethereum", "rollback", 7, [⟨"ethereum-one-7", true, true, 7, [(0xabcdef, 25)]⟩]⟩
  state := ⟨some 100, [], []⟩
  adjustments := .empty

/-- A ONE pool that owes its holder all of `2 ^ 256`. -/
def hugePool : PoolInput := { holderPool (2 ^ 256) with state := ⟨none, [], [⟨.native, 2 ^ 256, none, none⟩]⟩ }

/-- Lists that are refused: the zero address claims, a coin has two spellings, an amount has too many bits. -/
theorem claimLists_refused :
    readBack zeroClaims [zeroPool] "base" = some (.error (.read (.zeroAccount 2))) ∧
      readBack holderPolicy [coinPool .native, coinPool (.token 0)] "base" = some (.error (.read (.secondRow 3 0xabcdef 0))) ∧
      readBack holderPolicy [hugePool] "base" = some (.error (.read (.amountOutOfRange 2))) := by
  decide +kernel

/-- A contract of its own for ONE. -/
def holderConfig : BridgeConfig where
  custodyMultisig := fun _ => none
  oneClaimChain := "base"
  oneClaimToken := 0x2222
  oneCustodyMultisig := some 0x3333

theorem claimLists_match_holder :
    ∃ built assets, buildPools holderPolicy ⟨10, .empty⟩ [holderPool 25] = .ok built ∧
      assetTable Airdrop.One1.asciiLower ((built.map Prod.fst).map poolsCsvRow) "base" = .ok assets ∧
      ∃ rows groups, chainContracts Airdrop.One1.asciiLower holderConfig "base" ((built.map Prod.fst).map poolsCsvRow)
          (claimList "base" (built.flatMap Prod.snd)) = .ok groups ∧ groups = contractGroups holderConfig "base" rows ∧
        ∀ token, (((rows.filter fun r => r.token = token).map ClaimRow.amount).sum : ℤ) =
          (((built.map Prod.fst).filter fun s => Owes "base" token s).map Summary.claimable).sum := by
  have hcheck : (buildPools holderPolicy ⟨10, .empty⟩ [holderPool 25]).toOption.any (fun built =>
      (assetTable Airdrop.One1.asciiLower ((built.map Prod.fst).map poolsCsvRow) "base").isOk &&
        (built.map Prod.fst).all (fun s => s.claimToken = some (.token 0x2222)) &&
        (claimItems "base" (built.flatMap Prod.snd)).all fun item => item.2.amount < 2 ^ 256) = true := by decide +kernel
  have hok : OverridesOk holderPolicy := ⟨fun e he => absurd he List.not_mem_nil, fun e he => absurd he List.not_mem_nil⟩
  obtain ⟨built, hbuilt, hchecked⟩ := Except.exists_ok_of_any hcheck
  rw [Bool.and_eq_true, Bool.and_eq_true, List.all_eq_true, List.all_eq_true] at hchecked
  obtain ⟨⟨htable, htoken⟩, hsmall⟩ := hchecked
  have hone : OneSpelling "base" (built.map Prod.fst) := by
    intro s hs s' hs' _ _ t t' ht ht' _
    have h := of_decide_eq_true (htoken s hs)
    have h' := of_decide_eq_true (htoken s' hs')
    exact Option.some.inj (ht.symm.trans (h.trans (h'.symm.trans ht')))
  obtain ⟨assets, hassets⟩ := Except.exists_ok_of_toBool htable
  obtain ⟨rows, groups, -, hsum, -, hgroups, heq, -⟩ := claimLists_match Airdrop.One1.asciiLower holderConfig hbuilt hok hone
    (fun item hitem => of_decide_eq_true (hsmall item hitem)) hassets
  exact ⟨built, assets, hbuilt, hassets, rows, groups, hgroups, heq, hsum⟩

end Match

end HarmonyMigration.BridgeClaims
