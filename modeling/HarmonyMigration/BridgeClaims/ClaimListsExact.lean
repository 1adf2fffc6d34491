import HarmonyMigration.BridgeClaims.ClaimLists

/-! The claim lists and the pools agree: what is added up by payee is what the pools add up to by token. -/

namespace HarmonyMigration.BridgeClaims

open Erc20 ContractReview

/-! ### Texts -/

theorem addressText_toList (a : Address) : (addressText a).toList = Hex.render 40 a.toNat := by
  rw [addressText, String.toList_ofList]

theorem lower_render (u : Airdrop.One1.Lower) (width n : ℕ) : u.lower (Hex.render width n) = Hex.render width n := by
  have hdigit : ∀ c ∈ Hex.render width n, c.toNat < 128 ∧ c.toLower = c := by
    intro c hc
    rw [Hex.render] at hc
    rcases List.mem_cons.mp hc with rfl | hc
    · decide
    · rcases List.mem_cons.mp hc with rfl | hc
      · decide
      · have hall : ∀ d < 16, (Nat.digitChar d).toNat < 128 ∧ (Nat.digitChar d).toLower = Nat.digitChar d := by decide
        obtain ⟨d, hd, rfl⟩ := Hex.exists_digit_of_mem hc
        exact hall d hd
  rw [u.ascii _ fun c hc => (hdigit c hc).1]
  exact (List.map_congr_left fun c hc => (hdigit c hc).2).trans (List.map_id _)

/-- A text of 40 lower-case digits is left as it is. -/
theorem anyToHex_of_prefix {u : Airdrop.One1.Lower} {t : Decimal.Text} (hpre : hexPrefix <+: t) (hlower : u.lower t = t)
    (hlen : t.length = 42) : anyToHex u t = some t := by
  have hne : t ≠ [] := by
    rintro rfl
    cases hlen
  have hnormal : normalizeAddress u t = some t := by
    unfold normalizeAddress
    dsimp only
    rw [hlower, if_pos hpre, if_pos hlen]
  unfold anyToHex
  rw [if_neg hne, hlower, if_pos hpre, hnormal]

/-- The spelling of the lists is read back. -/
theorem libAddress_addressText (u : Airdrop.One1.Lower) (a : Address) : libAddress u (addressText a) = some a := by
  have hlt : a.toNat < 16 ^ 40 := a.isLt.trans_eq (by norm_num)
  have hhex := anyToHex_of_prefix (u := u) (Hex.prefix_render 40 a.toNat) (lower_render u 40 a.toNat) (Hex.length_render 40 a.toNat)
  rw [libAddress, addressText_toList, hhex, Option.bind_some, Hex.parse_render hlt, Option.map_some, BitVec.ofNat_toNat,
    BitVec.setWidth_eq]

theorem addressText_ne_native (a : Address) : addressText a ≠ "native" := by
  intro h
  have hlist := congrArg String.toList h
  rw [addressText_toList] at hlist
  cases hlist

/-- A token's address, zero for the coin. -/
def tokenAddress : Allocation.Asset → Address
  | .native => NATIVE_TOKEN
  | .token a => a

theorem poolToken_tokenText (u : Airdrop.One1.Lower) (t : Allocation.Asset) :
    poolToken u (tokenText (some t)) = some (tokenAddress t) := by
  cases t with
  | native => rfl
  | token a =>
    rw [poolToken, tokenText, if_neg (addressText_ne_native a)]
    exact libAddress_addressText u a

theorem parseToken_tokenText (u : Airdrop.One1.Lower) (line : ℕ) (t : Allocation.Asset) :
    parseToken (libAddress u) line (tokenText (some t)) = .ok (tokenAddress t) := by
  cases t with
  | native => rfl
  | token a => rw [parseToken, tokenText, if_neg (addressText_ne_native a), parseAddress, libAddress_addressText]; rfl

/-! ### Built pools -/

section Pools

open Allocation

variable {policy : Policy} {minimum : ℤ} {i : PoolInput} {s : Summary} {rows : List Allocation.Row}

/-- Redirects lead to addresses that are not zero, and no override lets the zero address itself claim. -/
structure OverridesOk (policy : Policy) : Prop where
  redirect_ne : ∀ e ∈ policy.overrides.entries, ∀ d, e.2.action = .redirect (some d) → d ≠ 0
  zero_not_claimed : ∀ e ∈ policy.overrides.entries, e.1.2 = 0 → e.2.action ≠ .claim

theorem bySystem_zero (policy : Policy) (earlier : Status × String) : (bySystem policy 0 earlier).1 = .excludedSystem := by
  unfold bySystem
  split
  · rfl
  · have hreserved : reservedAddressReason 0 = some "reserved low address (precompile or system contract)" := if_pos (by decide)
    rw [hreserved]

/-- The zero address is excluded, unless an override says otherwise. -/
theorem standing_zero (policy : Policy) (pid holderChain : String) (earlier : Status × String) :
    (byExclusion pid holderChain policy 0 (bySystem policy 0 earlier)).1 ≠ .claimable := by
  have hsystem := bySystem_zero policy earlier
  unfold byExclusion
  split
  · split_ifs
    · exact fun h => Status.noConfusion h
    · rw [hsystem]
      exact fun h => Status.noConfusion h
  · rw [hsystem]
    exact fun h => Status.noConfusion h

theorem payee_ne_zero {pool : Pool} {planPool : PlanPool} {holdings : Dict Address ℤ} {account : Address}
    {r : Option AccountClass × Status × Address × String} (hok : OverridesOk policy)
    (h : decideAccount pool planPool policy holdings account = .ok r) (hclaim : r.2.1 = .claimable) : r.2.2.1 ≠ 0 := by
  unfold decideAccount at h
  dsimp only at h
  split at h
  · obtain rfl := Except.ok.inj h
    dsimp only at hclaim ⊢
    rintro rfl
    exact standing_zero policy _ _ _ hclaim
  · rename_i override hget
    -- the override stands under the pool or under the star, and is for this account
    obtain ⟨pid, hmem⟩ : ∃ pid, ((pid, account), override) ∈ policy.overrides.entries := by
      cases hpool : policy.overrides.get? (pool.poolId, account) with
      | some o =>
        rw [hpool] at hget
        obtain rfl := Option.some.inj hget
        exact ⟨_, Dict.get?_eq_some_iff.mp hpool⟩
      | none =>
        rw [hpool] at hget
        exact ⟨_, Dict.get?_eq_some_iff.mp hget⟩
    split at h
    · rename_i haction
      obtain rfl := Except.ok.inj h
      dsimp only
      rintro rfl
      exact hok.zero_not_claimed _ hmem rfl haction
    · rename_i d haction
      obtain rfl := Except.ok.inj h
      exact hok.redirect_ne _ hmem d haction
    · cases h
    · obtain rfl := Except.ok.inj h
      cases hclaim
    · obtain rfl := Except.ok.inj h
      cases hclaim
    · cases h

theorem allocate_keeps (collateral eligible minimum : ℤ) (row : Allocation.Row) :
    (allocate collateral eligible minimum row).claimChain = row.claimChain ∧
      (allocate collateral eligible minimum row).claimToken = row.claimToken ∧
      (allocate collateral eligible minimum row).payee = row.payee := by
  simp only [allocate]
  split_ifs
  all_goals exact ⟨rfl, rfl, rfl⟩

/-- What the lists use of a built pool. -/
structure PoolOk (policy : Policy) (i : PoolInput) (s : Summary) (rows : List Allocation.Row) : Prop where
  target_eq : (s.claimChain, s.claimToken) = claimTarget i.pool policy.one
  claimable_eq : s.claimable = sumIf (· = .claimable) Row.allocation rows
  row_target : ∀ row ∈ rows, row.claimChain = s.claimChain ∧ row.claimToken = s.claimToken
  nonneg : ∀ row ∈ rows, 0 ≤ row.allocation
  payee_ne : ∀ row ∈ rows, row.status = .claimable → row.payee ≠ 0

theorem poolOk_of_buildPool (hok : OverridesOk policy)
    (h : buildPool i.pool i.planPool policy i.state i.adjustments minimum = .ok (s, rows)) : PoolOk policy i s rows := by
  obtain ⟨hclaimable, -⟩ := paid_of_buildPool h
  obtain ⟨classified, hall, hcollateral, -, hrows, -⟩ := buildPool_ok h
  have htarget : (s.claimChain, s.claimToken) = claimTarget i.pool policy.one := by
    obtain ⟨holdings, -, h⟩ := Except.of_bind_ok h
    obtain ⟨⟨c, source⟩, -, h⟩ := Except.of_bind_ok h
    obtain ⟨classified, -, h⟩ := Except.of_bind_ok h
    obtain ⟨rfl, -⟩ := Prod.mk.inj (Except.ok.inj h)
    rfl
  have hrow : ∀ row ∈ rows, ∃ account r before, decideAccount i.pool i.planPool policy i.holdings account = .ok r ∧
      accountRow i.pool i.planPool policy i.holdings i.adjustments account = .ok before ∧
      before.status = r.2.1 ∧ before.payee = r.2.2.1 ∧
      (before.claimChain, before.claimToken) = claimTarget i.pool policy.one ∧
      row = allocate s.collateral s.eligible minimum before := by
    intro row hrow
    rw [hrows] at hrow
    obtain ⟨before, hbefore, rfl⟩ := List.mem_map.mp hrow
    obtain ⟨account, -, haccount⟩ := Except.ok_of_mem_right hall hbefore
    have haccount' := haccount
    obtain ⟨r, hr, rfl⟩ := Except.of_map_ok haccount'
    exact ⟨account, r, _, hr, haccount, rfl, rfl, rfl, rfl⟩
  have hnonneg : 0 ≤ s.collateral := by
    rw [hcollateral]
    exact collateral_nonneg i
  refine ⟨htarget, hclaimable, ?_, ?_, ?_⟩
  · intro row hmem
    obtain ⟨account, r, before, -, -, -, -, hbefore, rfl⟩ := hrow row hmem
    obtain ⟨hchain, htoken, -⟩ := allocate_keeps s.collateral s.eligible minimum before
    obtain ⟨h1, h2⟩ := Prod.mk.inj (hbefore.trans htarget.symm)
    exact ⟨hchain.trans h1, htoken.trans h2⟩
  · intro row hmem
    obtain ⟨account, r, before, -, hbefore, -, -, -, rfl⟩ := hrow row hmem
    rw [allocate_allocation (accountRow_account hbefore).2]
    split_ifs
    · apply scaled_nonneg hnonneg
      rw [(accountRow_ok hbefore).1]
      exact le_max_left _ _
    · exact le_refl 0
  · intro row hmem hclaim
    obtain ⟨account, r, before, hr, -, hstatus, hpayee, -, rfl⟩ := hrow row hmem
    rw [(allocate_keeps s.collateral s.eligible minimum before).2.2, hpayee]
    apply payee_ne_zero hok hr
    rcases allocate_status s.collateral s.eligible minimum before with ⟨-, hst, -⟩ | ⟨-, hst, -⟩ | ⟨-, heq⟩
    · rw [hst] at hclaim
      cases hclaim
    · rw [← hstatus, ← hst, hclaim]
    · rw [heq] at hclaim
      rw [← hstatus, hclaim]

end Pools

/-! ### What is added up by payee -/

section Claims

variable {allocations : List Allocation.Row}

theorem claims_eq (allocations : List Allocation.Row) :
    claims allocations = (allocations.filter counts).foldl (fun d row => d.update (claimKey row) (addRow row)) .empty := by
  rw [List.foldl_filter]
  rfl

/-- The rows of one key, added up. -/
def claimed (allocations : List Allocation.Row) (k : ClaimKey) : ℤ :=
  (((allocations.filter counts).filter fun row => claimKey row = k).map Allocation.Row.allocation).sum

theorem mem_keys_claims {k : ClaimKey} : k ∈ (claims allocations).keys ↔ ∃ row ∈ allocations.filter counts, claimKey row = k := by
  rw [claims_eq, Dict.mem_keys_foldl_update]
  simp [Dict.empty, Dict.keys]

theorem amount_of_mem {k : ClaimKey} {item : ClaimItem} (h : (k, item) ∈ (claims allocations).entries) :
    item.amount = claimed allocations k := by
  have hg : ∀ (row : Allocation.Row) (o : Option ClaimItem),
      (addRow row o).amount = (o.map ClaimItem.amount).getD 0 + row.allocation := by
    intro row o
    cases o with
    | none => rfl
    | some item => rfl
  have hsum := Dict.map_get?_foldl_update (k := claimKey) hg (allocations.filter counts) .empty k
  rw [← claims_eq, Dict.get?_eq_some_iff.mpr h] at hsum
  simpa [Dict.empty, Dict.get?, claimed] using hsum

theorem counts_iff {row : Allocation.Row} : counts row ↔ row.status = .claimable ∧ row.allocation ≠ 0 := by
  rw [counts, decide_eq_true_iff]

theorem amount_pos {k : ClaimKey} {item : ClaimItem} (hnonneg : ∀ row ∈ allocations, 0 ≤ row.allocation)
    (h : (k, item) ∈ (claims allocations).entries) : 0 < item.amount := by
  obtain ⟨row, hrow, hkey⟩ := mem_keys_claims.mp (List.mem_map.mpr ⟨_, h, rfl⟩)
  have hcounts := (counts_iff.mp (List.mem_filter.mp hrow).2).2
  have hpos : 0 < row.allocation := lt_of_le_of_ne (hnonneg row (List.mem_of_mem_filter hrow)) (Ne.symm hcounts)
  have hle : row.allocation ≤ claimed allocations k := by
    apply List.single_le_sum
    · intro x hx
      obtain ⟨r, hr, rfl⟩ := List.mem_map.mp hx
      exact hnonneg r (List.mem_of_mem_filter (List.mem_of_mem_filter hr))
    · apply List.mem_map_of_mem
      apply List.mem_filter.mpr
      exact ⟨hrow, decide_eq_true hkey⟩
  rw [amount_of_mem h]
  exact lt_of_lt_of_le hpos hle

theorem perm_claimItems (chain : String) (allocations : List Allocation.Row) :
    (claimItems chain allocations).Perm ((claims allocations).entries.filter fun p => p.1.1 = some chain) :=
  (List.perm_insertionSort _ _).filter _

theorem mem_claimItems {chain : String} {item : ClaimKey × ClaimItem} :
    item ∈ claimItems chain allocations ↔ item ∈ (claims allocations).entries ∧ item.1.1 = some chain := by
  rw [(perm_claimItems chain allocations).mem_iff, List.mem_filter, decide_eq_true_iff]

theorem nodup_claimItems (chain : String) (allocations : List Allocation.Row) :
    ((claimItems chain allocations).map Prod.fst).Nodup := by
  rw [((perm_claimItems chain allocations).map Prod.fst).nodup_iff]
  exact (claims allocations).nodup.sublist (List.filter_sublist.map Prod.fst)

/-- The amounts of a chain's list, over the keys that `p` chooses, are the allocations of its rows. -/
theorem sum_claimItems (chain : String) (allocations : List Allocation.Row) (p : ClaimKey → Bool) :
    (((claimItems chain allocations).filter fun item => p item.1).map fun item => item.2.amount).sum =
      (((allocations.filter counts).filter fun row => row.claimChain = some chain ∧ p (claimKey row)).map
        Allocation.Row.allocation).sum := by
  have hamounts : ((claimItems chain allocations).filter fun item => p item.1).map (fun item => item.2.amount) =
      (((claimItems chain allocations).filter fun item => p item.1).map Prod.fst).map (claimed allocations) := by
    rw [List.map_map]
    apply List.map_congr_left
    intro item hitem
    exact amount_of_mem (mem_claimItems.mp (List.mem_of_mem_filter hitem)).1
  have hkeys : (((claimItems chain allocations).filter fun item => p item.1).map Prod.fst).Perm
      ((claims allocations).keys.filter fun k => k.1 = some chain ∧ p k) := by
    have hperm := ((perm_claimItems chain allocations).filter fun item => p item.1).map Prod.fst
    rw [List.filter_filter] at hperm
    rw [Dict.keys, List.filter_map]
    refine hperm.trans (List.Perm.of_eq ?_)
    congr 1
    apply List.filter_congr
    intro item _
    simp [Bool.and_comm]
  rw [hamounts, (hkeys.map _).sum_eq]
  have hsum := Dict.sum_by_key (P := fun k => decide (k.1 = some chain ∧ p k)) (k := claimKey) (v := Allocation.Row.allocation)
    (claims allocations).nodup fun row hrow => mem_keys_claims.mpr ⟨row, hrow, rfl⟩
  exact hsum

end Claims

/-! ### What the pools owe, token by token -/

section Owed

open Allocation

variable {u : Airdrop.One1.Lower} {chain : String}

/-- The pool pays `token` on `chain`. -/
def Pays (u : Airdrop.One1.Lower) (chain : String) (token : Address) (pool : PoolsCsvRow) : Prop :=
  pool.claimChain = some chain ∧ pool.status ≠ "unsupported" ∧ poolToken u pool.claimToken = some token

instance (token : Address) : DecidablePred (Pays u chain token) := fun _ => inferInstanceAs (Decidable (_ ∧ _ ∧ _))

/-- What a step of the table does: the pool is passed over, or joins the entry of its token. -/
theorem tableStep_ok {table table' : Dict Address AssetEntry} {pool : PoolsCsvRow} (h : tableStep u chain table pool = .ok table') :
    ((∀ token, ¬Pays u chain token pool) ∧ table' = table) ∨
      ∃ token entry, Pays u chain token pool ∧ table' = table.insert token entry ∧
        entry.pools = ((table.get? token).map AssetEntry.pools).getD [] ++ [pool.poolId] ∧
        entry.claimable = ((table.get? token).map AssetEntry.claimable).getD 0 + pool.claimable := by
  unfold tableStep at h
  split_ifs at h with hskip
  · left
    refine ⟨?_, (Except.ok.inj h).symm⟩
    intro token hpays
    rcases hskip with hchain | hstatus
    · exact hchain hpays.1
    · exact hpays.2.1 hstatus
  · right
    obtain ⟨token, htoken, h⟩ := Except.ofOption_bind_ok.mp h
    dsimp only at h
    split_ifs at h
    rw [not_or, not_not] at hskip
    refine ⟨token, _, ⟨hskip.1, hskip.2, htoken⟩, (Except.ok.inj h).symm, ?_, ?_⟩
    · rw [Dict.getD]
      cases table.get? token with
      | none => rfl
      | some entry => rfl
    · rw [Dict.getD]
      cases table.get? token with
      | none => rfl
      | some entry => rfl

/-- The entries of the table, from the pools that pay their tokens. -/
theorem foldlM_tableStep {pools : List PoolsCsvRow} {table table' : Dict Address AssetEntry}
    (h : pools.foldlM (tableStep u chain) table = .ok table') (token : Address) :
    (token ∈ table'.keys ↔ token ∈ table.keys ∨ ∃ pool ∈ pools, Pays u chain token pool) ∧
      ((table'.get? token).map AssetEntry.pools).getD [] =
        ((table.get? token).map AssetEntry.pools).getD [] ++ (pools.filter fun pool => Pays u chain token pool).map PoolsCsvRow.poolId ∧
      ((table'.get? token).map AssetEntry.claimable).getD 0 = ((table.get? token).map AssetEntry.claimable).getD 0 +
        ((pools.filter fun pool => Pays u chain token pool).map PoolsCsvRow.claimable).sum := by
  induction pools generalizing table with
  | nil =>
    obtain rfl := Except.ok.inj h
    simp
  | cons pool pools ih =>
    rw [List.foldlM_cons] at h
    obtain ⟨table₁, hstep, h⟩ := Except.of_bind_ok h
    obtain ⟨hkeys, hpools, hclaimable⟩ := ih h
    rcases tableStep_ok hstep with ⟨hskip, rfl⟩ | ⟨paid, entry, hpays, rfl, hentry, hadded⟩
    · rw [List.filter_cons_of_neg (by simpa using hskip token)]
      refine ⟨?_, hpools, hclaimable⟩
      rw [hkeys, List.exists_mem_cons_iff, or_iff_right (hskip token)]
    · by_cases hsame : token = paid
      · subst hsame
        rw [Dict.get?_insert, if_pos rfl, Option.map_some, Option.getD_some] at hpools hclaimable
        rw [List.filter_cons_of_pos (by simpa using hpays), List.map_cons, List.map_cons, List.sum_cons]
        refine ⟨?_, ?_, ?_⟩
        · rw [hkeys, Dict.mem_keys_insert, List.exists_mem_cons_iff]
          tauto
        · rw [hpools, hentry, List.append_assoc, List.singleton_append]
        · rw [hclaimable, hadded, add_assoc]
      · have hother : ¬Pays u chain token pool := by
          intro htoken
          exact hsame (Option.some.inj (htoken.2.2.symm.trans hpays.2.2))
        rw [Dict.get?_insert, if_neg hsame] at hpools hclaimable
        rw [List.filter_cons_of_neg (by simpa using hother)]
        refine ⟨?_, hpools, hclaimable⟩
        rw [hkeys, Dict.mem_keys_insert, List.exists_mem_cons_iff]
        tauto

theorem assetTable_ok {pools : List PoolsCsvRow} {assets : Dict Address AssetEntry} (h : assetTable u pools chain = .ok assets)
    {token : Address} {entry : AssetEntry} (hentry : (token, entry) ∈ assets.entries) :
    entry.pools = (pools.filter fun pool => Pays u chain token pool).map PoolsCsvRow.poolId ∧
      entry.claimable = ((pools.filter fun pool => Pays u chain token pool).map PoolsCsvRow.claimable).sum := by
  obtain ⟨-, hpools, hclaimable⟩ := foldlM_tableStep h token
  rw [Dict.get?_eq_some_iff.mpr hentry] at hpools hclaimable
  exact ⟨by simpa [Dict.empty, Dict.get?] using hpools, by simpa [Dict.empty, Dict.get?] using hclaimable⟩

theorem mem_keys_assetTable {pools : List PoolsCsvRow} {assets : Dict Address AssetEntry}
    (h : assetTable u pools chain = .ok assets) (token : Address) :
    token ∈ assets.keys ↔ ∃ pool ∈ pools, Pays u chain token pool := by
  rw [(foldlM_tableStep h token).1]
  simp [Dict.empty, Dict.keys]

/-- The summary's pool pays the token. -/
def Owes (chain : String) (token : Address) (s : Summary) : Prop :=
  s.claimChain = some chain ∧ s.claimToken.map tokenAddress = some token

instance (token : Address) : DecidablePred (Owes chain token) := fun _ => inferInstanceAs (Decidable (_ ∧ _))

theorem pays_poolsCsvRow {token : Address} {s : Summary} : Pays u chain token (poolsCsvRow s) ↔ Owes chain token s := by
  have htoken : poolToken u (tokenText s.claimToken) = s.claimToken.map tokenAddress := by
    cases s.claimToken with
    | none => rfl
    | some t => exact poolToken_tokenText u t
  have hready : (poolsCsvRow s).status ≠ "unsupported" := by
    change "ready" ≠ "unsupported"
    decide
  have hcolumn : (poolsCsvRow s).claimToken = tokenText s.claimToken := rfl
  rw [Pays, hcolumn, htoken, Owes, and_iff_right hready]
  rfl

/-- Rows with a zero allocation add nothing. -/
theorem sum_counts (rows : List Allocation.Row) :
    ((rows.filter counts).map Allocation.Row.allocation).sum = sumIf (· = .claimable) Allocation.Row.allocation rows := by
  unfold sumIf
  induction rows with
  | nil => rfl
  | cons row rows ih =>
    by_cases hcounts : counts row
    · have hstatus := (counts_iff.mp hcounts).1
      rw [List.filter_cons_of_pos hcounts, List.filter_cons_of_pos (by simpa using hstatus), List.map_cons, List.map_cons,
        List.sum_cons, List.sum_cons, ih]
    · rw [List.filter_cons_of_neg hcounts, ih]
      by_cases hstatus : row.status = .claimable
      · have hzero : row.allocation = 0 := by
          by_contra hne
          exact hcounts (counts_iff.mpr ⟨hstatus, hne⟩)
        rw [List.filter_cons_of_pos (by simpa using hstatus), List.map_cons, List.sum_cons, hzero, zero_add]
      · rw [List.filter_cons_of_neg (by simpa using hstatus)]

/-- What the rows of all pools give a token is what its pools owe. -/
theorem sum_rows_owed {policy : Policy} {built : List (Summary × List Allocation.Row)}
    (hall : ∀ b ∈ built, ∃ i, PoolOk policy i b.1 b.2) (chain : String) (token : Address) :
    ((((built.flatMap Prod.snd).filter counts).filter fun row =>
        row.claimChain = some chain ∧ row.claimToken.map tokenAddress = some token).map Allocation.Row.allocation).sum =
      (((built.map Prod.fst).filter fun s => Owes chain token s).map Summary.claimable).sum := by
  induction built with
  | nil => rfl
  | cons b built ih =>
    obtain ⟨i, hpool⟩ := hall b (by simp)
    rw [List.flatMap_cons, List.filter_append, List.filter_append, List.map_append, List.sum_append,
      ih fun b hb => hall b (List.mem_cons_of_mem _ hb), List.map_cons]
    have htarget : ∀ row ∈ b.2.filter counts,
        (row.claimChain = some chain ∧ row.claimToken.map tokenAddress = some token ↔ Owes chain token b.1) := by
      intro row hrow
      obtain ⟨hchain, htoken⟩ := hpool.row_target row (List.mem_of_mem_filter hrow)
      rw [Owes, hchain, htoken]
    by_cases howes : Owes chain token b.1
    · rw [List.filter_cons_of_pos (by simpa using howes), List.map_cons, List.sum_cons, hpool.claimable_eq, ← sum_counts]
      congr 3
      apply List.filter_eq_self.mpr
      intro row hrow
      exact decide_eq_true ((htarget row hrow).mpr howes)
    · rw [List.filter_cons_of_neg (by simpa using howes)]
      have hnone : ((b.2.filter counts).filter fun row =>
          row.claimChain = some chain ∧ row.claimToken.map tokenAddress = some token) = [] := by
        apply List.filter_eq_nil_iff.mpr
        intro row hrow
        simpa using fun h1 h2 => howes ((htarget row hrow).mp ⟨h1, h2⟩)
      rw [hnone, List.map_nil, List.sum_nil, zero_add]

end Owed

end HarmonyMigration.BridgeClaims
