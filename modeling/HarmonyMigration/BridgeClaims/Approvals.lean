import HarmonyMigration.BridgeClaims.Build
import HarmonyMigration.BridgeClaims.Safety

/-! The approvals of a built contract cover its unclaimed rows whatever was claimed before,
and are used up exactly by the last claim. -/

namespace HarmonyMigration.BridgeClaims

open Keccak Erc20 ClaimTree Bitmap

variable {D : Type}

/-- The amounts of the rows of `L` that draw `asset` and are not claimed. -/
def unclaimedTotal (cfg : Config D) (L : List Row) (s : State) (asset : Address) : ℕ :=
  claimedTotal cfg asset ((enumerate L).filter fun p => !isClaimed s p.1)

section Totals
variable {cfg : Config D} {L : List Row} {s : State} {asset : Address}

theorem paidTotal_add_unclaimedTotal (cfg : Config D) (L : List Row) (s : State) (asset : Address) :
    paidTotal cfg L s asset + unclaimedTotal cfg L s asset = claimedTotal cfg asset (enumerate L) := by
  have hperm := List.filter_append_perm (fun p => isClaimed s p.1) (enumerate L)
  have htotal : claimedTotal cfg asset ((enumerate L).filter (fun p => isClaimed s p.1) ++
      (enumerate L).filter fun p => !isClaimed s p.1) = claimedTotal cfg asset (enumerate L) :=
    ((hperm.filter _).map _).sum_eq
  rw [← htotal, claimedTotal, List.filter_append, List.map_append, List.sum_append]
  rfl

theorem le_unclaimedTotal (cfg : Config D) (hL : L.length < 2 ^ 256) {i : Word} {row : Row} (hrow : L[i.toNat]? = some row)
    (hi : isClaimed s i = false) : row.amount.toNat ≤ unclaimedTotal cfg L s (assetOf cfg row) := by
  have hmem : (i, row) ∈ (enumerate L).filter fun p => !isClaimed s p.1 :=
    List.mem_filter.mpr ⟨(mem_enumerate hL).mpr hrow, by simp [hi]⟩
  refine List.single_le_sum (by simp) _ (List.mem_map.mpr ⟨(i, row), List.mem_filter.mpr ⟨hmem, ?_⟩, rfl⟩)
  simp

/-- With positive amounts, nothing is left of an asset when each of its rows is claimed. -/
theorem unclaimedTotal_eq_zero_iff (hL : L.length < 2 ^ 256) (hpos : ∀ row ∈ L, 0 < row.amount.toNat) :
    unclaimedTotal cfg L s asset = 0 ↔
      ∀ (i : Word) (row : Row), L[i.toNat]? = some row → assetOf cfg row = asset → isClaimed s i = true := by
  refine ⟨fun h0 i row hrow ha => ?_, fun hall => ?_⟩
  · by_contra hi
    subst ha
    have hle := le_unclaimedTotal cfg hL hrow (by simpa using hi)
    have hp := hpos row (List.mem_of_getElem? hrow)
    omega
  · have hnil : ((enumerate L).filter fun p => !isClaimed s p.1).filter
        (fun p => assetOf cfg p.2 = asset) = [] := by
      refine List.filter_eq_nil_iff.mpr fun p hp ha => ?_
      obtain ⟨hp, hi⟩ := List.mem_filter.mp hp
      have hc := hall p.1 p.2 ((mem_enumerate hL).mp hp) (by simpa using ha)
      simp [hc] at hi
    rw [unclaimedTotal, claimedTotal, hnil]
    rfl

end Totals

/-- The rows that draw a token add up to what is approved of it. -/
theorem claimedTotal_rows {cfg : Config D} {wrapped : Option Address} {rows : List ClaimRow}
    (hw : cfg.wrappedNative = wrapped.getD NATIVE_TOKEN) (hrange : ∀ r ∈ rows, r.amount < 2 ^ 256)
    (token : Address) :
    claimedTotal cfg token (enumerate (rows.map ClaimRow.row)) = drawn wrapped rows token := by
  have hasset (r : ClaimRow) : assetOf cfg r.row = approveToken wrapped r.token := by
    rw [assetOf, approveToken, hw]
    rfl
  have hsnd : claimedTotal cfg token (enumerate (rows.map ClaimRow.row)) =
      (((rows.map ClaimRow.row).filter fun r => assetOf cfg r = token).map fun r => r.amount.toNat).sum := by
    conv_rhs => rw [← enumerate_map_snd (rows.map ClaimRow.row), List.filter_map, List.map_map]
    rfl
  rw [hsnd, List.filter_map, List.map_map, drawn]
  simp only [Function.comp_def, hasset]
  refine congrArg List.sum (List.map_congr_left fun r hr => ?_)
  exact ClaimRow.row_amount (hrange r (List.mem_of_mem_filter hr))

/-- In the state `s` the funder's allowance and balance still cover every unclaimed row. -/
structure Covered (T : Tokens) (cfg : Config D) (m : Manifest D) (l₀ : Ledger) (s : State) : Prop where
  covers : ∀ token ∈ m.approvals.keys,
    unclaimedTotal cfg (m.rows.map ClaimRow.row) s token ≤ s.ledger.allowance (token, cfg.funder, cfg.self) ∧
    unclaimedTotal cfg (m.rows.map ClaimRow.row) s token ≤ s.ledger.balance (token, cfg.funder)
  /-- the pull that pays an unclaimed row is funded, and a token that does not refuse it makes it -/
  payable : ∀ (i : Word) (row : Row), (m.rows.map ClaimRow.row)[i.toNat]? = some row →
    isClaimed s i = false → s.ledger.funded (pullOf cfg row) = true ∧
      (T.code (assetOf cfg row) = true → T.refuses s.ledger (pullOf cfg row) = false →
        _tokenCall T (assetOf cfg row) (T.call s.ledger (pullOf cfg row)) =
          some (s.ledger.apply (pullOf cfg row)))
  /-- an exact approval is used up when the token's last row is claimed, and not before -/
  exact : ∀ token approval, m.approvals.get? token = some approval →
    l₀.allowance (token, cfg.funder, cfg.self) = approval.amountRaw →
    (s.ledger.allowance (token, cfg.funder, cfg.self) = 0 ↔
      ∀ (i : Word) (row : Row), (m.rows.map ClaimRow.row)[i.toNat]? = some row →
        assetOf cfg row = token → isClaimed s i = true)

theorem tokenCall_of_funded {T : Tokens} {l : Ledger} {m : Transfer} (hcode : T.code m.token = true)
    (hrefuses : T.refuses l m = false) (hf : l.funded m = true) :
    _tokenCall T m.token (T.call l m) = some (l.apply m) := by
  unfold Tokens.call
  rw [if_neg (by simp [hcode]), if_neg (by simp [hrefuses, hf])]
  cases T.answer m.token <;> simp [Tokens.answered, _tokenCall, hcode]

section Main
variable [LinearOrder D] {K : Hash D} {T : Tokens} {cfg : Config D} {m : Manifest D} {l₀ : Ledger}
  {s : State} {wrapped : Option Address} {assets : Dict Address Asset} {rows : List ClaimRow}

theorem covered_of_inv (hbuild : buildGroup K wrapped assets rows = .ok m)
    (hamount : ∀ r ∈ rows, 0 < r.amount ∧ r.amount < 2 ^ 256)
    (hw : cfg.wrappedNative = wrapped.getD NATIVE_TOKEN)
    (hL : (m.rows.map ClaimRow.row).length < 2 ^ 256)
    (hfund : ∀ token approval, m.approvals.get? token = some approval →
      approval.amountRaw ≤ l₀.balance (token, cfg.funder) ∧
        approval.amountRaw ≤ l₀.allowance (token, cfg.funder, cfg.self))
    (hinv : Inv cfg (m.rows.map ClaimRow.row) l₀ s) : Covered T cfg m l₀ s := by
  obtain ⟨hrows, happ, -, -⟩ := buildGroup_ok hbuild
  set L := m.rows.map ClaimRow.row with hLdef
  have hmem : ∀ r ∈ m.rows, r ∈ rows := fun r hr => (List.mem_insertionSort _).mp (hrows ▸ hr)
  have hpos : ∀ row ∈ L, 0 < row.amount.toNat := by
    intro row hrow
    obtain ⟨r, hr, rfl⟩ := List.mem_map.mp hrow
    obtain ⟨h1, h2⟩ := hamount r (hmem r hr)
    rw [ClaimRow.row_amount h2]
    exact h1
  have htotal (token : Address) : claimedTotal cfg token (enumerate L) = drawn wrapped m.rows token :=
    claimedTotal_rows hw (fun r hr => (hamount r (hmem r hr)).2) token
  -- the approval of a token is the sum of all rows that draw it
  have hamountRaw {token : Address} {approval : Approval} (h : m.approvals.get? token = some approval) :
      approval.amountRaw = paidTotal cfg L s token + unclaimedTotal cfg L s token := by
    have hm := measure_approvals wrapped assets m.rows token
    rw [← happ, Dict.measure, h] at hm
    rw [paidTotal_add_unclaimedTotal, htotal, ← hm]
    rfl
  have hpaid (token : Address) : claimedTotal cfg token (claimedRows s) = paidTotal cfg L s token :=
    (((claimedRows_perm hL hinv).filter _).map _).sum_eq
  have hcovers : ∀ token ∈ m.approvals.keys,
      unclaimedTotal cfg L s token ≤ s.ledger.allowance (token, cfg.funder, cfg.self) ∧
      unclaimedTotal cfg L s token ≤ s.ledger.balance (token, cfg.funder) := by
    intro token htoken
    obtain ⟨approval, h⟩ := Option.ne_none_iff_exists'.mp (mt Dict.get?_eq_none_iff.mp (not_not.mpr htoken))
    obtain ⟨hb, ha⟩ := hfund token approval h
    have h1 := hamountRaw h
    have h2 := hinv.allowance token
    have h3 := hinv.cover token
    rw [hpaid] at h2 h3
    omega
  refine ⟨hcovers, fun i row hrow hi => ?_, fun token approval h hexact => ?_⟩
  · have hkey : assetOf cfg row ∈ m.approvals.keys := by
      obtain ⟨r, hr, rfl⟩ := List.mem_map.mp (List.mem_of_getElem? hrow)
      rw [happ, mem_keys_approvals]
      refine ⟨r, hr, ?_⟩
      rw [assetOf, approveToken, hw]
      rfl
    have hle := le_unclaimedTotal cfg hL hrow hi
    obtain ⟨ha, hb⟩ := hcovers _ hkey
    have hf : s.ledger.funded (pullOf cfg row) = true := by
      simp only [Ledger.funded, pullOf, Bool.and_eq_true, Bool.or_eq_true]
      exact ⟨decide_eq_true (hle.trans hb), Or.inr (decide_eq_true (hle.trans ha))⟩
    exact ⟨hf, fun hcode hrefuses => tokenCall_of_funded hcode hrefuses hf⟩
  · rw [← unclaimedTotal_eq_zero_iff hL hpos]
    have h1 := hamountRaw h
    have h2 := hinv.allowance token
    rw [hpaid] at h2
    omega

/-- Whatever was claimed before, in whatever order and from whatever frame, the approvals that
`build_claims.py` records cover the rows still unclaimed. -/
theorem approvals_cover_every_order (K : Hash D) {address : String → Option Address}
    {assets : Dict Address Asset} {csv : List CsvRow} {rows : List ClaimRow}
    (hread : readClaims address assets csv = .ok rows) {config : BridgeConfig} {chain : String} {g : Group}
    (hg : g ∈ contractGroups config chain rows) {wrapped : Option Address} {m : Manifest D}
    (hbuild : buildGroup K wrapped assets g.rows = .ok m) {self funder : Address} {blockChainId chainId : Word}
    {r : D} {claimCount : Word} {cfg : Config D} (hroot : m.root = some r)
    (hcount : claimCount.toNat = m.rows.length)
    (hnew : constructor K self blockChainId funder (wrapped.getD NATIVE_TOKEN) chainId r claimCount = .ok cfg)
    {l₀ : Ledger} (hfund : ∀ token approval, m.approvals.get? token = some approval →
      approval.amountRaw ≤ l₀.balance (token, funder) ∧
        approval.amountRaw ≤ l₀.allowance (token, funder, self))
    (T : Tokens) (adv : Adversary D) (txs : List (ℕ × Call D)) :
    Covered T cfg m l₀ (run T cfg K adv 0 (State.init l₀) txs) := by
  obtain ⟨-, -, -, tree, htree, hr⟩ := buildGroup_ok hbuild
  have hp : Published K (m.rows.map ClaimRow.row) cfg :=
    published_of_constructor htree (hr ▸ hroot) (by rw [hcount, List.length_map]) hnew
  have hcfg : cfg.wrappedNative = wrapped.getD NATIVE_TOKEN ∧ cfg.funder = funder ∧ cfg.self = self := by
    unfold constructor at hnew
    split_ifs at hnew
    obtain rfl := Except.ok.inj hnew
    exact ⟨rfl, rfl, rfl⟩
  obtain ⟨hw, rfl, rfl⟩ := hcfg
  have hamount : ∀ q ∈ g.rows, 0 < q.amount ∧ q.amount < 2 ^ 256 := fun q hq =>
    readRows_ok hread q (rows_of_contractGroups hg q hq)
  exact covered_of_inv hbuild hamount hw hp.length_lt hfund (inv_run hp adv txs)

end Main

/-! ### A native row and a wrapped one -/

def twoAssets : Dict Address Asset := .ofList [(NATIVE_TOKEN, ⟨"BNB", 18⟩), (3, ⟨"WBNB", 18⟩)]

/-- Addresses in decimal, for the lists below. -/
def plainAddress (text : String) : Option Address :=
  if text = "3" then some 3 else if text = "9" then some 9 else none

def twoLines : List CsvRow := [⟨"9", "native", 10, "bnb"⟩, ⟨"9", "3", 5, "wbnb"⟩]

def twoRows : List ClaimRow := [⟨9, NATIVE_TOKEN, 10, "bnb"⟩, ⟨9, 3, 5, "wbnb"⟩]

def bscConfig : BridgeConfig := ⟨fun _ => some 1, "bsc", 7, none⟩

def twoRowRoot : ℕ := hashPair Hash.nat (leaf Hash.nat 0 9 NATIVE_TOKEN 10) (leaf Hash.nat 1 9 3 5)

def twoRowManifest : Manifest ℕ :=
  ⟨twoRows, some twoRowRoot, .ofList [(3, ⟨"WBNB", 18, 15, ["native BNB", "WBNB"]⟩)]⟩

def twoRowConfig : Config ℕ := ⟨2, 1, 3, 56, twoRowRoot, 2⟩

/-- Account 1 holds and approves exactly 15 of the wrapped coin 3. -/
def twoRowLedger : Ledger where
  balance := fun p => if p = (3, 1) then 15 else 0
  allowance := fun p => if p = (3, 1, 2) then 15 else 0
  coin := fun a => if a = 3 then 15 else 0
  moves := []

theorem approvals_cover_every_order_two_rows :
    readClaims plainAddress twoAssets twoLines = .ok twoRows ∧
    buildGroup Hash.nat (some 3) twoAssets twoRows = .ok twoRowManifest ∧
    Covered oneRowTokens twoRowConfig twoRowManifest twoRowLedger
      (run oneRowTokens twoRowConfig Hash.nat greedy 0 (State.init twoRowLedger)
        [(5, .claim ⟨1, 9, 3, 5, [leaf Hash.nat 0 9 NATIVE_TOKEN 10]⟩)]) := by
  have hread : readClaims plainAddress twoAssets twoLines = .ok twoRows := by decide +kernel
  have hbuild : buildGroup Hash.nat (some 3) twoAssets twoRows = .ok twoRowManifest := by decide +kernel
  have hfund : ∀ token approval, twoRowManifest.approvals.get? token = some approval →
      approval.amountRaw ≤ twoRowLedger.balance (token, 1) ∧
        approval.amountRaw ≤ twoRowLedger.allowance (token, 1, 2) := by
    intro token approval h
    have hmem := Dict.get?_eq_some_iff.mp h
    obtain ⟨rfl, rfl⟩ := Prod.mk.inj (List.mem_singleton.mp hmem)
    decide
  have hg : (⟨"bsc", some 1, "custody_multisig", twoRows⟩ : Group) ∈ contractGroups bscConfig "bsc" twoRows := by
    decide +kernel
  have hnew : constructor Hash.nat 2 56 1 3 56 twoRowRoot 2 = .ok twoRowConfig := by decide +kernel
  exact ⟨hread, hbuild, approvals_cover_every_order Hash.nat hread hg hbuild rfl rfl hnew hfund _ _ _⟩

end HarmonyMigration.BridgeClaims
