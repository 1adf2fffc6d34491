import HarmonyMigration.BridgeClaims.Reentry
import HarmonyMigration.Lib.Except

/-! Every published row is paid at most once and nothing else is paid. The
invariant ties the bitmap to the `Claimed` events and the events to the transfers
out of the funder; it holds whenever untrusted code runs, so re-entry cannot break
it, and a failed frame takes its events and transfers with it. -/

namespace HarmonyMigration.BridgeClaims

open Keccak Erc20 ClaimTree Bitmap

variable {D : Type}

/-! ## What the logs and the ledger say -/

/-- A row that was claimed, read off its `Claimed` event. -/
def Event.row? : Event → Option (Word × Row)
  | .claimed index account token amount => some (index, ⟨account, token, amount⟩)
  | _ => none

/-- The rows claimed so far, in order, with their indexes. -/
def claimedRows (s : State) : List (Word × Row) := s.logs.filterMap Event.row?

/-- The asset a row draws from the funder: native rows draw the wrapped coin. -/
def assetOf (cfg : Config D) (r : Row) : Address :=
  if r.token = NATIVE then cfg.wrappedNative else r.token

def claimedTotal (cfg : Config D) (asset : Address) (rows : List (Word × Row)) : ℕ :=
  ((rows.filter fun p => assetOf cfg p.2 = asset).map fun p => p.2.amount.toNat).sum

/-- Transfers that the contract pulled out of the funder's balance. -/
def isPull (cfg : Config D) (m : Transfer) : Bool :=
  m.via = .transferFrom ∧ m.operator = cfg.self ∧ m.payer = cfg.funder

/-- The pull that pays a row: to its account, or to the contract for unwrapping. -/
def pullOf (cfg : Config D) (r : Row) : Transfer :=
  ⟨.transferFrom, cfg.self, assetOf cfg r, cfg.funder, if r.token = NATIVE then cfg.self else r.account,
    r.amount.toNat⟩

/-- Transfers of `asset` out of the funder's balance, by whomever. -/
def isOut (cfg : Config D) (asset : Address) (m : Transfer) : Bool :=
  m.payer = cfg.funder ∧ m.token = asset

/-- Transfers of `asset` into the funder's balance. -/
def isIn (cfg : Config D) (asset : Address) (m : Transfer) : Bool :=
  m.payee = cfg.funder ∧ m.token = asset

/-- The invariant. `l₀` is the ledger at deployment and `L` the published list. -/
structure Inv (cfg : Config D) (L : List Row) (l₀ : Ledger) (s : State) : Prop where
  rows : ∀ p ∈ claimedRows s, L[p.1.toNat]? = some p.2
  nodup : ((claimedRows s).map Prod.fst).Nodup
  bits : ∀ i, isClaimed s i = true ↔ i ∈ (claimedRows s).map Prod.fst
  pulls : s.ledger.moves.filter (isPull cfg) = (claimedRows s).map fun p => pullOf cfg p.2
  out : cfg.funder ≠ cfg.self → ∀ asset,
    sumWhere (isOut cfg asset) s.ledger.moves = claimedTotal cfg asset (claimedRows s)
  balance : cfg.funder ≠ cfg.self → ∀ asset,
    s.ledger.balance (asset, cfg.funder) + sumWhere (isOut cfg asset) s.ledger.moves =
      l₀.balance (asset, cfg.funder) + sumWhere (isIn cfg asset) s.ledger.moves
  allowance : ∀ asset, s.ledger.allowance (asset, cfg.funder, cfg.self) +
    claimedTotal cfg asset (claimedRows s) = l₀.allowance (asset, cfg.funder, cfg.self)
  cover : ∀ asset, l₀.balance (asset, cfg.funder) ≤
    s.ledger.balance (asset, cfg.funder) + claimedTotal cfg asset (claimedRows s)

theorem inv_init (cfg : Config D) (L : List Row) (l₀ : Ledger) : Inv cfg L l₀ (State.init l₀) where
  rows := by simp [claimedRows, State.init]
  nodup := by simp [claimedRows, State.init]
  bits := by simp [claimedRows, State.init, isClaimed, Bitmap.get_empty]
  pulls := by simp [claimedRows, State.init]
  out := by simp [claimedRows, State.init, claimedTotal, sumWhere_nil]
  balance := by simp [State.init, sumWhere_nil]
  allowance := by simp [claimedRows, State.init, claimedTotal]
  cover := by simp [State.init]

/-- The pulls of one asset add up to the claimed rows that draw it. -/
theorem Inv.pulledTotal {cfg : Config D} {L : List Row} {l₀ : Ledger} {s : State}
    (hs : Inv cfg L l₀ s) (asset : Address) :
    sumWhere (fun m => isPull cfg m && m.token = asset) s.ledger.moves =
      claimedTotal cfg asset (claimedRows s) := by
  rw [← sumWhere_filter, hs.pulls, sumWhere, claimedTotal, List.filter_map, List.map_map]
  rfl

/-! ## Ledger steps -/

/-- A ledger step that pulls nothing from the funder and accounts for its balance. -/
structure Quiet (cfg : Config D) (l l' : Ledger) : Prop where
  pulls : l'.moves.filter (isPull cfg) = l.moves.filter (isPull cfg)
  out : cfg.funder ≠ cfg.self → ∀ asset,
    sumWhere (isOut cfg asset) l'.moves = sumWhere (isOut cfg asset) l.moves
  balance : cfg.funder ≠ cfg.self → ∀ asset,
    l'.balance (asset, cfg.funder) + sumWhere (isIn cfg asset) l.moves =
      l.balance (asset, cfg.funder) + sumWhere (isIn cfg asset) l'.moves
  allowance : ∀ asset,
    l'.allowance (asset, cfg.funder, cfg.self) = l.allowance (asset, cfg.funder, cfg.self)
  cover : ∀ asset, l.balance (asset, cfg.funder) ≤ l'.balance (asset, cfg.funder)

theorem quiet_of_eq {cfg : Config D} {l l' : Ledger} (hm : l'.moves = l.moves)
    (ha : l'.allowance = l.allowance) (hb : l'.balance = l.balance) : Quiet cfg l l' where
  pulls := by rw [hm]
  out := by simp [hm]
  balance := by intro _ asset; rw [hm, hb]
  allowance := by simp [ha]
  cover := by simp [hb]

theorem quiet_deposit {cfg : Config D} {l l' : Ledger} {w : Address} {n : ℕ}
    (h : l.deposit w cfg.self n = some l') : Quiet cfg l l' := by
  obtain ⟨hm, ha, hb⟩ := Ledger.deposit_some h
  refine ⟨by rw [hm], by simp [hm], fun hne asset => ?_, by simp [ha], fun asset => ?_⟩
  · rw [hm, hb]
    simp [hne]
  · rw [hb]
    exact Nat.le_add_right _ _

/-- Sending the contract's own tokens pulls nothing from the funder; its balance is the
contract's own if the two are one account. -/
theorem quiet_transfer {cfg : Config D} {l : Ledger} {token dest : Address} {n : ℕ}
    (h : l.funded ⟨.transfer, cfg.self, token, cfg.self, dest, n⟩ = true)
    (hself : cfg.funder = cfg.self → dest = cfg.self) :
    Quiet cfg l (l.apply ⟨.transfer, cfg.self, token, cfg.self, dest, n⟩) where
  pulls := by simp [Ledger.apply, isPull]
  out := by
    intro hne asset
    simp [Ledger.apply, sumWhere_snoc, isOut, Ne.symm hne]
  balance := by
    intro hne asset
    have hb := Ledger.apply_balance h asset cfg.funder
    simp only [Ne.symm hne, and_false, if_false, Nat.add_zero] at hb
    rw [hb]
    simp only [Ledger.apply, sumWhere_snoc, isIn, decide_eq_true_eq, and_comm]
    omega
  allowance := by simp [Ledger.apply]
  cover := by
    intro asset
    have hb := Ledger.apply_balance h asset cfg.funder
    by_cases hfs : cfg.funder = cfg.self
    · simp only [hfs, hself hfs] at hb ⊢
      omega
    · simp only [Ne.symm hfs, and_false, if_false] at hb
      omega

theorem Quiet.trans {cfg : Config D} {l l' l'' : Ledger} (h : Quiet cfg l l') (h' : Quiet cfg l' l'') :
    Quiet cfg l l'' where
  pulls := h'.pulls.trans h.pulls
  out hne asset := (h'.out hne asset).trans (h.out hne asset)
  balance hne asset := by
    have h1 := h.balance hne asset
    have h2 := h'.balance hne asset
    omega
  allowance asset := (h'.allowance asset).trans (h.allowance asset)
  cover asset := (h.cover asset).trans (h'.cover asset)

/-- Wrapping coins again and sending them on as tokens. -/
theorem quiet_rewrap {cfg : Config D} {l l' : Ledger} {w dest : Address} {n : ℕ}
    (hd : l.deposit w cfg.self n = some l')
    (hf : l'.funded ⟨.transfer, cfg.self, w, cfg.self, dest, n⟩ = true) :
    Quiet cfg l (l'.apply ⟨.transfer, cfg.self, w, cfg.self, dest, n⟩) := by
  by_cases hfs : cfg.funder = cfg.self
  · obtain ⟨hm, ha, hb⟩ := Ledger.deposit_some hd
    refine ⟨?_, fun hne => absurd hfs hne, fun hne => absurd hfs hne, fun asset => ?_, fun asset => ?_⟩
    · simp [Ledger.apply, isPull, hm]
    · simp [Ledger.apply, ha]
    · have h1 := hb asset cfg.funder
      have h2 := Ledger.apply_balance hf asset cfg.funder
      simp only [hfs, and_true, eq_comm] at h1 h2 ⊢
      omega
  · exact (quiet_deposit hd).trans (quiet_transfer hf fun h => absurd h hfs)

/-- A ledger step in which the contract pulls `m` from the funder. -/
structure Pulls (cfg : Config D) (l : Ledger) (m : Transfer) (l' : Ledger) : Prop where
  moves : l'.moves = l.moves ++ [m]
  balance : cfg.funder ≠ cfg.self → ∀ asset,
    l'.balance (asset, cfg.funder) + (if m.token = asset then m.amount else 0) =
      l.balance (asset, cfg.funder) + if m.token = asset ∧ m.payee = cfg.funder then m.amount else 0
  allowance : ∀ asset,
    l'.allowance (asset, cfg.funder, cfg.self) + (if m.token = asset then m.amount else 0) =
      l.allowance (asset, cfg.funder, cfg.self)
  cover : ∀ asset, l.balance (asset, cfg.funder) ≤
    l'.balance (asset, cfg.funder) + if m.token = asset then m.amount else 0

theorem pulls_apply {cfg : Config D} {l : Ledger} {r : Row} (hf : l.funded (pullOf cfg r) = true) :
    Pulls cfg l (pullOf cfg r) (l.apply (pullOf cfg r)) := by
  have hb (asset : Address) := Ledger.apply_balance hf asset cfg.funder
  have hp : (pullOf cfg r).payer = cfg.funder := rfl
  simp only [hp, and_true] at hb
  refine ⟨rfl, fun _ asset => hb asset, fun asset => ?_, fun asset => ?_⟩
  · have hcond : (pullOf cfg r).via = .transferFrom ∧ (pullOf cfg r).token = asset ∧
        (pullOf cfg r).payer = cfg.funder ∧ (pullOf cfg r).operator = cfg.self ↔
          (pullOf cfg r).token = asset := ⟨fun h => h.2.1, fun h => ⟨rfl, h, rfl, rfl⟩⟩
    rw [← Ledger.apply_allowance hf asset cfg.funder cfg.self, if_congr hcond rfl rfl]
  · have hb := hb asset
    omega

/-- A native row: the wrapped coin is pulled to the contract and unwrapped there. -/
theorem pulls_unwrap {cfg : Config D} {l l' : Ledger} {r : Row} (hr : r.token = NATIVE)
    (hf : l.funded (pullOf cfg r) = true)
    (hw : (l.apply (pullOf cfg r)).withdraw cfg.wrappedNative cfg.self r.amount.toNat = some l') :
    Pulls cfg l (pullOf cfg r) l' := by
  obtain ⟨hm, ha, hb⟩ := Ledger.withdraw_some hw
  have h0 := pulls_apply hf
  have htok : (pullOf cfg r).token = cfg.wrappedNative := by simp [pullOf, assetOf, hr]
  have hpayee : (pullOf cfg r).payee = cfg.self := by simp [pullOf, hr]
  have hamount : (pullOf cfg r).amount = r.amount.toNat := rfl
  refine ⟨by rw [hm]; exact h0.moves, fun hne asset => ?_, fun asset => ?_, fun asset => ?_⟩
  · have h1 := h0.balance hne asset
    have h2 := hb asset cfg.funder
    simp only [hne, and_false, if_false] at h2
    omega
  · rw [ha]
    exact h0.allowance asset
  · have h1 := Ledger.apply_balance hf asset cfg.funder
    have h2 := hb asset cfg.funder
    have hp : (pullOf cfg r).payer = cfg.funder := rfl
    simp only [htok, hp, hpayee, hamount, and_true, eq_comm] at h1 h2 ⊢
    split_ifs at h1 h2 ⊢ <;> omega

/-- A quiet ledger step and further events other than `Claimed` keep the invariant. -/
theorem Inv.quiet {cfg : Config D} {L : List Row} {l₀ : Ledger} {s : State} (hs : Inv cfg L l₀ s)
    {l' : Ledger} (hq : Quiet cfg s.ledger l') (es : List Event) (hes : es.filterMap Event.row? = []) :
    Inv cfg L l₀ { s with ledger := l', logs := s.logs ++ es } := by
  have hrows : claimedRows { s with ledger := l', logs := s.logs ++ es } = claimedRows s := by
    simp [claimedRows, hes]
  refine ⟨?_, ?_, ?_, ?_, ?_, ?_, ?_, ?_⟩
  · rw [hrows]; exact hs.rows
  · rw [hrows]; exact hs.nodup
  · rw [hrows]; exact hs.bits
  · rw [hrows, ← hs.pulls]; exact hq.pulls
  · intro hne asset
    rw [hrows, hq.out hne, hs.out hne]
  · intro hne asset
    have h1 := hs.balance hne asset
    have h2 := hq.balance hne asset
    have h3 := hq.out hne asset
    simp only at h2 h3 ⊢
    omega
  · intro asset
    rw [hrows, hq.allowance]
    exact hs.allowance asset
  · intro asset
    rw [hrows]
    exact (hs.cover asset).trans (Nat.add_le_add_right (hq.cover asset) _)

theorem Inv.quiet' {cfg : Config D} {L : List Row} {l₀ : Ledger} {s : State} (hs : Inv cfg L l₀ s)
    {l' : Ledger} (hq : Quiet cfg s.ledger l') : Inv cfg L l₀ { s with ledger := l' } := by
  simpa using hs.quiet hq [] rfl

/-! ## The contract's steps -/

section
variable {T : Tokens} {cfg : Config D} {L : List Row} {l₀ : Ledger} {s s' : State}

/-- An accepted token call made the transfer. -/
theorem tokenCall_some {l l' : Ledger} {m : Transfer}
    (h : _tokenCall T m.token (T.call l m) = some l') : l.funded m = true ∧ l' = l.apply m := by
  rcases T.call_cases l m with ⟨hc, hcode⟩ | (hc | hc) | ⟨hcode, hf, -, hc | hc⟩
  · simp [hc, _tokenCall, hcode] at h
  · simp [hc, _tokenCall] at h
  · simp [hc, _tokenCall] at h
  · exact ⟨hf, by simpa [hc, _tokenCall, eq_comm] using h⟩
  · exact ⟨hf, by simpa [hc, _tokenCall, hcode, eq_comm] using h⟩

theorem safeTransferFrom_ok {token payer dest : Address} {n : ℕ}
    (h : _safeTransferFrom T cfg s token payer dest n = .ok s') :
    s.ledger.funded ⟨.transferFrom, cfg.self, token, payer, dest, n⟩ = true ∧
      s' = { s with ledger := s.ledger.apply ⟨.transferFrom, cfg.self, token, payer, dest, n⟩ } := by
  unfold _safeTransferFrom at h
  split at h
  · obtain ⟨hf, rfl⟩ := tokenCall_some (m := ⟨.transferFrom, cfg.self, token, payer, dest, n⟩) ‹_›
    exact ⟨hf, (Except.ok.inj h).symm⟩
  · cases h

theorem safeTransfer_ok {token dest : Address} {n : ℕ}
    (h : _safeTransfer T cfg s token dest n = .ok s') :
    s.ledger.funded ⟨.transfer, cfg.self, token, cfg.self, dest, n⟩ = true ∧
      s' = { s with ledger := s.ledger.apply ⟨.transfer, cfg.self, token, cfg.self, dest, n⟩ } := by
  unfold _safeTransfer at h
  split at h
  · obtain ⟨hf, rfl⟩ := tokenCall_some (m := ⟨.transfer, cfg.self, token, cfg.self, dest, n⟩) ‹_›
    exact ⟨hf, (Except.ok.inj h).symm⟩
  · cases h

theorem withdraw_ok {n : ℕ} (h : withdraw T cfg s n = .ok s') :
    ∃ l, s.ledger.withdraw cfg.wrappedNative cfg.self n = some l ∧ s' = { s with ledger := l } := by
  unfold withdraw at h
  split at h
  · exact ⟨_, ‹_›, (Except.ok.inj h).symm⟩
  · cases h

theorem deposit_ok {n : ℕ} (h : deposit T cfg s n = .ok s') :
    ∃ l, s.ledger.deposit cfg.wrappedNative cfg.self n = some l ∧ s' = { s with ledger := l } := by
  unfold deposit at h
  split at h
  · exact ⟨_, ‹_›, (Except.ok.inj h).symm⟩
  · cases h

theorem claimedRows_mark (s : State) (i : Word) (account token : Address) (amount : Word) (l : Ledger) :
    claimedRows { mark s i account token amount with ledger := l } =
      claimedRows s ++ [(i, ⟨account, token, amount⟩)] := by
  simp [claimedRows, mark, Event.row?]

/-- Marking a row and pulling its amount of its asset keeps the invariant. -/
theorem Inv.claim (hs : Inv cfg L l₀ s) {i : Word} {account token : Address} {amount : Word}
    (hi : isClaimed s i = false) (hrow : L[i.toNat]? = some ⟨account, token, amount⟩) {l' : Ledger}
    (hpull : Pulls cfg s.ledger (pullOf cfg ⟨account, token, amount⟩) l') :
    Inv cfg L l₀ { mark s i account token amount with ledger := l' } := by
  set m := pullOf cfg ⟨account, token, amount⟩ with hm
  have hnew : i ∉ (claimedRows s).map Prod.fst := by
    rw [← hs.bits i, hi]; simp
  have hout : ∀ asset, sumWhere (isOut cfg asset) l'.moves =
      sumWhere (isOut cfg asset) s.ledger.moves + if m.token = asset then m.amount else 0 := by
    intro asset
    simp [hpull.moves, sumWhere_snoc, isOut, hm, pullOf]
  have htotal : ∀ asset, claimedTotal cfg asset (claimedRows s ++ [(i, ⟨account, token, amount⟩)]) =
      claimedTotal cfg asset (claimedRows s) + if m.token = asset then m.amount else 0 := by
    intro asset
    simp only [claimedTotal, List.filter_append, List.map_append, List.sum_append]
    by_cases ha : assetOf cfg ⟨account, token, amount⟩ = asset
    · simp [hm, pullOf, ha]
    · simp [hm, pullOf, ha]
  refine ⟨?_, ?_, ?_, ?_, ?_, ?_, ?_, ?_⟩
  · intro p hp
    rw [claimedRows_mark] at hp
    rcases List.mem_append.mp hp with hp | hp
    · exact hs.rows p hp
    · rw [List.mem_singleton.mp hp]; exact hrow
  · rw [claimedRows_mark, List.map_append]
    exact List.nodup_append.mpr ⟨hs.nodup, by simp, by
      intro a ha b hb hab
      simp only [List.map_cons, List.map_nil, List.mem_singleton] at hb
      exact hnew (hb ▸ hab ▸ ha)⟩
  · intro j
    rw [claimedRows_mark]
    have hj := hs.bits j
    simp only [isClaimed, mark, Bitmap.get_set, Bool.or_eq_true, decide_eq_true_eq,
      List.map_append, List.mem_append, List.map_cons, List.map_nil, List.mem_singleton] at hj ⊢
    rw [hj, or_comm]
  · rw [claimedRows_mark]
    simp [hpull.moves, hs.pulls, hm, isPull, pullOf]
  · intro hne asset
    rw [claimedRows_mark, htotal, hout, hs.out hne]
  · intro hne asset
    have h1 := hs.balance hne asset
    have h2 := hpull.balance hne asset
    have h3 : sumWhere (isIn cfg asset) l'.moves = sumWhere (isIn cfg asset) s.ledger.moves +
        if m.token = asset ∧ m.payee = cfg.funder then m.amount else 0 := by
      simp [hpull.moves, sumWhere_snoc, isIn, and_comm]
    simp only [hout asset, h3]
    omega
  · intro asset
    have h1 := hs.allowance asset
    have h2 := hpull.allowance asset
    rw [claimedRows_mark, htotal]
    simp only
    omega
  · intro asset
    have h1 := hs.cover asset
    have h2 := hpull.cover asset
    rw [claimedRows_mark, htotal]
    simp only
    omega

/-- Paying a native row pulls the wrapped coin once, whatever the payee does. -/
theorem Inv.payNative (hs : Inv cfg L l₀ s) {send : Send} (hsend : Preserves (Inv cfg L l₀) send)
    {i : Word} {account : Address} {amount : Word} (hi : isClaimed s i = false)
    (hrow : L[i.toNat]? = some ⟨account, NATIVE, amount⟩)
    (h : _payNative T cfg send (mark s i account NATIVE amount) i account amount = .ok s') :
    Inv cfg L l₀ s' := by
  have hpull : pullOf cfg ⟨account, NATIVE, amount⟩ =
      ⟨.transferFrom, cfg.self, cfg.wrappedNative, cfg.funder, cfg.self, amount.toNat⟩ := by
    simp [pullOf, assetOf]
  unfold _payNative at h
  split_ifs at h
  obtain ⟨s1, h1, h⟩ := Except.of_bind_ok h
  obtain ⟨hf, rfl⟩ := safeTransferFrom_ok h1
  obtain ⟨s2, h2, h⟩ := Except.of_bind_ok h
  obtain ⟨l2, hw, rfl⟩ := withdraw_ok h2
  rw [← hpull] at hf hw
  have hs2 := hs.claim hi hrow (pulls_unwrap rfl hf hw)
  split at h
  · exact Except.ok.inj h ▸ hsend _ _ _ _ hs2 ‹_›
  · obtain ⟨s3, h3, h⟩ := Except.of_bind_ok h
    obtain ⟨l3, hd, rfl⟩ := deposit_ok h3
    obtain ⟨s4, h4, h⟩ := Except.of_bind_ok h
    obtain ⟨hf4, rfl⟩ := safeTransfer_ok h4
    exact Except.ok.inj h ▸ hs2.quiet (quiet_rewrap hd hf4) _ rfl

theorem Inv.sweep (hs : Inv cfg L l₀ s) {send : Send} (hsend : Preserves (Inv cfg L l₀) send)
    {token : Address} (h : BridgeClaims.sweep T cfg send s token = .ok s') : Inv cfg L l₀ s' := by
  unfold BridgeClaims.sweep at h
  split_ifs at h
  · split at h
    · have h1 := hsend _ _ _ _ hs ‹_›
      exact Except.ok.inj h ▸ h1.quiet (quiet_of_eq rfl rfl rfl) _ rfl
    · cases h
  · obtain ⟨s1, h1, h⟩ := Except.of_bind_ok h
    obtain ⟨hf, rfl⟩ := safeTransfer_ok h1
    exact Except.ok.inj h ▸ hs.quiet (quiet_transfer hf id) _ rfl

/-- The claimed rows are the rows of the list whose bit is set, each once. -/
theorem claimedRows_perm (hL : L.length < 2 ^ 256) (hs : Inv cfg L l₀ s) :
    (claimedRows s).Perm ((enumerate L).filter fun p => isClaimed s p.1) :=
  Bitmap.perm_enumerate_filter hL hs.rows hs.nodup hs.bits

variable [LinearOrder D] {K : Hash D}

/-- The published list behind a deployed contract: its root and its length. -/
structure Published (K : Hash D) (L : List Row) (cfg : Config D) : Prop where
  root : ∃ lv, levels (hashPair K) (leaves K (enumerate L)) = .ok lv ∧ ClaimTree.root lv = some cfg.root
  count : cfg.claimCount.toNat = L.length

theorem Published.length_lt (hp : Published K L cfg) : L.length < 2 ^ 256 :=
  hp.count ▸ cfg.claimCount.isLt

theorem row_of_verify (hp : Published K L cfg) {i : Word} {account token : Address} {amount : Word}
    {proof : List D} (h : _verify K cfg proof (leaf K i account token amount) = true) :
    L[i.toNat]? = some ⟨account, token, amount⟩ := by
  obtain ⟨lv, hlv, hr⟩ := hp.root
  exact row_of_fold K hp.length_lt hlv hr proof (of_decide_eq_true h)

/-- The three checks a successful `_claim` has passed, and what it then ran. -/
theorem claim_ok {send : Send} {i : Word} {account token : Address} {amount : Word} {proof : List D}
    (h : _claim T cfg send K s i account token amount proof = .ok s') :
    i < cfg.claimCount ∧ isClaimed s i = false ∧
      _verify K cfg proof (leaf K i account token amount) = true ∧
      ((token = NATIVE ∧
          _payNative T cfg send (mark s i account token amount) i account amount = .ok s') ∨
        (token ≠ NATIVE ∧ _safeTransferFrom T cfg (mark s i account token amount) token cfg.funder
          account amount.toNat = .ok s')) := by
  unfold _claim at h
  split_ifs at h with h1 h2 h3 h4
  · exact ⟨BitVec.not_le.mp h1, by simpa using h2, by simpa using h3, Or.inl ⟨h4, h⟩⟩
  · exact ⟨BitVec.not_le.mp h1, by simpa using h2, by simpa using h3, Or.inr ⟨h4, h⟩⟩

theorem Inv.internalClaim (hp : Published K L cfg) (hs : Inv cfg L l₀ s) {send : Send}
    (hsend : Preserves (Inv cfg L l₀) send) {i : Word} {account token : Address} {amount : Word}
    {proof : List D} (h : _claim T cfg send K s i account token amount proof = .ok s') :
    Inv cfg L l₀ s' := by
  obtain ⟨-, hi, hv, ⟨rfl, hpay⟩ | ⟨hne, hpay⟩⟩ := claim_ok h
  · exact hs.payNative hsend hi (row_of_verify hp hv) hpay
  · obtain ⟨hf, rfl⟩ := safeTransferFrom_ok hpay
    have hpull : pullOf cfg ⟨account, token, amount⟩ =
        ⟨.transferFrom, cfg.self, token, cfg.funder, account, amount.toNat⟩ := by
      simp [pullOf, assetOf, hne]
    rw [← hpull] at hf ⊢
    exact hs.claim hi (row_of_verify hp hv) (pulls_apply hf)

theorem Inv.claimMany (hp : Published K L cfg) {send : Send} (hsend : Preserves (Inv cfg L l₀) send)
    (cs : List (Claim D)) (hs : Inv cfg L l₀ s) {r : State × ℕ}
    (h : BridgeClaims.claimMany T cfg send K s cs = .ok r) : Inv cfg L l₀ r.1 := by
  induction cs generalizing s r with
  | nil => exact Except.ok.inj h ▸ hs
  | cons c rest ih =>
    simp only [BridgeClaims.claimMany] at h
    split_ifs at h with hskip
    · exact ih hs h
    · obtain ⟨s1, h1, h⟩ := Except.of_bind_ok h
      obtain ⟨r1, h2, h⟩ := Except.of_bind_ok h
      have h3 := ih (hs.internalClaim hp hsend h1) h2
      exact Except.ok.inj h ▸ h3

theorem Inv.call (hp : Published K L cfg) (send : Send) (hsend : Preserves (Inv cfg L l₀) send)
    (s : State) (c : Call D) (s' : State) (hs : Inv cfg L l₀ s)
    (h : BridgeClaims.call T cfg send K s c = .ok s') : Inv cfg L l₀ s' := by
  cases c with
  | claim c => exact hs.internalClaim hp hsend h
  | claimMany cs =>
    obtain ⟨r, hr, rfl⟩ := Except.of_map_ok h
    exact Inv.claimMany hp hsend cs hs hr
  | sweep token => exact hs.sweep hsend h

/-- The invariant in every state any transactions lead to. -/
theorem inv_run (hp : Published K L cfg) (adv : Adversary D) (txs : List (ℕ × Call D)) :
    Inv cfg L l₀ (run T cfg K adv 0 (State.init l₀) txs) := by
  refine run_preserves (fun gas path s c s' hs h => ?_) txs 0 _ (inv_init cfg L l₀)
  refine exec_preserves ?_ ?_ (fun send hsend s c s' hs h => Inv.call hp send hsend s c s' hs h)
    gas path s c s' hs h
  · intro s l hs hb ha hm
    exact hs.quiet' (quiet_of_eq hm ha hb)
  · intro s amount l hs hl
    exact hs.quiet' (quiet_deposit hl)

theorem published_of_constructor {self : Address} {blockChainId : Word} {funder wrappedNative : Address}
    {chainId claimCount : Word} {lv : List (List D)} {r : D}
    (hlv : levels (hashPair K) (leaves K (enumerate L)) = .ok lv) (hr : ClaimTree.root lv = some r)
    (hcount : claimCount.toNat = L.length)
    (hnew : constructor K self blockChainId funder wrappedNative chainId r claimCount = .ok cfg) :
    Published K L cfg := by
  unfold constructor at hnew
  split_ifs at hnew
  obtain rfl := Except.ok.inj hnew
  exact ⟨⟨lv, hlv, hr⟩, hcount⟩

end

/-- The amounts of the rows of `L` that draw `asset` and whose bit is set. -/
def paidTotal (cfg : Config D) (L : List Row) (s : State) (asset : Address) : ℕ :=
  claimedTotal cfg asset ((enumerate L).filter fun p => isClaimed s p.1)

/-- In the state `s`, each published row was paid at most once and nothing else. -/
structure PaidOnce [LinearOrder D] (K : Hash D) (T : Tokens) (cfg : Config D) (L : List Row)
    (l₀ : Ledger) (s : State) : Prop where
  /-- a successful `_claim`, in whatever frame, is about row `i` of the list, not marked before -/
  checked : ∀ (send : Send) (s₁ s₂ : State) (i : Word) (account token : Address) (amount : Word)
    (proof : List D), _claim T cfg send K s₁ i account token amount proof = .ok s₂ →
    isClaimed s₁ i = false ∧ i.toNat < L.length ∧ L[i.toNat]? = some ⟨account, token, amount⟩
  rows : ∀ p ∈ claimedRows s, L[p.1.toNat]? = some p.2
  /-- the `Claimed` events of the frames that were not reverted name no index twice -/
  nodup : ((claimedRows s).map Prod.fst).Nodup
  bits : ∀ i, isClaimed s i = true ↔ i ∈ (claimedRows s).map Prod.fst
  /-- the contract pulled from the funder one transfer for each of these rows, to its account or,
  for a native row, to be unwrapped -/
  pulls : s.ledger.moves.filter (isPull cfg) = (claimedRows s).map fun p => pullOf cfg p.2
  /-- so what it pulled is, asset by asset, the total of the marked rows -/
  pulled : ∀ asset, sumWhere (fun m => isPull cfg m && m.token = asset) s.ledger.moves =
    paidTotal cfg L s asset
  /-- with the funder another account than the contract, that is all that left it -/
  out : cfg.funder ≠ cfg.self → ∀ asset,
    sumWhere (isOut cfg asset) s.ledger.moves = paidTotal cfg L s asset ∧
    s.ledger.balance (asset, cfg.funder) + paidTotal cfg L s asset =
      l₀.balance (asset, cfg.funder) + sumWhere (isIn cfg asset) s.ledger.moves

/-- The contract deployed for a non-empty list pays each row at most once and
nothing else, after any transactions and whatever the paid accounts do. -/
theorem pays_each_row_once [LinearOrder D] (K : Hash D) (L : List Row) (hL : L ≠ []) :
    ∃ lv r, levels (hashPair K) (leaves K (enumerate L)) = .ok lv ∧ ClaimTree.root lv = some r ∧
      ∀ (self : Address) (blockChainId : Word) (funder wrappedNative : Address)
        (chainId claimCount : Word) (cfg : Config D), claimCount.toNat = L.length →
        constructor K self blockChainId funder wrappedNative chainId r claimCount = .ok cfg →
        ∀ (T : Tokens) (adv : Adversary D) (l₀ : Ledger) (txs : List (ℕ × Call D)),
          PaidOnce K T cfg L l₀ (run T cfg K adv 0 (State.init l₀) txs) := by
  obtain ⟨lv, r, hlv, hr⟩ := exists_root K.toHashFn hL
  refine ⟨lv, r, hlv, hr, ?_⟩
  intro self blockChainId funder wrappedNative chainId claimCount cfg hcount hnew T adv l₀ txs
  have hp : Published K L cfg := published_of_constructor hlv hr hcount hnew
  have hinv : Inv cfg L l₀ (run T cfg K adv 0 (State.init l₀) txs) := inv_run hp adv txs
  generalize run T cfg K adv 0 (State.init l₀) txs = s at hinv
  have htotal : ∀ asset, claimedTotal cfg asset (claimedRows s) = paidTotal cfg L s asset := fun asset =>
    (((claimedRows_perm hp.length_lt hinv).filter _).map _).sum_eq
  refine ⟨?_, hinv.rows, hinv.nodup, hinv.bits, hinv.pulls, ?_, ?_⟩
  · intro send s₁ s₂ i account token amount proof h
    obtain ⟨-, hi, hv, -⟩ := claim_ok h
    have hrow := row_of_verify hp hv
    exact ⟨hi, (List.getElem?_eq_some_iff.mp hrow).1, hrow⟩
  · intro asset
    rw [← htotal, ← hinv.pulledTotal]
  · intro hne asset
    have hout : sumWhere (isOut cfg asset) s.ledger.moves = paidTotal cfg L s asset := by
      rw [hinv.out hne, htotal]
    exact ⟨hout, hout ▸ hinv.balance hne asset⟩

/-- One native row of 10, held and approved by account 1 in the wrapped coin 3. -/
def oneRow : List Row := [⟨9, NATIVE, 10⟩]

def oneRowConfig : Config ℕ := ⟨2, 1, 3, 56, leaf Hash.nat 0 9 NATIVE 10, 1⟩

def oneRowTokens : Tokens := ⟨fun _ => true, fun _ => .isTrue, fun _ => .reverts, fun _ _ => false⟩

def oneRowLedger : Ledger where
  balance := fun p => if p = (3, 1) then 10 else 0
  allowance := fun p => if p = (3, 1, 2) then 10 else 0
  coin := fun a => if a = 3 then 10 else 0
  moves := []

def oneRowClaim : Call ℕ := .claim ⟨0, 9, NATIVE, 10, []⟩

/-- The payee claims its row again and sweeps before it accepts the coin. -/
def greedy : Adversary ℕ := fun _ step =>
  if step = 0 then .call oneRowClaim else if step = 1 then .call (.sweep NATIVE) else .accept

theorem pays_each_row_once_greedy :
    PaidOnce Hash.nat oneRowTokens oneRowConfig oneRow oneRowLedger
        (run oneRowTokens oneRowConfig Hash.nat greedy 0 (State.init oneRowLedger)
          [(5, oneRowClaim), (5, oneRowClaim)]) ∧
      claimedRows (run oneRowTokens oneRowConfig Hash.nat greedy 0 (State.init oneRowLedger)
        [(5, oneRowClaim), (5, oneRowClaim)]) = [(0, ⟨9, NATIVE, 10⟩)] := by
  obtain ⟨lv, r, hlv, hr, h⟩ := pays_each_row_once Hash.nat oneRow (by decide)
  have hlv' : levels (hashPair Hash.nat.toHashFn) (leaves Hash.nat.toHashFn (enumerate oneRow)) =
      .ok [[leaf Hash.nat.toHashFn 0 9 NATIVE 10]] := rfl
  obtain rfl := Except.ok.inj (hlv.symm.trans hlv')
  obtain rfl := Option.some.inj hr
  exact ⟨h 2 56 1 3 56 1 oneRowConfig rfl rfl _ _ _ _, by decide⟩

end HarmonyMigration.BridgeClaims
