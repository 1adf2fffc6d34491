import HarmonyMigration.Claims.StageRows
import HarmonyMigration.Routing.Conservation

/-! Deductions in `apply-routes.py` and in the stage policy: routes that issue nothing, taken from the
wallet first, against `split_final_components`. -/

namespace HarmonyMigration.Routing

open Erc20 Except Claims Claims.StagePolicy

variable {K : Keys} {i : Input} {l : Loaded} {c : Compiled} {source : Source} {s s' : Remaining}

/-! ### Issued amounts -/

def issuedWallet (rows : List WalletRow) : ℤ := ((rows.filter fun r => r.delivery.issued).map WalletRow.amount).sum

def issuedStaked (rows : List CompiledShare) : ℤ :=
  ((rows.filter fun r => r.delivery.issued).map CompiledShare.amount).sum

theorem issuedWallet_append (rows rows' : List WalletRow) :
    issuedWallet (rows ++ rows') = issuedWallet rows + issuedWallet rows' := by
  simp [issuedWallet]

theorem issuedStaked_append (rows rows' : List CompiledShare) :
    issuedStaked (rows ++ rows') = issuedStaked rows + issuedStaked rows' := by
  simp [issuedStaked]

theorem issuedWallet_walletRows (source : Source) (amount : ℤ) (d : Delivery) :
    issuedWallet (walletRows source amount d) = if d.issued then amount else 0 := by
  unfold issuedWallet
  split_ifs with hd
  · rw [List.filter_eq_self.mpr fun r hr => by rw [walletRows_delivery r hr, hd], sum_walletRows]
  · rw [List.filter_eq_nil_iff.mpr fun r hr => by rw [walletRows_delivery r hr]; exact hd]
    rfl

theorem issuedStaked_shareRows (result : List (Position × ℤ)) (d : Delivery) :
    issuedStaked (shareRows result d) = if d.issued then (result.map Prod.snd).sum else 0 := by
  unfold issuedStaked
  split_ifs with hd
  · rw [List.filter_eq_self.mpr fun r hr => by rw [shareRows_delivery r hr, hd], sum_shareRows]
  · rw [List.filter_eq_nil_iff.mpr fun r hr => by rw [shareRows_delivery r hr]; exact hd]
    rfl

/-- What is left and what is issued. -/
structure Kept (s : Remaining) (wallet staked : ℤ) : Prop where
  wallet_nonneg : 0 ≤ s.wallet
  positions_nonneg : ∀ p ∈ s.positions, 0 ≤ p.remaining
  wallet : s.wallet + issuedWallet s.walletRows = wallet
  staked : vaultRemaining s.positions + issuedStaked s.shareRows = staked

/-! ### Deductions -/

/-- A route of `build-non-issuance-routes.py`: an exact amount, wallet first, to nobody. -/
structure Deduction (r : Route) (amount : ℤ) : Prop where
  method : r.method = .walletFirstProRataVault
  status : r.destinationStatus = .notIssuing
  reason : r.reason ≠ exchangeRouteReason
  exact : r.amount = .exact amount
  pos : 0 < amount

theorem routeTreatment_notIssuing {r : Route} (hstatus : r.destinationStatus = .notIssuing)
    (hreason : r.reason ≠ exchangeRouteReason) : routeTreatment r.reason r.destinationStatus = .ok .notIssued := by
  unfold routeTreatment
  rw [if_neg hreason, hstatus]

theorem components_walletFirst (wallet amount : ℤ) :
    components .walletFirstProRataVault wallet amount = .ok (min wallet amount, amount - min wallet amount) := rfl

/-- Whatever a route takes without issuing it leaves what was issued as it was. -/
theorem Taken.notIssued {r : Route} {wallet staked : ℤ} (t : Taken source r s s')
    (hstatus : r.destinationStatus = .notIssuing) (hreason : r.reason ≠ exchangeRouteReason)
    (h : Kept s wallet staked) (hpart : 0 ≤ t.part.1 ∧ t.part.1 ≤ s.wallet) :
    Kept s' (wallet - t.part.1) (staked - t.part.2) := by
  obtain ⟨shares, hsplit, -⟩ := split_of_proRata t.split_ok h.positions_nonneg
  have htreatment : t.treatment = .notIssued :=
    Except.ok.inj (t.treatment_ok.symm.trans (routeTreatment_notIssuing hstatus hreason))
  have hissued : (r.delivery (routeStage source r.reason) t.treatment).issued = false := by
    rw [htreatment]
    rfl
  have hwallet := h.wallet
  have hstaked := h.staked
  have hleft := hsplit.left_sum
  refine ⟨?_, ?_, ?_, ?_⟩
  · rw [t.wallet]
    omega
  · rw [t.positions]
    exact hsplit.left_nonneg
  · rw [t.wallet, t.walletRows, issuedWallet_append, issuedWallet_walletRows, hissued]
    simp only [Bool.false_eq_true, if_false]
    omega
  · rw [t.positions, t.shareRows, issuedStaked_append, issuedStaked_shareRows, hissued]
    simp only [Bool.false_eq_true, if_false]
    omega

/-- A deduction within what is left is taken from the wallet, then from the vaults. -/
theorem routeStep_deduction (source : Source) {r : Route} {amount wallet staked : ℤ} (hr : Deduction r amount)
    (h : Kept s wallet staked) (hle : amount ≤ s.total) :
    ∃ s', routeStep source r s = .ok s' ∧ s'.wallet = max (s.wallet - amount) 0 ∧ s'.total = s.total - amount ∧
      Kept s' (wallet - min s.wallet amount) (staked - (amount - min s.wallet amount)) := by
  have hw := h.wallet_nonneg
  have hpos := hr.pos
  have hvault : amount - min s.wallet amount ≤ vaultRemaining s.positions := by
    have := vaultRemaining_nonneg h.positions_nonneg
    rw [Remaining.total] at hle
    omega
  obtain ⟨split, hsplit⟩ := exists_proRata h.positions_nonneg (by omega) hvault
  have hok : ∃ s', routeStep source r s = .ok s' := by
    refine ⟨⟨s.wallet - min s.wallet amount, split.1, s.walletRows ++ walletRows source (min s.wallet amount)
      (r.delivery (routeStage source r.reason) .notIssued), s.shareRows ++ shareRows split.2
        (r.delivery (routeStage source r.reason) .notIssued)⟩, ?_⟩
    unfold routeStep
    rw [routeTreatment_notIssuing hr.status hr.reason, bind_ok_left, routeAmount, hr.exact, bind_ok_left,
      require_bind_ok, require_bind_ok, hr.method, components_walletFirst, bind_ok_left, hsplit]
    exact ⟨hle, hpos.ne', rfl⟩
  obtain ⟨s', hs'⟩ := hok
  obtain ⟨t⟩ := taken_of_routeStep hs'
  have hamount : t.amount = amount := by
    have := t.amount_ok
    rw [routeAmount, hr.exact] at this
    exact (Except.ok.inj this).symm
  have hpart : t.part = (min s.wallet amount, amount - min s.wallet amount) := by
    have := t.part_ok
    rw [hr.method, hamount, components_walletFirst] at this
    exact (Except.ok.inj this).symm
  have hkept := t.notIssued hr.status hr.reason h (by rw [hpart]; dsimp only; omega)
  rw [hpart] at hkept
  obtain ⟨shares, hsplit', -⟩ := split_of_proRata t.split_ok h.positions_nonneg
  have hleft := hsplit'.left_sum
  have hwallet := t.wallet
  have hpositions := t.positions
  rw [hpart] at hwallet hleft
  dsimp only at hwallet hleft
  refine ⟨s', hs', by omega, ?_, hkept⟩
  rw [Remaining.total, Remaining.total, hpositions, hwallet]
  omega

/-- Deductions in any number take their sum, wallet first. -/
theorem compileRoutes_deductions (source : Source) {ded : List Route} {amounts : List ℤ} {wallet staked : ℤ}
    (hded : List.Forall₂ Deduction ded amounts) (h : Kept s wallet staked) (hle : amounts.sum ≤ s.total) :
    ∃ s', compileRoutes source ded s = .ok s' ∧ s'.wallet = max (s.wallet - amounts.sum) 0 ∧
      s'.total = s.total - amounts.sum ∧
      Kept s' (wallet - (s.wallet - s'.wallet)) (staked - (vaultRemaining s.positions - vaultRemaining s'.positions)) := by
  induction hded generalizing s wallet staked with
  | nil =>
    refine ⟨s, rfl, ?_, by simp, by simpa using h⟩
    have := h.wallet_nonneg
    simp [this]
  | @cons r amount ded amounts hr htail ih =>
    have hrest : 0 ≤ amounts.sum := by
      refine List.sum_nonneg fun a ha => ?_
      obtain ⟨r', -, hr'⟩ := ok_of_mem_right htail ha
      exact hr'.pos.le
    rw [List.sum_cons] at hle ⊢
    have hpos := hr.pos
    obtain ⟨s1, hstep, hw1, ht1, hk1⟩ := routeStep_deduction source hr h (by omega)
    obtain ⟨s', hrun, hw', ht', hk'⟩ := ih hk1 (by omega)
    refine ⟨s', ?_, by omega, by omega, ?_⟩
    · rw [compileRoutes, hstep]
      exact hrun
    · have hw := h.wallet_nonneg
      rw [Remaining.total, Remaining.total] at ht1
      convert hk' using 1 <;> omega

/-! ### Routes that issue -/

/-- The statuses of an issue, a hold and an exchange delivery. -/
def Issuing (r : Route) : Prop :=
  r.destinationStatus = .ready ∨ r.destinationStatus = .hold ∨ r.destinationStatus = .exchangeManual

theorem issued_of_issuing {r : Route} {t : Treatment} (hr : Issuing r)
    (h : routeTreatment r.reason r.destinationStatus = .ok t) : t = .issue ∨ t = .manualFromReserve := by
  unfold routeTreatment at h
  split_ifs at h with hreason
  · obtain ⟨u, -, rfl⟩ := of_map_ok h
    exact Or.inr rfl
  · rcases hr with hs | hs | hs
    · rw [hs] at h
      exact Or.inl (Except.ok.inj h).symm
    · rw [hs] at h
      exact Or.inl (Except.ok.inj h).symm
    · rw [hs] at h
      cases h

/-- What is left and what is issued, together, do not change under a row that issues. -/
structure Issued (s : Remaining) (wallet staked : ℤ) : Prop where
  positions_nonneg : ∀ p ∈ s.positions, 0 ≤ p.remaining
  wallet : s.wallet + issuedWallet s.walletRows = wallet
  staked : vaultRemaining s.positions + issuedStaked s.shareRows = staked

theorem Taken.issued {r : Route} {wallet staked : ℤ} (t : Taken source r s s') (hr : Issuing r)
    (h : Issued s wallet staked) : Issued s' wallet staked := by
  obtain ⟨shares, hsplit, -⟩ := split_of_proRata t.split_ok h.positions_nonneg
  have hissued : (r.delivery (routeStage source r.reason) t.treatment).issued = true := by
    rcases issued_of_issuing hr t.treatment_ok with ht | ht <;> rw [ht] <;> rfl
  have hwallet := h.wallet
  have hstaked := h.staked
  have hleft := hsplit.left_sum
  refine ⟨?_, ?_, ?_⟩
  · rw [t.positions]
    exact hsplit.left_nonneg
  · rw [t.wallet, t.walletRows, issuedWallet_append, issuedWallet_walletRows, if_pos hissued]
    omega
  · rw [t.positions, t.shareRows, issuedStaked_append, issuedStaked_shareRows, if_pos hissued, hsplit.result_sum]
    omega

theorem compileRoutes_issued {rest : List Route} {wallet staked : ℤ} (h : compileRoutes source rest s = .ok s')
    (hrest : ∀ r ∈ rest, Issuing r) (hs : Issued s wallet staked) : Issued s' wallet staked := by
  induction rest generalizing s with
  | nil =>
    obtain rfl : s = s' := by simpa [compileRoutes] using h
    exact hs
  | cons r rest ih =>
    obtain ⟨s1, hstep, h⟩ := of_bind_ok h
    obtain ⟨t⟩ := taken_of_routeStep hstep
    exact ih h (fun r' hr' => hrest r' (by simp [hr'])) (t.issued (hrest r (by simp)) hs)

/-- The default delivery always goes through, and issues what is left. -/
theorem compileDefault_issued {wallet staked : ℤ} (path : String) (h : Issued s wallet staked) :
    ∃ s', compileDefault path source s = .ok s' ∧ issuedWallet s'.walletRows = wallet ∧
      issuedStaked s'.shareRows = staked := by
  obtain ⟨split, hok⟩ := exists_proRata h.positions_nonneg (vaultRemaining_nonneg h.positions_nonneg) le_rfl
  obtain ⟨shares, hsplit, -⟩ := split_of_proRata hok h.positions_nonneg
  refine ⟨_, by rw [compileDefault, hok]; rfl, ?_, ?_⟩
  · have hissued : (defaultDelivery path source).issued = true := rfl
    have := h.wallet
    dsimp only
    rw [issuedWallet_append, issuedWallet_walletRows, if_pos hissued]
    omega
  · have hissued : (defaultDelivery path source).issued = true := rfl
    have := h.staked
    dsimp only
    rw [issuedStaked_append, issuedStaked_shareRows, if_pos hissued, hsplit.result_sum]
    omega

/-! ### Against the stage policy -/

theorem splitFinalComponents_deduction {wallet staked deduction : ℤ} (hw : 0 ≤ wallet) (hs : 0 ≤ staked)
    (hd : 0 ≤ deduction) (hle : deduction ≤ wallet + staked) :
    splitFinalComponents wallet staked (wallet + staked - deduction) =
      .ok (max (wallet - deduction) 0, wallet + staked - deduction - max (wallet - deduction) 0) := by
  unfold splitFinalComponents
  rw [if_neg (by omega)]
  have hdeduction : wallet + staked - (wallet + staked - deduction) = deduction := by ring
  dsimp only
  rw [hdeduction, if_neg (by omega)]

/-- The deductions of a source go through; with what follows them, it is issued what the policy's
split leaves. -/
theorem compileSource_deductions (path : String) {ded rest : List Route} {amounts : List ℤ}
    {positions : List Position} (hw : 0 ≤ source.wallet) (hp : ∀ p ∈ positions, 0 ≤ p.remaining)
    (hstaked : vaultRemaining positions = source.staked) (hded : List.Forall₂ Deduction ded amounts)
    (hle : amounts.sum ≤ source.wallet + source.staked) (hrest : ∀ r ∈ rest, Issuing r) :
    ∃ s1, compileRoutes source ded ⟨source.wallet, positions, [], []⟩ = .ok s1 ∧
      ∀ s2, compileRoutes source rest s1 = .ok s2 →
        ∃ rows, compileSource path source (ded ++ rest) positions = .ok rows ∧
          splitFinalComponents source.wallet source.staked (source.wallet + source.staked - amounts.sum) =
            .ok (issuedWallet rows.1, issuedStaked rows.2) := by
  have hstart : Kept ⟨source.wallet, positions, [], []⟩ source.wallet source.staked :=
    ⟨hw, hp, by simp [issuedWallet], by simp [issuedStaked, hstaked]⟩
  have htotal : (⟨source.wallet, positions, [], []⟩ : Remaining).total = source.wallet + source.staked := by
    rw [Remaining.total, hstaked]
  obtain ⟨s1, hrun, hw1, ht1, hk1⟩ := compileRoutes_deductions source hded hstart (by rw [htotal]; exact hle)
  refine ⟨s1, hrun, fun s2 hs2 => ?_⟩
  have hissued := compileRoutes_issued hs2 hrest ⟨hk1.positions_nonneg, hk1.wallet, hk1.staked⟩
  obtain ⟨s3, hdefault, hfw, hfs⟩ := compileDefault_issued path hissued
  refine ⟨(s3.walletRows, s3.shareRows), ?_, ?_⟩
  · rw [compileSource, compileRoutes_append, hrun, bind_ok_left, hs2, bind_ok_left, hdefault]
    rfl
  · have hd : 0 ≤ amounts.sum := by
      refine List.sum_nonneg fun a ha => ?_
      obtain ⟨r', -, hr'⟩ := ok_of_mem_right hded ha
      exact hr'.pos.le
    rw [Remaining.total, htotal] at ht1
    rw [splitFinalComponents_deduction hw (hstaked ▸ vaultRemaining_nonneg hp) hd hle, hfw, hfs]
    refine congrArg Except.ok (Prod.ext_iff.mpr ⟨?_, ?_⟩)
    · dsimp only at hw1 ⊢
      omega
    · dsimp only at hw1 ⊢
      rw [hstaked]
      omega

/-- A route that takes all that is left leaves nothing to issue. -/
theorem compileSource_allNotIssued {path : String} {ded rest : List Route} {all : Route} {amounts : List ℤ}
    {positions : List Position} {rows : List WalletRow × List CompiledShare} (hw : 0 ≤ source.wallet)
    (hp : ∀ p ∈ positions, 0 ≤ p.remaining) (hstaked : vaultRemaining positions = source.staked)
    (hded : List.Forall₂ Deduction ded amounts) (hle : amounts.sum ≤ source.wallet + source.staked)
    (hamount : all.amount = .all) (hmethod : all.method = .walletFirstProRataVault)
    (hstatus : all.destinationStatus = .notIssuing) (hreason : all.reason ≠ exchangeRouteReason)
    (hrest : ∀ r ∈ rest, Issuing r) (h : compileSource path source (ded ++ all :: rest) positions = .ok rows) :
    issuedWallet rows.1 = 0 ∧ issuedStaked rows.2 = 0 := by
  have hstart : Kept ⟨source.wallet, positions, [], []⟩ source.wallet source.staked :=
    ⟨hw, hp, by simp [issuedWallet], by simp [issuedStaked, hstaked]⟩
  have htotal : (⟨source.wallet, positions, [], []⟩ : Remaining).total = source.wallet + source.staked := by
    rw [Remaining.total, hstaked]
  obtain ⟨s1, hrun, hw1, ht1, hk1⟩ := compileRoutes_deductions source hded hstart (by rw [htotal]; exact hle)
  obtain ⟨s2, hroutes, h⟩ := of_bind_ok h
  obtain ⟨s3, hdefault, rfl⟩ := of_map_ok h
  rw [compileRoutes_append, hrun, bind_ok_left] at hroutes
  obtain ⟨s1', hstep, hroutes⟩ := of_bind_ok hroutes
  obtain ⟨t⟩ := taken_of_routeStep hstep
  have hall : t.amount = s1.total := by
    have := t.amount_ok
    rw [routeAmount, hamount] at this
    exact (Except.ok.inj this).symm
  have hpart : t.part = (min s1.wallet t.amount, t.amount - min s1.wallet t.amount) := by
    have := t.part_ok
    rw [hmethod, components_walletFirst] at this
    exact (Except.ok.inj this).symm
  have hwallet1 := hk1.wallet_nonneg
  have hvault1 := vaultRemaining_nonneg hk1.positions_nonneg
  rw [hall, Remaining.total] at hpart
  have hkept := t.notIssued hstatus hreason hk1 (by rw [hpart]; dsimp only; omega)
  have hissued := compileRoutes_issued hroutes hrest ⟨hkept.positions_nonneg, hkept.wallet, hkept.staked⟩
  obtain ⟨s4, hdefault', hfw, hfs⟩ := compileDefault_issued path hissued
  obtain rfl : s3 = s4 := Except.ok.inj (hdefault.symm.trans hdefault')
  dsimp only at hw1 ht1 hfw hfs ⊢
  rw [hpart] at hfw hfs
  dsimp only at hfw hfs
  rw [hfw, hfs, hstaked]
  omega

/-! ### In the whole run -/

namespace CompileRun

theorem compiledWallet_eq (r : CompileRun K i l c) {x : Source} (h : x ∈ l.sources.values)
    {rows : List WalletRow × List CompiledShare} (hbody : body i l x = .ok rows) :
    compiledWallet c x.address = issuedWallet rows.1 := by
  have hperm := r.filter_walletRows h hbody (P := fun row => row.sourceAddress = x.address ∧ row.delivery.issued)
    fun s' hs' rows' hbody' hne => List.filter_eq_nil_iff.mpr fun row hrow => by
      rw [((r.sourceRows hbody').walletRow row hrow).2.1]
      simp [hne]
  rw [compiledWallet, (hperm.map WalletRow.amount).sum_eq, issuedWallet]
  refine congrArg (fun rows => (List.map WalletRow.amount rows).sum) (List.filter_congr fun row hrow => ?_)
  rw [((r.sourceRows hbody).walletRow row hrow).2.1]
  simp

theorem compiledStaked_eq (r : CompileRun K i l c) {x : Source} (h : x ∈ l.sources.values)
    {rows : List WalletRow × List CompiledShare} (hbody : body i l x = .ok rows) :
    compiledStaked c x.address = issuedStaked rows.2 := by
  have hperm := r.filter_shareRows h hbody (P := fun row => row.delegatorAddress = x.address ∧ row.delivery.issued)
    fun s' hs' rows' hbody' hne => List.filter_eq_nil_iff.mpr fun row hrow => by
      rw [(r.delegator_of_cutFrom ((r.sourceRows hbody').shareRow row hrow).2).1]
      simp [hne]
  rw [compiledStaked, (hperm.map CompiledShare.amount).sum_eq, issuedStaked]
  refine congrArg (fun rows => (List.map CompiledShare.amount rows).sum) (List.filter_congr fun row hrow => ?_)
  rw [(r.delegator_of_cutFrom ((r.sourceRows hbody).shareRow row hrow).2).1]
  simp

end CompileRun

/-- The routing loop and the stage policy agree on every deduction: the deductions always go through;
with issuing routes behind them the run issues the policy's split, so that its check on the source
holds; with a route that issues nothing of the rest it issues nothing. -/
theorem deductions_agree (h : load K i = .ok l) {x : Source} (hx : x ∈ l.sources.values) {ded rest : List Route}
    {amounts : List ℤ} (hroutes : routesOf l.routes x.address = ded ++ rest)
    (hded : List.Forall₂ Deduction ded amounts) (hle : amounts.sum ≤ x.wallet + x.staked) :
    (∃ s1, compileRoutes x ded ⟨x.wallet, positionsOf l.positions x.address, [], []⟩ = .ok s1 ∧
      ((∀ r ∈ rest, Issuing r) → ∀ s2, compileRoutes x rest s1 = .ok s2 →
        (∃ rows, compileSource i.validatorPath x (routesOf l.routes x.address) (positionsOf l.positions x.address) =
          .ok rows) ∧
        ∀ rows, compileAll i.validatorPath l = .ok rows →
          splitFinalComponents x.wallet x.staked (x.wallet + x.staked - amounts.sum) =
            .ok (compiledWallet (sortRows rows) x.address, compiledStaked (sortRows rows) x.address) ∧
          ∀ e : StageEntry, e.allocation = x.wallet + x.staked - amounts.sum →
            splitFinalComponents x.wallet x.staked e.allocation = .ok (e.wallet, e.staked) →
              compiledWallet (sortRows rows) x.address + compiledStaked (sortRows rows) x.address = e.allocation ∧
                compiledWallet (sortRows rows) x.address = e.wallet ∧
                compiledStaked (sortRows rows) x.address = e.staked)) ∧
    ∀ all rest', rest = all :: rest' → all.amount = .all → all.method = .walletFirstProRataVault →
      all.destinationStatus = .notIssuing → all.reason = "reviewed_contract_allocation_not_issued" →
      (∀ r ∈ rest', Issuing r) → ∀ rows, compileAll i.validatorPath l = .ok rows →
        compiledWallet (sortRows rows) x.address = 0 ∧ compiledStaked (sortRows rows) x.address = 0 := by
  obtain ⟨load⟩ := loadRun_of_load h
  obtain ⟨c, hc, hrow⟩ := load.source_row (load.mem_values hx)
  have hx0 := (readClaim_ok hrow.2).2.2.2.2.2.2.2
  have hw : 0 ≤ x.wallet := hx0.1.trans hx0.2.1
  have hp : ∀ p ∈ positionsOf l.positions x.address, 0 ≤ p.remaining := fun p hp =>
    (load.position_ok ((LoadRun.mem_positionsOf _ _ _).mp hp).1).2.2.1.le
  have hstaked := load.staked_ok x hx
  refine ⟨?_, ?_⟩
  · by_cases hrest : ∀ r ∈ rest, Issuing r
    · obtain ⟨s1, hs1, hall⟩ := compileSource_deductions i.validatorPath hw hp hstaked hded hle hrest
      refine ⟨s1, hs1, fun _ s2 hs2 => ?_⟩
      obtain ⟨out, hout, hsplit⟩ := hall s2 hs2
      rw [← hroutes] at hout
      refine ⟨⟨out, hout⟩, fun rows hrows => ?_⟩
      have run : CompileRun K i l (sortRows rows) := ⟨load, rows, hrows, rfl⟩
      rw [run.compiledWallet_eq hx hout, run.compiledStaked_eq hx hout]
      refine ⟨hsplit, fun e heq he => ?_⟩
      rw [heq] at he ⊢
      have hpair := Except.ok.inj (hsplit.symm.trans he)
      obtain ⟨h1, h2⟩ := Prod.mk.inj hpair
      have hsum := (splitFinalComponents_ok hsplit).2.2.2.2.2.1
      exact ⟨by omega, h1, h2⟩
    · have hstart : Kept ⟨x.wallet, positionsOf l.positions x.address, [], []⟩ x.wallet x.staked :=
        ⟨hw, hp, by simp [issuedWallet], by simp [issuedStaked, hstaked]⟩
      obtain ⟨s1, hs1, -⟩ := compileRoutes_deductions x hded hstart (by
        rw [Remaining.total, hstaked]
        exact hle)
      exact ⟨s1, hs1, fun hr => absurd hr hrest⟩
  · rintro all rest' rfl hamount hmethod hstatus hreason hrest rows hrows
    have run : CompileRun K i l (sortRows rows) := ⟨load, rows, hrows, rfl⟩
    obtain ⟨out, hout⟩ := run.body_ok hx
    rw [run.compiledWallet_eq hx hout, run.compiledStaked_eq hx hout]
    rw [CompileRun.body, hroutes] at hout
    exact compileSource_allNotIssued hw hp hstaked hded hle hamount hmethod hstatus
      (by rw [hreason]; decide) hrest hout

theorem deductions_agree_partial :
    ∃ l x ded, load addressKeys partialNonIssuance = .ok l ∧ x ∈ l.sources.values ∧
      ∃ s1, compileRoutes x ded ⟨x.wallet, positionsOf l.positions x.address, [], []⟩ = .ok s1 := by
  let part : Route := ⟨"part", 100, 0x10#160, "not-issuing", none, .notIssuing, .exact 120, .walletFirstProRataVault,
    "", "", none⟩
  let rest : Route := ⟨"rest", 200, 0x10#160, "elsewhere", some 0x20#160, .ready, .all, .walletFirstProRataVault,
    "", "", none⟩
  have hrun : ((load addressKeys partialNonIssuance).toOption.map fun l =>
      (l.sources.values.map fun x => (x.address, x.wallet, x.staked), routesOf l.routes 0x10#160)) =
        some ([(0x10#160, 100, 50)], [part] ++ [rest]) := by decide +kernel
  obtain ⟨l, hload, heval⟩ := Except.exists_ok_of_map hrun
  obtain ⟨hvalues, hroutes⟩ := Prod.mk.inj heval
  obtain ⟨x, hx, hfields⟩ := List.mem_map.mp (hvalues ▸ List.mem_singleton_self _ :
    (0x10#160, 100, 50) ∈ l.sources.values.map fun x => (x.address, x.wallet, x.staked))
  simp only [Prod.mk.injEq] at hfields
  obtain ⟨haddress, hwallet, hstaked⟩ := hfields
  have hded : List.Forall₂ Deduction [part] [120] := .cons ⟨rfl, rfl, by decide, rfl, by decide⟩ .nil
  refine ⟨l, x, [part], hload, hx, ?_⟩
  obtain ⟨⟨s1, hs1, -⟩, -⟩ := deductions_agree hload hx (haddress ▸ hroutes) hded (by rw [hwallet, hstaked]; decide)
  exact ⟨s1, hs1⟩

end HarmonyMigration.Routing
