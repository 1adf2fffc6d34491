import HarmonyMigration.Routing.Deductions
import HarmonyMigration.Routing.Exceptions

/-! A claim as two amounts, one in the wallet and one in the vaults: what each of its routes draws from them,
and what is left to the default delivery. The rows of a run are the rows of these draws. -/

namespace HarmonyMigration.Routing

open Erc20 Except Claims

variable {K : Keys} {i : Input} {l : Loaded} {c : Compiled} {source : Source} {route : Route} {s s' s'' : Remaining}

/-! ### Draws -/

structure Draw where
  delivery : Delivery
  wallet : ℤ
  staked : ℤ

/-- The treatment of a route whose reason and status agree. -/
def Route.treatment (r : Route) : Treatment :=
  if r.reason = exchangeRouteReason then .manualFromReserve
  else match r.destinationStatus with
    | .notIssuing => .notIssued
    | .redistributed => .redistributed
    | .ready | .hold | .exchangeManual => .issue

/-- What a route asks of a claim that has so much left. -/
def Route.drawn (r : Route) (s : Source) (wallet staked : ℤ) : ℤ :=
  match r.amount with
  | .exact n => n
  | .all => wallet + staked
  | .shard0Liquid => s.liquidShard0.getD 0

def Route.parts (r : Route) (s : Source) (wallet staked : ℤ) : ℤ × ℤ :=
  let amount := r.drawn s wallet staked
  match r.method with
  | .walletFirstProRataVault => (min wallet amount, amount - min wallet amount)
  | .walletOnly => (amount, 0)
  | .vaultOnlyProRata => (0, amount)

/-- The draws of the routes in their order, and last that of the default delivery. -/
def draws (path : String) (s : Source) : List Route → ℤ → ℤ → List Draw
  | [], wallet, staked => [⟨defaultDelivery path s, wallet, staked⟩]
  | r :: rest, wallet, staked =>
    let part := r.parts s wallet staked
    ⟨r.delivery (routeStage s r.reason) r.treatment, part.1, part.2⟩ ::
      draws path s rest (wallet - part.1) (staked - part.2)

/-- The draws on a claim. -/
def Loaded.draws (l : Loaded) (path : String) (s : Source) : List Draw :=
  Routing.draws path s (routesOf l.routes s.address) s.wallet s.staked

section sums
variable (P : Delivery → Prop) [DecidablePred P]

def drawnWallet (ds : List Draw) : ℤ := ((ds.filter fun d => P d.delivery).map Draw.wallet).sum

def drawnStaked (ds : List Draw) : ℤ := ((ds.filter fun d => P d.delivery).map Draw.staked).sum

def rowsWallet (rows : List WalletRow) : ℤ := ((rows.filter fun r => P r.delivery).map WalletRow.amount).sum

def rowsStaked (rows : List CompiledShare) : ℤ :=
  ((rows.filter fun r => P r.delivery).map CompiledShare.amount).sum

theorem drawnWallet_append (ds ds' : List Draw) : drawnWallet P (ds ++ ds') = drawnWallet P ds + drawnWallet P ds' := by
  simp [drawnWallet]

theorem drawnStaked_append (ds ds' : List Draw) : drawnStaked P (ds ++ ds') = drawnStaked P ds + drawnStaked P ds' := by
  simp [drawnStaked]

theorem rowsWallet_append (rows rows' : List WalletRow) :
    rowsWallet P (rows ++ rows') = rowsWallet P rows + rowsWallet P rows' := by
  simp [rowsWallet]

theorem rowsStaked_append (rows rows' : List CompiledShare) :
    rowsStaked P (rows ++ rows') = rowsStaked P rows + rowsStaked P rows' := by
  simp [rowsStaked]

theorem rowsWallet_walletRows (source : Source) (d : Draw) :
    rowsWallet P (walletRows source d.wallet d.delivery) = drawnWallet P [d] := by
  unfold rowsWallet drawnWallet
  by_cases hd : P d.delivery
  · rw [List.filter_eq_self.mpr fun r hr => by rw [walletRows_delivery r hr]; exact decide_eq_true hd, sum_walletRows]
    simp [hd]
  · rw [List.filter_eq_nil_iff.mpr fun r hr => by rw [walletRows_delivery r hr]; simpa using hd]
    simp [hd]

theorem rowsStaked_shareRows (result : List (Position × ℤ)) {d : Draw} (h : (result.map Prod.snd).sum = d.staked) :
    rowsStaked P (shareRows result d.delivery) = drawnStaked P [d] := by
  unfold rowsStaked drawnStaked
  by_cases hd : P d.delivery
  · rw [List.filter_eq_self.mpr fun r hr => by rw [shareRows_delivery r hr]; exact decide_eq_true hd, sum_shareRows, h]
    simp [hd]
  · rw [List.filter_eq_nil_iff.mpr fun r hr => by rw [shareRows_delivery r hr]; simpa using hd]
    simp [hd]

/-- The rows of the draws on a claim, in their sum. -/
theorem rowsWallet_flatMap (source : Source) (ds : List Draw) :
    rowsWallet P (ds.flatMap fun d => walletRows source d.wallet d.delivery) = drawnWallet P ds := by
  induction ds with
  | nil => rfl
  | cons d ds ih =>
    rw [List.flatMap_cons, rowsWallet_append, rowsWallet_walletRows, ih, ← drawnWallet_append, List.singleton_append]

end sums

/-! ### The rows of a claim's draws -/

theorem treatment_of_ok {t : Treatment} (h : routeTreatment route.reason route.destinationStatus = .ok t) : route.treatment = t := by
  unfold routeTreatment at h
  unfold Route.treatment
  split_ifs at h ⊢ with hreason
  · obtain ⟨u, -, rfl⟩ := of_map_ok h
    rfl
  · cases hstatus : route.destinationStatus <;> rw [hstatus] at h <;> first | exact Except.ok.inj h | cases h

theorem Taken.part_eq (t : Taken source route s s') :
    t.part = route.parts source s.wallet (vaultRemaining s.positions) := by
  have hamount : t.amount = route.drawn source s.wallet (vaultRemaining s.positions) := by
    have hok := t.amount_ok
    unfold routeAmount at hok
    unfold Route.drawn
    cases hr : route.amount with
    | exact n =>
      rw [hr] at hok
      exact (Except.ok.inj hok).symm
    | all =>
      rw [hr] at hok
      exact (Except.ok.inj hok).symm
    | shard0Liquid =>
      rw [hr] at hok
      cases hl : source.liquidShard0 with
      | none =>
        rw [hl] at hok
        cases hok
      | some liquid =>
        rw [hl] at hok
        exact (Except.ok.inj hok).symm
  have hpart := t.part_ok
  unfold Route.parts
  rw [← hamount]
  cases hm : route.method with
  | walletFirstProRataVault =>
    rw [hm, components_walletFirst] at hpart
    exact (Except.ok.inj hpart).symm
  | walletOnly =>
    rw [hm] at hpart
    obtain ⟨u, -, heq⟩ := of_map_ok hpart
    exact heq.symm
  | vaultOnlyProRata =>
    rw [hm] at hpart
    exact (Except.ok.inj hpart).symm

/-- From one state of a source to another, the rows of these draws are written. -/
structure Written (source : Source) (s s' : Remaining) (ds : List Draw) : Prop where
  wallet : s'.walletRows = s.walletRows ++ ds.flatMap fun d => walletRows source d.wallet d.delivery
  staked : ∀ (P : Delivery → Prop) [DecidablePred P],
    rowsStaked P s'.shareRows = rowsStaked P s.shareRows + drawnStaked P ds

theorem Written.trans {ds ds' : List Draw} (h : Written source s s' ds) (h' : Written source s' s'' ds') :
    Written source s s'' (ds ++ ds') where
  wallet := by rw [h'.wallet, h.wallet, List.append_assoc, List.flatMap_append]
  staked P _ := by rw [h'.staked, h.staked, add_assoc, drawnStaked_append]

theorem Taken.written {positions : List Position} (t : Taken source route s s') (h : Balanced source positions s) :
    Written source s s' [⟨route.delivery (routeStage source route.reason) route.treatment,
      (route.parts source s.wallet (vaultRemaining s.positions)).1,
      (route.parts source s.wallet (vaultRemaining s.positions)).2⟩] := by
  obtain ⟨shares, hsplit, -⟩ := split_of_proRata t.split_ok h.positions_nonneg
  rw [← t.part_eq, treatment_of_ok t.treatment_ok]
  refine ⟨?_, ?_⟩
  · rw [t.walletRows, List.flatMap_singleton]
  · intro P _
    rw [t.shareRows, rowsStaked_append,
      rowsStaked_shareRows P (d := ⟨_, t.part.1, t.part.2⟩) t.result hsplit.result_sum]

/-- What a route leaves in the vaults. -/
theorem Taken.vaultRemaining_eq {positions : List Position} (t : Taken source route s s')
    (h : Balanced source positions s) : vaultRemaining s'.positions = vaultRemaining s.positions - t.part.2 := by
  obtain ⟨shares, hsplit, -⟩ := split_of_proRata t.split_ok h.positions_nonneg
  have hsum := hsplit.left_sum
  rw [t.positions]
  omega

theorem compileDefault_written {path : String} {positions : List Position} (h : compileDefault path source s = .ok s')
    (hs : Balanced source positions s) :
    Written source s s' [⟨defaultDelivery path source, s.wallet, vaultRemaining s.positions⟩] := by
  obtain ⟨split, hok, rfl⟩ := of_map_ok h
  obtain ⟨shares, hsplit, -⟩ := split_of_proRata hok hs.positions_nonneg
  refine ⟨?_, ?_⟩
  · rw [List.flatMap_singleton]
  · intro P _
    rw [rowsStaked_append,
      rowsStaked_shareRows P (d := ⟨_, s.wallet, vaultRemaining s.positions⟩) split.2 hsplit.result_sum]

/-- A whole run over a source's routes writes the rows of its draws. -/
theorem written_of_compile {path : String} {positions : List Position} {routes : List Route}
    (h : (compileRoutes source routes s).bind (compileDefault path source) = .ok s') (hs : Balanced source positions s) :
    Written source s s' (draws path source routes s.wallet (vaultRemaining s.positions)) := by
  induction routes generalizing s with
  | nil => exact compileDefault_written h hs
  | cons r rest ih =>
    obtain ⟨s2, hroutes, hdefault⟩ := of_bind_ok h
    obtain ⟨s1, hstep, hrest⟩ := of_bind_ok hroutes
    obtain ⟨t⟩ := taken_of_routeStep hstep
    have hfirst := t.written hs
    have hih := ih (s := s1) (by rw [hrest]; exact hdefault) (t.balanced hs)
    rw [t.wallet, t.vaultRemaining_eq hs, t.part_eq] at hih
    exact hfirst.trans hih

/-! ### The rows of a run -/

namespace CompileRun

theorem body_written (r : CompileRun K i l c) {x : Source} (hx : x ∈ l.sources.values)
    {rows : List WalletRow × List CompiledShare} (hbody : body i l x = .ok rows) :
    (rows.1 = (l.draws i.validatorPath x).flatMap fun d => walletRows x d.wallet d.delivery) ∧
      ∀ (P : Delivery → Prop) [DecidablePred P], rowsStaked P rows.2 = drawnStaked P (l.draws i.validatorPath x) := by
  obtain ⟨s1, hroutes, hrows⟩ := of_bind_ok hbody
  obtain ⟨s2, hdefault, rfl⟩ := of_map_ok hrows
  have hcompile : (compileRoutes x (routesOf l.routes x.address) ⟨x.wallet, positionsOf l.positions x.address, [], []⟩).bind
      (compileDefault i.validatorPath x) = .ok s2 := by
    rw [hroutes]
    exact hdefault
  have hwritten := written_of_compile hcompile (balanced_start x (r.positions_nonneg _))
  dsimp only at hwritten
  rw [r.load.staked_ok x hx] at hwritten
  refine ⟨?_, ?_⟩
  · exact hwritten.wallet
  · intro P _
    have hstaked := hwritten.staked P
    rw [show rowsStaked P [] = 0 from rfl, zero_add] at hstaked
    exact hstaked

/-- A wallet row of a run is a draw that is not nothing. -/
theorem draw_of_walletRow (r : CompileRun K i l c) {row : WalletRow} (h : row ∈ c.walletRows) :
    ∃ x ∈ l.sources.values, row.sourceAddress = x.address ∧
      ∃ d ∈ l.draws i.validatorPath x, d.wallet ≠ 0 ∧ row.delivery = d.delivery := by
  obtain ⟨x, hx, rows, hbody, hrow⟩ := r.walletRow_source h
  rw [(r.body_written hx hbody).1] at hrow
  obtain ⟨d, hd, hrow⟩ := List.mem_flatMap.mp hrow
  unfold walletRows at hrow
  split_ifs at hrow with hne
  · cases hrow
  · obtain rfl := List.mem_singleton.mp hrow
    exact ⟨x, hx, rfl, d, hd, hne, rfl⟩

theorem walletRow_of_draw (r : CompileRun K i l c) {x : Source} (hx : x ∈ l.sources.values) {d : Draw}
    (hd : d ∈ l.draws i.validatorPath x) (hne : d.wallet ≠ 0) :
    ∃ row ∈ c.walletRows, row.sourceAddress = x.address ∧ row.delivery = d.delivery := by
  obtain ⟨rows, hrows, hbody⟩ := ok_of_mem_left r.bodies (mem_sortedSources.mpr hx)
  refine ⟨⟨x.key, x.address, x.routingCategory, x.codeBearing, d.wallet, d.delivery⟩, ?_, rfl, rfl⟩
  apply r.walletRows_perm.mem_iff.mpr
  refine List.mem_flatten.mpr ⟨rows.1, List.mem_map_of_mem hrows, ?_⟩
  rw [(r.body_written hx hbody).1]
  refine List.mem_flatMap.mpr ⟨d, hd, ?_⟩
  rw [walletRows, if_neg hne]
  exact List.mem_singleton_self _

/-- A total over the rows is one over the claims. -/
theorem sum_sources (r : CompileRun K i l c) {f : List WalletRow × List CompiledShare → ℤ} {g : Source → ℤ}
    (h : ∀ x ∈ l.sources.values, ∀ rows, body i l x = .ok rows → g x = f rows) :
    (r.rows.map f).sum = (l.sources.values.map g).sum := by
  have hbodies : List.Forall₂ (fun x rows => x ∈ l.sources.values ∧ body i l x = .ok rows) (sortedSources l) r.rows :=
    (List.forall₂_and_left _ _).mpr ⟨fun _ => mem_sortedSources.mp, r.bodies⟩
  have hmap : (sortedSources l).map g = r.rows.map f := map_eq_of_forall₂ hbodies fun x rows hx => h x hx.1 rows hx.2
  rw [← hmap]
  exact ((List.perm_insertionSort (fun a b : Source => a.key ≤ b.key) l.sources.values).map g).sum_eq

theorem rowsWallet_eq (r : CompileRun K i l c) (P : Delivery → Prop) [DecidablePred P] :
    rowsWallet P c.walletRows = (l.sources.values.map fun x => drawnWallet P (l.draws i.validatorPath x)).sum := by
  rw [rowsWallet, ((r.walletRows_perm.filter _).map WalletRow.amount).sum_eq, List.filter_flatten, List.map_flatten,
    List.sum_flatten, List.map_map, List.map_map, List.map_map]
  apply r.sum_sources
  intro x hx rows hbody
  rw [← rowsWallet_flatMap P x, ← (r.body_written hx hbody).1]
  rfl

end CompileRun

end HarmonyMigration.Routing
