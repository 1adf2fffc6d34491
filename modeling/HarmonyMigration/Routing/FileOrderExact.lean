import HarmonyMigration.Routing.Exceptions
import HarmonyMigration.Routing.FileOrder

/-! The order of the rows in the files: it does not matter exactly when the ledger has one reading of
every source that is looked up in it. -/

namespace HarmonyMigration.Routing

open Erc20 Except Claims

variable {K : Keys} {i : Input} {o : Output}

/-! ### Another row first -/

/-- The ledger with the rows of one address in front, a chosen one before the others. -/
def Input.withFirst (i : Input) (r : ClaimRow) : Input :=
  { i with allClaims := r :: ((i.allClaims.filter fun x => x.address = r.address).erase r ++
      i.allClaims.filter fun x => ¬x.address = r.address) }

theorem permuted_withFirst {r : ClaimRow} (h : r ∈ i.allClaims) : Permuted i (i.withFirst r) := by
  have hmem : r ∈ i.allClaims.filter fun x => x.address = r.address := List.mem_filter.mpr ⟨h, by simp⟩
  have hsplit : ((i.allClaims.filter fun x => x.address = r.address) ++
      i.allClaims.filter fun x => ¬x.address = r.address).Perm i.allClaims := by
    have := List.filter_append_perm (fun x : ClaimRow => decide (x.address = r.address)) i.allClaims
    simpa using this
  have hperm : i.allClaims.Perm (i.withFirst r).allClaims :=
    hsplit.symm.trans ((List.perm_cons_erase hmem).append_right _)
  exact ⟨hperm, .refl _, .refl _, .refl _, .refl _, .refl _, .refl _, .refl _, .refl _, .refl _, .refl _, rfl, rfl, rfl,
    rfl⟩

/-- The chosen row is the one that is read. -/
theorem firstWanted_withFirst {r : ClaimRow} {wanted : List Address} (hw : r.address ∈ wanted) :
    firstWanted (i.withFirst r).allClaims wanted = r :: firstWanted
      (i.allClaims.filter fun x => ¬x.address = r.address) (wanted.filter (· ≠ r.address)) := by
  have hskip : ∀ (others rows : List ClaimRow) (w : List Address), (∀ x ∈ others, x.address ∉ w) →
      firstWanted (others ++ rows) w = firstWanted rows w := fun others rows w h => by
    induction others with
    | nil => rfl
    | cons x others ih =>
      rw [List.cons_append, firstWanted, if_neg (h x (by simp))]
      exact ih fun y hy => h y (by simp [hy])
  rw [Input.withFirst, firstWanted, if_pos hw]
  refine congrArg (r :: ·) (hskip _ _ _ fun x hx hm => ?_)
  have haddress := List.mem_filter.mp (List.mem_of_mem_erase hx)
  simp [of_decide_eq_true haddress.2] at hm

theorem forall₂_unique {xs : List (Category × ClaimRow)} {es es' : List (Address × Claim)}
    (h : List.Forall₂ (EntryOf K) xs es) (h' : List.Forall₂ (EntryOf K) xs es') : es = es' := by
  induction h generalizing es' with
  | nil => exact (List.forall₂_nil_left_iff.mp h').symm
  | @cons x e xs es he _ ih =>
    obtain ⟨e', es'', he', htail, rfl⟩ := List.forall₂_cons_left_iff.mp h'
    have hv : e.2 = e'.2 := Except.ok.inj (he.2.symm.trans he'.2)
    rw [Prod.ext (he.1.symm.trans he'.1) hv, ih htail]

/-- What a run with a chosen first row has loaded: the claims of the others do not depend on it. -/
theorem claims_withFirst {r : ClaimRow} {l : Loaded} (run : LoadRun K (i.withFirst r) l)
    (hl : LookedUp i r.address) :
    ∃ e rest, readClaim K .deferred r = .ok e ∧
      run.claims.entries = run.categoryClaims.entries ++ (r.address, e) :: rest ∧
      List.Forall₂ (EntryOf K) ((firstWanted (i.allClaims.filter fun x => ¬x.address = r.address)
        (run.wanted.filter (· ≠ r.address))).map (Prod.mk .deferred)) rest := by
  obtain ⟨es, hes, heq⟩ := (loadRoutedDeferredClaims_iff run.wanted_new).mp run.claims_ok
  have hw : r.address ∈ run.wanted := (run.mem_wanted _).mpr hl
  have hfirst : firstWanted (i.withFirst r).allClaims ((l.routes.map Route.source).dedup.filter
      fun a => a ∉ run.categoryClaims.keys) = _ := firstWanted_withFirst hw
  rw [hfirst, List.map_cons] at hes
  obtain ⟨e, rest, ⟨hk, hv⟩, htail, rfl⟩ := List.forall₂_cons_left_iff.mp hes
  exact ⟨e.2, rest, hv, by rw [heq, show r.address = e.1 from hk], htail⟩

/-! ### Two runs that write the same -/

/-- The source of a chosen first row. -/
theorem source_withFirst {r : ClaimRow} {l : Loaded} {e : Claim} {rest : List (Address × Claim)}
    (run : LoadRun K (i.withFirst r) l) (he : readClaim K .deferred r = .ok e)
    (heq : run.claims.entries = run.categoryClaims.entries ++ (r.address, e) :: rest) :
    ∃ s ∈ l.sources.values, s.toClaim = e ∧ s.address = r.address ∧ s.category ≠ .automatic := by
  have hmem : (r.address, e) ∈ run.claims.entries := by rw [heq]; simp
  have hsource : (r.address, sourceOf (exchangeManualAddresses l.routes) run.validators l.stages e) ∈
      l.sources.entries := by
    rw [run.sources_eq]
    exact List.mem_map_of_mem (f := fun x : Address × Claim =>
      (x.1, sourceOf (exchangeManualAddresses l.routes) run.validators l.stages x.2)) hmem
  obtain ⟨haddress, -, -, -, -, -, hcat, -⟩ := readClaim_ok he
  refine ⟨_, List.mem_map.mpr ⟨_, hsource, rfl⟩, rfl, haddress, ?_⟩
  have hcategory : (sourceOf (exchangeManualAddresses l.routes) run.validators l.stages e).category = .deferred := hcat
  rw [hcategory]
  simp

theorem sum_wone (run : LoadRun K i l) : (l.sources.values.map fun s => s.wone).sum =
    (run.claims.entries.map fun e => e.2.wone).sum := by
  rw [run.sources_eq, Dict.values_mapValues, Dict.values, List.map_map, List.map_map]
  rfl

/-- Runs that write the same have read the same of the chosen rows. -/
theorem sameReading_of_files {r r' : ClaimRow} {o o' : Output} (haddress : r.address = r'.address)
    (hl : LookedUp i r.address) (h : main K (i.withFirst r) = .ok o) (h' : main K (i.withFirst r') = .ok o')
    (hfiles : o.files = o'.files) : SameReading K (UsesLiquid i r.address) r r' := by
  obtain ⟨m⟩ := mainRun_of_main h
  obtain ⟨m'⟩ := mainRun_of_main h'
  have hl' : LookedUp i r'.address := haddress ▸ hl
  -- the files that the two inputs share give the same
  have hcat : m.compile.load.categoryClaims = m'.compile.load.categoryClaims :=
    Except.ok.inj (m.compile.load.categoryClaims_ok.symm.trans m'.compile.load.categoryClaims_ok)
  have hdest : o.loaded.destinations = o'.loaded.destinations :=
    Except.ok.inj (m.compile.load.destinations_ok.symm.trans m'.compile.load.destinations_ok)
  have hroutes : o.loaded.routes = o'.loaded.routes :=
    Except.ok.inj (m.compile.load.routes_ok.symm.trans (hdest ▸ m'.compile.load.routes_ok))
  have hwanted : m.compile.load.wanted = m'.compile.load.wanted := by
    rw [LoadRun.wanted, LoadRun.wanted, hroutes, hcat]
  obtain ⟨e, rest, he, hentries, hrest⟩ := claims_withFirst m.compile.load hl
  obtain ⟨e', rest', he', hentries', hrest'⟩ := claims_withFirst m'.compile.load hl'
  have hrest_eq : rest = rest' := by
    rw [← haddress, ← hwanted] at hrest'
    exact forall₂_unique hrest hrest'
  obtain ⟨s, hs, rfl, hsa, hsc⟩ := source_withFirst m.compile.load he hentries
  obtain ⟨s', hs', rfl, hsa', hsc'⟩ := source_withFirst m'.compile.load he' hentries'
  have hexceptions : routingExceptions o.compiled = routingExceptions o'.compiled := by
    rw [← m.exceptions_eq, ← m'.exceptions_eq]
    exact congrArg Prod.fst hfiles
  have hssa : s.address = s'.address := by rw [hsa, hsa', haddress]
  have hwallet := m.compile.exceptions_wallet hs hsc
  have hstaked := m.compile.exceptions_staked hs hsc
  rw [hexceptions, hssa] at hwallet hstaked
  refine ⟨s.toClaim, s'.toClaim, he, he', ?_, ?_, ?_, ?_, fun hliquid => ?_⟩
  · exact hwallet.symm.trans (m'.compile.exceptions_wallet hs' hsc')
  · -- the totals of the redistribution are the same, and so are the other claims
    have hw := (totalsOk_of_checkTotals m.totals_ok).redistributed
    have hw' := (totalsOk_of_checkTotals m'.totals_ok).redistributed
    rw [m.exceptions_eq, sum_wone m.compile.load, hentries] at hw
    rw [m'.exceptions_eq, ← hexceptions, sum_wone m'.compile.load, hentries', ← hcat, ← hrest_eq, hw] at hw'
    simp only [List.map_append, List.map_cons, List.sum_append, List.sum_cons] at hw'
    omega
  · exact hstaked.symm.trans (m'.compile.exceptions_staked hs' hsc')
  · -- a code-bearing claim stands in the exceptions
    have hrep := m.represented s hs
    have hrep' := m'.represented s' hs'
    rw [m.exceptions_eq] at hrep
    rw [m'.exceptions_eq] at hrep'
    simp only [List.any_eq_true, Bool.and_eq_true, decide_eq_true_iff] at hrep hrep'
    rw [Bool.eq_iff_iff]
    refine ⟨fun hc => ?_, fun hc => ?_⟩
    · obtain ⟨x, hx, hxc, hxa⟩ := hrep hc
      rw [← m'.compile.exception_code hs' (hexceptions ▸ hx) (hxa.trans hssa), hxc]
    · obtain ⟨x, hx, hxc, hxa⟩ := hrep' hc
      rw [← m.compile.exception_code hs (hexceptions ▸ hx) (hxa.trans hssa.symm), hxc]
  · obtain ⟨row, hrow, hsource, hamount⟩ := hliquid
    have huses : usesLiquid o.loaded.routes r.address = true :=
      (m.compile.load.usesLiquid_iff _).mpr ⟨row, hrow, hsource, hamount⟩
    obtain ⟨route, hroute, hp⟩ := List.any_eq_true.mp huses
    obtain ⟨hra, hrm⟩ := of_decide_eq_true hp
    have hmem : route ∈ routesOf o.loaded.routes s.address := List.mem_filter.mpr ⟨hroute, by simp [hra, hsa]⟩
    have hmem' : route ∈ routesOf o'.loaded.routes s'.address := by rw [← hroutes, ← hssa]; exact hmem
    rw [m.compile.liquid_contribution hs hmem hrm, m'.compile.liquid_contribution hs' hmem' hrm,
      ← sum_exceptions_ofRoute, ← sum_exceptions_ofRoute, hexceptions]

/-- The order of the rows does not matter to a run that succeeds exactly when the ledger has one reading
of every routed source that no category file has. -/
theorem order_irrelevant_iff (h : main K i = .ok o) :
    (∀ j, Permuted i j → ∃ o', main K j = .ok o' ∧ o'.files = o.files) ↔ OneReading K i := by
  refine ⟨fun hall r hr r' hr' haddress hl => ?_, fun one j hj => main_perm hj h one⟩
  obtain ⟨o1, h1, hf1⟩ := hall _ (permuted_withFirst hr)
  obtain ⟨o2, h2, hf2⟩ := hall _ (permuted_withFirst hr')
  exact sameReading_of_files haddress hl h1 h2 (hf1.trans hf2.symm)

theorem order_irrelevant_partial :
    ∃ o, main addressKeys partialNonIssuance = .ok o ∧
      ∀ j, Permuted partialNonIssuance j → ∃ o', main addressKeys j = .ok o' ∧ o'.files = o.files := by
  have hrun : (main addressKeys partialNonIssuance).toBool = true := by decide +kernel
  obtain ⟨o, hmain⟩ := Except.exists_ok_of_toBool hrun
  have hone : OneReading addressKeys partialNonIssuance := fun r hr => by simp [partialNonIssuance] at hr
  exact ⟨o, hmain, (order_irrelevant_iff hmain).mpr hone⟩

/-- A ledger that has a routed source twice. -/
def twoReadings (first second : ℤ) : Input :=
  { partialNonIssuance with
    allClaims := [⟨0x30, 0x30#160, first, 0, first, 0, none, emptyCodeHash, ""⟩,
      ⟨0x30, 0x30#160, second, 0, second, 0, none, emptyCodeHash, ""⟩]
    routes := partialNonIssuance.routes ++
      [[⟨"deferred", 100, 0x30#160, "elsewhere", none, none, .all, .walletOnly, "", "", none⟩]] }

/-- The first row decides what is paid. -/
theorem twoReadings_differ :
    ¬∀ K i j o, Permuted i j → main K i = .ok o → ∃ o', main K j = .ok o' ∧ o'.files = o.files := by
  intro hall
  have h5 : (main addressKeys (twoReadings 5 7)).toOption.map (fun o => (o.exceptions.map ExceptionRow.amount).sum) =
      some 155 := by decide +kernel
  have h7 : (main addressKeys (twoReadings 7 5)).toOption.map (fun o => (o.exceptions.map ExceptionRow.amount).sum) =
      some 157 := by decide +kernel
  have hperm : Permuted (twoReadings 5 7) (twoReadings 7 5) :=
    ⟨.swap _ _ _, .refl _, .refl _, .refl _, .refl _, .refl _, .refl _, .refl _, .refl _, .refl _, .refl _, rfl, rfl,
      rfl, rfl⟩
  obtain ⟨o, hmain, hfirst⟩ := Except.exists_ok_of_map h5
  obtain ⟨o', hmain', hfiles⟩ := hall _ _ _ _ hperm hmain
  obtain ⟨o'', hmain'', hsecond⟩ := Except.exists_ok_of_map h7
  obtain rfl : o' = o'' := Except.ok.inj (hmain'.symm.trans hmain'')
  have hexceptions : o'.exceptions = o.exceptions := congrArg Prod.fst hfiles
  rw [hexceptions] at hsecond
  omega

end HarmonyMigration.Routing
