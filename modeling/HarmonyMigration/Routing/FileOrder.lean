import HarmonyMigration.Lib.SortedBy
import HarmonyMigration.Routing.MainRun

/-! The order of the rows in the files: what `apply-routes.py` loads does not depend on it, but for
the ledger rows of a routed source that no category file has. -/

namespace HarmonyMigration.Routing

open Erc20 Except Claims Claims.StagePolicy

variable {K : Keys} {i j : Input} {l : Loaded} {c : Compiled} {o : Output}

/-- The same rows in another order, route and destination rows also in other files. -/
structure Permuted (i j : Input) : Prop where
  allClaims : i.allClaims.Perm j.allClaims
  automaticClaims : i.automaticClaims.Perm j.automaticClaims
  contractClaims : i.contractClaims.Perm j.contractClaims
  excludedClaims : i.excludedClaims.Perm j.excludedClaims
  priorityShares : i.priorityShares.Perm j.priorityShares
  deferredShares : i.deferredShares.Perm j.deferredShares
  baseVaultDeposits : i.baseVaultDeposits.Perm j.baseVaultDeposits
  migrationStages : i.migrationStages.Perm j.migrationStages
  routes : i.routes.flatten.Perm j.routes.flatten
  destinations : i.destinations.flatten.Perm j.destinations.flatten
  governors : i.governors.Perm j.governors
  validatorAccounts : i.validatorAccounts = j.validatorAccounts
  validatorState : i.validatorState = j.validatorState
  validatorPath : i.validatorPath = j.validatorPath
  policyDecisions : i.policyDecisions = j.policyDecisions

/-- A source whose claim is looked up in the ledger. -/
def LookedUp (i : Input) (a : Address) : Prop :=
  a ∈ i.routes.flatten.map RouteRow.source ∧ a ∉ (categoryRows i).map fun x => x.2.address

/-- A source whose liquid column is read. -/
def UsesLiquid (i : Input) (a : Address) : Prop :=
  ∃ r ∈ i.routes.flatten, r.source = a ∧ r.amount = .shard0Liquid

/-- Two ledger rows that the routing cannot tell apart. -/
def SameReading (K : Keys) (liquid : Prop) (r r' : ClaimRow) : Prop :=
  ∃ c c', readClaim K .deferred r = .ok c ∧ readClaim K .deferred r' = .ok c' ∧ c.wallet = c'.wallet ∧
    c.wone = c'.wone ∧ c.staked = c'.staked ∧ c.codeBearing = c'.codeBearing ∧
    (liquid → c.liquidShard0 = c'.liquidShard0)

/-- The ledger says one thing about every source that is looked up in it. -/
def OneReading (K : Keys) (i : Input) : Prop :=
  ∀ r ∈ i.allClaims, ∀ r' ∈ i.allClaims, r.address = r'.address → LookedUp i r.address →
    SameReading K (UsesLiquid i r.address) r r'

/-! ### Claims up to an unread column -/

/-- `SHARD0_LIQUID` is the amount of a route of the source. -/
def usesLiquid (routes : List Route) (a : Address) : Bool :=
  routes.any fun r => r.source = a ∧ r.amount = .shard0Liquid

/-- A claim without the liquid column where no route reads it. -/
def Claim.forget (routes : List Route) (c : Claim) : Claim :=
  if usesLiquid routes c.address then c else { c with liquidShard0 := none }

def Source.forget (routes : List Route) (s : Source) : Source := { s with toClaim := s.toClaim.forget routes }

section Forget
variable {routes : List Route}

@[simp] theorem Claim.forget_fields (routes : List Route) (c : Claim) :
    (c.forget routes).key = c.key ∧ (c.forget routes).address = c.address ∧ (c.forget routes).wallet = c.wallet ∧
      (c.forget routes).wone = c.wone ∧ (c.forget routes).staked = c.staked ∧ (c.forget routes).total = c.total ∧
      (c.forget routes).category = c.category ∧ (c.forget routes).codeBearing = c.codeBearing := by
  unfold Claim.forget
  split_ifs <;> exact ⟨rfl, rfl, rfl, rfl, rfl, rfl, rfl, rfl⟩

theorem forget_sourceOf (exchange validators : List Address) (stages : Dict Address StageEntry) (c : Claim) :
    (sourceOf exchange validators stages c).forget routes = sourceOf exchange validators stages (c.forget routes) := by
  unfold Source.forget sourceOf Claim.forget
  split_ifs <;> rfl

theorem routeStep_forget {s : Source} {r : Route} (st : Remaining)
    (h : r.amount = .shard0Liquid → usesLiquid routes s.address) :
    routeStep (s.forget routes) r st = routeStep s r st := by
  by_cases hu : usesLiquid routes s.address
  · have hs : s.forget routes = s := by rw [Source.forget, Claim.forget, if_pos hu]
    rw [hs]
  · have hs : s.forget routes = { s with liquidShard0 := none } := by rw [Source.forget, Claim.forget, if_neg hu]
    have hamount : ∀ remaining, routeAmount (s.forget routes) r remaining = routeAmount s r remaining := fun remaining => by
      unfold routeAmount
      cases hr : r.amount with
      | all => rfl
      | exact n => rfl
      | shard0Liquid => exact absurd (h hr) hu
    unfold routeStep
    simp only [hamount]
    rw [hs]
    rfl

theorem compileSource_forget {path : String} {s : Source} {rs : List Route} {positions : List Position}
    (h : ∀ r ∈ rs, r.amount = .shard0Liquid → usesLiquid routes s.address) :
    compileSource path (s.forget routes) rs positions = compileSource path s rs positions := by
  have hroutes : ∀ (rs : List Route) st, (∀ r ∈ rs, r.amount = .shard0Liquid → usesLiquid routes s.address) →
      compileRoutes (s.forget routes) rs st = compileRoutes s rs st := fun rs => by
    induction rs with
    | nil => exact fun _ _ => rfl
    | cons r rs ih =>
      intro st hrs
      rw [compileRoutes, compileRoutes, routeStep_forget st (hrs r (by simp))]
      cases routeStep s r st with
      | error e => rfl
      | ok st' => exact ih st' fun r' hr' => hrs r' (by simp [hr'])
  have hwallet : (s.forget routes).wallet = s.wallet := (Claim.forget_fields routes s.toClaim).2.2.1
  have hdefault : ∀ st, compileDefault path (s.forget routes) st = compileDefault path s st := fun st => by
    unfold compileDefault Source.forget Claim.forget
    split_ifs <;> rfl
  unfold compileSource
  rw [hwallet, hroutes rs _ h]
  simp only [hdefault]

theorem sortedSources_forget (l : Loaded) :
    (sortedSources l).map (Source.forget routes) =
      (l.sources.values.map (Source.forget routes)).insertionSort fun a b => a.key ≤ b.key := by
  refine List.map_insertionSort _ _ _ _ fun a _ b _ => ?_
  rw [Source.forget, Source.forget, (Claim.forget_fields routes a.toClaim).1, (Claim.forget_fields routes b.toClaim).1]

end Forget

/-! ### Each file -/

theorem Permuted.categoryRows (h : Permuted i j) : (categoryRows i).Perm (Routing.categoryRows j) :=
  ((h.automaticClaims.map _).append (h.contractClaims.map _)).append (h.excludedClaims.map _)

theorem loadClaims_perm (h : Permuted i j) {d : Dict Address Claim} (hd : loadClaims K i = .ok d) :
    ∃ d', loadClaims K j = .ok d' ∧ d.entries.Perm d'.entries := by
  unfold loadClaims at hd
  obtain ⟨d1, h1, hd⟩ := of_bind_ok hd
  obtain ⟨d2, h2, h3⟩ := of_bind_ok hd
  obtain ⟨e1, he1, hp1⟩ := (reader_loadClaimFile K _).perm h.automaticClaims (List.Perm.refl _) h1
  obtain ⟨e2, he2, hp2⟩ := (reader_loadClaimFile K _).perm h.contractClaims hp1 h2
  obtain ⟨e3, he3, hp3⟩ := (reader_loadClaimFile K _).perm h.excludedClaims hp2 h3
  exact ⟨e3, by rw [loadClaims, he1, bind_ok_left, he2, bind_ok_left, he3], hp3⟩

theorem resolveDestination_perm {d d' : Dict String Destination} (h : d.entries.Perm d'.entries)
    (direct : Option Address) (id : String) (explicit : Option DestinationStatus) :
    resolveDestination direct id explicit d = resolveDestination direct id explicit d' := by
  unfold resolveDestination
  rw [Dict.get?_eq_of_perm h]

theorem loadRoutes_perm {rows rows' : List RouteRow} {d d' : Dict String Destination} {routes : List Route}
    (hrows : rows.Perm rows') (hd : d.entries.Perm d'.entries) (h : loadRoutes rows d = .ok routes) :
    loadRoutes rows' d' = .ok routes := by
  have hread : readRoute d = readRoute d' := funext fun row => by
    unfold readRoute
    rw [resolveDestination_perm hd]
  obtain ⟨hne, hnd, rs, hrs, hall, rfl⟩ := loadRoutes_iff.mp h
  obtain ⟨rs', hrs', hperm⟩ := mapM_perm hrs hrows
  have hids : (rs.map Route.routeId).Nodup := by
    rw [← map_eq_of_forall₂ (forall₂_of_mapM_ok hrs) fun _ _ hr => (readRoute_ok hr).1.symm]
    exact hnd
  refine loadRoutes_iff.mpr ⟨fun row hrow => hne row (hrows.mem_iff.mpr hrow), (hrows.map _).nodup_iff.mp hnd, rs',
    hread ▸ hrs', ((hperm.filter _).map _).nodup_iff.mp hall, ?_⟩
  refine SortedBy.insertionSort_eq_of_perm hperm fun a ha b hb hab => List.inj_on_of_nodup_map hids ha hb ?_
  exact congrArg (fun x => (ofLex x).2) hab

theorem checkContractPolicy_perm (h : Permuted i j) (routes : List Route) :
    checkContractPolicy i routes = checkContractPolicy j routes := by
  have hstate : csvPolicyState i = csvPolicyState j := by
    unfold csvPolicyState
    rw [h.validatorState, h.validatorAccounts]
  unfold checkContractPolicy
  rw [hstate]

namespace LoadRun

theorem routes_columns (r : LoadRun K i l) :
    (l.routes.map fun x => (x.routeId, x.source, x.amount)).Perm
      (i.routes.flatten.map fun x => (x.routeId, x.source, x.amount)) :=
  (loadRoutes_ok r.routes_ok).2.1

theorem mem_routeSources (r : LoadRun K i l) (a : Address) :
    a ∈ l.routes.map Route.source ↔ a ∈ i.routes.flatten.map RouteRow.source := by
  have hperm := r.routes_columns.map fun x => x.2.1
  rw [List.map_map, List.map_map] at hperm
  exact hperm.mem_iff

theorem usesLiquid_iff (r : LoadRun K i l) (a : Address) : usesLiquid l.routes a = true ↔ UsesLiquid i a := by
  have hmem : ∀ x : String × Address × Amount, x ∈ l.routes.map (fun x => (x.routeId, x.source, x.amount)) ↔
      x ∈ i.routes.flatten.map fun x => (x.routeId, x.source, x.amount) := fun _ => r.routes_columns.mem_iff
  simp only [usesLiquid, UsesLiquid, List.any_eq_true, decide_eq_true_iff]
  refine ⟨?_, ?_⟩
  · rintro ⟨x, hx, ha, hamount⟩
    obtain ⟨y, hy, heq⟩ := List.mem_map.mp ((hmem _).mp (List.mem_map_of_mem hx))
    simp only [Prod.mk.injEq] at heq
    exact ⟨y, hy, heq.2.1.trans ha, heq.2.2.trans hamount⟩
  · rintro ⟨x, hx, ha, hamount⟩
    obtain ⟨y, hy, heq⟩ := List.mem_map.mp ((hmem _).mpr (List.mem_map_of_mem hx))
    simp only [Prod.mk.injEq] at heq
    exact ⟨y, hy, heq.2.1.trans ha, heq.2.2.trans hamount⟩

theorem categoryClaims_keys (r : LoadRun K i l) :
    r.categoryClaims.keys = (categoryRows i).map fun x => x.2.address :=
  keys_of_forall₂ (loadClaims_ok r.categoryClaims_ok)

/-- The addresses that `load_routed_deferred_claims` wants. -/
def wanted (r : LoadRun K i l) : List Address :=
  (l.routes.map Route.source).dedup.filter fun a => a ∉ r.categoryClaims.keys

theorem mem_wanted (r : LoadRun K i l) (a : Address) : a ∈ r.wanted ↔ LookedUp i a := by
  rw [wanted, List.mem_filter, List.mem_dedup, r.mem_routeSources, r.categoryClaims_keys, decide_eq_true_iff]
  rfl

end LoadRun

/-- Rows of one reading give claims that only an unread column can tell apart. -/
theorem forget_eq {routes : List Route} {r r' : ClaimRow} {e e' : Claim} {liquid : Prop}
    (hsame : SameReading K liquid r r') (haddress : r.address = r'.address)
    (hliquid : usesLiquid routes r.address = true → liquid) (he : readClaim K .deferred r = .ok e)
    (he' : readClaim K .deferred r' = .ok e') : e.forget routes = e'.forget routes := by
  obtain ⟨c, c', hc, hc', h1, h2, h3, h4, h5⟩ := hsame
  obtain rfl : c = e := Except.ok.inj (hc.symm.trans he)
  obtain rfl : c' = e' := Except.ok.inj (hc'.symm.trans he')
  obtain ⟨ha, hk, -, -, -, -, hcat, -⟩ := readClaim_ok hc
  obtain ⟨ha', hk', -, -, -, -, hcat', -⟩ := readClaim_ok hc'
  have htotal : c.total = c'.total := by rw [← readClaim_total hc, ← readClaim_total hc', h1, h3]
  have haa : c.address = c'.address := by rw [ha, ha', haddress]
  have hkk : c.key = c'.key := by rw [hk, hk', haddress]
  obtain ⟨key, address, wallet, wone, staked, total, liq, category, code⟩ := c
  obtain ⟨key', address', wallet', wone', staked', total', liq', category', code'⟩ := c'
  dsimp only at *
  subst haa hkk h1 h2 h3 h4 htotal hcat hcat'
  unfold Claim.forget
  dsimp only
  split_ifs with hu
  · rw [h5 (hliquid (ha ▸ hu))]
  · rfl

/-- The claims that are looked up, in whatever order the ledger has them. -/
theorem loadRoutedDeferredClaims_perm (h : Permuted i j) (r : LoadRun K i l) (one : OneReading K i)
    {d' : Dict Address Claim} (hd : r.categoryClaims.entries.Perm d'.entries) :
    ∃ claims', loadRoutedDeferredClaims K j.allClaims
        ((l.routes.map Route.source).dedup.filter fun a => a ∉ d'.keys) d' = .ok claims' ∧
      Dict.SameUpTo (Claim.forget l.routes) r.claims claims' := by
  have hkeys : ∀ a, a ∈ r.categoryClaims.keys ↔ a ∈ d'.keys := fun a => (hd.map Prod.fst).mem_iff
  have hwanted : (l.routes.map Route.source).dedup.filter (fun a => a ∉ d'.keys) = r.wanted :=
    List.filter_congr fun a _ => by simp only [hkeys]
  have hnew' : ∀ a ∈ r.wanted, a ∉ d'.keys := fun a ha => fun hm => r.wanted_new a ha ((hkeys a).mpr hm)
  rw [hwanted]
  -- every row that the other order picks is a row of the same reading
  have hread : ∀ row ∈ firstWanted j.allClaims r.wanted, ∃ e, readClaim K .deferred row = .ok e := fun row hrow => by
    obtain ⟨hmem, hw⟩ := mem_firstWanted hrow
    have hmem' := h.allClaims.mem_iff.mpr hmem
    obtain ⟨c, -, hc, -⟩ := one row hmem' row hmem' rfl ((r.mem_wanted _).mp hw)
    exact ⟨c, hc⟩
  obtain ⟨es, hes, heq⟩ := (loadRoutedDeferredClaims_iff r.wanted_new).mp r.claims_ok
  obtain ⟨cs, hcs⟩ := exists_mapM_ok_iff.mpr hread
  have hall := forall₂_of_mapM_ok hcs
  have hes' : List.Forall₂ (EntryOf K) ((firstWanted j.allClaims r.wanted).map (Prod.mk .deferred))
      (cs.map fun e => (e.address, e)) := by
    rw [List.forall₂_map_left_iff, List.forall₂_map_right_iff]
    exact hall.imp fun row e he => ⟨(readClaim_ok he).1.symm, he⟩
  have hfst : ∀ {rows : List ClaimRow} {es : List (Address × Claim)},
      List.Forall₂ (EntryOf K) (rows.map (Prod.mk .deferred)) es → es.map Prod.fst = rows.map ClaimRow.address :=
    fun hes => by rw [keys_of_forall₂ hes, List.map_map]; rfl
  have hnd' : (d'.entries ++ cs.map fun e => (e.address, e)).map Prod.fst |>.Nodup := by
    rw [List.map_append, List.nodup_append, hfst hes']
    refine ⟨d'.nodup, firstWanted_nodup _ _, ?_⟩
    rintro a ha b hb rfl
    obtain ⟨row, hrow, rfl⟩ := List.mem_map.mp hb
    exact hnew' _ (mem_firstWanted hrow).2 ha
  refine ⟨⟨d'.entries ++ cs.map fun e => (e.address, e), hnd'⟩,
    (loadRoutedDeferredClaims_iff hnew').mpr ⟨_, hes', rfl⟩, ?_⟩
  unfold Dict.SameUpTo Dict.mapValues
  dsimp only
  rw [heq, List.map_append, List.map_append]
  refine (hd.map _).append ?_
  -- both lists have distinct keys, and an entry of one is an entry of the other
  have hnodup : ∀ {rows : List ClaimRow} {es : List (Address × Claim)}, (rows.map ClaimRow.address).Nodup →
      List.Forall₂ (EntryOf K) (rows.map (Prod.mk .deferred)) es →
      (es.map fun e => (e.1, e.2.forget l.routes)).Nodup := fun hnd hes => by
    refine List.Nodup.of_map Prod.fst ?_
    rw [List.map_map]
    exact (hfst hes) ▸ hnd
  have hsub : ∀ {rows rows' : List ClaimRow} {es es' : List (Address × Claim)}, (∀ row ∈ rows, row ∈ i.allClaims) →
      (∀ row ∈ rows', row ∈ i.allClaims) →
      List.Forall₂ (EntryOf K) ((firstWanted rows r.wanted).map (Prod.mk .deferred)) es →
      List.Forall₂ (EntryOf K) ((firstWanted rows' r.wanted).map (Prod.mk .deferred)) es' →
      (∀ row ∈ rows, row ∈ rows') →
      ∀ x ∈ es.map fun e => (e.1, e.2.forget l.routes), x ∈ es'.map fun e => (e.1, e.2.forget l.routes) := by
    intro rows rows' es es' hrows hrows' hes hes' hincl x hx
    obtain ⟨e, he, rfl⟩ := List.mem_map.mp hx
    obtain ⟨y, hy, hkey, hval⟩ := ok_of_mem_right hes he
    obtain ⟨row, hrow, rfl⟩ := List.mem_map.mp hy
    obtain ⟨hmem, hw⟩ := mem_firstWanted hrow
    obtain ⟨row', hrow', haddress⟩ := List.mem_map.mp
      (address_mem_firstWanted (List.mem_map_of_mem (hincl row hmem)) hw)
    obtain ⟨e', he', hkey', hval'⟩ := ok_of_mem_left hes' (List.mem_map_of_mem hrow')
    have hlooked := (r.mem_wanted _).mp hw
    have hsame := one row (hrows row hmem) row' (hrows' row' (mem_firstWanted hrow').1) haddress.symm hlooked
    have hforget := forget_eq hsame haddress.symm (fun hu => (r.usesLiquid_iff _).mp hu) hval hval'
    refine List.mem_map.mpr ⟨e', he', ?_⟩
    rw [← hkey, ← hkey', hforget]
    exact congrArg (fun a => (a, e'.2.forget l.routes)) haddress
  have hi : ∀ row ∈ i.allClaims, row ∈ i.allClaims := fun _ hr => hr
  have hj : ∀ row ∈ j.allClaims, row ∈ i.allClaims := fun row hr => h.allClaims.mem_iff.mpr hr
  have hij : ∀ row ∈ i.allClaims, row ∈ j.allClaims := fun row hr => h.allClaims.mem_iff.mp hr
  exact (List.perm_ext_iff_of_nodup (hnodup (firstWanted_nodup _ _) hes) (hnodup (firstWanted_nodup _ _) hes')).mpr
    fun x => ⟨hsub hi hj hes hes' hij x, hsub hj hi hes' hes hj x⟩

/-! ### The load -/

/-- What the two runs load: the same routes, everything else in some order. -/
structure SameLoad (l l' : Loaded) : Prop where
  stages : l.stages.entries.Perm l'.stages.entries
  destinations : l.destinations.entries.Perm l'.destinations.entries
  pending : l.pending = l'.pending
  routes : l.routes = l'.routes
  sources : Dict.SameUpTo (Source.forget l.routes) l.sources l'.sources
  positions : l.positions.Perm l'.positions

section Claims
variable {routes : List Route} {d d' : Dict Address Claim}

theorem loadValidatorAccounts_same (h : Dict.SameUpTo (Claim.forget routes) d d') {rows : List ValidatorRow}
    {validators : List Address} (hok : loadValidatorAccounts rows d = .ok validators) :
    loadValidatorAccounts rows d' = .ok validators := by
  have hfields := Claim.forget_fields routes
  have hautomatic : ∀ a, (d.get? a).any (fun c => c.category = .automatic) =
      (d'.get? a).any fun c => c.category = .automatic := fun a =>
    h.any_eq a (q := fun c => c.category = .automatic) fun c => by rw [(hfields c).2.2.2.2.2.2.1]
  have hcode : ∀ a, (d.get? a).any (fun c => c.codeBearing) = (d'.get? a).any fun c => c.codeBearing := fun a =>
    h.any_eq a (q := fun c => c.codeBearing) fun c => by rw [(hfields c).2.2.2.2.2.2.2]
  unfold loadValidatorAccounts at hok ⊢
  simp only [require_bind_ok, hautomatic, hcode] at hok ⊢
  obtain ⟨hnd, ha, hc, hok⟩ := hok
  obtain ⟨u, hall, rfl⟩ := of_map_ok hok
  refine ⟨hnd, ha, hc, ?_⟩
  have hall' : ∀ c ∈ d'.values, c.category = .automatic → c.codeBearing →
      (rows.map ValidatorRow.address).contains c.address := fun c hm hcat hbearing => by
    obtain ⟨c0, hm0, heq⟩ := h.exists_value hm
    have h0 := hfields c0
    rw [heq] at h0
    have h1 := hfields c
    rw [← h1.2.1, h0.2.1]
    refine of_require_ok hall c0 hm0 ?_ ?_
    · rw [← h0.2.2.2.2.2.2.1, h1.2.2.2.2.2.2.1, hcat]
    · rw [← h0.2.2.2.2.2.2.2, h1.2.2.2.2.2.2.2, hbearing]
  rw [require, if_pos hall']
  rfl

theorem mem_priorityAddresses_same (h : Dict.SameUpTo (Claim.forget routes) d d') (a : Address) :
    a ∈ priorityAddresses d → a ∈ priorityAddresses d' := by
  have hfields := Claim.forget_fields routes
  intro ha
  obtain ⟨c, hc, rfl⟩ := List.mem_map.mp ha
  obtain ⟨hm, hcat⟩ := List.mem_filter.mp hc
  obtain ⟨c', hm', heq⟩ := h.symm.exists_value hm
  have h0 := hfields c'
  rw [heq] at h0
  have h1 := hfields c
  refine List.mem_map.mpr ⟨c', List.mem_filter.mpr ⟨hm', ?_⟩, ?_⟩
  · rwa [← h0.2.2.2.2.2.2.1, h1.2.2.2.2.2.2.1]
  · rw [← h0.2.1, h1.2.1]

end Claims

theorem positionOf_same {routes : List Route} {d d' : Dict Address Source}
    (h : Dict.SameUpTo (Source.forget routes) d d') : positionOf d = positionOf d' := by
  refine funext fun row => ?_
  have hposition : ∀ s : Source, row.position s = row.position (s.forget routes) := fun s => by
    have := (Claim.forget_fields routes s.toClaim).2.2.2.2.2.2.2
    unfold ShareRow.position Source.forget
    dsimp only
    rw [this]
  have hmap : ∀ d : Dict Address Source, positionOf d row =
      ((d.get? row.delegatorAddress).map (Source.forget routes)).map row.position := fun d => by
    rw [positionOf, Option.map_map]
    exact congrArg (fun f => Option.map f _) (funext hposition)
  rw [hmap, hmap, h.get?_eq]

theorem shareOk_same {d d' : Dict Address Source} (h : ∀ a, a ∈ d.keys ↔ a ∈ d'.keys) {required : Bool}
    {row : ShareRow} (hok : ShareOk K d required row) : ShareOk K d' required row :=
  ⟨hok.delegator, fun hr => (h _).mp (hok.known hr), fun hm => hok.validator ((h _).mpr hm),
    fun hm => hok.amount ((h _).mpr hm)⟩

theorem positionsOf_perm {ps ps' : List Position} (h : ps.Perm ps') (hnd : (ps.map Position.pair).Nodup)
    (hkey : ∀ p ∈ ps, p.delegatorKey = K.key p.delegatorAddress) (a : Address) :
    positionsOf ps a = positionsOf ps' a := by
  refine SortedBy.insertionSort_eq_of_perm (h.filter _) fun p hp q hq hpq => ?_
  obtain ⟨hp, hpa⟩ := List.mem_filter.mp hp
  obtain ⟨hq, hqa⟩ := List.mem_filter.mp hq
  refine List.inj_on_of_nodup_map hnd hp hq (Prod.ext hpq ?_)
  rw [Position.pair, Position.pair, hkey p hp, hkey q hq, of_decide_eq_true hpa, of_decide_eq_true hqa]

/-- The second run loads the same. -/
theorem load_perm (h : Permuted i j) (r : LoadRun K i l) (one : OneReading K i) :
    ∃ l', Nonempty (LoadRun K j l') ∧ SameLoad l l' := by
  obtain ⟨cat', hcat', hcat⟩ := loadClaims_perm h r.categoryClaims_ok
  obtain ⟨stages', hstages', hstages⟩ :=
    reader_loadMigrationStages.perm h.migrationStages (List.Perm.refl _) r.stages_ok
  obtain ⟨destinations', hdest', hdest⟩ :=
    reader_loadDestinations.perm h.destinations (List.Perm.refl _) r.destinations_ok
  have hroutes := loadRoutes_perm h.routes hdest r.routes_ok
  obtain ⟨claims', hclaims', hclaims⟩ := loadRoutedDeferredClaims_perm h r one hcat
  have hvalidators := loadValidatorAccounts_same hclaims r.validators_ok
  have hlookup : sourceOf (exchangeManualAddresses l.routes) r.validators l.stages =
      sourceOf (exchangeManualAddresses l.routes) r.validators stages' := funext fun c => by
    unfold sourceOf
    rw [Dict.get?_eq_of_perm hstages]
  -- the sources of the second run, the same up to the column nobody reads
  let sources' := claims'.mapValues (sourceOf (exchangeManualAddresses l.routes) r.validators stages')
  have hsources : Dict.SameUpTo (Source.forget l.routes) l.sources sources' := by
    have hmap : ∀ d : Dict Address Claim, ((d.mapValues (sourceOf (exchangeManualAddresses l.routes) r.validators
        stages')).mapValues (Source.forget l.routes)).entries = ((d.mapValues (Claim.forget l.routes)).entries.map
          fun e => (e.1, sourceOf (exchangeManualAddresses l.routes) r.validators stages' e.2)) := fun d => by
      simp only [Dict.mapValues, List.map_map]
      exact List.map_congr_left fun e _ => congrArg (Prod.mk e.1) (forget_sourceOf _ _ _ e.2)
    unfold Dict.SameUpTo
    rw [r.sources_eq, hlookup, hmap, hmap]
    exact List.Perm.map _ hclaims
  have hkeys := hsources.mem_keys_iff
  obtain ⟨hpositions, hnd, hpriority, hdeferred⟩ := r.positions_eq
  let positions' := (j.priorityShares ++ j.deferredShares).filterMap (positionOf sources')
  have hperm : l.positions.Perm positions' := by
    rw [hpositions, positionOf_same hsources]
    exact (h.priorityShares.append h.deferredShares).filterMap _
  have hnd' : (positions'.map Position.pair).Nodup := (hperm.map Position.pair).nodup_iff.mp hnd
  have happend : positions' = j.priorityShares.filterMap (positionOf sources') ++
      j.deferredShares.filterMap (positionOf sources') := List.filterMap_append
  rw [happend] at hnd'
  have hndp := hnd'.sublist ((List.sublist_append_left _ _).map Position.pair)
  have hpriority' : loadShares K sources' true j.priorityShares [] =
      .ok (j.priorityShares.filterMap (positionOf sources')) :=
    (loadShares_iff (by simp)).mpr
      ⟨fun row hrow => shareOk_same hkeys (hpriority row (h.priorityShares.mem_iff.mpr hrow)), hndp, rfl⟩
  have hdeferred' : loadShares K sources' false j.deferredShares (j.priorityShares.filterMap (positionOf sources')) =
      .ok positions' :=
    (loadShares_iff hndp).mpr
      ⟨fun row hrow => shareOk_same hkeys (hdeferred row (h.deferredShares.mem_iff.mpr hrow)), hnd', happend⟩
  have hstaked : ∀ s ∈ sources'.values, vaultRemaining (positionsOf positions' s.address) = s.staked := fun s hs => by
    obtain ⟨s0, hs0, heq⟩ := hsources.exists_value hs
    have h0 := Claim.forget_fields l.routes s0.toClaim
    rw [show s0.toClaim.forget l.routes = s.toClaim.forget l.routes from congrArg Source.toClaim heq] at h0
    have h1 := Claim.forget_fields l.routes s.toClaim
    rw [← positionsOf_perm hperm hnd fun p hp => (r.position_ok hp).2.1, ← h1.2.1, ← h1.2.2.2.2.1, h0.2.1,
      h0.2.2.2.2.1]
    exact r.staked_ok s0 hs0
  have hstageKeys : ∀ a, a ∈ l.stages.keys ↔ a ∈ stages'.keys := fun a => (hstages.map Prod.fst).mem_iff
  have hwithin := r.stages_claims
  rw [within_iff, within_iff] at hwithin
  have hsc : within stages'.keys (priorityAddresses claims') ∧ within (priorityAddresses claims') stages'.keys := by
    rw [within_iff, within_iff]
    exact ⟨fun a ha => mem_priorityAddresses_same hclaims a (hwithin.1 a ((hstageKeys a).mpr ha)),
      fun a ha => (hstageKeys a).mp (hwithin.2 a (mem_priorityAddresses_same hclaims.symm a ha))⟩
  refine ⟨⟨stages', destinations', l.pending, l.routes, sources', positions'⟩,
    ⟨cat', claims', r.validators, hcat', hstages', hdest', h.policyDecisions ▸ r.pending_ok, hroutes,
      checkContractPolicy_perm h l.routes ▸ r.contract_ok, hclaims', h.validatorAccounts ▸ hvalidators, hsc, rfl,
      ⟨_, hpriority', hdeferred'⟩, hstaked⟩, hstages, hdest, rfl, rfl, hsources, hperm⟩

/-! ### The routing loop -/

theorem LoadRun.keys_nodup (r : LoadRun K i l) : (l.sources.values.map fun s => s.key).Nodup := by
  have hkeys : l.sources.values.map (fun s => s.key) = l.sources.keys.map K.key := by
    rw [← r.values_address, List.map_map]
    refine List.map_congr_left fun s hs => ?_
    obtain ⟨haddress, hkey⟩ := r.source_address (r.mem_values hs)
    exact hkey
  rw [hkeys]
  exact l.sources.nodup.map K.injective

theorem sortedSources_same {l' : Loaded} (r : LoadRun K i l) (h : SameLoad l l') :
    (sortedSources l).map (Source.forget l.routes) = (sortedSources l').map (Source.forget l.routes) := by
  rw [sortedSources_forget, sortedSources_forget]
  refine SortedBy.insertionSort_eq_of_perm h.sources.values_perm fun a ha b hb hab => ?_
  have hnd : ((l.sources.values.map (Source.forget l.routes)).map fun s => s.key).Nodup := by
    rw [List.map_map]
    have hkey : (fun s : Source => s.key) ∘ Source.forget l.routes = fun s => s.key :=
      funext fun s => (Claim.forget_fields l.routes s.toClaim).1
    rw [hkey]
    exact r.keys_nodup
  exact List.inj_on_of_nodup_map hnd ha hb hab

theorem compileAll_same {l' : Loaded} {path : String} (r : LoadRun K i l) (h : SameLoad l l') :
    compileAll path l = compileAll path l' := by
  have hforget : ∀ (m : Loaded) (s : Source), m.routes = l.routes →
      compileSource path (s.forget l.routes) (routesOf m.routes (s.forget l.routes).address)
          (positionsOf m.positions (s.forget l.routes).address) =
        compileSource path s (routesOf m.routes s.address) (positionsOf m.positions s.address) := fun m s hm => by
    have haddress : (s.forget l.routes).address = s.address := (Claim.forget_fields l.routes s.toClaim).2.1
    rw [haddress, compileSource_forget]
    intro route hroute hamount
    obtain ⟨hmem, hsource⟩ := List.mem_filter.mp hroute
    rw [usesLiquid, List.any_eq_true]
    exact ⟨route, hm ▸ hmem, by simpa [hamount] using hsource⟩
  have hmapped : ∀ m : Loaded, m.routes = l.routes → compileAll path m =
      ((sortedSources m).map (Source.forget l.routes)).mapM fun s =>
        compileSource path s (routesOf m.routes s.address) (positionsOf m.positions s.address) := fun m hm => by
    rw [compileAll, List.mapM_map]
    exact mapM_congr fun s _ => (hforget m s hm).symm
  rw [hmapped l rfl, hmapped l' h.routes.symm, sortedSources_same r h]
  refine mapM_congr fun s _ => ?_
  rw [h.routes, positionsOf_perm h.positions r.positions_eq.2.1 fun p hp => (r.position_ok hp).2.1]

/-! ### Governors, unresolved rows and vaults -/

theorem reader_loadGovernors (destinations : Dict String Destination) :
    Dict.Reader GovernorRow.validator
      (fun row => (resolveDestination row.destinationAddress row.destinationId row.status destinations).bind fun d =>
        (require (d.2.2 ≠ .notIssuing ∧ d.2.2 ≠ .redistributed) Error.terminalGovernor).map fun _ =>
          (⟨d.1, d.2.1, d.2.2, .explicitGovernorRoute, row.reason, row.evidence⟩ : Governor))
      (loadGovernors destinations) where
  nil _ := rfl
  cons row rest d d' := by
    rw [loadGovernors, require_bind_ok]
    refine and_congr_right fun _ => ⟨fun h => ?_, ?_⟩
    · obtain ⟨x, hx, h⟩ := of_bind_ok h
      rw [require_bind_ok] at h
      exact ⟨_, by rw [hx, bind_ok_left, require, if_pos h.1]; rfl, h.2⟩
    · rintro ⟨g, hg, h⟩
      obtain ⟨x, hx, hg⟩ := of_bind_ok hg
      obtain ⟨u, hu, rfl⟩ := of_map_ok hg
      rw [hx, bind_ok_left, require_bind_ok]
      exact ⟨of_require_ok hu, h⟩

theorem loadGovernors_perm {d d' : Dict String Destination} {rows rows' : List GovernorRow}
    {overrides : Dict Address Governor} (hd : d.entries.Perm d'.entries) (hrows : rows.Perm rows')
    (h : loadGovernors d rows .empty = .ok overrides) :
    ∃ overrides', loadGovernors d' rows' .empty = .ok overrides' ∧ overrides.entries.Perm overrides'.entries := by
  have hsame : ∀ rows e, loadGovernors d rows e = loadGovernors d' rows e := fun rows => by
    induction rows with
    | nil => exact fun _ => rfl
    | cons row rest ih =>
      intro e
      simp only [loadGovernors, resolveDestination_perm hd, ih]
  rw [hsame] at h
  exact (reader_loadGovernors d').perm hrows (List.Perm.refl _) h

theorem governorOf_perm {overrides overrides' : Dict Address Governor} (h : overrides.entries.Perm overrides'.entries)
    (routes : List Route) (a : Address) : governorOf overrides routes a = governorOf overrides' routes a := by
  unfold governorOf
  rw [Dict.get?_eq_of_perm h]

/-- The vaults of a run: their keys are their addresses', and no address comes twice. -/
theorem loadBaseVaults_iff {rows : List VaultRow} : loadBaseVaults K rows = .ok () ↔
    (∀ row ∈ rows, K.key row.validatorAddress = row.validatorKey) ∧ (rows.map VaultRow.validatorAddress).Nodup := by
  unfold loadBaseVaults
  rw [require_bind_ok]
  refine and_congr_right fun _ => ⟨of_require_ok, fun h => ?_⟩
  rw [require, if_pos h]

theorem vault_eq_of_key {rows : List VaultRow} (h : loadBaseVaults K rows = .ok ()) :
    ∀ v ∈ rows, ∀ w ∈ rows, v.validatorKey = w.validatorKey → v = w := by
  obtain ⟨hkey, hnd⟩ := loadBaseVaults_iff.mp h
  intro v hv w hw heq
  rw [← hkey v hv, ← hkey w hw] at heq
  exact List.inj_on_of_nodup_map hnd hv hw (K.injective heq)

theorem governorExceptions_perm {overrides overrides' : Dict Address Governor} {routes : List Route}
    {vaults vaults' : List VaultRow} (ho : overrides.entries.Perm overrides'.entries) (hv : vaults.Perm vaults')
    (h : loadBaseVaults K vaults = .ok ()) :
    governorExceptions overrides routes vaults = governorExceptions overrides' routes vaults' := by
  unfold governorExceptions
  simp only [governorOf_perm ho]
  refine SortedBy.insertionSort_eq_of_perm ((hv.map _).filter _) fun a ha b hb hab => ?_
  obtain ⟨v, hvm, rfl⟩ := List.mem_map.mp (List.mem_of_mem_filter ha)
  obtain ⟨w, hwm, rfl⟩ := List.mem_map.mp (List.mem_of_mem_filter hb)
  rw [vault_eq_of_key h v hvm w hwm hab]

/-- Governor rows come first, by validator; the others keep their order. -/
theorem unresolvedRows_perm {exceptions : List ExceptionRow} {overrides overrides' : Dict Address Governor}
    {routes : List Route} {vaults vaults' : List VaultRow} (ho : overrides.entries.Perm overrides'.entries)
    (hv : vaults.Perm vaults') (h : loadBaseVaults K vaults = .ok ())
    (hc : ∀ e ∈ exceptions, e.component ≠ .validatorGovernor) :
    unresolvedRows exceptions overrides routes vaults = unresolvedRows exceptions overrides' routes vaults' := by
  unfold unresolvedRows
  simp only [governorOf_perm ho]
  have hlow : ∀ (vaults : List VaultRow), ∀ a ∈ (exceptions.filter fun e => e.delivery.destinationStatus = .hold).map
      ExceptionRow.unresolved, ∀ b ∈ (vaults.filter fun v => (governorOf overrides' routes v.validatorAddress).status =
        .hold).map fun v => v.unresolved (governorOf overrides' routes v.validatorAddress), b.order < a.order := by
    intro vaults a ha b hb
    obtain ⟨e, he, rfl⟩ := List.mem_map.mp ha
    obtain ⟨v, -, rfl⟩ := List.mem_map.mp hb
    have hrank : 0 < e.component.rank := by
      have := hc e (List.mem_of_mem_filter he)
      cases hcomponent : e.component with
      | validatorGovernor => exact absurd hcomponent this
      | vaultShares => exact Nat.one_pos
      | walletAirdrop => exact Nat.two_pos
    exact Prod.Lex.toLex_lt_toLex.mpr (Or.inl hrank)
  rw [SortedBy.insertionSort_append (g := UnresolvedRow.order) (hlow vaults),
    SortedBy.insertionSort_append (g := UnresolvedRow.order) (hlow vaults')]
  congr 1
  refine SortedBy.insertionSort_eq_of_perm ((hv.filter _).map _) fun a ha b hb hab => ?_
  obtain ⟨v, hvm, rfl⟩ := List.mem_map.mp ha
  obtain ⟨w, hwm, rfl⟩ := List.mem_map.mp hb
  have haddress : v.validatorAddress = w.validatorAddress :=
    BitVec.eq_of_toNat_eq (congrArg (fun x => (ofLex (ofLex x).2).1) hab)
  rw [List.inj_on_of_nodup_map (loadBaseVaults_iff.mp h).2 (List.mem_of_mem_filter hvm)
    (List.mem_of_mem_filter hwm) haddress]

theorem vaultStages_perm {rows : List CompiledShare} {vaults vaults' : List VaultRow} (hv : vaults.Perm vaults')
    (h : loadBaseVaults K vaults = .ok ()) : vaultStages rows vaults = vaultStages rows vaults' := by
  unfold vaultStages
  rw [SortedBy.insertionSort_eq_of_perm (g := VaultRow.validatorKey) hv (vault_eq_of_key h)]
  have hmem : (∀ r ∈ rows, (vaults.map VaultRow.validatorAddress).contains r.validatorAddress) ↔
      ∀ r ∈ rows, (vaults'.map VaultRow.validatorAddress).contains r.validatorAddress := by
    refine forall₂_congr fun r _ => ?_
    rw [List.contains_iff_mem, List.contains_iff_mem, (hv.map VaultRow.validatorAddress).mem_iff]
  simp only [require, hmem]

theorem exception_component {c : Compiled} : ∀ e ∈ routingExceptions c, e.component ≠ .validatorGovernor := by
  intro e he
  rcases List.mem_append.mp ((List.mem_insertionSort _).mp he) with hm | hm
  · obtain ⟨r, -, rfl⟩ := List.mem_map.mp hm
    simp [WalletRow.exception]
  · obtain ⟨r, -, rfl⟩ := List.mem_map.mp hm
    simp [CompiledShare.exception]

theorem checkTotals_same {l' : Loaded} {exceptions : List ExceptionRow} {vaults : List VaultStageRow}
    (h : SameLoad l l') : checkTotals l c exceptions vaults = checkTotals l' c exceptions vaults := by
  have hfields := fun s : Source => Claim.forget_fields l.routes s.toClaim
  have hwallet : (l.sources.values.map fun s => s.wallet).sum = (l'.sources.values.map fun s => s.wallet).sum :=
    h.sources.sum_eq (q := fun s => s.wallet) fun s => (hfields s).2.2.1.symm
  have hstaked : (l.sources.values.map fun s => s.staked).sum = (l'.sources.values.map fun s => s.staked).sum :=
    h.sources.sum_eq (q := fun s => s.staked) fun s => (hfields s).2.2.2.2.1.symm
  have hwone : (l.sources.values.map fun s => s.wone).sum = (l'.sources.values.map fun s => s.wone).sum :=
    h.sources.sum_eq (q := fun s => s.wone) fun s => (hfields s).2.2.2.1.symm
  have hany : ∀ a, (l.sources.get? a).any (fun s => 0 < s.wone) = (l'.sources.get? a).any fun s => 0 < s.wone :=
    fun a => h.sources.any_eq a (q := fun s => 0 < s.wone) fun s => by rw [Source.forget, (hfields s).2.2.2.1]
  have hstages : ∀ a, l.stages.get? a = l'.stages.get? a := Dict.get?_eq_of_perm h.stages
  have hall : ∀ P : Address × StageEntry → Prop, (∀ p ∈ l.stages.entries, P p) ↔ ∀ p ∈ l'.stages.entries, P p :=
    fun P => forall_congr' fun p => by rw [h.stages.mem_iff]
  unfold checkTotals checkWoneNonIssuance
  simp only [require, hwallet, hstaked, hwone, hany, hstages, hall]

theorem represented_same {l' : Loaded} {exceptions : List ExceptionRow} (h : SameLoad l l')
    (hok : ∀ s ∈ l.sources.values, s.codeBearing →
      exceptions.any fun e => e.sourceCodeBearing && e.sourceAddress = s.address) :
    ∀ s ∈ l'.sources.values, s.codeBearing →
      exceptions.any fun e => e.sourceCodeBearing && e.sourceAddress = s.address := by
  intro s hs hcode
  obtain ⟨s0, hs0, heq⟩ := h.sources.exists_value hs
  have h0 := Claim.forget_fields l.routes s0.toClaim
  rw [show s0.toClaim.forget l.routes = s.toClaim.forget l.routes from congrArg Source.toClaim heq] at h0
  have h1 := Claim.forget_fields l.routes s.toClaim
  rw [← h1.2.1, h0.2.1]
  refine hok s0 hs0 ?_
  rw [← h0.2.2.2.2.2.2.2, h1.2.2.2.2.2.2.2, hcode]

/-- The files that a run writes. -/
def Output.files (o : Output) :
    List ExceptionRow × List GovernorException × List VaultStageRow × List UnresolvedRow :=
  (o.exceptions, o.governorExceptions, o.vaultStages, o.unresolved)

/-- With one reading of every source, the order of the rows does not matter. -/
theorem main_perm (h : Permuted i j) (hi : main K i = .ok o) (one : OneReading K i) :
    ∃ o', main K j = .ok o' ∧ o'.files = o.files := by
  obtain ⟨r⟩ := mainRun_of_main hi
  obtain ⟨l', ⟨r'⟩, same⟩ := load_perm h r.compile.load one
  have hcompile : compileAll j.validatorPath l' = .ok r.compile.rows := by
    rw [← h.validatorPath, ← compileAll_same r.compile.load same, r.compile.compile_ok]
  obtain ⟨overrides', hoverrides', hover⟩ := loadGovernors_perm same.destinations h.governors r.overrides_ok
  have hbase : loadBaseVaults K j.baseVaultDeposits = .ok () := by
    obtain ⟨hkey, hnd⟩ := loadBaseVaults_iff.mp r.baseVaults_ok
    exact loadBaseVaults_iff.mpr ⟨fun row hrow => hkey row (h.baseVaultDeposits.mem_iff.mpr hrow),
      (h.baseVaultDeposits.map _).nodup_iff.mp hnd⟩
  have hactive : within overrides'.keys (j.baseVaultDeposits.map VaultRow.validatorAddress) := by
    have hwithin := r.active
    rw [within_iff] at hwithin ⊢
    exact fun a ha => (h.baseVaultDeposits.map VaultRow.validatorAddress).mem_iff.mp
      (hwithin a ((hover.map Prod.fst).mem_iff.mpr ha))
  have hexceptions := r.exceptions_eq
  have hrep := represented_same same r.represented
  have hvaults := r.vaults_ok
  rw [vaultStages_perm h.baseVaultDeposits r.baseVaults_ok] at hvaults
  have htotals := r.totals_ok
  rw [checkTotals_same same] at htotals
  rw [hexceptions] at hrep htotals
  obtain ⟨o', hmain, -, -, hex, hgov, hvs, hun⟩ := exists_main r' r.compile.compiled_eq hcompile hrep hoverrides' hbase
    hactive hvaults htotals
  refine ⟨o', hmain, ?_⟩
  rw [Output.files, Output.files, hex, hgov, hvs, hun, r.governors_eq, r.unresolved_eq, hexceptions, ← same.routes,
    governorExceptions_perm hover h.baseVaultDeposits r.baseVaults_ok,
    unresolvedRows_perm hover h.baseVaultDeposits r.baseVaults_ok exception_component]

end HarmonyMigration.Routing
