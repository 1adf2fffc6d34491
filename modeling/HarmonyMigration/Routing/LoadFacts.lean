import HarmonyMigration.Lib.Loader
import HarmonyMigration.Lib.SortedBy
import HarmonyMigration.Routing.Load

/-! What `apply-routes.py` knows once its files are read: one spec lemma for each reader. -/

namespace HarmonyMigration.Routing

open Erc20 Except Claims Claims.StagePolicy

variable {K : Keys} {i : Input} {l : Loaded}

/-! ### Readers of rows with unique keys -/

theorem reader_loadClaimFile (K : Keys) (category : Category) :
    Dict.Reader ClaimRow.address (readClaim K category) (loadClaimFile K category) where
  nil _ := rfl
  cons row rest d d' := by
    rw [loadClaimFile]
    refine ⟨fun h => ?_, ?_⟩
    · obtain ⟨c, hc, h⟩ := of_bind_ok h
      rw [require_bind_ok] at h
      exact ⟨h.1, c, hc, h.2⟩
    · rintro ⟨hnew, c, hc, h⟩
      rw [hc, bind_ok_left, require_bind_ok]
      exact ⟨hnew, h⟩

theorem reader_loadMigrationStages : Dict.Reader PolicyRow.address stageEntry loadMigrationStages where
  nil _ := rfl
  cons row rest d d' := by
    rw [loadMigrationStages, require_bind_ok]
    refine and_congr_right fun _ => ⟨of_bind_ok, ?_⟩
    rintro ⟨entry, hentry, h⟩
    rw [hentry]
    exact h

theorem reader_loadDestinations :
    Dict.Reader DestinationRow.id
      (fun row => (require (row.id ≠ "") Error.invalidDestinationId).bind fun _ => readDestination row)
      loadDestinations where
  nil _ := rfl
  cons row rest d d' := by
    rw [loadDestinations, require_bind_ok]
    refine ⟨?_, ?_⟩
    · rintro ⟨⟨hid, hnew⟩, h⟩
      obtain ⟨destination, hd, h⟩ := of_bind_ok h
      exact ⟨hnew, destination, by rw [require_bind_ok]; exact ⟨hid, hd⟩, h⟩
    · rintro ⟨hnew, destination, hd, h⟩
      rw [require_bind_ok] at hd
      rw [hd.2]
      exact ⟨⟨hd.1, hnew⟩, h⟩

/-! ### Claims -/

theorem readClaim_ok {category : Category} {row : ClaimRow} {c : Claim} (h : readClaim K category row = .ok c) :
    c.address = row.address ∧ c.key = K.key row.address ∧ c.wallet = row.wallet ∧ c.wone = row.wone ∧
      c.staked = row.staked ∧ c.liquidShard0 = row.liquidShard0 ∧ c.category = category ∧
      0 ≤ c.wone ∧ c.wone ≤ c.wallet ∧ 0 ≤ c.staked := by
  unfold readClaim at h
  rw [require_bind_ok, require_bind_ok] at h
  obtain ⟨hkey, ⟨hnonneg, hwone, -⟩, h⟩ := h
  cases hcode : codeBearing row with
  | none => simp [hcode] at h
  | some code =>
    rw [hcode] at h
    obtain rfl := Except.ok.inj h
    simp only [le_min_iff] at hnonneg
    exact ⟨rfl, hkey.symm, rfl, rfl, rfl, rfl, rfl, hnonneg.1.2, hwone, hnonneg.2.1⟩

theorem readClaim_total {category : Category} {row : ClaimRow} {c : Claim} (h : readClaim K category row = .ok c) :
    c.wallet + c.staked = c.total := by
  unfold readClaim at h
  rw [require_bind_ok, require_bind_ok] at h
  obtain ⟨-, ⟨-, -, htotal⟩, h⟩ := h
  cases hcode : codeBearing row with
  | none => simp [hcode] at h
  | some code =>
    rw [hcode] at h
    obtain rfl := Except.ok.inj h
    exact htotal

/-- The rows of the three category files. -/
def categoryRows (i : Input) : List (Category × ClaimRow) :=
  i.automaticClaims.map (Prod.mk .automatic) ++ i.contractClaims.map (Prod.mk .contractReview) ++
    i.excludedClaims.map (Prod.mk .excluded)

/-- A row and the entry made of it. -/
def EntryOf (K : Keys) (x : Category × ClaimRow) (e : Address × Claim) : Prop :=
  x.2.address = e.1 ∧ readClaim K x.1 x.2 = .ok e.2

theorem forall₂_entryOf {category : Category} {rows : List ClaimRow} {es : List (Address × Claim)}
    (h : List.Forall₂ (fun row e => ClaimRow.address row = e.1 ∧ readClaim K category row = .ok e.2) rows es) :
    List.Forall₂ (EntryOf K) (rows.map (Prod.mk category)) es :=
  List.forall₂_map_left_iff.mpr h

theorem keys_of_forall₂ {xs : List (Category × ClaimRow)} {es : List (Address × Claim)}
    (h : List.Forall₂ (EntryOf K) xs es) : es.map Prod.fst = xs.map fun x => x.2.address :=
  (map_eq_of_forall₂ h fun _ _ hx => hx.1).symm

theorem loadClaims_ok {d : Dict Address Claim} (h : loadClaims K i = .ok d) :
    List.Forall₂ (EntryOf K) (categoryRows i) d.entries := by
  unfold loadClaims at h
  obtain ⟨d1, h1, h⟩ := of_bind_ok h
  obtain ⟨d2, h2, h3⟩ := of_bind_ok h
  obtain ⟨-, -, es1, hes1, heq1⟩ := (reader_loadClaimFile K _).ok_iff.mp h1
  obtain ⟨-, -, es2, hes2, heq2⟩ := (reader_loadClaimFile K _).ok_iff.mp h2
  obtain ⟨-, -, es3, hes3, heq3⟩ := (reader_loadClaimFile K _).ok_iff.mp h3
  obtain heq1 : d1.entries = es1 := heq1
  rw [heq3, heq2, heq1]
  exact List.rel_append (List.rel_append (forall₂_entryOf hes1) (forall₂_entryOf hes2)) (forall₂_entryOf hes3)

/-- The rows that `load_routed_deferred_claims` reads: the first of every wanted address. -/
def firstWanted : List ClaimRow → List Address → List ClaimRow
  | [], _ => []
  | row :: rest, wanted =>
    if row.address ∈ wanted then row :: firstWanted rest (wanted.filter (· ≠ row.address)) else firstWanted rest wanted

theorem firstWanted_nil (rows : List ClaimRow) : firstWanted rows [] = [] := by
  induction rows with
  | nil => rfl
  | cons row rest ih => simp [firstWanted, ih]

theorem mem_firstWanted {rows : List ClaimRow} {wanted : List Address} {row : ClaimRow}
    (h : row ∈ firstWanted rows wanted) : row ∈ rows ∧ row.address ∈ wanted := by
  induction rows generalizing wanted with
  | nil => simp [firstWanted] at h
  | cons r rest ih =>
    unfold firstWanted at h
    split_ifs at h with hr
    · rcases List.mem_cons.mp h with rfl | h
      · exact ⟨by simp, hr⟩
      · obtain ⟨hm, hw⟩ := ih h
        exact ⟨by simp [hm], List.mem_of_mem_filter hw⟩
    · obtain ⟨hm, hw⟩ := ih h
      exact ⟨by simp [hm], hw⟩

theorem firstWanted_nodup (rows : List ClaimRow) (wanted : List Address) :
    ((firstWanted rows wanted).map ClaimRow.address).Nodup := by
  induction rows generalizing wanted with
  | nil => exact List.nodup_nil
  | cons r rest ih =>
    unfold firstWanted
    split_ifs with hr
    · rw [List.map_cons, List.nodup_cons]
      refine ⟨fun hm => ?_, ih _⟩
      obtain ⟨row, hrow, heq⟩ := List.mem_map.mp hm
      have := (mem_firstWanted hrow).2
      simp [heq] at this
    · exact ih _

theorem address_mem_firstWanted {rows : List ClaimRow} {wanted : List Address} {a : Address}
    (hrows : a ∈ rows.map ClaimRow.address) (hw : a ∈ wanted) : a ∈ (firstWanted rows wanted).map ClaimRow.address := by
  induction rows generalizing wanted with
  | nil => simp at hrows
  | cons r rest ih =>
    unfold firstWanted
    by_cases ha : a = r.address
    · subst ha
      rw [if_pos hw]
      simp
    · have hrest : a ∈ rest.map ClaimRow.address := by simpa [ha] using hrows
      split_ifs with hr
      · rw [List.map_cons, List.mem_cons]
        exact Or.inr (ih hrest (by simpa [ha] using hw))
      · exact ih hrest hw

/-- The entries of the routed deferred claims come after the others. -/
theorem loadRoutedDeferredClaims_iff {rows : List ClaimRow} {wanted : List Address} {d d' : Dict Address Claim}
    (hd : ∀ a ∈ wanted, a ∉ d.keys) :
    loadRoutedDeferredClaims K rows wanted d = .ok d' ↔
      ∃ es, List.Forall₂ (EntryOf K) ((firstWanted rows wanted).map (Prod.mk .deferred)) es ∧
        d'.entries = d.entries ++ es := by
  induction rows generalizing wanted d with
  | nil =>
    simp only [loadRoutedDeferredClaims, firstWanted, Except.ok.injEq, List.map_nil, List.forall₂_nil_left_iff,
      exists_eq_left, List.append_nil]
    exact ⟨fun h => h ▸ rfl, fun h => Dict.ext_entries h.symm⟩
  | cons row rest ih =>
    rw [loadRoutedDeferredClaims]
    by_cases hempty : wanted = []
    · rw [if_pos hempty, hempty, firstWanted_nil]
      simp only [Except.ok.injEq, List.map_nil, List.forall₂_nil_left_iff, exists_eq_left, List.append_nil]
      exact ⟨fun h => h ▸ rfl, fun h => Dict.ext_entries h.symm⟩
    · rw [if_neg hempty]
      by_cases hrow : row.address ∈ wanted
      · have hnew := hd _ hrow
        rw [if_neg (not_not.mpr hrow), firstWanted, if_pos hrow, List.map_cons]
        have hrest : ∀ c, ∀ a ∈ wanted.filter (· ≠ row.address), a ∉ (d.insert row.address c).keys := by
          intro c a ha hm
          obtain ⟨haw, hne⟩ := List.mem_filter.mp ha
          rcases Dict.mem_keys_insert.mp hm with rfl | hm
          · simp at hne
          · exact hd a haw hm
        refine ⟨fun h => ?_, ?_⟩
        · obtain ⟨c, hc, h⟩ := of_bind_ok h
          obtain ⟨es, hes, heq⟩ := (ih (hrest c)).mp h
          rw [Dict.entries_insert_of_notMem hnew, List.append_assoc] at heq
          exact ⟨(row.address, c) :: es, .cons ⟨rfl, hc⟩ hes, heq⟩
        · rintro ⟨es, hes, heq⟩
          obtain ⟨e, es', ⟨hk, hv⟩, htail, rfl⟩ := List.forall₂_cons_left_iff.mp hes
          rw [hv, bind_ok_left]
          refine (ih (hrest _)).mpr ⟨es', htail, ?_⟩
          rw [Dict.entries_insert_of_notMem hnew, List.append_assoc, heq, hk]
          rfl
      · rw [if_pos hrow, firstWanted, if_neg hrow]
        exact ih hd

/-! ### Routes -/

theorem readRoute_ok {destinations : Dict String Destination} {row : RouteRow} {r : Route}
    (h : readRoute destinations row = .ok r) :
    r.routeId = row.routeId ∧ r.source = row.source ∧ r.amount = row.amount ∧ ∀ n, r.amount = .exact n → 0 < n := by
  unfold readRoute at h
  rw [require_bind_ok] at h
  obtain ⟨hpos, h⟩ := h
  obtain ⟨d, -, rfl⟩ := of_map_ok h
  refine ⟨rfl, rfl, rfl, fun n hn => hpos n ?_⟩
  dsimp only at hn
  rw [hn]
  simp

theorem loadRoutes_iff {rows : List RouteRow} {destinations : Dict String Destination} {routes : List Route} :
    loadRoutes rows destinations = .ok routes ↔ (∀ row ∈ rows, row.routeId ≠ "") ∧ (rows.map RouteRow.routeId).Nodup ∧
      ∃ rs, rows.mapM (readRoute destinations) = .ok rs ∧
        ((rs.filter fun r => r.amount = .all).map Route.source).Nodup ∧
        routes = rs.insertionSort fun a b => a.order ≤ b.order := by
  unfold loadRoutes
  rw [require_bind_ok, require_bind_ok]
  refine and_congr_right fun _ => and_congr_right fun _ => ⟨fun h => ?_, ?_⟩
  · obtain ⟨rs, hrs, h⟩ := of_bind_ok h
    obtain ⟨u, hall, rfl⟩ := of_map_ok h
    exact ⟨rs, hrs, of_require_ok hall, rfl⟩
  · rintro ⟨rs, hrs, hall, rfl⟩
    rw [hrs, bind_ok_left, require, if_pos hall]
    rfl

theorem loadRoutes_ok {rows : List RouteRow} {destinations : Dict String Destination} {routes : List Route}
    (h : loadRoutes rows destinations = .ok routes) :
    (routes.map Route.routeId).Nodup ∧
      (routes.map fun r => (r.routeId, r.source, r.amount)).Perm (rows.map fun r => (r.routeId, r.source, r.amount)) ∧
      (∀ r ∈ routes, ∀ n, r.amount = .exact n → 0 < n) ∧ routes.Pairwise fun a b => a.order ≤ b.order := by
  obtain ⟨-, hnd, rs, hrs, -, rfl⟩ := loadRoutes_iff.mp h
  have hall := forall₂_of_mapM_ok hrs
  have hids : rows.map RouteRow.routeId = rs.map Route.routeId :=
    map_eq_of_forall₂ hall fun _ _ hr => (readRoute_ok hr).1.symm
  have hcolumns : rows.map (fun r => (r.routeId, r.source, r.amount)) = rs.map fun r => (r.routeId, r.source, r.amount) :=
    map_eq_of_forall₂ hall fun _ _ hr => by
      obtain ⟨h1, h2, h3, -⟩ := readRoute_ok hr
      rw [h1, h2, h3]
  have hperm := List.perm_insertionSort (fun a b => a.order ≤ b.order) rs
  refine ⟨(hperm.map Route.routeId).nodup_iff.mpr (hids ▸ hnd), hcolumns ▸ hperm.map _, fun r hr n hn => ?_, ?_⟩
  · obtain ⟨row, -, hrow⟩ := ok_of_mem_right hall ((List.mem_insertionSort _).mp hr)
    exact (readRoute_ok hrow).2.2.2 n hn
  · exact SortedBy.pairwise_insertionSort Route.order rs

/-! ### Positions -/

def ShareRow.position (row : ShareRow) (s : Source) : Position :=
  ⟨row.validatorKey, row.validatorAddress, row.delegatorKey, row.delegatorAddress, s.routingCategory, s.codeBearing,
    row.amount⟩

/-- The position of a share row whose delegator has a claim. -/
def positionOf (sources : Dict Address Source) (row : ShareRow) : Option Position :=
  (sources.get? row.delegatorAddress).map row.position

/-- What a share row must satisfy. -/
structure ShareOk (K : Keys) (sources : Dict Address Source) (required : Bool) (row : ShareRow) : Prop where
  delegator : K.key row.delegatorAddress = row.delegatorKey
  known : required → row.delegatorAddress ∈ sources.keys
  validator : row.delegatorAddress ∈ sources.keys → K.key row.validatorAddress = row.validatorKey
  amount : row.delegatorAddress ∈ sources.keys → 0 < row.amount

def Position.pair (p : Position) : ℕ × ℕ := (p.validatorKey, p.delegatorKey)

theorem loadShares_iff {sources : Dict Address Source} {required : Bool} {rows : List ShareRow}
    {ps ps' : List Position} (hnd : (ps.map Position.pair).Nodup) :
    loadShares K sources required rows ps = .ok ps' ↔ (∀ row ∈ rows, ShareOk K sources required row) ∧
      ((ps ++ rows.filterMap (positionOf sources)).map Position.pair).Nodup ∧
      ps' = ps ++ rows.filterMap (positionOf sources) := by
  induction rows generalizing ps with
  | nil => simp [loadShares, hnd, eq_comm]
  | cons row rest ih =>
    rw [loadShares, require_bind_ok, List.forall_mem_cons]
    cases hget : sources.get? row.delegatorAddress with
    | none =>
      have hnone : row.delegatorAddress ∉ sources.keys := Dict.get?_eq_none_iff.mp hget
      have hpos : positionOf sources row = none := by rw [positionOf, hget]; rfl
      rw [List.filterMap_cons_none hpos, require_bind_ok, ih hnd]
      refine ⟨?_, ?_⟩
      · rintro ⟨hkey, hreq, hrest, h⟩
        exact ⟨⟨⟨hkey, fun hr => absurd hr hreq, fun hm => absurd hm hnone, fun hm => absurd hm hnone⟩, hrest⟩, h⟩
      · rintro ⟨⟨hrow, hrest⟩, h⟩
        exact ⟨hrow.delegator, fun hr => hnone (hrow.known hr), hrest, h⟩
    | some source =>
      have hsome : row.delegatorAddress ∈ sources.keys := by
        by_contra hn
        rw [Dict.get?_eq_none_iff.mpr hn] at hget
        cases hget
      have hpos : positionOf sources row = some (row.position source) := by
        rw [positionOf, hget]
        rfl
      rw [List.filterMap_cons_some hpos, require_bind_ok, require_bind_ok, require_bind_ok]
      have hpair : ∀ p : Position, (ps.map Position.pair).Nodup ∧ p.pair ∉ ps.map Position.pair ↔
          ((ps ++ [p]).map Position.pair).Nodup := fun p => by
        rw [List.map_append, List.nodup_append]
        simp only [List.map_cons, List.map_nil, List.nodup_singleton, List.mem_singleton, true_and]
        exact and_congr_right fun _ =>
          ⟨fun h a ha b hb => by rintro rfl; exact h (hb ▸ ha), fun h hm => h _ hm _ rfl rfl⟩
      refine ⟨?_, ?_⟩
      · rintro ⟨hkey, hval, hnew, hamount, h⟩
        obtain ⟨hrest, hnd', heq⟩ := (ih ((hpair (row.position source)).mp ⟨hnd, hnew⟩)).mp h
        rw [List.append_assoc, List.singleton_append] at hnd' heq
        exact ⟨⟨⟨hkey, fun _ => hsome, fun _ => hval, fun _ => hamount⟩, hrest⟩, hnd', heq⟩
      · rintro ⟨⟨hrow, hrest⟩, hnd', heq⟩
        rw [← List.singleton_append, ← List.append_assoc] at hnd' heq
        have hprefix := hnd'.sublist ((List.sublist_append_left _ _).map Position.pair)
        exact ⟨hrow.delegator, hrow.validator hsome, ((hpair (row.position source)).mpr hprefix).2, hrow.amount hsome,
          (ih hprefix).mpr ⟨hrest, hnd', heq⟩⟩

/-! ### Everything -/

/-- A successful load, with what it read on the way. -/
structure LoadRun (K : Keys) (i : Input) (l : Loaded) where
  categoryClaims : Dict Address Claim
  claims : Dict Address Claim
  validators : List Address
  categoryClaims_ok : loadClaims K i = .ok categoryClaims
  stages_ok : loadMigrationStages i.migrationStages .empty = .ok l.stages
  destinations_ok : loadDestinations i.destinations.flatten .empty = .ok l.destinations
  pending_ok : loadPolicyDecisions i.policyDecisions = .ok l.pending
  routes_ok : loadRoutes i.routes.flatten l.destinations = .ok l.routes
  contract_ok : checkContractPolicy i l.routes = .ok ()
  claims_ok : loadRoutedDeferredClaims K i.allClaims
    ((l.routes.map Route.source).dedup.filter fun a => a ∉ categoryClaims.keys) categoryClaims = .ok claims
  validators_ok : loadValidatorAccounts i.validatorAccounts claims = .ok validators
  stages_claims : within l.stages.keys (priorityAddresses claims) ∧ within (priorityAddresses claims) l.stages.keys
  sources_eq : l.sources = claims.mapValues (sourceOf (exchangeManualAddresses l.routes) validators l.stages)
  priorityShares_ok : ∃ ps, loadShares K l.sources true i.priorityShares [] = .ok ps ∧
    loadShares K l.sources false i.deferredShares ps = .ok l.positions
  staked_ok : ∀ s ∈ l.sources.values, vaultRemaining (positionsOf l.positions s.address) = s.staked

theorem loadRun_of_load (h : load K i = .ok l) : Nonempty (LoadRun K i l) := by
  unfold load at h
  obtain ⟨categoryClaims, hcategory, h⟩ := of_bind_ok h
  obtain ⟨stages, hstages, h⟩ := of_bind_ok h
  obtain ⟨destinations, hdestinations, h⟩ := of_bind_ok h
  obtain ⟨pending, hpending, h⟩ := of_bind_ok h
  obtain ⟨routes, hroutes, h⟩ := of_bind_ok h
  obtain ⟨u, hcontract, h⟩ := of_bind_ok h
  obtain ⟨claims, hclaims, h⟩ := of_bind_ok h
  obtain ⟨validators, hvalidators, h⟩ := of_bind_ok h
  rw [require_bind_ok] at h
  obtain ⟨hsc, h⟩ := h
  obtain ⟨ps, hps, h⟩ := of_bind_ok h
  obtain ⟨ps', hps', h⟩ := of_bind_ok h
  obtain ⟨u', hstaked, rfl⟩ := of_map_ok h
  have hstages' : loadMigrationStages i.migrationStages .empty = .ok stages := by
    cases hs : loadMigrationStages i.migrationStages .empty with
    | error e => rw [hs] at hstages; cases hstages
    | ok s => rw [hs] at hstages; exact congrArg _ (Except.ok.inj hstages)
  exact ⟨categoryClaims, claims, validators, hcategory, hstages', hdestinations, hpending, hroutes, hcontract, hclaims,
    hvalidators, hsc, rfl, ⟨ps, hps, hps'⟩, of_require_ok hstaked⟩

theorem LoadRun.load_eq (r : LoadRun K i l) : load K i = .ok l := by
  obtain ⟨ps, hps, hps'⟩ := r.priorityShares_ok
  unfold load
  rw [r.categoryClaims_ok, bind_ok_left, r.stages_ok]
  dsimp only [Except.mapError]
  rw [bind_ok_left, r.destinations_ok, bind_ok_left, r.pending_ok, bind_ok_left, r.routes_ok, bind_ok_left,
    r.contract_ok, bind_ok_left, r.claims_ok, bind_ok_left, r.validators_ok, bind_ok_left, require_bind_ok]
  refine ⟨r.stages_claims, ?_⟩
  rw [← r.sources_eq, hps, bind_ok_left, hps', bind_ok_left, require, if_pos r.staked_ok]
  rfl

namespace LoadRun

theorem wanted_new (r : LoadRun K i l) :
    ∀ a ∈ (l.routes.map Route.source).dedup.filter fun a => a ∉ r.categoryClaims.keys, a ∉ r.categoryClaims.keys := by
  intro a ha
  simpa using (List.mem_filter.mp ha).2

/-- The deferred rows that were read. -/
def deferredRows (r : LoadRun K i l) : List ClaimRow :=
  firstWanted i.allClaims ((l.routes.map Route.source).dedup.filter fun a => a ∉ r.categoryClaims.keys)

/-- Every claim is its row's. -/
theorem claims_entries (r : LoadRun K i l) :
    List.Forall₂ (EntryOf K) (categoryRows i ++ r.deferredRows.map (Prod.mk .deferred)) r.claims.entries := by
  obtain ⟨es, hes, heq⟩ := (loadRoutedDeferredClaims_iff r.wanted_new).mp r.claims_ok
  rw [heq]
  exact List.rel_append (loadClaims_ok r.categoryClaims_ok) hes

theorem sources_entry (r : LoadRun K i l) {a : Address} {s : Source} (h : (a, s) ∈ l.sources.entries) :
    ∃ c, (a, c) ∈ r.claims.entries ∧ s = sourceOf (exchangeManualAddresses l.routes) r.validators l.stages c := by
  rw [r.sources_eq] at h
  obtain ⟨e, he, heq⟩ := List.mem_map.mp h
  obtain ⟨rfl, rfl⟩ := Prod.mk.inj heq
  exact ⟨e.2, he, rfl⟩

/-- A source is the reading of a row of a claim file. -/
theorem source_row (r : LoadRun K i l) {a : Address} {s : Source} (h : (a, s) ∈ l.sources.entries) :
    ∃ x ∈ categoryRows i ++ r.deferredRows.map (Prod.mk .deferred), x.2.address = a ∧
      readClaim K x.1 x.2 = .ok s.toClaim := by
  obtain ⟨c, hc, rfl⟩ := r.sources_entry h
  obtain ⟨x, hx, hkey, hread⟩ := ok_of_mem_right r.claims_entries hc
  exact ⟨x, hx, hkey, hread⟩

theorem source_address (r : LoadRun K i l) {a : Address} {s : Source} (h : (a, s) ∈ l.sources.entries) :
    s.address = a ∧ s.key = K.key a := by
  obtain ⟨x, -, rfl, hread⟩ := r.source_row h
  obtain ⟨haddress, hkey, -⟩ := readClaim_ok hread
  exact ⟨haddress, hkey⟩

theorem values_address (r : LoadRun K i l) : l.sources.values.map (fun s => s.address) = l.sources.keys := by
  rw [Dict.values, Dict.keys, List.map_map]
  exact List.map_congr_left fun e he => (r.source_address he).1

theorem mem_values (r : LoadRun K i l) {s : Source} (h : s ∈ l.sources.values) :
    (s.address, s) ∈ l.sources.entries := by
  obtain ⟨e, he, rfl⟩ := List.mem_map.mp h
  rw [(r.source_address he).1]
  exact he

theorem positions_eq (r : LoadRun K i l) :
    l.positions = (i.priorityShares ++ i.deferredShares).filterMap (positionOf l.sources) ∧
      (l.positions.map Position.pair).Nodup ∧ (∀ row ∈ i.priorityShares, ShareOk K l.sources true row) ∧
      ∀ row ∈ i.deferredShares, ShareOk K l.sources false row := by
  obtain ⟨ps, hps, hps'⟩ := r.priorityShares_ok
  obtain ⟨hpriority, hnd, rfl⟩ := (loadShares_iff (by simp)).mp hps
  rw [List.nil_append] at hnd hps'
  obtain ⟨hdeferred, hnd', heq⟩ := (loadShares_iff hnd).mp hps'
  rw [List.filterMap_append, heq]
  exact ⟨rfl, hnd', hpriority, hdeferred⟩

/-- A position is its row's, with its delegator's category. -/
theorem position_ok (r : LoadRun K i l) {p : Position} (h : p ∈ l.positions) :
    p.validatorKey = K.key p.validatorAddress ∧ p.delegatorKey = K.key p.delegatorAddress ∧ 0 < p.remaining ∧
      ∃ s, (p.delegatorAddress, s) ∈ l.sources.entries ∧ p.sourceCategory = s.routingCategory ∧
        p.sourceCodeBearing = s.codeBearing := by
  obtain ⟨heq, -, hpriority, hdeferred⟩ := r.positions_eq
  rw [heq] at h
  obtain ⟨row, hrow, hp⟩ := List.mem_filterMap.mp h
  have hok : ∃ required, ShareOk K l.sources required row := by
    rcases List.mem_append.mp hrow with hm | hm
    · exact ⟨true, hpriority row hm⟩
    · exact ⟨false, hdeferred row hm⟩
  obtain ⟨required, hok⟩ := hok
  obtain ⟨s, hs, rfl⟩ := Option.map_eq_some_iff.mp hp
  have hentry := Dict.get?_eq_some_iff.mp hs
  have hkey := Dict.mem_keys hentry
  exact ⟨(hok.validator hkey).symm, hok.delegator.symm, hok.amount hkey, s, hentry, rfl, rfl⟩

theorem mem_positionsOf (ps : List Position) (a : Address) (p : Position) :
    p ∈ positionsOf ps a ↔ p ∈ ps ∧ p.delegatorAddress = a := by
  rw [positionsOf, List.mem_insertionSort, List.mem_filter, decide_eq_true_iff]

end LoadRun

end HarmonyMigration.Routing
