import HarmonyMigration.Routing.ExchangeRouting

/-! What a pass of the exchange verification has shown. The totals of every source hold; its split between the two planned
destinations holds exactly where the shapes of its routes force it. -/

namespace HarmonyMigration.ExchangeRouting

open Airdrop.One1 Decimal Except

/-- The exchange and the address are audited with this plan. -/
def Audited (expected : Dict Text (Dict Text Planned)) (pair : Text × Text) (planned : Planned) : Prop :=
  ∃ sources, expected.get? pair.1 = some sources ∧ sources.get? pair.2 = some planned

/-- What a pass promises. -/
structure Sound (u : Lower) (exceptions : List ExceptionRow) (v : Verified) : Prop where
  read : ∀ row ∈ exceptions, routePrefix <+: row.routeId → ∃ c ∈ v.rows, c.routeId = row.routeId ∧
    int row.amountAtto = .ok c.amount ∧ c.destination = u.lower row.destinationAddress
  only : ∀ row ∈ v.rows, ∃ planned, Audited v.expected row.pair planned ∧ 0 < planned.amount
  total : ∀ pair planned, Audited v.expected pair planned → 0 < planned.amount →
    amountWhere (·.pair = pair) v.rows = planned.amount
  destinations : ∀ pair planned, Audited v.expected pair planned → 0 < planned.amount → ¬planned.Held →
    planned.walletDestination ≠ planned.stakingDestination →
    amountWhere (fun row => row.pair = pair ∧ row.destination = planned.walletDestination) v.rows = planned.walletComponent ∧
    amountWhere (fun row => row.pair = pair ∧ row.destination = planned.stakingDestination) v.rows = planned.stakingComponent

section Sides

variable (routes : Dict Text Route) (pair : Text × Text)

/-- The routes of a source that compile to its wallet destination. -/
def WalletSide (id : Text) (route : Route) : Prop :=
  routes.get? id = some route ∧ route.pair = pair ∧ ¬stakingSuffix <:+ route.destinationId

/-- The routes of a source that compile to its staking destination. -/
def StakingSide (id : Text) (route : Route) : Prop :=
  routes.get? id = some route ∧ route.pair = pair ∧ stakingSuffix <:+ route.destinationId

/-- One route of the side, of the given shape, is all of it. -/
def Alone (side : Text → Route → Prop) (suffix : Text) : Prop :=
  ∃ id route, side id route ∧ route.suffix = suffix ∧ ∀ id' route', side id' route' → id' = id

/-- The row belongs to a route of the wallet side. -/
def OnWallet (row : Compiled) : Prop :=
  row.pair = pair ∧ ∃ route ∈ routes.get? row.routeId, ¬stakingSuffix <:+ route.destinationId

instance : DecidablePred (OnWallet routes pair) := fun _ => inferInstanceAs (Decidable (_ ∧ _))

end Sides

/-- Both sides have routes: one of them is a split route alone, or there are only whole-claim routes and their rows are
divided as planned. -/
def DividesBoth (v : Verified) (pair : Text × Text) (planned : Planned) : Prop :=
  Alone (WalletSide v.routes pair) walletSuffix ∨ Alone (StakingSide v.routes pair) stakingSuffix ∨
    (∀ id route, v.routes.get? id = some route → route.pair = pair → route.suffix = []) ∧
      amountWhere (OnWallet v.routes pair) v.rows = planned.walletComponent

/-- The shapes of a source's routes force its split. -/
def Divides (v : Verified) (pair : Text × Text) (planned : Planned) : Prop :=
  if planned.SameAddress then
    planned.walletComponent = (if pair.2 = planned.walletDestination then planned.amount else 0) ∧
      planned.stakingComponent = if pair.2 = planned.stakingDestination then planned.amount else 0
  else
    planned.walletComponent + planned.stakingComponent = planned.amount ∧
      ((∀ id route, ¬WalletSide v.routes pair id route) → planned.walletComponent = 0) ∧
      ((∀ id route, ¬StakingSide v.routes pair id route) → planned.stakingComponent = 0) ∧
      ((∃ id route, WalletSide v.routes pair id route) → (∃ id route, StakingSide v.routes pair id route) →
        DividesBoth v pair planned)

/-! ### What the loads have checked -/

/-- What a route that is read has shown. -/
structure Routed (expected : Dict Text (Dict Text Planned)) (route : Route) : Prop where
  audited : Audited expected route.pair route.planned
  positive : 0 < route.planned.amount
  status : route.status = if route.planned.Held then holdText else exchangeStatus
  destination : route.expectedDestination = expectedDestination route.address route.planned route.destinationId
  shape : ¬route.planned.SameAddress →
    route.suffix = [] ∧
        route.destinationId ∈ [routePrefix ++ route.exchangeId, routePrefix ++ route.exchangeId ++ stakingSuffix] ∨
      route.suffix = walletSuffix ∧ route.destinationId = routePrefix ++ route.exchangeId ∨
      route.suffix = stakingSuffix ∧ route.destinationId = routePrefix ++ route.exchangeId ++ stakingSuffix

/-- What the three loads have shown together. -/
structure Passed (v : Verified) : Prop where
  routed : ∀ id route, v.routes.get? id = some route → Routed v.expected route
  covered : ∀ pair planned, Audited v.expected pair planned → 0 < planned.amount →
    ∃ id route, v.routes.get? id = some route ∧ route.pair = pair
  row : ∀ row ∈ v.rows, ∃ route, v.routes.get? row.routeId = some route ∧ row.pair = route.pair ∧ 0 < row.amount
  used : ∀ id route, v.routes.get? id = some route → ∃ row ∈ v.rows, row.routeId = id
  checked : ∀ id route, v.routes.get? id = some route → checkRoute v.rows (id, route) = .ok ()

section Checks

variable {u : Lower}

theorem Audited.eq {expected : Dict Text (Dict Text Planned)} {pair : Text × Text} {planned planned' : Planned}
    (h : Audited expected pair planned) (h' : Audited expected pair planned') : planned = planned' := by
  obtain ⟨sources, hs, hp⟩ := h
  obtain ⟨sources', hs', hp'⟩ := h'
  obtain rfl := Option.some.inj (hs.symm.trans hs')
  exact Option.some.inj (hp.symm.trans hp')

theorem checkShape_ok {base : ℤ} {exchange address : Text} {planned : Planned} {suffix : Text} {row : RouteRow}
    {r : Unit} (h : checkShape u base exchange address planned suffix row = .ok r) (hsame : ¬planned.SameAddress) :
    suffix = [] ∧ row.destinationId ∈ [routePrefix ++ exchange, routePrefix ++ exchange ++ stakingSuffix] ∨
      suffix = walletSuffix ∧ row.destinationId = routePrefix ++ exchange ∨
      suffix = stakingSuffix ∧ row.destinationId = routePrefix ++ exchange ++ stakingSuffix := by
  unfold checkShape at h
  dsimp only at h
  split_ifs at h with hwhole hwallet hstaking
  · obtain ⟨priority, -, h⟩ := of_bind_ok h
    simp only [require_bind_ok] at h
    exact .inl ⟨hwhole, (of_require_ok h.2.2).1⟩
  · obtain ⟨priority, -, h⟩ := of_bind_ok h
    obtain ⟨-, h⟩ := require_bind_ok.mp h
    obtain ⟨amount, -, h⟩ := of_bind_ok h
    exact .inr (.inl ⟨hwallet, (of_require_ok h).2.1⟩)
  · obtain ⟨priority, -, h⟩ := of_bind_ok h
    exact .inr (.inr ⟨hstaking, (of_require_ok h).2.2.2.1⟩)

theorem readRoute_ok {base : ℤ} {expected : Dict Text (Dict Text Planned)} {row : RouteRow} {route : Route}
    (h : readRoute u base expected row = .ok route) : Routed expected route := by
  simp only [readRoute, require_bind_ok, ofOption_bind_ok] at h
  obtain ⟨-, i, -, sources, hsources, planned, hplanned, hpositive, -, -, hstatus, h⟩ := h
  obtain ⟨_, hshape, h⟩ := of_bind_ok h
  obtain ⟨_, -, rfl⟩ := of_map_ok h
  exact ⟨⟨sources, hsources, hplanned⟩, hpositive, hstatus, rfl, checkShape_ok hshape⟩

theorem readRoutes_reader (base : ℤ) (expected : Dict Text (Dict Text Planned)) :
    Dict.Reader RouteRow.routeId (readRoute u base expected) (readRoutes u base expected) where
  nil := fun _ => rfl
  cons := by
    intro row rest d d'
    constructor
    · intro h
      obtain ⟨route, hroute, h⟩ := of_bind_ok h
      obtain ⟨hnew, h⟩ := require_bind_ok.mp h
      exact ⟨hnew, route, hroute, h⟩
    · rintro ⟨hnew, route, hroute, h⟩
      rw [readRoutes, hroute, bind_ok_left, require_bind_ok]
      exact ⟨hnew, h⟩

theorem mem_expectedPairs {expected : Dict Text (Dict Text Planned)} {pair : Text × Text} {planned : Planned}
    (h : Audited expected pair planned) (hpositive : 0 < planned.amount) : pair ∈ expectedPairs expected := by
  obtain ⟨sources, hs, hp⟩ := h
  refine List.mem_flatMap.mpr ⟨(pair.1, sources), Dict.get?_eq_some_iff.mp hs, ?_⟩
  refine List.mem_map.mpr ⟨(pair.2, planned), List.mem_filter.mpr ⟨Dict.get?_eq_some_iff.mp hp, ?_⟩, rfl⟩
  exact decide_eq_true hpositive

theorem loadRoutes_ok {policy : Policy} {expected : Dict Text (Dict Text Planned)} {rows : List RouteRow}
    {routes : Dict Text Route} (h : loadRoutes u policy expected rows = .ok routes) :
    (∀ id route, routes.get? id = some route → Routed expected route) ∧
    ∀ pair planned, Audited expected pair planned → 0 < planned.amount →
      ∃ id route, routes.get? id = some route ∧ route.pair = pair := by
  obtain ⟨base, -, h⟩ := of_bind_ok h
  obtain ⟨read, hread, h⟩ := of_bind_ok h
  obtain ⟨_, hpairs, rfl⟩ := of_map_ok h
  constructor
  · intro id route hget
    obtain ⟨row, -, -, hroute⟩ := ((readRoutes_reader base expected).entry_iff hread).mp (Dict.get?_eq_some_iff.mp hget)
    exact readRoute_ok hroute
  · intro pair planned haudited hpositive
    have hmem := (of_require_ok hpairs).2 (mem_expectedPairs haudited hpositive)
    obtain ⟨route, hvalue, rfl⟩ := List.mem_map.mp hmem
    obtain ⟨⟨id, _⟩, hentry, rfl⟩ := List.mem_map.mp hvalue
    exact ⟨id, _, Dict.get?_eq_some_iff.mpr hentry, rfl⟩

theorem readCompiled_ok {routes : Dict Text Route} {row : ExceptionRow} {c : Compiled}
    (h : readCompiled u routes row = .ok (.compiled c)) :
    ∃ route, routes.get? row.routeId = some route ∧ int row.amountAtto = .ok c.amount ∧ 0 < c.amount ∧
      c = ⟨row.routeId, route.pair, c.amount, row.destinationStatus, row.migrationStage, row.issuanceTreatment,
        u.lower row.destinationAddress⟩ := by
  unfold readCompiled at h
  split_ifs at h with hstart
  · cases hroute : routes.get? row.routeId with
    | none =>
      rw [hroute] at h
      cases h
    | some route =>
      rw [hroute] at h
      obtain ⟨amount, hamount, h⟩ := of_bind_ok h
      obtain ⟨_, hpositive, heq⟩ := of_map_ok h
      obtain rfl := ReadRow.compiled.inj heq
      exact ⟨route, rfl, hamount, of_require_ok hpositive, rfl⟩
  · cases h

/-- A row of an exchange route is compiled, or its route is unknown. -/
theorem readCompiled_exchange {routes : Dict Text Route} {row : ExceptionRow} {r : ReadRow}
    (h : readCompiled u routes row = .ok r) (hstart : routePrefix <+: row.routeId) :
    r = .unknown row.routeId ∨ ∃ c, r = .compiled c := by
  unfold readCompiled at h
  rw [if_neg (not_not.mpr hstart)] at h
  cases hroute : routes.get? row.routeId with
  | none =>
    rw [hroute] at h
    exact .inl (Except.ok.inj h).symm
  | some route =>
    rw [hroute] at h
    obtain ⟨amount, hamount, h⟩ := of_bind_ok h
    obtain ⟨_, -, heq⟩ := of_map_ok h
    exact .inr ⟨_, heq.symm⟩

theorem mem_compiled {read : List ReadRow} {c : Compiled} (h : c ∈ read.filterMap ReadRow.compiled?) :
    .compiled c ∈ read := by
  obtain ⟨r, hr, heq⟩ := List.mem_filterMap.mp h
  cases r with
  | compiled row =>
    obtain rfl := Option.some.inj heq
    exact hr
  | other => cases heq
  | unknown id => cases heq

theorem loadCompiled_ok {routes : Dict Text Route} {file : List ExceptionRow} {rows : List Compiled}
    (h : loadCompiled u routes file = .ok rows) :
    (∀ row ∈ file, routePrefix <+: row.routeId → ∃ c ∈ rows, readCompiled u routes row = .ok (.compiled c)) ∧
    (∀ c ∈ rows, ∃ row ∈ file, readCompiled u routes row = .ok (.compiled c)) ∧
    (∀ id route, routes.get? id = some route → ∃ row ∈ rows, row.routeId = id) ∧
    ∀ id route, routes.get? id = some route → checkRoute rows (id, route) = .ok () := by
  obtain ⟨read, hread, h⟩ := of_bind_ok h
  simp only [require_bind_ok] at h
  obtain ⟨hunknown, hmissing, h⟩ := h
  obtain ⟨checked, hchecked, rfl⟩ := of_map_ok h
  have hread' := forall₂_of_mapM_ok hread
  refine ⟨fun row hrow hstart => ?_, fun c hc => ?_, fun id route hget => ?_, fun id route hget => ?_⟩
  · obtain ⟨r, hr, hok⟩ := ok_of_mem_left hread' hrow
    rcases readCompiled_exchange hok hstart with rfl | ⟨c, rfl⟩
    · have hmem : row.routeId ∈ read.filterMap ReadRow.unknown? := List.mem_filterMap.mpr ⟨_, hr, rfl⟩
      rw [hunknown] at hmem
      cases hmem
    · exact ⟨c, List.mem_filterMap.mpr ⟨_, hr, rfl⟩, hok⟩
  · exact ok_of_mem_right hread' (mem_compiled hc)
  · by_contra hnone
    have hkey : id ∈ routes.keys := Dict.mem_keys (Dict.get?_eq_some_iff.mp hget)
    refine List.filter_eq_nil_iff.mp hmissing id hkey (decide_eq_true fun hmem => hnone ?_)
    exact List.mem_map.mp hmem
  · obtain ⟨_, -, hok⟩ := ok_of_mem_left (forall₂_of_mapM_ok hchecked) (Dict.get?_eq_some_iff.mp hget)
    exact hok

/-- What the checks of a route say of its rows. -/
theorem checkRoute_ok {rows : List Compiled} {id : Text} {route : Route} {r : Unit}
    (h : checkRoute rows (id, route) = .ok r) :
    (route.suffix = walletSuffix → amountWhere (·.routeId = id) rows = route.planned.walletComponent) ∧
    (route.suffix = stakingSuffix → amountWhere (·.routeId = id) rows = route.planned.stakingComponent) ∧
    amountWhere (·.pair = route.pair) rows = route.planned.amount ∧
    (route.status = exchangeStatus → ∀ row ∈ rows, row.routeId = id → row.destination = route.expectedDestination) := by
  simp only [checkRoute, require_bind_ok] at h
  obtain ⟨hwallet, hstaking, htotal, -, -, -, hdestination⟩ := h
  refine ⟨hwallet, hstaking, htotal, fun hready row hrow hid => ?_⟩
  have honly := of_require_ok hdestination
  rw [if_pos hready] at honly
  have hmem : row.destination ∈ ((rows.filter fun row => row.routeId = id).map Compiled.destination).dedup :=
    List.mem_dedup.mpr (List.mem_map_of_mem (List.mem_filter.mpr ⟨hrow, decide_eq_true hid⟩))
  rw [honly] at hmem
  exact List.mem_singleton.mp hmem

theorem passed_of_verify {policy : Policy} {audits : Text → Option AuditFile} {routes : List RouteRow}
    {exceptions : List ExceptionRow} {v : Verified} (h : verify u policy audits routes exceptions = .ok v) :
    Passed v ∧ ∀ row ∈ exceptions, routePrefix <+: row.routeId →
      ∃ c ∈ v.rows, readCompiled u v.routes row = .ok (.compiled c) := by
  obtain ⟨expected, -, h⟩ := of_bind_ok h
  obtain ⟨read, hread, h⟩ := of_bind_ok h
  obtain ⟨rows, hrows, rfl⟩ := of_map_ok h
  obtain ⟨hrouted, hcovered⟩ := loadRoutes_ok hread
  obtain ⟨hall, hrow, hused, hchecked⟩ := loadCompiled_ok hrows
  refine ⟨⟨hrouted, hcovered, fun c hc => ?_, hused, hchecked⟩, hall⟩
  obtain ⟨row, -, hok⟩ := hrow c hc
  obtain ⟨route, hroute, -, hpositive, heq⟩ := readCompiled_ok hok
  rw [heq]
  exact ⟨route, hroute, rfl, hpositive⟩

end Checks

/-! ### Amounts of rows -/

section Amounts

variable {rows : List Compiled} {p q : Compiled → Prop} [DecidablePred p] [DecidablePred q]

theorem amountWhere_congr (h : ∀ row ∈ rows, p row ↔ q row) : amountWhere p rows = amountWhere q rows := by
  unfold amountWhere
  rw [List.filter_congr fun row hrow => decide_eq_decide.mpr (h row hrow)]

/-- A predicate splits an amount. -/
theorem amountWhere_add : amountWhere (fun row => p row ∧ q row) rows + amountWhere (fun row => p row ∧ ¬q row) rows =
    amountWhere p rows := by
  have hsplit := Dict.sum_filter_add_filter_not (v := Compiled.amount) q (rows.filter fun row => p row)
  simp only [List.filter_filter] at hsplit
  unfold amountWhere
  rw [← hsplit]
  congr 3
  · refine List.filter_congr fun row _ => ?_
    simp only [Bool.decide_and, Bool.and_comm]
  · refine List.filter_congr fun row _ => ?_
    simp only [Bool.decide_and, Bool.and_comm]

theorem amountWhere_eq_zero (h : ∀ row ∈ rows, ¬p row) : amountWhere p rows = 0 := by
  unfold amountWhere
  rw [List.filter_eq_nil_iff.mpr fun row hrow => by simpa using h row hrow]
  rfl

theorem amountWhere_pos (hpositive : ∀ row ∈ rows, 0 < row.amount) {row : Compiled} (hrow : row ∈ rows) (hp : p row) :
    0 < amountWhere p rows := by
  unfold amountWhere
  refine List.sum_pos _ (fun amount hamount => ?_) ?_
  · obtain ⟨row', hrow', rfl⟩ := List.mem_map.mp hamount
    exact hpositive row' (List.mem_filter.mp hrow').1
  · have hmem : row ∈ rows.filter fun row => p row := List.mem_filter.mpr ⟨hrow, decide_eq_true hp⟩
    exact List.ne_nil_of_mem (List.mem_map_of_mem hmem)

/-- A route of the side that compiles to `c` is alone exactly where the side's amount is `c`. -/
theorem alone_iff {side : Text → Route → Prop} {id : Text} {route : Route} {c : ℤ}
    (hpositive : ∀ row ∈ rows, 0 < row.amount) (hside : ∀ row ∈ rows, p row ↔ ∃ route, side row.routeId route)
    (hused : ∀ id route, side id route → ∃ row ∈ rows, row.routeId = id) (hroute : side id route)
    (hone : amountWhere (·.routeId = id) rows = c) :
    (∀ id' route', side id' route' → id' = id) ↔ amountWhere p rows = c := by
  have hmine : amountWhere (fun row => p row ∧ row.routeId = id) rows = c := by
    rw [← hone]
    refine amountWhere_congr fun row hrow => ⟨And.right, fun hid => ⟨(hside row hrow).mpr ⟨route, ?_⟩, hid⟩⟩
    rw [hid]
    exact hroute
  have hsplit : _ = amountWhere p rows := amountWhere_add (q := (·.routeId = id))
  rw [hmine] at hsplit
  constructor
  · intro halone
    have hothers : amountWhere (fun row => p row ∧ ¬row.routeId = id) rows = 0 := by
      refine amountWhere_eq_zero fun row hrow hp => hp.2 ?_
      obtain ⟨route', hroute'⟩ := (hside row hrow).mp hp.1
      exact halone _ _ hroute'
    rw [← hsplit, hothers, add_zero]
  · intro htotal id' route' hroute'
    by_contra hne
    obtain ⟨row, hrow, rfl⟩ := hused id' route' hroute'
    have hother := amountWhere_pos (p := fun row => p row ∧ ¬row.routeId = id) hpositive hrow
      ⟨(hside row hrow).mpr ⟨route', hroute'⟩, hne⟩
    omega

end Amounts

/-! ### The two destinations of a source -/

section Source

variable {v : Verified} {pair : Text × Text} {planned : Planned}

theorem Passed.positive (hv : Passed v) : ∀ row ∈ v.rows, 0 < row.amount := by
  intro row hrow
  obtain ⟨_, -, -, hpositive⟩ := hv.row row hrow
  exact hpositive

/-- The routes of a source carry its plan. -/
theorem Passed.planned_eq (hv : Passed v) (haudited : Audited v.expected pair planned) {id : Text} {route : Route}
    (hroute : v.routes.get? id = some route) (hpair : route.pair = pair) : route.planned = planned := by
  have hrouted := (hv.routed id route hroute).audited
  rw [hpair] at hrouted
  exact hrouted.eq haudited

theorem Passed.total (hv : Passed v) (haudited : Audited v.expected pair planned) (hpositive : 0 < planned.amount) :
    amountWhere (·.pair = pair) v.rows = planned.amount := by
  obtain ⟨id, route, hroute, hpair⟩ := hv.covered pair planned haudited hpositive
  have htotal := (checkRoute_ok (hv.checked id route hroute)).2.2.1
  rwa [hpair, hv.planned_eq haudited hroute hpair] at htotal

/-- A row of a ready source goes to the destination of its route's group. -/
theorem Passed.destination (hv : Passed v) (haudited : Audited v.expected pair planned) (hready : ¬planned.Held)
    {row : Compiled} (hrow : row ∈ v.rows) (hpair : row.pair = pair) :
    ∃ route, v.routes.get? row.routeId = some route ∧ route.pair = pair ∧
      row.destination = expectedDestination pair.2 planned route.destinationId := by
  obtain ⟨route, hroute, hrowpair, -⟩ := hv.row row hrow
  have hroutepair : route.pair = pair := hrowpair.symm.trans hpair
  have hplanned := hv.planned_eq haudited hroute hroutepair
  have hrouted := hv.routed _ route hroute
  have hstatus := hrouted.status
  rw [hplanned, if_neg hready] at hstatus
  have hdestination := (checkRoute_ok (hv.checked _ route hroute)).2.2.2 hstatus row hrow rfl
  rw [hrouted.destination, hplanned] at hdestination
  obtain rfl := hroutepair
  exact ⟨route, hroute, rfl, hdestination⟩

theorem Passed.onWallet_iff (hv : Passed v) {row : Compiled} (hrow : row ∈ v.rows) :
    OnWallet v.routes pair row ↔ ∃ route, WalletSide v.routes pair row.routeId route := by
  obtain ⟨route, hroute, hpair, -⟩ := hv.row row hrow
  constructor
  · intro ⟨hrowpair, route', hroute', hwallet⟩
    obtain rfl := Option.some.inj (hroute.symm.trans hroute')
    exact ⟨route, hroute, hpair.symm.trans hrowpair, hwallet⟩
  · intro ⟨route', hroute', hrowpair, hwallet⟩
    obtain rfl := Option.some.inj (hroute.symm.trans hroute')
    exact ⟨hpair.trans hrowpair, route, hroute, hwallet⟩

theorem Passed.onStaking_iff (hv : Passed v) {row : Compiled} (hrow : row ∈ v.rows) :
    (row.pair = pair ∧ ¬OnWallet v.routes pair row) ↔ ∃ route, StakingSide v.routes pair row.routeId route := by
  obtain ⟨route, hroute, hpair, -⟩ := hv.row row hrow
  constructor
  · intro ⟨hrowpair, hwallet⟩
    refine ⟨route, hroute, hpair.symm.trans hrowpair, ?_⟩
    by_contra hstaking
    exact hwallet ⟨hrowpair, route, hroute, hstaking⟩
  · intro ⟨route', hroute', hrowpair, hstaking⟩
    obtain rfl := Option.some.inj (hroute.symm.trans hroute')
    refine ⟨hpair.trans hrowpair, fun ⟨_, route', hroute', hwallet⟩ => ?_⟩
    obtain rfl := Option.some.inj (hroute.symm.trans hroute')
    exact hwallet hstaking

/-- The rows of the wallet side are the ones to the wallet destination, and the rest are the ones to the other. -/
theorem Passed.destination_iff (hv : Passed v) (haudited : Audited v.expected pair planned) (hready : ¬planned.Held)
    (hsame : ¬planned.SameAddress) (hne : planned.walletDestination ≠ planned.stakingDestination) {row : Compiled}
    (hrow : row ∈ v.rows) (hpair : row.pair = pair) :
    (row.destination = planned.walletDestination ↔ OnWallet v.routes pair row) ∧
      (row.destination = planned.stakingDestination ↔ ¬OnWallet v.routes pair row) := by
  obtain ⟨route, hroute, hroutepair, hdestination⟩ := hv.destination haudited hready hrow hpair
  unfold expectedDestination at hdestination
  rw [if_neg hsame] at hdestination
  by_cases hstaking : stakingSuffix <:+ route.destinationId
  · rw [if_pos hstaking] at hdestination
    have hside := (hv.onStaking_iff hrow).mpr ⟨route, hroute, hroutepair, hstaking⟩
    simp [hdestination, hside.2, hne.symm]
  · rw [if_neg hstaking] at hdestination
    have hside := (hv.onWallet_iff hrow).mpr ⟨route, hroute, hroutepair, hstaking⟩
    simp [hdestination, hside, hne]

theorem Passed.side_total (hv : Passed v) (haudited : Audited v.expected pair planned) (hpositive : 0 < planned.amount) :
    amountWhere (OnWallet v.routes pair) v.rows + amountWhere (fun row => row.pair = pair ∧ ¬OnWallet v.routes pair row) v.rows =
      planned.amount := by
  rw [← hv.total haudited hpositive, ← amountWhere_add (p := (·.pair = pair)) (q := OnWallet v.routes pair)]
  congr 1
  exact amountWhere_congr fun row _ => ⟨fun h => ⟨h.1, h⟩, And.right⟩

/-- A split wallet route alone on its side, and only that, settles the wallet side. -/
theorem Passed.wallet_alone (hv : Passed v) (haudited : Audited v.expected pair planned) {id : Text} {route : Route}
    (hside : WalletSide v.routes pair id route) (hsuffix : route.suffix = walletSuffix) :
    (∀ id' route', WalletSide v.routes pair id' route' → id' = id) ↔
      amountWhere (OnWallet v.routes pair) v.rows = planned.walletComponent := by
  refine alone_iff hv.positive (fun row hrow => hv.onWallet_iff hrow) (fun _ _ h => hv.used _ _ h.1) hside ?_
  rw [(checkRoute_ok (hv.checked id route hside.1)).1 hsuffix, hv.planned_eq haudited hside.1 hside.2.1]

theorem Passed.staking_alone (hv : Passed v) (haudited : Audited v.expected pair planned) {id : Text} {route : Route}
    (hside : StakingSide v.routes pair id route) (hsuffix : route.suffix = stakingSuffix) :
    (∀ id' route', StakingSide v.routes pair id' route' → id' = id) ↔
      amountWhere (fun row => row.pair = pair ∧ ¬OnWallet v.routes pair row) v.rows = planned.stakingComponent := by
  refine alone_iff hv.positive (fun row hrow => hv.onStaking_iff hrow) (fun _ _ h => hv.used _ _ h.1) hside ?_
  rw [(checkRoute_ok (hv.checked id route hside.1)).2.1 hsuffix, hv.planned_eq haudited hside.1 hside.2.1]

/-- A wallet side shows that the exchange's own destination is not a staking one. -/
theorem Passed.wallet_destination (hv : Passed v) (haudited : Audited v.expected pair planned)
    (hsame : ¬planned.SameAddress) {id : Text} {route : Route} (hside : WalletSide v.routes pair id route) :
    ¬stakingSuffix <:+ routePrefix ++ pair.1 := by
  have hplanned := hv.planned_eq haudited hside.1 hside.2.1
  have hrouted := hv.routed id route hside.1
  have hexchange : route.exchangeId = pair.1 := congrArg Prod.fst hside.2.1
  have hnot := hside.2.2
  rcases hrouted.shape (hplanned ▸ hsame) with ⟨-, hmem⟩ | ⟨-, heq⟩ | ⟨-, heq⟩
  · rcases List.mem_pair.mp hmem with heq | heq
    · rwa [← hexchange, ← heq]
    · exact absurd (heq ▸ List.suffix_append _ _) hnot
  · rwa [← hexchange, ← heq]
  · exact absurd (heq ▸ List.suffix_append _ _) hnot

/-- Beside a wallet side, a split route lies on the side of its suffix. -/
theorem Passed.split_side (hv : Passed v) (haudited : Audited v.expected pair planned) (hsame : ¬planned.SameAddress)
    (hwallet : ∃ id route, WalletSide v.routes pair id route) {id : Text} {route : Route}
    (hroute : v.routes.get? id = some route) (hpair : route.pair = pair) :
    route.suffix = [] ∨ route.suffix = walletSuffix ∧ WalletSide v.routes pair id route ∨
      route.suffix = stakingSuffix ∧ StakingSide v.routes pair id route := by
  obtain ⟨_, _, hside⟩ := hwallet
  have hexchange : route.exchangeId = pair.1 := congrArg Prod.fst hpair
  have hdestination := hv.wallet_destination haudited hsame hside
  have hplanned := hv.planned_eq haudited hroute hpair
  rcases (hv.routed id route hroute).shape (hplanned ▸ hsame) with ⟨hsuffix, -⟩ | ⟨hsuffix, heq⟩ | ⟨hsuffix, heq⟩
  · exact .inl hsuffix
  · refine .inr (.inl ⟨hsuffix, hroute, hpair, ?_⟩)
    rwa [heq, hexchange]
  · refine .inr (.inr ⟨hsuffix, hroute, hpair, ?_⟩)
    rw [heq]
    exact List.suffix_append _ _

/-- Where both sides have routes, the wallet side's amount is the wallet component exactly where the shapes or the rows
say so. -/
theorem Passed.dividesBoth_iff (hv : Passed v) (haudited : Audited v.expected pair planned)
    (hpositive : 0 < planned.amount) (hsame : ¬planned.SameAddress)
    (hwallet : ∃ id route, WalletSide v.routes pair id route)
    (hsum : planned.walletComponent + planned.stakingComponent = planned.amount) :
    DividesBoth v pair planned ↔ amountWhere (OnWallet v.routes pair) v.rows = planned.walletComponent := by
  have htotal := hv.side_total haudited hpositive
  constructor
  · intro h
    rcases h with ⟨id, route, hside, hsuffix, halone⟩ | ⟨id, route, hside, hsuffix, halone⟩ | ⟨-, h⟩
    · exact (hv.wallet_alone haudited hside hsuffix).mp halone
    · have hstaking := (hv.staking_alone haudited hside hsuffix).mp halone
      omega
    · exact h
  · intro h
    by_cases hwalletRoute : ∃ id route, WalletSide v.routes pair id route ∧ route.suffix = walletSuffix
    · obtain ⟨id, route, hside, hsuffix⟩ := hwalletRoute
      exact .inl ⟨id, route, hside, hsuffix, (hv.wallet_alone haudited hside hsuffix).mpr h⟩
    by_cases hstakingRoute : ∃ id route, StakingSide v.routes pair id route ∧ route.suffix = stakingSuffix
    · obtain ⟨id, route, hside, hsuffix⟩ := hstakingRoute
      refine .inr (.inl ⟨id, route, hside, hsuffix, (hv.staking_alone haudited hside hsuffix).mpr ?_⟩)
      omega
    · refine .inr (.inr ⟨fun id route hroute hpair => ?_, h⟩)
      rcases hv.split_side haudited hsame hwallet hroute hpair with hsuffix | ⟨hsuffix, hside⟩ | ⟨hsuffix, hside⟩
      · exact hsuffix
      · exact absurd ⟨id, route, hside, hsuffix⟩ hwalletRoute
      · exact absurd ⟨id, route, hside, hsuffix⟩ hstakingRoute

/-- The split of a source between its two sides is the planned one exactly where its routes force it. -/
theorem Passed.divides_iff (hv : Passed v) (haudited : Audited v.expected pair planned) (hpositive : 0 < planned.amount)
    (hsame : ¬planned.SameAddress) :
    (amountWhere (OnWallet v.routes pair) v.rows = planned.walletComponent ∧
      amountWhere (fun row => row.pair = pair ∧ ¬OnWallet v.routes pair row) v.rows = planned.stakingComponent) ↔
      Divides v pair planned := by
  have htotal := hv.side_total haudited hpositive
  have hnoWallet : (∀ id route, ¬WalletSide v.routes pair id route) → amountWhere (OnWallet v.routes pair) v.rows = 0 := by
    intro hnone
    refine amountWhere_eq_zero fun row hrow hside => ?_
    obtain ⟨route, hroute⟩ := (hv.onWallet_iff hrow).mp hside
    exact hnone _ _ hroute
  have hnoStaking : (∀ id route, ¬StakingSide v.routes pair id route) →
      amountWhere (fun row => row.pair = pair ∧ ¬OnWallet v.routes pair row) v.rows = 0 := by
    intro hnone
    refine amountWhere_eq_zero fun row hrow hside => ?_
    obtain ⟨route, hroute⟩ := (hv.onStaking_iff hrow).mp hside
    exact hnone _ _ hroute
  unfold Divides
  rw [if_neg hsame]
  constructor
  · intro ⟨hwallet, hstaking⟩
    have hsum : planned.walletComponent + planned.stakingComponent = planned.amount := by omega
    refine ⟨hsum, fun hnone => ?_, fun hnone => ?_, fun hsome _ => ?_⟩
    · rw [← hwallet, hnoWallet hnone]
    · rw [← hstaking, hnoStaking hnone]
    · exact (hv.dividesBoth_iff haudited hpositive hsame hsome hsum).mpr hwallet
  · intro ⟨hsum, hwalletZero, hstakingZero, hboth⟩
    by_cases hsomeWallet : ∃ id route, WalletSide v.routes pair id route
    · by_cases hsomeStaking : ∃ id route, StakingSide v.routes pair id route
      · have hwallet := (hv.dividesBoth_iff haudited hpositive hsame hsomeWallet hsum).mp (hboth hsomeWallet hsomeStaking)
        exact ⟨hwallet, by omega⟩
      · have hnone : ∀ id route, ¬StakingSide v.routes pair id route := fun id route h => hsomeStaking ⟨id, route, h⟩
        have hzero := hnoStaking hnone
        have hcomponent := hstakingZero hnone
        omega
    · have hnone : ∀ id route, ¬WalletSide v.routes pair id route := fun id route h => hsomeWallet ⟨id, route, h⟩
      have hzero := hnoWallet hnone
      have hcomponent := hwalletZero hnone
      omega

/-- All that a same-address source has goes to the source. -/
theorem Passed.same_address (hv : Passed v) (haudited : Audited v.expected pair planned) (hpositive : 0 < planned.amount)
    (hready : ¬planned.Held) (hsame : planned.SameAddress) (destination : Text) :
    amountWhere (fun row => row.pair = pair ∧ row.destination = destination) v.rows =
      if pair.2 = destination then planned.amount else 0 := by
  have hrow : ∀ row ∈ v.rows, row.pair = pair → row.destination = pair.2 := by
    intro row hrow hpair
    obtain ⟨_, -, -, hdestination⟩ := hv.destination haudited hready hrow hpair
    rw [hdestination]
    exact if_pos hsame
  split_ifs with heq
  · rw [← hv.total haudited hpositive]
    refine amountWhere_congr fun row hmem => ⟨And.left, fun hpair => ⟨hpair, ?_⟩⟩
    rw [hrow row hmem hpair, heq]
  · refine amountWhere_eq_zero fun row hmem ⟨hpair, hdestination⟩ => heq ?_
    rw [← hrow row hmem hpair, hdestination]

/-- The amounts to the two planned destinations are the two components exactly where the routes force it. -/
theorem Passed.destinations_iff (hv : Passed v) (haudited : Audited v.expected pair planned)
    (hpositive : 0 < planned.amount) (hready : ¬planned.Held)
    (hne : planned.walletDestination ≠ planned.stakingDestination) :
    (amountWhere (fun row => row.pair = pair ∧ row.destination = planned.walletDestination) v.rows =
        planned.walletComponent ∧
      amountWhere (fun row => row.pair = pair ∧ row.destination = planned.stakingDestination) v.rows =
        planned.stakingComponent) ↔ Divides v pair planned := by
  by_cases hsame : planned.SameAddress
  · rw [hv.same_address haudited hpositive hready hsame, hv.same_address haudited hpositive hready hsame]
    unfold Divides
    rw [if_pos hsame, eq_comm, and_congr_right_iff]
    exact fun _ => eq_comm
  · rw [← hv.divides_iff haudited hpositive hsame]
    have hwallet : amountWhere (fun row => row.pair = pair ∧ row.destination = planned.walletDestination) v.rows =
        amountWhere (OnWallet v.routes pair) v.rows := by
      refine amountWhere_congr fun row hrow => ⟨fun h => ?_, fun h => ⟨h.1, ?_⟩⟩
      · exact (hv.destination_iff haudited hready hsame hne hrow h.1).1.mp h.2
      · exact (hv.destination_iff haudited hready hsame hne hrow h.1).1.mpr h
    have hstaking : amountWhere (fun row => row.pair = pair ∧ row.destination = planned.stakingDestination) v.rows =
        amountWhere (fun row => row.pair = pair ∧ ¬OnWallet v.routes pair row) v.rows := by
      refine amountWhere_congr fun row hrow => and_congr_right fun hpair => ?_
      exact (hv.destination_iff haudited hready hsame hne hrow hpair).2
    rw [hwallet, hstaking]

end Source

/-- A pass is sound exactly where the routes of every ready source with two destinations force its split. -/
theorem verify_sound_iff (u : Lower) (policy : Policy) (audits : Text → Option AuditFile) (routes : List RouteRow)
    (exceptions : List ExceptionRow) (v : Verified) (h : verify u policy audits routes exceptions = .ok v) :
    Sound u exceptions v ↔ ∀ pair planned, Audited v.expected pair planned → 0 < planned.amount → ¬planned.Held →
      planned.walletDestination ≠ planned.stakingDestination → Divides v pair planned := by
  obtain ⟨hv, hread⟩ := passed_of_verify h
  constructor
  · intro hsound pair planned haudited hpositive hready hne
    exact (hv.destinations_iff haudited hpositive hready hne).mp
      (hsound.destinations pair planned haudited hpositive hready hne)
  · intro hdivides
    constructor
    · intro row hrow hstart
      obtain ⟨c, hc, hok⟩ := hread row hrow hstart
      obtain ⟨_, -, hamount, -, heq⟩ := readCompiled_ok hok
      exact ⟨c, hc, congrArg Compiled.routeId heq, hamount, congrArg Compiled.destination heq⟩
    · intro row hrow
      obtain ⟨route, hroute, hpair, -⟩ := hv.row row hrow
      have hrouted := hv.routed _ route hroute
      exact ⟨route.planned, hpair ▸ hrouted.audited, hrouted.positive⟩
    · exact fun pair planned haudited hpositive => hv.total haudited hpositive
    · intro pair planned haudited hpositive hready hne
      exact (hv.destinations_iff haudited hpositive hready hne).mpr (hdivides pair planned haudited hpositive hready hne)

/-! ### One source with two destinations -/

def source : Text := "0x".toList ++ List.replicate 40 'a'

def walletAddress : Text := "0x".toList ++ List.replicate 40 'b'

def stakingAddress : Text := "0x".toList ++ List.replicate 40 'c'

def binancePolicy : Policy := ⟨["binance".toList], "100".toList⟩

/-- 600 of the wallet and 400 of the stakes, to two addresses. -/
def splitAudits (exchange : Text) : Option AuditFile :=
  if exchange = "binance".toList then
    some ⟨true, [⟨source, exchangeStage, exchangeTreatment, "1000".toList, "600".toList, "400".toList, walletAddress,
      stakingAddress, exchangeStatus, "aggregate_split".toList, exchangeTreatment⟩]⟩
  else none

def routeText (suffix : Text) : Text := "exchange-binance-".toList ++ List.replicate 40 'a' ++ suffix

def compiledRow (suffix amount destination : Text) : ExceptionRow :=
  ⟨routeText suffix, amount, exchangeStatus, exchangeStage, exchangeTreatment, destination⟩

/-- One whole-claim route to the exchange's wallet destination. -/
def wholeRoutes : List RouteRow :=
  [⟨routeText [], source, routeReason, exchangeStatus, "100".toList, allText, wholeMethod, "exchange-binance".toList, []⟩]

def splitPlanned : Planned :=
  ⟨1000, 600, 400, exchangeStage, exchangeTreatment, "aggregate_split".toList, exchangeStatus, walletAddress, stakingAddress⟩

def binancePair : Text × Text := ("binance".toList, source)

def wholeCompiled : Compiled :=
  ⟨routeText [], binancePair, 1000, exchangeStatus, exchangeStage, exchangeTreatment, walletAddress⟩

/-- The whole claim is compiled to the wallet destination, the staking component with it. -/
theorem whole_route_passes : ∃ v,
    verify asciiLower binancePolicy splitAudits wholeRoutes [compiledRow [] "1000".toList walletAddress] = .ok v ∧
      ¬Sound asciiLower [compiledRow [] "1000".toList walletAddress] v := by
  have hrun : (verify asciiLower binancePolicy splitAudits wholeRoutes
      [compiledRow [] "1000".toList walletAddress]).toOption.map
        (fun v => ((v.expected.get? binancePair.1).bind (·.get? binancePair.2), v.rows)) =
          some (some splitPlanned, [wholeCompiled]) := by decide +kernel
  obtain ⟨v, h, heval⟩ := Except.exists_ok_of_map hrun
  obtain ⟨hplanned, hrows⟩ := Prod.mk.inj heval
  refine ⟨v, h, fun hsound => ?_⟩
  obtain ⟨hwallet, -⟩ := hsound.destinations binancePair splitPlanned (Option.bind_eq_some_iff.mp hplanned)
    (by decide) (by decide) (by decide)
  rw [hrows] at hwallet
  exact absurd hwallet (by decide)

/-- A wallet route and a staking route, each to its own destination. -/
def splitRoutes : List RouteRow :=
  [⟨routeText walletSuffix, source, routeReason, exchangeStatus, "100".toList, "600".toList, walletOnly,
      "exchange-binance".toList, []⟩,
    ⟨routeText stakingSuffix, source, routeReason, exchangeStatus, "101".toList, allText, wholeMethod,
      "exchange-binance-staking".toList, []⟩]

def splitExceptions : List ExceptionRow :=
  [compiledRow walletSuffix "600".toList walletAddress, compiledRow stakingSuffix "400".toList stakingAddress]

def splitRoute (suffix destinationId destination : Text) : Route :=
  ⟨"binance".toList, source, suffix, splitPlanned, exchangeStatus, destinationId, destination⟩

def splitEntries : List (Text × Route) :=
  [(routeText walletSuffix, splitRoute walletSuffix "exchange-binance".toList walletAddress),
    (routeText stakingSuffix, splitRoute stakingSuffix "exchange-binance-staking".toList stakingAddress)]

theorem sound_split_routes : ∃ v,
    verify asciiLower binancePolicy splitAudits splitRoutes splitExceptions = .ok v ∧
      Sound asciiLower splitExceptions v := by
  have hexpected : (verify asciiLower binancePolicy splitAudits splitRoutes splitExceptions).toOption.map
      (fun v => v.expected.entries.map fun e => (e.1, e.2.entries)) =
        some [("binance".toList, [(source, splitPlanned)])] := by decide +kernel
  have hroutes : (verify asciiLower binancePolicy splitAudits splitRoutes splitExceptions).toOption.map
      (fun v => v.routes.entries) = some splitEntries := by decide +kernel
  obtain ⟨v, h, hroutes⟩ := Except.exists_ok_of_map hroutes
  rw [h] at hexpected
  replace hexpected : v.expected.entries.map (fun e => (e.1, e.2.entries)) = _ := Option.some.inj hexpected
  refine ⟨v, h, (verify_sound_iff asciiLower binancePolicy splitAudits splitRoutes splitExceptions v h).mpr ?_⟩
  intro pair planned haudited _ _ _
  obtain ⟨sources, hsources, hplanned⟩ := haudited
  have hmem := List.mem_map_of_mem (f := fun e => (e.1, e.2.entries)) (Dict.get?_eq_some_iff.mp hsources)
  rw [hexpected] at hmem
  obtain ⟨hexchange, hentries⟩ := Prod.mk.inj (List.mem_singleton.mp hmem)
  have hentry := Dict.get?_eq_some_iff.mp hplanned
  rw [hentries] at hentry
  obtain ⟨haddress, rfl⟩ := Prod.mk.inj (List.mem_singleton.mp hentry)
  obtain rfl : pair = binancePair := Prod.ext hexchange haddress
  have hget : ∀ id route, v.routes.get? id = some route ↔ (id, route) ∈ splitEntries := by
    intro id route
    rw [Dict.get?_eq_some_iff, hroutes]
  have hwallet : WalletSide v.routes binancePair (routeText walletSuffix)
      (splitRoute walletSuffix "exchange-binance".toList walletAddress) :=
    ⟨(hget _ _).mpr (by decide), by decide, by decide⟩
  have hstaking : StakingSide v.routes binancePair (routeText stakingSuffix)
      (splitRoute stakingSuffix "exchange-binance-staking".toList stakingAddress) :=
    ⟨(hget _ _).mpr (by decide), by decide, by decide⟩
  unfold Divides
  rw [if_neg (by decide)]
  refine ⟨by decide, fun hnone => absurd hwallet (hnone _ _), fun hnone => absurd hstaking (hnone _ _), fun _ _ => ?_⟩
  refine .inl ⟨_, _, hwallet, rfl, fun id route hside => ?_⟩
  have hentry := (hget id route).mp hside.1
  rcases List.mem_pair.mp hentry with heq | heq
  · exact congrArg Prod.fst heq
  · obtain ⟨-, rfl⟩ := Prod.mk.inj heq
    exact absurd (by decide) hside.2.2

end HarmonyMigration.ExchangeRouting
