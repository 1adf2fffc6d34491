import HarmonyMigration.Routing.Compile

/-! One source through the routing loop: what a route takes, and what every run of routes conserves. -/

namespace HarmonyMigration.Routing

open Erc20 Except Claims

variable {source : Source} {route : Route} {s s' : Remaining}

/-! ### What one route does -/

/-- A successful step: its amount, the two parts and the split of the vault part. -/
structure Taken (source : Source) (route : Route) (s s' : Remaining) where
  treatment : Treatment
  amount : ℤ
  part : ℤ × ℤ
  left : List Position
  result : List (Position × ℤ)
  treatment_ok : routeTreatment route.reason route.destinationStatus = .ok treatment
  amount_ok : routeAmount source route s.total = .ok amount
  amount_le : amount ≤ s.total
  amount_ne : amount ≠ 0
  part_ok : components route.method s.wallet amount = .ok part
  split_ok : proRata part.2 s.positions = .ok (left, result)
  wallet : s'.wallet = s.wallet - part.1
  positions : s'.positions = left
  walletRows : s'.walletRows =
    s.walletRows ++ Routing.walletRows source part.1 (route.delivery (routeStage source route.reason) treatment)
  shareRows : s'.shareRows =
    s.shareRows ++ Routing.shareRows result (route.delivery (routeStage source route.reason) treatment)

theorem taken_of_routeStep (h : routeStep source route s = .ok s') : Nonempty (Taken source route s s') := by
  unfold routeStep at h
  obtain ⟨treatment, htreatment, h⟩ := of_bind_ok h
  obtain ⟨amount, hamount, h⟩ := of_bind_ok h
  rw [require_bind_ok, require_bind_ok] at h
  obtain ⟨hle, hne, h⟩ := h
  obtain ⟨part, hpart, h⟩ := of_bind_ok h
  obtain ⟨split, hsplit, rfl⟩ := of_map_ok h
  exact ⟨treatment, amount, part, split.1, split.2, htreatment, hamount, hle, hne, hpart, hsplit, rfl, rfl, rfl, rfl⟩

/-- What the ledger promises of a route and its source: no amount below zero. -/
structure Positive (source : Source) (route : Route) : Prop where
  exact : ∀ n, route.amount = .exact n → 0 < n
  liquid : ∀ n, source.liquidShard0 = some n → 0 ≤ n

theorem components_ok {method : Method} {wallet amount : ℤ} {part : ℤ × ℤ}
    (h : components method wallet amount = .ok part) (hw : 0 ≤ wallet) (ha : 0 ≤ amount) :
    0 ≤ part.1 ∧ part.1 ≤ wallet ∧ 0 ≤ part.2 := by
  cases method with
  | walletFirstProRataVault =>
    obtain rfl : (min wallet amount, amount - min wallet amount) = part := by simpa [components] using h
    dsimp only
    omega
  | walletOnly =>
    obtain ⟨u, hu, rfl⟩ := of_map_ok h
    exact ⟨ha, of_require_ok hu, le_rfl⟩
  | vaultOnlyProRata =>
    obtain rfl : (0, amount) = part := by simpa [components] using h
    exact ⟨le_rfl, hw, ha⟩

theorem components_sum {method : Method} {wallet amount : ℤ} {part : ℤ × ℤ}
    (h : components method wallet amount = .ok part) : part.1 + part.2 = amount := by
  cases method with
  | walletFirstProRataVault =>
    obtain rfl : (min wallet amount, amount - min wallet amount) = part := by simpa [components] using h
    dsimp only
    omega
  | walletOnly =>
    obtain ⟨u, -, rfl⟩ := of_map_ok h
    exact add_zero amount
  | vaultOnlyProRata =>
    obtain rfl : (0, amount) = part := by simpa [components] using h
    exact zero_add amount

theorem Remaining.total_nonneg (hw : 0 ≤ s.wallet) (hp : ∀ p ∈ s.positions, 0 ≤ p.remaining) : 0 ≤ s.total :=
  add_nonneg hw (vaultRemaining_nonneg hp)

theorem Taken.amount_pos (t : Taken source route s s') (hpos : Positive source route) (htotal : 0 ≤ s.total) :
    0 < t.amount := by
  have hne := t.amount_ne
  have hok := t.amount_ok
  unfold routeAmount at hok
  cases hr : route.amount with
  | exact n =>
    rw [hr] at hok
    obtain rfl : n = t.amount := by simpa using hok
    exact hpos.exact _ hr
  | all =>
    rw [hr] at hok
    obtain hok : s.total = t.amount := by simpa using hok
    omega
  | shard0Liquid =>
    rw [hr] at hok
    cases hl : source.liquidShard0 with
    | none => simp [hl] at hok
    | some liquid =>
      obtain rfl : liquid = t.amount := by simpa [hl] using hok
      have := hpos.liquid _ hl
      omega

/-! ### Conservation over a run -/

/-- What the rows give at a validator. -/
def sharesAt (rows : List CompiledShare) (validator : ℕ) : ℤ :=
  ((rows.filter fun r => r.validatorKey = validator).map CompiledShare.amount).sum

/-- A share row is cut from a position. -/
def CutFrom (positions : List Position) (r : CompiledShare) : Prop :=
  ∃ p ∈ positions, r.validatorKey = p.validatorKey ∧ r.validatorAddress = p.validatorAddress ∧
    r.delegatorKey = p.delegatorKey ∧ r.delegatorAddress = p.delegatorAddress ∧
    r.sourceCategory = p.sourceCategory ∧ r.sourceCodeBearing = p.sourceCodeBearing

/-- A wallet row is its source's. -/
def PaidBy (source : Source) (r : WalletRow) : Prop :=
  r.sourceKey = source.key ∧ r.sourceAddress = source.address ∧ r.sourceCategory = source.routingCategory ∧
    r.sourceCodeBearing = source.codeBearing

/-- What is left and what is written make up the claim, at every step of the loop. -/
structure Balanced (source : Source) (positions : List Position) (s : Remaining) : Prop where
  positions_nonneg : ∀ p ∈ s.positions, 0 ≤ p.remaining
  blank : s.positions.map Position.blank = positions.map Position.blank
  wallet : s.wallet + (s.walletRows.map WalletRow.amount).sum = source.wallet
  shares : ∀ v, heldAt s.positions v + sharesAt s.shareRows v = heldAt positions v
  staked : vaultRemaining s.positions + (s.shareRows.map CompiledShare.amount).sum = vaultRemaining positions
  walletRow : ∀ r ∈ s.walletRows, PaidBy source r
  shareRow : ∀ r ∈ s.shareRows, 0 < r.amount ∧ CutFrom positions r

/-- With routes of positive amounts, the wallet stays at least zero and its rows are positive. -/
structure Conserved (source : Source) (positions : List Position) (s : Remaining) : Prop
    extends Balanced source positions s where
  wallet_nonneg : 0 ≤ s.wallet
  walletPos : ∀ r ∈ s.walletRows, 0 < r.amount

theorem sharesAt_append (rows rows' : List CompiledShare) (v : ℕ) :
    sharesAt (rows ++ rows') v = sharesAt rows v + sharesAt rows' v := by
  simp [sharesAt]

theorem sharesAt_shareRows (result : List (Position × ℤ)) (d : Delivery) (v : ℕ) :
    sharesAt (shareRows result d) v = takenAt result v := by
  rw [sharesAt, takenAt, shareRows, List.filter_map, List.map_map]
  rfl

theorem sum_shareRows (result : List (Position × ℤ)) (d : Delivery) :
    ((shareRows result d).map CompiledShare.amount).sum = (result.map Prod.snd).sum := by
  rw [shareRows, List.map_map]
  rfl

theorem sum_walletRows (source : Source) (amount : ℤ) (d : Delivery) :
    ((walletRows source amount d).map WalletRow.amount).sum = amount := by
  unfold walletRows
  split_ifs with h
  · simp [h]
  · simp

theorem walletRows_delivery {amount : ℤ} {d : Delivery} : ∀ r ∈ walletRows source amount d, r.delivery = d := by
  intro r hr
  unfold walletRows at hr
  split_ifs at hr with h
  · simp at hr
  · rw [List.mem_singleton.mp hr]

theorem shareRows_delivery {result : List (Position × ℤ)} {d : Delivery} :
    ∀ r ∈ shareRows result d, r.delivery = d := by
  intro r hr
  obtain ⟨x, -, rfl⟩ := List.mem_map.mp hr
  rfl

theorem cutFrom_of_blank {positions left : List Position} {r : CompiledShare}
    (hblank : left.map Position.blank = positions.map Position.blank) (h : CutFrom left r) : CutFrom positions r := by
  obtain ⟨p, hp, hr⟩ := h
  have hmem : p.blank ∈ positions.map Position.blank := hblank ▸ List.mem_map_of_mem hp
  obtain ⟨q, hq, hqp⟩ := List.mem_map.mp hmem
  refine ⟨q, hq, ?_⟩
  simp only [Position.blank, Position.mk.injEq] at hqp
  obtain ⟨h1, h2, h3, h4, h5, h6, -⟩ := hqp
  rw [h1, h2, h3, h4, h5, h6]
  exact hr

/-- A cut of the wallet and a split of the positions balance. -/
theorem Balanced.cut {positions left : List Position} {shares : List ℤ} {result : List (Position × ℤ)}
    {amount : ℤ} (h : Balanced source positions s) (hs : Split s.positions amount shares left result) (wallet : ℤ)
    (d : Delivery) : Balanced source positions
      { wallet := s.wallet - wallet
        positions := left
        walletRows := s.walletRows ++ walletRows source wallet d
        shareRows := s.shareRows ++ shareRows result d } where
  positions_nonneg := hs.left_nonneg
  blank := hs.left_blank.trans h.blank
  wallet := by
    have hrows := sum_walletRows source wallet d
    have := h.wallet
    simp only [List.map_append, List.sum_append, hrows]
    omega
  shares v := by
    have hsplit := hs.held_add_taken v
    have := h.shares v
    simp only [sharesAt_append, sharesAt_shareRows]
    omega
  staked := by
    have hleft := hs.left_sum
    have hrows := sum_shareRows result d
    have := h.staked
    rw [hs.result_sum] at hrows
    simp only [List.map_append, List.sum_append, hrows]
    omega
  walletRow r hr := by
    rcases List.mem_append.mp hr with hr | hr
    · exact h.walletRow r hr
    · unfold walletRows at hr
      split_ifs at hr with hz
      · simp at hr
      · rw [List.mem_singleton.mp hr]
        exact ⟨rfl, rfl, rfl, rfl⟩
  shareRow r hr := by
    rcases List.mem_append.mp hr with hr | hr
    · exact h.shareRow r hr
    · obtain ⟨x, hx, rfl⟩ := List.mem_map.mp hr
      obtain ⟨hmem, hpos⟩ := hs.result_pos x hx
      exact ⟨hpos, cutFrom_of_blank h.blank ⟨x.1, hmem, rfl, rfl, rfl, rfl, rfl, rfl⟩⟩

theorem walletRows_pos {wallet : ℤ} {d : Delivery} (hw : 0 ≤ wallet) :
    ∀ r ∈ walletRows source wallet d, 0 < r.amount := by
  intro r hr
  unfold walletRows at hr
  split_ifs at hr with hz
  · simp at hr
  · rw [List.mem_singleton.mp hr]
    exact lt_of_le_of_ne hw (Ne.symm hz)

theorem Conserved.cut {positions left : List Position} {shares : List ℤ} {result : List (Position × ℤ)}
    {wallet amount : ℤ} {d : Delivery} (h : Conserved source positions s)
    (hw : 0 ≤ wallet ∧ wallet ≤ s.wallet) (hs : Split s.positions amount shares left result) :
    Conserved source positions
      { wallet := s.wallet - wallet
        positions := left
        walletRows := s.walletRows ++ walletRows source wallet d
        shareRows := s.shareRows ++ shareRows result d } where
  toBalanced := h.toBalanced.cut hs wallet d
  wallet_nonneg := by
    dsimp only
    omega
  walletPos r hr := by
    rcases List.mem_append.mp hr with hr | hr
    · exact h.walletPos r hr
    · exact walletRows_pos hw.1 r hr

theorem Remaining.eq_mk {w : ℤ} {ps : List Position} {ws : List WalletRow} {ss : List CompiledShare}
    (h1 : s.wallet = w) (h2 : s.positions = ps) (h3 : s.walletRows = ws) (h4 : s.shareRows = ss) :
    s = ⟨w, ps, ws, ss⟩ := by
  subst h1 h2 h3 h4
  rfl

theorem Taken.balanced {positions : List Position} (t : Taken source route s s') (h : Balanced source positions s) :
    Balanced source positions s' := by
  obtain ⟨shares, hsplit, -⟩ := split_of_proRata t.split_ok h.positions_nonneg
  have hs' := Remaining.eq_mk t.wallet t.positions t.walletRows t.shareRows
  exact hs' ▸ h.cut hsplit _ _

/-- A route takes its amount from the total. -/
theorem Taken.total {positions : List Position} (t : Taken source route s s') (h : Balanced source positions s) :
    s'.total + t.amount = s.total := by
  obtain ⟨shares, hsplit, -⟩ := split_of_proRata t.split_ok h.positions_nonneg
  have hpart := components_sum t.part_ok
  have hsum := hsplit.left_sum
  rw [Remaining.total, Remaining.total, t.wallet, t.positions]
  omega

theorem Taken.conserved {positions : List Position} (t : Taken source route s s') (hpos : Positive source route)
    (h : Conserved source positions s) : Conserved source positions s' := by
  have hamount := t.amount_pos hpos (Remaining.total_nonneg h.wallet_nonneg h.positions_nonneg)
  obtain ⟨h1, h2, -⟩ := components_ok t.part_ok h.wallet_nonneg hamount.le
  obtain ⟨shares, hsplit, -⟩ := split_of_proRata t.split_ok h.positions_nonneg
  have hs' := Remaining.eq_mk t.wallet t.positions t.walletRows t.shareRows
  exact hs' ▸ h.cut ⟨h1, h2⟩ hsplit

theorem balanced_start (source : Source) {positions : List Position} (hp : ∀ p ∈ positions, 0 ≤ p.remaining) :
    Balanced source positions ⟨source.wallet, positions, [], []⟩ where
  positions_nonneg := hp
  blank := rfl
  wallet := by simp
  shares v := by simp [sharesAt]
  staked := by simp
  walletRow := by simp
  shareRow := by simp

theorem conserved_start (source : Source) {positions : List Position} (hw : 0 ≤ source.wallet)
    (hp : ∀ p ∈ positions, 0 ≤ p.remaining) : Conserved source positions ⟨source.wallet, positions, [], []⟩ where
  toBalanced := balanced_start source hp
  wallet_nonneg := hw
  walletPos := by simp

theorem compileRoutes_balanced {positions : List Position} {routes : List Route}
    (h : compileRoutes source routes s = .ok s') (hs : Balanced source positions s) :
    Balanced source positions s' := by
  induction routes generalizing s with
  | nil =>
    obtain rfl : s = s' := by simpa [compileRoutes] using h
    exact hs
  | cons r routes ih =>
    obtain ⟨s1, hstep, h⟩ := of_bind_ok h
    obtain ⟨t⟩ := taken_of_routeStep hstep
    exact ih h (t.balanced hs)

theorem compileRoutes_conserved {positions : List Position} {routes : List Route}
    (h : compileRoutes source routes s = .ok s') (hpos : ∀ r ∈ routes, Positive source r)
    (hs : Conserved source positions s) : Conserved source positions s' := by
  induction routes generalizing s with
  | nil =>
    obtain rfl : s = s' := by simpa [compileRoutes] using h
    exact hs
  | cons r routes ih =>
    obtain ⟨s1, hstep, h⟩ := of_bind_ok h
    obtain ⟨t⟩ := taken_of_routeStep hstep
    exact ih h (fun r hr => hpos r (by simp [hr])) (t.conserved (hpos r (by simp)) hs)

/-- The default delivery empties what is left. -/
theorem compileDefault_balanced {positions : List Position} {path : String}
    (h : compileDefault path source s = .ok s') (hs : Balanced source positions s) :
    Balanced source positions s' ∧ s'.wallet = 0 ∧ ∀ p ∈ s'.positions, p.remaining = 0 := by
  obtain ⟨split, hok, rfl⟩ := of_map_ok h
  obtain ⟨shares, hsplit, -⟩ := split_of_proRata hok hs.positions_nonneg
  have hcut := hs.cut hsplit s.wallet (defaultDelivery path source)
  rw [sub_self] at hcut
  exact ⟨hcut, rfl, hsplit.left_zero rfl⟩

/-! ### What each route contributes -/

def Delivery.ofRoute (d : Delivery) (id : String) : Bool := d.exceptionType = .explicitRoute ∧ d.routeId = id

/-- The amount of the rows that come from a route. -/
def contributed (walletRows : List WalletRow) (shareRows : List CompiledShare) (id : String) : ℤ :=
  ((walletRows.filter fun r => r.delivery.ofRoute id).map WalletRow.amount).sum +
    ((shareRows.filter fun r => r.delivery.ofRoute id).map CompiledShare.amount).sum

theorem contributed_append (w w' : List WalletRow) (sh sh' : List CompiledShare) (id : String) :
    contributed (w ++ w') (sh ++ sh') id = contributed w sh id + contributed w' sh' id := by
  simp only [contributed, List.filter_append, List.map_append, List.sum_append]
  ring

theorem contributed_delivery {w : List WalletRow} {sh : List CompiledShare} {d : Delivery} {id : String}
    (hw : ∀ r ∈ w, r.delivery = d) (hsh : ∀ r ∈ sh, r.delivery = d) :
    contributed w sh id =
      if d.ofRoute id then (w.map WalletRow.amount).sum + (sh.map CompiledShare.amount).sum else 0 := by
  unfold contributed
  by_cases hd : d.ofRoute id = true
  · rw [if_pos hd, List.filter_eq_self.mpr fun r hr => by rw [hw r hr, hd],
      List.filter_eq_self.mpr fun r hr => by rw [hsh r hr, hd]]
  · rw [if_neg hd, List.filter_eq_nil_iff.mpr fun r hr => by rw [hw r hr]; exact hd,
      List.filter_eq_nil_iff.mpr fun r hr => by rw [hsh r hr]; exact hd]
    rfl

theorem ofRoute_delivery (r : Route) (stage : Stage) (t : Treatment) (id : String) :
    (r.delivery stage t).ofRoute id = true ↔ r.routeId = id := by
  simp [Delivery.ofRoute, Route.delivery]

theorem defaultDelivery_not_ofRoute (path : String) (source : Source) (id : String) :
    (defaultDelivery path source).ofRoute id = false := by
  simp only [Delivery.ofRoute, defaultDelivery]
  split_ifs <;> simp

/-- A route's rows are the amount it took. -/
theorem Taken.contributed {positions : List Position} (t : Taken source route s s')
    (h : Balanced source positions s) (id : String) :
    contributed s'.walletRows s'.shareRows id =
      contributed s.walletRows s.shareRows id + if route.routeId = id then t.amount else 0 := by
  obtain ⟨shares, hsplit, -⟩ := split_of_proRata t.split_ok h.positions_nonneg
  rw [t.walletRows, t.shareRows, contributed_append, contributed_delivery walletRows_delivery shareRows_delivery,
    sum_walletRows, sum_shareRows, hsplit.result_sum, components_sum t.part_ok]
  simp only [ofRoute_delivery]

/-- Routes with other ids leave a route's rows alone. -/
theorem contributed_compileRoutes {positions : List Position} {routes : List Route} {id : String}
    (h : compileRoutes source routes s = .ok s') (hs : Balanced source positions s)
    (hid : id ∉ routes.map Route.routeId) :
    contributed s'.walletRows s'.shareRows id = contributed s.walletRows s.shareRows id := by
  induction routes generalizing s with
  | nil =>
    obtain rfl : s = s' := by simpa [compileRoutes] using h
    rfl
  | cons r routes ih =>
    obtain ⟨s1, hstep, h⟩ := of_bind_ok h
    obtain ⟨t⟩ := taken_of_routeStep hstep
    rw [List.map_cons, List.mem_cons, not_or] at hid
    rw [ih h (t.balanced hs) hid.2, t.contributed hs, if_neg (Ne.symm hid.1), add_zero]

/-- What the routes contribute is what they took from the total. -/
theorem total_compileRoutes {positions : List Position} {routes : List Route}
    (h : compileRoutes source routes s = .ok s') (hs : Balanced source positions s)
    (hnd : (routes.map Route.routeId).Nodup)
    (hnew : ∀ r ∈ routes, contributed s.walletRows s.shareRows r.routeId = 0) :
    s'.total + (routes.map fun r => contributed s'.walletRows s'.shareRows r.routeId).sum = s.total := by
  induction routes generalizing s with
  | nil =>
    obtain rfl : s = s' := by simpa [compileRoutes] using h
    simp
  | cons r routes ih =>
    obtain ⟨s1, hstep, h⟩ := of_bind_ok h
    obtain ⟨t⟩ := taken_of_routeStep hstep
    rw [List.map_cons, List.nodup_cons] at hnd
    have hs1 := t.balanced hs
    have htotal := t.total hs
    have hfirst : contributed s'.walletRows s'.shareRows r.routeId = t.amount := by
      rw [contributed_compileRoutes h hs1 hnd.1, t.contributed hs, if_pos rfl, hnew r (by simp), zero_add]
    have hih := ih h hs1 hnd.2 fun r' hr' => by
      have hne : r.routeId ≠ r'.routeId := fun heq => hnd.1 (heq ▸ List.mem_map_of_mem hr')
      rw [t.contributed hs, if_neg hne, add_zero]
      exact hnew r' (by simp [hr'])
    rw [List.map_cons, List.sum_cons, hfirst]
    omega

/-- A run of routes is two runs. -/
theorem compileRoutes_append {pre post : List Route} :
    compileRoutes source (pre ++ post) s = (compileRoutes source pre s).bind (compileRoutes source post) := by
  induction pre generalizing s with
  | nil => rfl
  | cons r pre ih =>
    rw [List.cons_append, compileRoutes, compileRoutes]
    cases routeStep source r s with
    | error e => rfl
    | ok s1 => exact ih

/-- In a whole run, a route gives the amount that it asks of what the earlier routes left. -/
theorem contributed_of_compileRoutes {positions : List Position} {pre post : List Route} {r : Route}
    (h : compileRoutes source (pre ++ r :: post) s = .ok s') (hs : Balanced source positions s)
    (hrows : s.walletRows = [] ∧ s.shareRows = []) (hnd : ((pre ++ r :: post).map Route.routeId).Nodup) :
    routeAmount source r
        (s.total - (pre.map fun r' => contributed s'.walletRows s'.shareRows r'.routeId).sum) =
      .ok (contributed s'.walletRows s'.shareRows r.routeId) := by
  rw [compileRoutes_append] at h
  obtain ⟨s1, hpre, h⟩ := of_bind_ok h
  obtain ⟨s2, hstep, hpost⟩ := of_bind_ok h
  obtain ⟨t⟩ := taken_of_routeStep hstep
  rw [List.map_append, List.map_cons, List.nodup_append, List.nodup_cons] at hnd
  obtain ⟨hndpre, ⟨hrpost, -⟩, hdisj⟩ := hnd
  have hempty : ∀ id, contributed s.walletRows s.shareRows id = 0 := fun id => by simp [contributed, hrows]
  have hs1 := compileRoutes_balanced hpre hs
  have hs2 := t.balanced hs1
  have hrpre : r.routeId ∉ pre.map Route.routeId := fun hm => hdisj _ hm _ (by simp) rfl
  have hmine : contributed s'.walletRows s'.shareRows r.routeId = t.amount := by
    rw [contributed_compileRoutes hpost hs2 hrpost, t.contributed hs1, if_pos rfl,
      contributed_compileRoutes hpre hs hrpre, hempty, zero_add]
  have hearlier : ∀ r' ∈ pre, contributed s'.walletRows s'.shareRows r'.routeId =
      contributed s1.walletRows s1.shareRows r'.routeId := fun r' hr' => by
    have hmem : r'.routeId ∈ pre.map Route.routeId := List.mem_map_of_mem hr'
    have hne : r.routeId ≠ r'.routeId := fun heq => hrpre (heq ▸ hmem)
    have hlater : r'.routeId ∉ post.map Route.routeId := fun hm => hdisj _ hmem _ (List.mem_cons_of_mem _ hm) rfl
    rw [contributed_compileRoutes hpost hs2 hlater, t.contributed hs1, if_neg hne, add_zero]
  have htotal := total_compileRoutes hpre hs hndpre fun r' _ => hempty _
  have hleft : s.total - (pre.map fun r' => contributed s'.walletRows s'.shareRows r'.routeId).sum = s1.total := by
    rw [List.map_congr_left hearlier]
    omega
  rw [hmine, hleft]
  exact t.amount_ok

/-! ### The rows of one source -/

/-- A row carries a route of its source, or the default. -/
def Delivered (path : String) (source : Source) (routes : List Route) (d : Delivery) : Prop :=
  (∃ r ∈ routes, ∃ t, routeTreatment r.reason r.destinationStatus = .ok t ∧
    d = r.delivery (routeStage source r.reason) t) ∨ d = defaultDelivery path source

theorem compileRoutes_delivered {P : Delivery → Prop} {routes : List Route} (h : compileRoutes source routes s = .ok s')
    (hw : ∀ r ∈ s.walletRows, P r.delivery) (hsh : ∀ r ∈ s.shareRows, P r.delivery)
    (hP : ∀ r ∈ routes, ∀ t, routeTreatment r.reason r.destinationStatus = .ok t →
      P (r.delivery (routeStage source r.reason) t)) :
    (∀ r ∈ s'.walletRows, P r.delivery) ∧ ∀ r ∈ s'.shareRows, P r.delivery := by
  induction routes generalizing s with
  | nil =>
    obtain rfl : s = s' := by simpa [compileRoutes] using h
    exact ⟨hw, hsh⟩
  | cons r routes ih =>
    obtain ⟨s1, hstep, h⟩ := of_bind_ok h
    obtain ⟨t⟩ := taken_of_routeStep hstep
    have hr := hP r (by simp) t.treatment t.treatment_ok
    refine ih h (fun x hx => ?_) (fun x hx => ?_) fun r' hr' => hP r' (by simp [hr'])
    · rw [t.walletRows] at hx
      rcases List.mem_append.mp hx with hx | hx
      · exact hw x hx
      · rwa [walletRows_delivery x hx]
    · rw [t.shareRows] at hx
      rcases List.mem_append.mp hx with hx | hx
      · exact hsh x hx
      · rwa [shareRows_delivery x hx]

/-- The rows that one source's loop body writes. -/
structure SourceRows (path : String) (source : Source) (routes : List Route) (positions : List Position)
    (rows : List WalletRow × List CompiledShare) : Prop where
  wallet : (rows.1.map WalletRow.amount).sum = source.wallet
  shares : ∀ v, sharesAt rows.2 v = heldAt positions v
  staked : (rows.2.map CompiledShare.amount).sum = vaultRemaining positions
  walletRow : ∀ r ∈ rows.1, PaidBy source r
  shareRow : ∀ r ∈ rows.2, 0 < r.amount ∧ CutFrom positions r
  walletDelivery : ∀ r ∈ rows.1, Delivered path source routes r.delivery
  shareDelivery : ∀ r ∈ rows.2, Delivered path source routes r.delivery

theorem heldAt_zero {positions : List Position} (h : ∀ p ∈ positions, p.remaining = 0) (v : ℕ) :
    heldAt positions v = 0 := by
  refine List.sum_eq_zero fun x hx => ?_
  obtain ⟨p, hp, rfl⟩ := List.mem_map.mp hx
  exact h p (List.mem_of_mem_filter hp)

theorem vaultRemaining_zero {positions : List Position} (h : ∀ p ∈ positions, p.remaining = 0) :
    vaultRemaining positions = 0 := by
  refine List.sum_eq_zero fun x hx => ?_
  obtain ⟨p, hp, rfl⟩ := List.mem_map.mp hx
  exact h p hp

theorem sourceRows_of_compileSource {path : String} {routes : List Route} {positions : List Position}
    {rows : List WalletRow × List CompiledShare} (h : compileSource path source routes positions = .ok rows)
    (hp : ∀ p ∈ positions, 0 ≤ p.remaining) : SourceRows path source routes positions rows := by
  obtain ⟨s1, hroutes, h⟩ := of_bind_ok h
  obtain ⟨s2, hdefault, rfl⟩ := of_map_ok h
  have hs1 := compileRoutes_balanced hroutes (balanced_start source hp)
  obtain ⟨hs2, hempty, hzero⟩ := compileDefault_balanced hdefault hs1
  obtain ⟨hdw, hdsh⟩ := compileRoutes_delivered (P := Delivered path source routes) hroutes (by simp) (by simp)
    fun r hr t ht => Or.inl ⟨r, hr, t, ht, rfl⟩
  obtain ⟨split, -, rfl⟩ := of_map_ok hdefault
  refine ⟨?_, fun v => ?_, ?_, hs2.walletRow, hs2.shareRow, fun r hr => ?_, fun r hr => ?_⟩
  · have := hs2.wallet
    dsimp only at this ⊢
    omega
  · have := hs2.shares v
    rw [heldAt_zero hzero] at this
    dsimp only at this ⊢
    omega
  · have := hs2.staked
    rw [vaultRemaining_zero hzero] at this
    dsimp only at this ⊢
    omega
  · rcases List.mem_append.mp hr with hr | hr
    · exact hdw r hr
    · exact Or.inr (walletRows_delivery r hr)
  · rcases List.mem_append.mp hr with hr | hr
    · exact hdsh r hr
    · exact Or.inr (shareRows_delivery r hr)

theorem walletPos_of_compileSource {path : String} {routes : List Route} {positions : List Position}
    {rows : List WalletRow × List CompiledShare} (h : compileSource path source routes positions = .ok rows)
    (hpos : ∀ r ∈ routes, Positive source r) (hw : 0 ≤ source.wallet) (hp : ∀ p ∈ positions, 0 ≤ p.remaining) :
    ∀ r ∈ rows.1, 0 < r.amount := by
  obtain ⟨s1, hroutes, h⟩ := of_bind_ok h
  obtain ⟨s2, hdefault, rfl⟩ := of_map_ok h
  have hs1 := compileRoutes_conserved hroutes hpos (conserved_start source hw hp)
  obtain ⟨split, -, rfl⟩ := of_map_ok hdefault
  intro r hr
  rcases List.mem_append.mp hr with hr | hr
  · exact hs1.walletPos r hr
  · exact walletRows_pos hs1.wallet_nonneg r hr

/-- The default delivery is no route's: the contributions are those of the routes. -/
theorem contributed_compileSource {path : String} {routes : List Route} {positions : List Position}
    {rows : List WalletRow × List CompiledShare} (h : compileSource path source routes positions = .ok rows) :
    ∃ s1, compileRoutes source routes ⟨source.wallet, positions, [], []⟩ = .ok s1 ∧
      ∀ id, contributed rows.1 rows.2 id = contributed s1.walletRows s1.shareRows id := by
  obtain ⟨s1, hroutes, h⟩ := of_bind_ok h
  obtain ⟨s2, hdefault, rfl⟩ := of_map_ok h
  obtain ⟨split, -, rfl⟩ := of_map_ok hdefault
  refine ⟨s1, hroutes, fun id => ?_⟩
  rw [contributed_append, contributed_delivery walletRows_delivery shareRows_delivery, defaultDelivery_not_ofRoute]
  simp

end HarmonyMigration.Routing
