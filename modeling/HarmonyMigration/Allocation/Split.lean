import HarmonyMigration.Allocation.Pool

/-! The collateral split of `pools.csv` on its two sides: `build_pool` writes it, and
`release_plan.one_split` reads it back against what the custody plan funds. The writer
keeps amounts below the minimum inside the retained part; the reader adds them beside it. -/

namespace HarmonyMigration.Allocation

open Erc20

/-- What `build_pool` is given for one pool, next to the run's policy. -/
structure PoolInput where
  pool : Pool
  planPool : PlanPool
  state : PoolState
  adjustments : Dict Address ℤ

/-- `minimum_claim_raw` and `minimum_claim_raw_by_pool`. -/
structure MinimumPolicy where
  minimum : ℤ
  byPool : Dict String ℤ

def MinimumPolicy.for (m : MinimumPolicy) (pid : String) : ℤ := m.byPool.getD pid m.minimum

/-- The loop of `main` over the planned pools. -/
def buildPools (policy : Policy) (m : MinimumPolicy) (inputs : List PoolInput) :
    Except BuildError (List (Summary × List Row)) :=
  inputs.mapM fun i =>
    buildPool i.pool i.planPool policy i.state i.adjustments (m.for i.pool.poolId)

/-- `one_funding` of the custody plan: how much the Reserve Safe sends, in all and by pool. -/
structure OneFunding where
  amount : ℤ
  pools : Dict String ℤ

def oneFunding (pools : List Summary) : OneFunding :=
  let onePools := pools.filter fun s => s.claimAsset = .one
  ⟨(onePools.map Summary.collateral).sum, .ofList (onePools.map fun s => (s.poolId, s.collateral))⟩

/-- `ONE_PARTS` of one pool, with the funded collateral. -/
structure Split where
  collateral : ℤ
  claimable : ℤ
  held : ℤ
  belowMinimum : ℤ
  retained : ℤ

inductive SplitError where
  | notInPoolsCsv (pool : String)
  | partsDoNotAddUp (pool : String) (amount : ℤ)
  deriving DecidableEq, Repr

def splitOne (rows : Dict String Summary) (pool : String) (amount : ℤ) :
    Except SplitError (String × Split) :=
  match rows.get? pool with
  | none => .error (.notInPoolsCsv pool)
  | some row =>
    if row.collateral ≠ amount ∨
        row.claimable + row.held + row.belowMinimum + row.retained ≠ amount then
      .error (.partsDoNotAddUp pool amount)
    else .ok (pool, ⟨amount, row.claimable, row.held, row.belowMinimum, row.retained⟩)

def oneSplit (poolsCsv : List Summary) (funding : OneFunding) : Except SplitError (List (String × Split)) :=
  let rows := Dict.ofList (poolsCsv.map fun s => (s.poolId, s))
  funding.pools.entries.mapM fun p => splitOne rows p.1 p.2

/-! ### The inputs' own terms -/

namespace PoolInput

/-- All holder rows summed by account. -/
def holdings (i : PoolInput) : Dict Address ℤ :=
  i.planPool.tokens.foldl (fun h token => token.rows.foldl (fun h row => h.add row.1 row.2) h) .empty

def gross (i : PoolInput) (account : Address) : ℤ :=
  max 0 (i.holdings.getD account 0 + i.adjustments.getD account 0)

/-- What class, exclusions and overrides make of an account. -/
def standing (policy : Policy) (i : PoolInput) (account : Address) : Option Status :=
  match decideAccount i.pool i.planPool policy i.holdings account with
  | .ok r => some r.2.1
  | .error _ => none

def eligibleTotal (policy : Policy) (i : PoolInput) : ℤ :=
  (((accounts i.holdings i.adjustments).filter fun a =>
    (i.standing policy a).any Status.eligible).map i.gross).sum

def collateral (i : PoolInput) : ℤ :=
  match collateralFor i.pool i.state with
  | .ok c => c.1
  | .error _ => 0

/-- The account may claim, and its share of the collateral is something, but less than the
minimum. -/
def BelowMinimum (policy : Policy) (minimum : ℤ) (i : PoolInput) (account : Address) : Prop :=
  i.standing policy account = some .claimable ∧
    0 < scaled i.collateral (i.eligibleTotal policy) (i.gross account) ∧
    scaled i.collateral (i.eligibleTotal policy) (i.gross account) < minimum

end PoolInput

/-! ### What `build_pool` computes -/

theorem loadHoldings_ok {i : PoolInput} {h : Dict Address ℤ} (hl : loadHoldings i.planPool = .ok h) :
    h = i.holdings := by
  unfold PoolInput.holdings loadHoldings at *
  generalize Dict.empty = d at *
  generalize i.planPool.tokens = tokens at *
  induction tokens generalizing d with
  | nil => exact (Except.ok.inj hl).symm
  | cons t ts ih =>
    rw [List.foldlM_cons] at hl
    obtain ⟨d', hd, hl⟩ := Except.of_bind_ok hl
    unfold loadToken at hd
    split_ifs at hd
    rw [List.foldl_cons, Except.ok.inj hd]
    exact ih d' hl

theorem statusFor_ne (c : Option AccountClass) (holderChain : String) (claimChain : Option String) :
    (statusFor c holderChain claimChain).1 ≠ .belowMinimum := by
  unfold statusFor
  split
  all_goals try split_ifs
  all_goals simp

theorem contractElsewhere_ne {account : Address} {holderChain : String} {claimChain : Option String}
    {classes : Dict (String × Address) AccountClass} {r : Status × String}
    (h : contractElsewhere account holderChain claimChain classes = some r) : r.1 ≠ .belowMinimum := by
  obtain ⟨p, -, hp⟩ := List.exists_of_findSome?_eq_some h
  simp only at hp
  split_ifs at hp with h1 h2
  rw [← Option.some.inj hp]
  exact statusFor_ne _ _ _

theorem decideAccount_ne {pool : Pool} {planPool : PlanPool} {policy : Policy} {holdings : Dict Address ℤ}
    {account : Address} {r : Option AccountClass × Status × Address × String}
    (h : decideAccount pool planPool policy holdings account = .ok r) : r.2.1 ≠ .belowMinimum := by
  have hclass : ∀ c hc cc, (byClass c hc cc policy account).1 ≠ .belowMinimum := by
    intro c hc cc
    unfold byClass
    split_ifs
    · cases he : contractElsewhere account hc cc policy.classes with
      | none => exact statusFor_ne _ _ _
      | some r => exact contractElsewhere_ne he
    · exact statusFor_ne _ _ _
  have hsystem : ∀ e : Status × String, e.1 ≠ .belowMinimum →
      (bySystem policy account e).1 ≠ .belowMinimum := by
    intro e he
    unfold bySystem
    split
    · simp
    · split
      · simp
      · exact he
  have hexcl : ∀ e : Status × String, e.1 ≠ .belowMinimum →
      (byExclusion pool.poolId planPool.claimantChain policy account e).1 ≠ .belowMinimum := by
    intro e he
    unfold byExclusion
    split
    · split_ifs
      · simp
      · exact he
    · exact he
  unfold decideAccount at h
  simp only at h
  split at h
  · rw [← Except.ok.inj h]
    exact hexcl _ (hsystem _ (hclass _ _ _))
  · split at h <;> first | (cases h; done) | (rw [← Except.ok.inj h]; simp)

/-- The rows before scaling carry the inputs' own terms. -/
theorem accountRow_ok {policy : Policy} {i : PoolInput} {account : Address} {row : Row}
    (h : accountRow i.pool i.planPool policy i.holdings i.adjustments account = .ok row) :
    row.gross = i.gross account ∧ i.standing policy account = some row.status ∧
      row.status ≠ .belowMinimum := by
  obtain ⟨r, hr, rfl⟩ := Except.of_map_ok h
  exact ⟨rfl, by simp [PoolInput.standing, hr], decideAccount_ne hr⟩

/-- `build_pool` in the inputs' terms. -/
theorem buildPool_ok {policy : Policy} {minimum : ℤ} {i : PoolInput} {s : Summary} {rows : List Row}
    (h : buildPool i.pool i.planPool policy i.state i.adjustments minimum = .ok (s, rows)) :
    ∃ classified,
      List.Forall₂ (fun a row => accountRow i.pool i.planPool policy i.holdings i.adjustments a = .ok row)
        (accounts i.holdings i.adjustments) classified ∧
      s.collateral = i.collateral ∧ s.eligible = sumIf Status.eligible Row.gross classified ∧
      rows = classified.map (allocate s.collateral s.eligible minimum) ∧
      s.retained = s.collateral - s.claimable - s.held ∧
      s.belowMinimum =
        sumIf (· = .belowMinimum) (fun row => scaled s.collateral s.eligible row.gross) rows ∧
      s.poolId = i.pool.poolId ∧ s.claimAsset = i.pool.claimAsset := by
  obtain ⟨holdings, hh, h⟩ := Except.of_bind_ok h
  obtain ⟨⟨c, source⟩, hc, h⟩ := Except.of_bind_ok h
  obtain ⟨classified, hcl, h⟩ := Except.of_bind_ok h
  obtain rfl := loadHoldings_ok hh
  have hcol : i.collateral = c := by rw [PoolInput.collateral, hc]
  have hs := Except.ok.inj h
  rw [Prod.mk.injEq] at hs
  obtain ⟨rfl, rfl⟩ := hs
  exact ⟨classified, Except.forall₂_of_mapM_ok hcl, hcol.symm, rfl, rfl, rfl, rfl, rfl, rfl⟩

theorem sumIf_cons (p : Status → Bool) (f : Row → ℤ) (row : Row) (rows : List Row) :
    sumIf p f (row :: rows) = (if p row.status then f row else 0) + sumIf p f rows := by
  unfold sumIf
  by_cases h : p row.status <;> simp [h]

theorem sumIf_nonneg {p : Status → Bool} {f : Row → ℤ} {rows : List Row} (h : ∀ row ∈ rows, 0 ≤ f row) :
    0 ≤ sumIf p f rows := by
  refine List.sum_nonneg fun x hx => ?_
  obtain ⟨row, hrow, rfl⟩ := List.mem_map.mp hx
  exact h row (List.mem_of_mem_filter hrow)

theorem sumIf_eq_zero_iff {p : Status → Bool} {f : Row → ℤ} {rows : List Row}
    (h : ∀ row ∈ rows, 0 ≤ f row) : sumIf p f rows = 0 ↔ ∀ row ∈ rows, p row.status → f row = 0 := by
  induction rows with
  | nil => simp [sumIf]
  | cons row rows ih =>
    have hrow : 0 ≤ f row := h row (by simp)
    have hrows : ∀ r ∈ rows, 0 ≤ f r := fun r hr => h r (by simp [hr])
    have hrest : 0 ≤ sumIf p f rows := sumIf_nonneg hrows
    rw [sumIf_cons, List.forall_mem_cons, ← ih hrows]
    by_cases hp : p row.status
    · simp only [hp, if_true, forall_const]
      omega
    · simp [hp]

theorem eligible_eq {policy : Policy} {i : PoolInput} {as : List Address} {classified : List Row}
    (h : List.Forall₂ (fun a row =>
      accountRow i.pool i.planPool policy i.holdings i.adjustments a = .ok row) as classified) :
    sumIf Status.eligible Row.gross classified =
      ((as.filter fun a => (i.standing policy a).any Status.eligible).map i.gross).sum := by
  induction h with
  | nil => rfl
  | @cons a row as classified ha _ ih =>
    obtain ⟨hg, hst, -⟩ := accountRow_ok ha
    rw [sumIf_cons, ih, List.filter_cons, hst, hg, Option.any_some]
    by_cases he : row.status.eligible = true <;> simp [he]

theorem scaled_nonneg {collateral eligible gross : ℤ} (hc : 0 ≤ collateral) (hg : 0 ≤ gross) :
    0 ≤ scaled collateral eligible gross := by
  unfold scaled scale
  split_ifs with h
  · exact Int.ediv_nonneg (mul_nonneg hg hc) (by omega)
  · simpa using hg

theorem collateral_nonneg (i : PoolInput) : 0 ≤ i.collateral := by
  unfold PoolInput.collateral
  split <;> simp

/-- A row ends below the minimum when it could claim and its share is too small. -/
theorem allocate_belowMinimum_iff {collateral eligible minimum : ℤ} {row : Row}
    (h : row.status ≠ .belowMinimum) :
    (allocate collateral eligible minimum row).status = .belowMinimum ↔
      row.status = .claimable ∧ scaled collateral eligible row.gross < minimum := by
  simp only [allocate]
  by_cases he : row.status.eligible = true
  · rw [if_neg (not_not.mpr he)]
    by_cases hc : row.status = .claimable ∧ scaled collateral eligible row.gross < minimum
    · rw [if_pos hc]
      exact ⟨fun _ => hc, fun _ => rfl⟩
    · rw [if_neg hc]
      exact ⟨fun hb => absurd hb h, fun hc' => absurd hc' hc⟩
  · have hn : row.status ≠ .claimable := by
      intro hc
      simp [hc, Status.eligible] at he
    rw [if_pos he]
    exact ⟨fun hb => absurd hb h, fun hc => absurd hc.1 hn⟩

theorem allocate_gross (collateral eligible minimum : ℤ) (row : Row) :
    (allocate collateral eligible minimum row).gross = row.gross := by
  simp only [allocate]
  split_ifs <;> rfl

/-- The below-minimum total of a built pool is zero exactly when nobody's positive share is
below the minimum. -/
theorem belowMinimum_eq_zero_iff {policy : Policy} {minimum : ℤ} {i : PoolInput} {s : Summary}
    {rows : List Row}
    (h : buildPool i.pool i.planPool policy i.state i.adjustments minimum = .ok (s, rows)) :
    s.belowMinimum = 0 ↔
      ∀ a ∈ accounts i.holdings i.adjustments, ¬i.BelowMinimum policy minimum a := by
  obtain ⟨classified, hcl, hcol, hel, rfl, -, hbelow, -, -⟩ := buildPool_ok h
  have heq : s.eligible = i.eligibleTotal policy := hel.trans (eligible_eq hcl)
  have hgross : ∀ row ∈ classified, 0 ≤ row.gross := by
    intro row hrow
    obtain ⟨a, -, ha⟩ := Except.ok_of_mem_right hcl hrow
    rw [(accountRow_ok ha).1]
    exact le_max_left _ _
  have hnn : ∀ row ∈ classified, 0 ≤ scaled i.collateral (i.eligibleTotal policy) row.gross :=
    fun row hrow => scaled_nonneg (collateral_nonneg i) (hgross row hrow)
  rw [hcol, heq] at hbelow
  rw [hbelow, sumIf_eq_zero_iff (by
    intro row hrow
    obtain ⟨r, hr, rfl⟩ := List.mem_map.mp hrow
    rw [allocate_gross]
    exact hnn r hr), List.forall_mem_map]
  refine ⟨fun hz a ha hdust => ?_, fun hz row hrow hst => ?_⟩
  · obtain ⟨row, hrow, hok⟩ := Except.ok_of_mem_left hcl ha
    obtain ⟨hg, hstand, hne⟩ := accountRow_ok hok
    obtain ⟨hd, hpos, hlt⟩ := hdust
    rw [← hg] at hpos hlt
    have hrs : row.status = .claimable := Option.some.inj (hstand.symm.trans hd)
    have h0 := hz row hrow (by simpa using (allocate_belowMinimum_iff hne).mpr ⟨hrs, hlt⟩)
    rw [allocate_gross] at h0
    omega
  · obtain ⟨a, ha, hok⟩ := Except.ok_of_mem_right hcl hrow
    obtain ⟨hg, hstand, hne⟩ := accountRow_ok hok
    obtain ⟨hrs, hlt⟩ := (allocate_belowMinimum_iff hne).mp (by simpa using hst)
    rw [allocate_gross]
    refine le_antisymm (not_lt.mp fun hpos => hz a ha ⟨hrs ▸ hstand, ?_, ?_⟩) (hnn row hrow)
    · rwa [← hg]
    · rwa [← hg]

/-! ### Writer and reader -/

/-- The reader accepts a pool it funds exactly when the below-minimum total is zero. -/
theorem splitOne_ok_iff {policy : Policy} {minimum : ℤ} {i : PoolInput} {s : Summary} {rows : List Row}
    (h : buildPool i.pool i.planPool policy i.state i.adjustments minimum = .ok (s, rows))
    {csv : Dict String Summary} (hcsv : csv.get? s.poolId = some s) :
    (∃ p, splitOne csv s.poolId s.collateral = .ok p) ↔ s.belowMinimum = 0 := by
  obtain ⟨-, -, -, -, -, hret, -, -, -⟩ := buildPool_ok h
  simp only [splitOne, hcsv, ne_eq, not_true_eq_false, false_or, hret]
  by_cases h0 : s.belowMinimum = 0
  · simp [h0]
  · have hsum : ¬s.claimable + s.held + s.belowMinimum + (s.collateral - s.claimable - s.held) =
        s.collateral := by omega
    simp [hsum, h0]

/-- The reader accepts what the writer wrote exactly when no account of a ONE pool that may
claim has a positive share below its pool's minimum. -/
theorem oneSplit_accepts_iff {policy : Policy} {m : MinimumPolicy} {inputs : List PoolInput}
    {built : List (Summary × List Row)} (hids : (inputs.map fun i => i.pool.poolId).Nodup)
    (h : buildPools policy m inputs = .ok built) :
    (∃ split, oneSplit (built.map Prod.fst) (oneFunding (built.map Prod.fst)) = .ok split) ↔
      ∀ i ∈ inputs, i.pool.claimAsset = .one →
        ∀ a ∈ accounts i.holdings i.adjustments, ¬i.BelowMinimum policy (m.for i.pool.poolId) a := by
  have hb := Except.forall₂_of_mapM_ok h
  have hid : built.map (fun b => b.1.poolId) = inputs.map fun i => i.pool.poolId := by
    clear h hids
    induction hb with
    | nil => rfl
    | cons hi _ ih =>
      obtain ⟨-, -, -, -, -, -, -, hp, -⟩ := buildPool_ok hi
      rw [List.map_cons, List.map_cons, hp, ih]
  have hcsv : ∀ b ∈ built, (Dict.ofList ((built.map Prod.fst).map fun s => (s.poolId, s))).get?
      b.1.poolId = some b.1 := by
    intro b hm
    rw [Dict.get?_eq_some_iff, Dict.entries_ofList (by
      simpa [List.map_map, Function.comp_def, hid] using hids)]
    exact List.mem_map.mpr ⟨b.1, List.mem_map_of_mem hm, rfl⟩
  have hfund : (oneFunding (built.map Prod.fst)).pools.entries =
      ((built.map Prod.fst).filter fun s => s.claimAsset = .one).map
        fun s => (s.poolId, s.collateral) := by
    refine Dict.entries_ofList ?_
    rw [List.map_map]
    have hsub : (((built.map Prod.fst).filter fun s => s.claimAsset = .one).map Summary.poolId).Sublist
        (built.map fun b => b.1.poolId) := by
      have := (List.filter_sublist (p := fun s : Summary => decide (s.claimAsset = .one))
        (l := built.map Prod.fst)).map Summary.poolId
      simpa [List.map_map, Function.comp_def] using this
    exact (hid ▸ hids).sublist hsub
  rw [oneSplit, Except.exists_mapM_ok_iff, hfund, List.forall_mem_map]
  refine ⟨fun hok i hi hone => ?_, fun hnone s hs => ?_⟩
  · obtain ⟨⟨s, rows⟩, hm, hbi⟩ := Except.ok_of_mem_left hb hi
    obtain ⟨-, -, -, -, -, -, -, -, hasset⟩ := buildPool_ok hbi
    refine (belowMinimum_eq_zero_iff hbi).mp ((splitOne_ok_iff hbi (hcsv _ hm)).mp (hok s ?_))
    exact List.mem_filter.mpr ⟨List.mem_map_of_mem hm, by simpa using hasset.trans hone⟩
  · obtain ⟨hs, hone⟩ := List.mem_filter.mp hs
    obtain ⟨⟨s, rows⟩, hm, rfl⟩ := List.mem_map.mp hs
    obtain ⟨i, hi, hbi⟩ := Except.ok_of_mem_right hb hm
    obtain ⟨-, -, -, -, -, -, -, -, hasset⟩ := buildPool_ok hbi
    exact (splitOne_ok_iff hbi (hcsv _ hm)).mpr ((belowMinimum_eq_zero_iff hbi).mpr
      (hnone i hi (hasset.symm.trans (by simpa using hone))))

/-- A ONE pool with 100 locked and one key-controlled holder of `balance`. -/
def holderPool (balance : ℤ) : PoolInput where
  pool := ⟨"ethereum-one", .harmonyOrigin, "ethereum", "ONE", 18, .one, .token 0x1111⟩
  planPool := ⟨"ethereum", "rollback", 7, [⟨"ethereum-one-7", true, true, 7, [(0xabcdef, balance)]⟩]⟩
  state := ⟨none, [], [⟨.native, 100, none, none⟩]⟩
  adjustments := .empty

def holderPolicy : Policy where
  one := ⟨"base", 0x2222⟩
  classes := .ofList [(("ethereum", 0xabcdef), .eoa)]
  roles := .empty
  exclusions := .empty
  overrides := .empty

/-- Whether the run is built and its split accepted. -/
def acceptsOwnSplit (policy : Policy) (m : MinimumPolicy) (inputs : List PoolInput) : Option Bool :=
  (buildPools policy m inputs).toOption.map fun built =>
    (oneSplit (built.map Prod.fst) (oneFunding (built.map Prod.fst))).isOk

theorem oneSplit_accepts_iff_holder :
    ∃ built, buildPools holderPolicy ⟨10, .empty⟩ [holderPool 25] = .ok built ∧
      ((∃ split, oneSplit (built.map Prod.fst) (oneFunding (built.map Prod.fst)) = .ok split) ↔
        ∀ i ∈ [holderPool 25], i.pool.claimAsset = .one →
          ∀ a ∈ accounts i.holdings i.adjustments,
            ¬i.BelowMinimum holderPolicy (MinimumPolicy.for ⟨10, .empty⟩ i.pool.poolId) a) := by
  have hok : (buildPools holderPolicy ⟨10, .empty⟩ [holderPool 25]).isOk := by decide +kernel
  obtain ⟨built, h⟩ := Except.exists_ok_of_toBool hok
  exact ⟨built, h, oneSplit_accepts_iff (by decide) h⟩

/-- A holder of 5 under a minimum of 10: the writer's own split is refused. -/
theorem oneSplit_rejects_below_minimum :
    ∃ built, buildPools holderPolicy ⟨10, .empty⟩ [holderPool 5] = .ok built ∧
      ¬∃ split, oneSplit (built.map Prod.fst) (oneFunding (built.map Prod.fst)) = .ok split := by
  have hrej : acceptsOwnSplit holderPolicy ⟨10, .empty⟩ [holderPool 5] = some false := by
    decide +kernel
  unfold acceptsOwnSplit at hrej
  obtain ⟨built, h, hrefused⟩ := Except.exists_ok_of_map hrej
  refine ⟨built, h, ?_⟩
  rintro ⟨split, hs⟩
  rw [hs] at hrefused
  cases hrefused

end HarmonyMigration.Allocation
