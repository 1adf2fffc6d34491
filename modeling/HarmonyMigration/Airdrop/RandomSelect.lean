import HarmonyMigration.Lib.Decimal
import HarmonyMigration.Lib.Except
import HarmonyMigration.Lib.SortedBy
import HarmonyMigration.Airdrop.Contract
import Mathlib.Data.Nat.Sqrt

/-! `random_select` of `airdrop/tools/select_batch.py`: three tiers are drawn from in turn,
each from its own pool and all against one budget and one number of slots. -/

namespace HarmonyMigration.Airdrop.SelectBatch

open Decimal Erc20

/-- A line of the recipient list; `parse_amount` lets no other amount through. -/
structure Row where
  address : Address
  amount : ℕ
  pos : 0 < amount
  deriving DecidableEq

inductive Tier
  | large
  | medium
  | small
  deriving DecidableEq

def TIERS : List Tier := [.large, .medium, .small]

def WEIGHT_SCALE : ℕ := 10 ^ 80

inductive SmallWeight
  | uniform
  | inverseSqrt
  | inverse
  | inverseSquare
  deriving DecidableEq

/-- `SMALL_WEIGHTS`. -/
def SmallWeight.f : SmallWeight → ℕ → ℕ
  | .uniform, _ => 1
  | .inverseSqrt, amount => amount.sqrt
  | .inverse, amount => amount
  | .inverseSquare, amount => amount * amount

/-- What the draw is asked for, next to its candidates and limits. -/
structure DrawArgs where
  seed : Text
  mediumFrom : ℕ
  largeFrom : ℕ
  counts : Tier → Option ℤ
  smallWeight : SmallWeight
  largeTo : Option ℕ

def tierOf (a : DrawArgs) (amount : ℕ) : Option Tier :=
  if ∃ n ∈ a.largeTo, n ≤ amount then none
  else if a.largeFrom ≤ amount then some .large
  else if a.mediumFrom ≤ amount then some .medium
  else some .small

def Tier.name : Tier → Text
  | .large => "large".toList
  | .medium => "medium".toList
  | .small => "small".toList

/-- The digest of a text, as the number its bytes stand for. -/
abbrev Sha256 := Text → ℕ

def drawValue (sha256 : Sha256) (seed : Text) (tier : Tier) (k : ℕ) : ℕ :=
  sha256 (seed ++ '|' :: tier.name ++ '|' :: render k)

inductive Outcome
  | selected
  | skippedOverBudget
  deriving DecidableEq

/-- An entry of the log. -/
structure Draw where
  tier : Tier
  draw : ℕ
  address : Address
  amountAtto : ℕ
  outcome : Outcome
  deriving DecidableEq

/-- What the tiers hand on to each other. -/
structure Picks where
  chosen : List Row
  log : List Draw
  budgetLeft : Option ℤ
  slotsLeft : Option ℤ
  deriving DecidableEq

/-- The variables of the loop of one tier. -/
structure DrawState extends Picks where
  pool : List Row
  weights : List ℕ
  total : ℕ
  taken : ℕ
  k : ℕ

def weight (a : DrawArgs) (tier : Tier) (row : Row) : ℕ :=
  if tier = .small then max 1 (WEIGHT_SCALE / a.smallWeight.f row.amount) else 1

/-- Addresses of one length in lower-case hex are in the order of their numbers. -/
def byAddress (rows : List Row) : List Row :=
  rows.insertionSort fun r r' => r.address.toNat ≤ r'.address.toNat

def tierPool (a : DrawArgs) (tier : Tier) (candidates : List Row) : List Row :=
  byAddress (candidates.filter fun r => tierOf a r.amount = some tier)

/-- Where the loop over the weights stands when it is left: at the first index whose running
sum exceeds `r`, at the last one where none does. -/
def pickIndex (r : ℕ) : ℕ → ℕ → List ℕ → Option ℕ
  | _, _, [] => none
  | running, index, w :: ws =>
      if r < running + w then some index else (pickIndex r (running + w) (index + 1) ws).or (some index)

/-- There is a slot, and the tier's count is not reached. -/
def Open (wanted : Option ℤ) (taken : ℕ) (slotsLeft : Option ℤ) : Prop :=
  (∀ w ∈ wanted, (taken : ℤ) < w) ∧ ∀ n ∈ slotsLeft, 0 < n

instance (wanted : Option ℤ) (taken : ℕ) (slotsLeft : Option ℤ) : Decidable (Open wanted taken slotsLeft) :=
  inferInstanceAs (Decidable (_ ∧ _))

def Fits (budgetLeft : Option ℤ) (row : Row) : Prop := ∀ b ∈ budgetLeft, (row.amount : ℤ) ≤ b

instance (budgetLeft : Option ℤ) (row : Row) : Decidable (Fits budgetLeft row) :=
  inferInstanceAs (Decidable (∀ b ∈ budgetLeft, _))

/-- What a draw of `row` leaves to the next. -/
def Picks.record (p : Picks) (tier : Tier) (k : ℕ) (row : Row) : Picks :=
  if Fits p.budgetLeft row then {
    chosen := p.chosen ++ [row]
    log := p.log ++ [⟨tier, k, row.address, row.amount, .selected⟩]
    budgetLeft := p.budgetLeft.map (· - row.amount)
    slotsLeft := p.slotsLeft.map (· - 1) }
  else { p with log := p.log ++ [⟨tier, k, row.address, row.amount, .skippedOverBudget⟩] }

section
variable (sha256 : Sha256) (a : DrawArgs) (tier : Tier)

/-- One turn of the loop. -/
def drawStep (s : DrawState) : Except String DrawState :=
  if s.total = 0 then .error "integer modulo by zero"
  else
    match pickIndex (drawValue sha256 a.seed tier s.k % s.total) 0 0 s.weights with
    | none => .error "index is not associated with a value"
    | some index =>
      match s.pool[index]?, s.weights[index]? with
      | some row, some w => .ok {
          toPicks := s.toPicks.record tier s.k row
          pool := s.pool.eraseIdx index
          weights := s.weights.eraseIdx index
          total := s.total - w
          taken := if Fits s.budgetLeft row then s.taken + 1 else s.taken
          k := s.k + 1 }
      | _, _ => .error "pop index out of range"

def goesOn (s : DrawState) : Prop := s.pool ≠ [] ∧ Open (a.counts tier) s.taken s.slotsLeft

instance (s : DrawState) : Decidable (goesOn a tier s) := inferInstanceAs (Decidable (_ ∧ _))

/-- The loop, for so many turns at most. -/
def drawLoop : ℕ → DrawState → Except String DrawState
  | 0, s => if goesOn a tier s then .error "not at its end" else .ok s
  | turns + 1, s => if goesOn a tier s then (drawStep sha256 a tier s).bind (drawLoop turns) else .ok s

def tierStart (candidates : List Row) (p : Picks) : DrawState :=
  let pool := tierPool a tier candidates
  let weights := pool.map (weight a tier)
  { toPicks := p, pool := pool, weights := weights, total := weights.sum, taken := 0, k := 0 }

/-- A pass of the outer loop. -/
def drawTier (candidates : List Row) (p : Picks) : Except String Picks :=
  (drawLoop sha256 a tier (tierPool a tier candidates).length (tierStart a tier candidates p)).map DrawState.toPicks

end

def randomSelect (sha256 : Sha256) (a : DrawArgs) (candidates : List Row) (budgetLeft slotsLeft : Option ℤ) :
    Except String (List Row × List Draw) :=
  (TIERS.foldlM (fun p tier => drawTier sha256 a tier candidates p) ⟨[], [], budgetLeft, slotsLeft⟩).map
    fun p => (p.chosen, p.log)

/-! ### What a draw takes -/

/-- The number drawn from a pool, below the sum of its weights. -/
def ticket (sha256 : Sha256) (a : DrawArgs) (tier : Tier) (k : ℕ) (pool : List Row) : ℕ :=
  drawValue sha256 a.seed tier k % (pool.map (weight a tier)).sum

/-- The draws of one tier, each the removal of the entry the ticket falls on: those before it
weigh no more than the ticket, and with it they weigh more. -/
inductive Draws (sha256 : Sha256) (a : DrawArgs) (tier : Tier) : ℕ → ℕ → List Row → Picks → Picks → Prop
  | done {k taken : ℕ} {pool : List Row} {p : Picks}
      (h : ¬(pool ≠ [] ∧ Open (a.counts tier) taken p.slotsLeft)) : Draws sha256 a tier k taken pool p p
  | draw {k taken : ℕ} {before after : List Row} {row : Row} {p q : Picks}
      (hopen : Open (a.counts tier) taken p.slotsLeft)
      (hle : (before.map (weight a tier)).sum ≤ ticket sha256 a tier k (before ++ row :: after))
      (hlt : ticket sha256 a tier k (before ++ row :: after) <
        (before.map (weight a tier)).sum + weight a tier row)
      (next : Draws sha256 a tier (k + 1) (if Fits p.budgetLeft row then taken + 1 else taken)
        (before ++ after) (p.record tier k row) q) :
      Draws sha256 a tier k taken (before ++ row :: after) p q

theorem pickIndex_eq {r : ℕ} {ws : List ℕ} {running : ℕ} (index : ℕ) (hle : running ≤ r)
    (hlt : r < running + ws.sum) : ∃ before w after, ws = before ++ w :: after ∧
      pickIndex r running index ws = some (index + before.length) ∧
      running + before.sum ≤ r ∧ r < running + before.sum + w := by
  induction ws generalizing running index with
  | nil => simp at hlt; omega
  | cons w ws ih =>
    rw [List.sum_cons] at hlt
    by_cases hw : r < running + w
    · exact ⟨[], w, ws, rfl, by simp [pickIndex, hw], by simpa using hle, by simpa using hw⟩
    · obtain ⟨before, w', after, hws, hpick, hle', hlt'⟩ :=
        ih (index + 1) (show running + w ≤ r by omega) (by omega)
      refine ⟨w :: before, w', after, by rw [hws]; rfl, ?_, ?_, ?_⟩
      · rw [pickIndex, if_neg hw, hpick, Option.some_or, List.length_cons]
        congr 1
        omega
      · rw [List.sum_cons]
        omega
      · rw [List.sum_cons]
        omega

theorem weight_pos (a : DrawArgs) (tier : Tier) (row : Row) : 0 < weight a tier row := by
  unfold weight
  split_ifs <;> simp

section
variable (sha256 : Sha256) (a : DrawArgs) (tier : Tier)

theorem total_pos {pool : List Row} (h : pool ≠ []) : 0 < (pool.map (weight a tier)).sum := by
  cases pool with
  | nil => exact absurd rfl h
  | cons row pool =>
    have := weight_pos a tier row
    simp only [List.map_cons, List.sum_cons]
    omega

theorem exists_pick (k : ℕ) {pool : List Row} (h : pool ≠ []) :
    ∃ before row after, pool = before ++ row :: after ∧
      pickIndex (ticket sha256 a tier k pool) 0 0 (pool.map (weight a tier)) = some before.length ∧
      (before.map (weight a tier)).sum ≤ ticket sha256 a tier k pool ∧
      ticket sha256 a tier k pool < (before.map (weight a tier)).sum + weight a tier row := by
  have hlt : ticket sha256 a tier k pool < 0 + (pool.map (weight a tier)).sum := by
    rw [Nat.zero_add]
    exact Nat.mod_lt _ (total_pos a tier h)
  obtain ⟨ws, w, ws', hws, hpick, hle, hlt⟩ := pickIndex_eq 0 (Nat.zero_le _) hlt
  obtain ⟨before, rest, rfl, rfl, hrest⟩ := List.map_eq_append_iff.mp hws
  obtain ⟨row, after, rfl, rfl, rfl⟩ := List.map_eq_cons_iff.mp hrest
  refine ⟨before, row, after, rfl, ?_, ?_, ?_⟩
  · simpa using hpick
  · simpa using hle
  · simpa using hlt

/-- The lists run in parallel, and the total is theirs. -/
structure Weighed (a : DrawArgs) (tier : Tier) (s : DrawState) : Prop where
  weights : s.weights = s.pool.map (weight a tier)
  total : s.total = s.weights.sum

theorem tierStart_weighed (candidates : List Row) (p : Picks) : Weighed a tier (tierStart a tier candidates p) :=
  ⟨rfl, rfl⟩

variable {a} {tier}

/-- A turn takes one entry out of the pool, and keeps the lists and the total in step. -/
theorem drawStep_ok {s : DrawState} (hs : Weighed a tier s) (hpool : s.pool ≠ []) :
    ∃ before row after s', s.pool = before ++ row :: after ∧ drawStep sha256 a tier s = .ok s' ∧
      (before.map (weight a tier)).sum ≤ ticket sha256 a tier s.k s.pool ∧
      ticket sha256 a tier s.k s.pool < (before.map (weight a tier)).sum + weight a tier row ∧
      Weighed a tier s' ∧ s'.pool = before ++ after ∧ s'.k = s.k + 1 ∧
      s'.taken = (if Fits s.budgetLeft row then s.taken + 1 else s.taken) ∧
      s'.toPicks = s.toPicks.record tier s.k row := by
  obtain ⟨before, row, after, hsplit, hpick, hle, hlt⟩ := exists_pick sha256 a tier s.k hpool
  have htotal : s.total = (s.pool.map (weight a tier)).sum := by rw [hs.total, hs.weights]
  have hrow : s.pool[before.length]? = some row := by simp [hsplit]
  have hw : s.weights[before.length]? = some (weight a tier row) := by simp [hs.weights, hsplit]
  have herase : s.pool.eraseIdx before.length = before ++ after := by
    rw [hsplit, List.eraseIdx_append_of_length_le (le_refl _)]
    simp
  have herasew : s.weights.eraseIdx before.length = (before ++ after).map (weight a tier) := by
    rw [hs.weights, List.eraseIdx_map, herase]
  let s' : DrawState := {
    toPicks := s.toPicks.record tier s.k row
    pool := s.pool.eraseIdx before.length
    weights := s.weights.eraseIdx before.length
    total := s.total - weight a tier row
    taken := if Fits s.budgetLeft row then s.taken + 1 else s.taken
    k := s.k + 1 }
  refine ⟨before, row, after, s', hsplit, ?_, hle, hlt, ?_, herase, rfl, rfl, rfl⟩
  · have hpos : s.total ≠ 0 := by
      have := total_pos a tier hpool
      omega
    unfold drawStep
    rw [if_neg hpos, htotal, hs.weights]
    rw [hs.weights] at hw
    simp only [ticket] at hpick
    rw [hpick]
    simp only [hrow, hw]
    rw [← htotal, ← hs.weights]
  · refine ⟨herasew.trans (by rw [← herase]), ?_⟩
    show s.total - weight a tier row = (s.weights.eraseIdx before.length).sum
    rw [herasew, htotal, hsplit]
    simp only [List.map_append, List.map_cons, List.sum_append, List.sum_cons]
    omega

/-- The loop ends within as many turns as the pool has entries, and it is a run of draws. -/
theorem drawLoop_ok {turns : ℕ} {s : DrawState} (hs : Weighed a tier s) (hturns : s.pool.length ≤ turns) :
    ∃ s', drawLoop sha256 a tier turns s = .ok s' ∧ Draws sha256 a tier s.k s.taken s.pool s.toPicks s'.toPicks := by
  induction turns generalizing s with
  | zero =>
    have hempty : s.pool = [] := List.length_eq_zero_iff.mp (by omega)
    have hstop : ¬goesOn a tier s := fun h => h.1 hempty
    exact ⟨s, by rw [drawLoop, if_neg hstop], Draws.done hstop⟩
  | succ turns ih =>
    by_cases hgo : goesOn a tier s
    · obtain ⟨before, row, after, s₁, hsplit, hstep, hle, hlt, hs₁, hpool, hk, htaken, hpicks⟩ :=
        drawStep_ok sha256 hs hgo.1
      have hlen : s₁.pool.length ≤ turns := by
        rw [hsplit] at hturns
        rw [hpool]
        simp at hturns ⊢
        omega
      obtain ⟨s', hloop, hrun⟩ := ih hs₁ hlen
      refine ⟨s', by rw [drawLoop, if_pos hgo, hstep]; exact hloop, ?_⟩
      rw [hk, htaken, hpool, hpicks] at hrun
      rw [hsplit] at hle hlt ⊢
      exact Draws.draw hgo.2 hle hlt hrun
    · exact ⟨s, by rw [drawLoop, if_neg hgo], Draws.done hgo⟩

end

def amountSum (rows : List Row) : ℕ := (rows.map Row.amount).sum

/-- What the draws of a tier add to the picks and to the log, and the limits they stay within. -/
structure Adds (wanted : Option ℤ) (taken : ℕ) (pool : List Row) (p q : Picks) (picked : List Row)
    (drawn : List Draw) : Prop where
  chosen : q.chosen = p.chosen ++ picked
  log : q.log = p.log ++ drawn
  picked_subperm : picked.Subperm pool
  drawn_le : drawn.length ≤ pool.length
  count_le : ∀ w ∈ wanted, ((taken + picked.length : ℕ) : ℤ) ≤ max (taken : ℤ) w
  budget_le : ∀ b ∈ p.budgetLeft, (amountSum picked : ℤ) ≤ max 0 b
  slots_le : ∀ n ∈ p.slotsLeft, (picked.length : ℤ) ≤ max 0 n
  budgetLeft : q.budgetLeft = p.budgetLeft.map (· - (amountSum picked : ℤ))
  slotsLeft : q.slotsLeft = p.slotsLeft.map (· - (picked.length : ℤ))

theorem Adds.refl (wanted : Option ℤ) (taken : ℕ) (pool : List Row) (p : Picks) :
    Adds wanted taken pool p p [] [] where
  chosen := (List.append_nil _).symm
  log := (List.append_nil _).symm
  picked_subperm := List.nil_subperm
  drawn_le := Nat.zero_le _
  count_le := by simp
  budget_le := by simp [amountSum]
  slots_le := by simp
  budgetLeft := by simp [amountSum]
  slotsLeft := by simp

section
variable {wanted : Option ℤ} {tier : Tier} {k taken : ℕ} {before after : List Row} {row : Row} {p q : Picks}
  {picked : List Row} {drawn : List Draw}

theorem subperm_middle (h : picked.Subperm (before ++ after)) : (row :: picked).Subperm (before ++ row :: after) :=
  ((List.subperm_cons row).mpr h).trans List.perm_middle.symm.subperm

/-- A row that fits is paid from the budget, and its slot is gone. -/
theorem Adds.select (hopen : Open wanted taken p.slotsLeft) (hfits : Fits p.budgetLeft row)
    (h : Adds wanted (taken + 1) (before ++ after) (p.record tier k row) q picked drawn) :
    Adds wanted taken (before ++ row :: after) p q (row :: picked)
      (⟨tier, k, row.address, row.amount, .selected⟩ :: drawn) := by
  rw [Picks.record, if_pos hfits] at h
  have hsum : amountSum (row :: picked) = row.amount + amountSum picked := rfl
  constructor
  · rw [h.chosen, List.append_assoc]
    rfl
  · rw [h.log, List.append_assoc]
    rfl
  · exact subperm_middle h.picked_subperm
  · have := h.drawn_le
    simp at this ⊢
    omega
  · intro w hw
    have h1 := h.count_le w hw
    have h2 := hopen.1 w hw
    simp only [List.length_cons]
    omega
  · intro b hb
    have h1 := h.budget_le (b - row.amount) (Option.mem_map_of_mem _ hb)
    have h2 := hfits b hb
    omega
  · intro n hn
    have h1 := h.slots_le (n - 1) (Option.mem_map_of_mem _ hn)
    have h2 := hopen.2 n hn
    simp only [List.length_cons]
    omega
  · rw [h.budgetLeft, Option.map_map]
    congr 1
    funext b
    simp only [Function.comp_apply, hsum]
    push_cast
    ring
  · rw [h.slotsLeft, Option.map_map]
    congr 1
    funext n
    simp only [Function.comp_apply, List.length_cons]
    push_cast
    ring

/-- A row that does not fit leaves the pool only. -/
theorem Adds.skip (hfits : ¬Fits p.budgetLeft row)
    (h : Adds wanted taken (before ++ after) (p.record tier k row) q picked drawn) :
    Adds wanted taken (before ++ row :: after) p q picked
      (⟨tier, k, row.address, row.amount, .skippedOverBudget⟩ :: drawn) := by
  rw [Picks.record, if_neg hfits] at h
  constructor
  · exact h.chosen
  · rw [h.log, List.append_assoc]
    rfl
  · exact (List.subperm_cons_self).trans (subperm_middle h.picked_subperm)
  · have := h.drawn_le
    simp at this ⊢
    omega
  · exact h.count_le
  · exact h.budget_le
  · exact h.slots_le
  · exact h.budgetLeft
  · exact h.slotsLeft

theorem Draws.adds {sha256 : Sha256} {a : DrawArgs} {pool : List Row} (h : Draws sha256 a tier k taken pool p q) :
    ∃ picked drawn, Adds (a.counts tier) taken pool p q picked drawn := by
  induction h with
  | done hstop => exact ⟨[], [], Adds.refl _ _ _ _⟩
  | @draw k taken before after row p q hopen hle hlt next ih =>
    obtain ⟨picked, drawn, hadds⟩ := ih
    by_cases hfits : Fits p.budgetLeft row
    · rw [if_pos hfits] at hadds
      exact ⟨_, _, hadds.select hopen hfits⟩
    · rw [if_neg hfits] at hadds
      exact ⟨_, _, hadds.skip hfits⟩

end

/-! ### The three tiers -/

/-- The draws of a tier over its pool, from what the tiers before it have left. -/
structure TierDraw (sha256 : Sha256) (a : DrawArgs) (candidates : List Row) (tier : Tier) (p q : Picks) : Prop where
  draws : Draws sha256 a tier 0 0 (tierPool a tier candidates) p q
  adds : ∃ picked drawn, Adds (a.counts tier) 0 (tierPool a tier candidates) p q picked drawn

theorem drawTier_ok (sha256 : Sha256) (a : DrawArgs) (candidates : List Row) (tier : Tier) (p : Picks) :
    ∃ q, drawTier sha256 a tier candidates p = .ok q ∧ TierDraw sha256 a candidates tier p q := by
  obtain ⟨s', hloop, hrun⟩ := drawLoop_ok sha256 (tierStart_weighed a tier candidates p)
    (le_refl (tierPool a tier candidates).length)
  exact ⟨s'.toPicks, by rw [drawTier, hloop]; rfl, hrun, hrun.adds⟩

theorem byAddress_perm {rows rows' : List Row} (h : rows.Perm rows') (hnd : (rows.map Row.address).Nodup) :
    byAddress rows = byAddress rows' := by
  apply SortedBy.insertionSort_eq_of_perm h
  intro r hr r' hr' heq
  exact List.inj_on_of_nodup_map hnd hr hr' (BitVec.eq_of_toNat_eq heq)

theorem tierPool_perm {a : DrawArgs} {tier : Tier} {candidates candidates' : List Row}
    (h : candidates.Perm candidates') (hnd : (candidates.map Row.address).Nodup) :
    tierPool a tier candidates = tierPool a tier candidates' :=
  byAddress_perm (h.filter _) (hnd.sublist (List.filter_sublist.map _))

theorem drawTier_perm {sha256 : Sha256} {a : DrawArgs} {tier : Tier} {candidates candidates' : List Row}
    (h : candidates.Perm candidates') (hnd : (candidates.map Row.address).Nodup) (p : Picks) :
    drawTier sha256 a tier candidates p = drawTier sha256 a tier candidates' p := by
  unfold drawTier tierStart
  rw [tierPool_perm h hnd]

theorem randomSelect_perm {sha256 : Sha256} {a : DrawArgs} {candidates candidates' : List Row}
    (h : candidates.Perm candidates') (hnd : (candidates.map Row.address).Nodup) (budgetLeft slotsLeft : Option ℤ) :
    randomSelect sha256 a candidates budgetLeft slotsLeft = randomSelect sha256 a candidates' budgetLeft slotsLeft := by
  unfold randomSelect
  congr 2
  funext p tier
  exact drawTier_perm h hnd p

/-- How a whole draw goes. -/
structure Drawn (sha256 : Sha256) (a : DrawArgs) (candidates : List Row) (budgetLeft slotsLeft : Option ℤ)
    (chosen : List Row) (log : List Draw) (p₁ p₂ p₃ : Picks) : Prop where
  large : TierDraw sha256 a candidates .large ⟨[], [], budgetLeft, slotsLeft⟩ p₁
  medium : TierDraw sha256 a candidates .medium p₁ p₂
  small : TierDraw sha256 a candidates .small p₂ p₃
  chosen_eq : p₃.chosen = chosen
  log_eq : p₃.log = log

theorem randomSelect_ok (sha256 : Sha256) (a : DrawArgs) (candidates : List Row) (budgetLeft slotsLeft : Option ℤ) :
    ∃ chosen log p₁ p₂ p₃, randomSelect sha256 a candidates budgetLeft slotsLeft = .ok (chosen, log) ∧
      Drawn sha256 a candidates budgetLeft slotsLeft chosen log p₁ p₂ p₃ := by
  obtain ⟨p₁, h₁, hlarge⟩ := drawTier_ok sha256 a candidates .large ⟨[], [], budgetLeft, slotsLeft⟩
  obtain ⟨p₂, h₂, hmedium⟩ := drawTier_ok sha256 a candidates .medium p₁
  obtain ⟨p₃, h₃, hsmall⟩ := drawTier_ok sha256 a candidates .small p₂
  refine ⟨p₃.chosen, p₃.log, p₁, p₂, p₃, ?_, hlarge, hmedium, hsmall, rfl, rfl⟩
  simp only [randomSelect, TIERS, List.foldlM_cons, List.foldlM_nil, bind, pure, Except.bind, Except.pure, h₁, h₂, h₃]
  rfl

/-- The draw is a function of the seed and of the set of candidates: in whatever order they
come, the picks and the log are the same, drawn tier by tier. -/
theorem randomSelect_drawn (sha256 : Sha256) (a : DrawArgs) {candidates candidates' : List Row}
    (h : candidates.Perm candidates') (hnd : (candidates.map Row.address).Nodup) (budgetLeft slotsLeft : Option ℤ) :
    ∃ chosen log p₁ p₂ p₃, randomSelect sha256 a candidates budgetLeft slotsLeft = .ok (chosen, log) ∧
      randomSelect sha256 a candidates' budgetLeft slotsLeft = .ok (chosen, log) ∧
      Drawn sha256 a candidates budgetLeft slotsLeft chosen log p₁ p₂ p₃ := by
  obtain ⟨chosen, log, p₁, p₂, p₃, hok, hdrawn⟩ := randomSelect_ok sha256 a candidates budgetLeft slotsLeft
  refine ⟨chosen, log, p₁, p₂, p₃, hok, ?_, hdrawn⟩
  rw [← randomSelect_perm h hnd, hok]

/-- What is left of the limits is what the picks so far have left of them. -/
structure Keeps (budgetLeft slotsLeft : Option ℤ) (p : Picks) : Prop where
  budget : p.budgetLeft = budgetLeft.map (· - (amountSum p.chosen : ℤ))
  slots : p.slotsLeft = slotsLeft.map (· - (p.chosen.length : ℤ))
  budget_nonneg : ∀ b ∈ p.budgetLeft, 0 ≤ b
  slots_nonneg : ∀ n ∈ p.slotsLeft, 0 ≤ n

theorem amountSum_append (rows rows' : List Row) : amountSum (rows ++ rows') = amountSum rows + amountSum rows' := by
  rw [amountSum, List.map_append, List.sum_append]
  rfl

theorem Keeps.adds {budgetLeft slotsLeft wanted : Option ℤ} {taken : ℕ} {pool picked : List Row} {drawn : List Draw}
    {p q : Picks} (hp : Keeps budgetLeft slotsLeft p) (h : Adds wanted taken pool p q picked drawn) :
    Keeps budgetLeft slotsLeft q where
  budget := by
    rw [h.budgetLeft, hp.budget, Option.map_map, h.chosen, amountSum_append]
    congr 1
    funext b
    simp only [Function.comp_apply]
    push_cast
    ring
  slots := by
    rw [h.slotsLeft, hp.slots, Option.map_map, h.chosen, List.length_append]
    congr 1
    funext n
    simp only [Function.comp_apply]
    push_cast
    ring
  budget_nonneg := by
    intro b hb
    rw [h.budgetLeft] at hb
    obtain ⟨b', hb', rfl⟩ := Option.mem_map.mp hb
    have h1 := h.budget_le b' hb'
    have h2 := hp.budget_nonneg b' hb'
    omega
  slots_nonneg := by
    intro n hn
    rw [h.slotsLeft] at hn
    obtain ⟨n', hn', rfl⟩ := Option.mem_map.mp hn
    have h1 := h.slots_le n' hn'
    have h2 := hp.slots_nonneg n' hn'
    omega

/-- The pools are apart. -/
theorem tiers_subperm (a : DrawArgs) (candidates : List Row) :
    (tierPool a .large candidates ++ tierPool a .medium candidates ++ tierPool a .small candidates).Subperm
      candidates := by
  have hperm : ∀ t, (tierPool a t candidates).Perm (candidates.filter fun r => tierOf a r.amount = some t) :=
    fun t => List.perm_insertionSort _ _
  apply (((hperm .large).append (hperm .medium)).append (hperm .small)).subperm.trans
  apply List.subperm_ext_iff.mpr
  intro r _
  have hcount : ∀ t, (candidates.filter fun r => tierOf a r.amount = some t).count r =
      if tierOf a r.amount = some t then candidates.count r else 0 := by
    intro t
    split_ifs with ht
    · exact List.count_filter (by simpa using ht)
    · exact List.count_eq_zero.mpr fun hmem => ht (by simpa using (List.mem_filter.mp hmem).2)
  simp only [List.count_append, hcount]
  cases htier : tierOf a r.amount with
  | none => simp
  | some t => cases t <;> simp

/-- A draw takes candidates, within the limits it was given. -/
theorem Drawn.within {sha256 : Sha256} {a : DrawArgs} {candidates chosen : List Row} {budgetLeft slotsLeft : Option ℤ}
    {log : List Draw} {p₁ p₂ p₃ : Picks} (h : Drawn sha256 a candidates budgetLeft slotsLeft chosen log p₁ p₂ p₃)
    (hbudget : ∀ b ∈ budgetLeft, 0 ≤ b) (hslots : ∀ n ∈ slotsLeft, 0 ≤ n) :
    chosen.Subperm candidates ∧ (∀ b ∈ budgetLeft, (amountSum chosen : ℤ) ≤ b) ∧
      ∀ n ∈ slotsLeft, (chosen.length : ℤ) ≤ n := by
  obtain ⟨picked₁, drawn₁, h₁⟩ := h.large.adds
  obtain ⟨picked₂, drawn₂, h₂⟩ := h.medium.adds
  obtain ⟨picked₃, drawn₃, h₃⟩ := h.small.adds
  have h₀ : Keeps budgetLeft slotsLeft ⟨[], [], budgetLeft, slotsLeft⟩ :=
    ⟨by simp [amountSum], by simp, hbudget, hslots⟩
  have hkeeps := ((h₀.adds h₁).adds h₂).adds h₃
  have hchosen : chosen = picked₁ ++ picked₂ ++ picked₃ := by
    rw [← h.chosen_eq, h₃.chosen, h₂.chosen, h₁.chosen, List.nil_append]
  have hb := hkeeps.budget
  have hn := hkeeps.slots
  rw [h.chosen_eq] at hb hn
  refine ⟨?_, ?_, ?_⟩
  · rw [hchosen]
    exact ((h₁.picked_subperm.append h₂.picked_subperm).append h₃.picked_subperm).trans (tiers_subperm a candidates)
  · intro b hmem
    have := hkeeps.budget_nonneg (b - amountSum chosen) (by rw [hb]; exact Option.mem_map_of_mem _ hmem)
    omega
  · intro n hmem
    have := hkeeps.slots_nonneg (n - chosen.length) (by rw [hn]; exact Option.mem_map_of_mem _ hmem)
    omega

/-- Two rows in the small tier, one slot. -/
def sampleArgs : DrawArgs := ⟨"seed".toList, 100, 1000, fun t => if t = .small then none else some 1, .inverse, none⟩

def sampleRow₁ : Row := ⟨1, 5, by decide⟩

def sampleRow₂ : Row := ⟨2, 7, by decide⟩

theorem randomSelect_drawn_sample : ∃ chosen log p₁ p₂ p₃,
    randomSelect List.length sampleArgs [sampleRow₁, sampleRow₂] (some 20) (some 1) = .ok (chosen, log) ∧
      randomSelect List.length sampleArgs [sampleRow₂, sampleRow₁] (some 20) (some 1) = .ok (chosen, log) ∧
      Drawn List.length sampleArgs [sampleRow₁, sampleRow₂] (some 20) (some 1) chosen log p₁ p₂ p₃ :=
  randomSelect_drawn List.length sampleArgs (List.Perm.swap _ _ _) (by decide) (some 20) (some 1)

example : (randomSelect List.length sampleArgs [sampleRow₂, sampleRow₁] (some 20) (some 1)).toOption.map Prod.fst =
    some [sampleRow₁] := by decide +kernel

end HarmonyMigration.Airdrop.SelectBatch
