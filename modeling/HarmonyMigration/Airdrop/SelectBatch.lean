import HarmonyMigration.Lib.KeepFirst
import HarmonyMigration.Airdrop.RandomSelect
import Mathlib.Data.Prod.Lex

/-! `main` of `airdrop/tools/select_batch.py`: which recipients go into the next batch. A
selection respects the lists and the limits, and smallest-first pays as many as can be paid. -/

namespace HarmonyMigration.Airdrop.SelectBatch

open Decimal Erc20

inductive Strategy
  | smallestFirst
  | largestFirst
  | input
  | random
  deriving DecidableEq

/-- The files as they are read, and the options. An absent seed is the empty text. -/
structure Args where
  rows : List Row
  paid : List (List Row)
  hold : List (List Address)
  includes : List Address
  budget : Option ℕ
  maxRecipients : Option ℤ
  strategy : Strategy
  draw : DrawArgs

/-- What `main` goes on to write. -/
structure Selection where
  selected : List Row
  remaining : List Row
  draws : List Draw

def addresses (rows : List Row) : List Address := rows.map Row.address

/-- `consolidate` in input order, without merging. -/
def consolidate (rows : List Row) : Except String (List Row) :=
  if (addresses rows).Nodup then .ok rows else .error "duplicate address(es)"

/-- `by_address.get`. -/
def listed (rows : List Row) (address : Address) : Option Row := rows.find? fun r => r.address = address

def readPaidRow (rows paid : List Row) (row : Row) : Except String (List Row) :=
  match listed rows row.address with
  | none => .error "was paid but is not in the input list"
  | some l =>
    if l.amount ≠ row.amount then
      .error "the list changed or the payment was partial, resolve this before selecting"
    else if row.address ∈ addresses paid then .error "appears in more than one paid file"
    else .ok (paid ++ [l])

def readPaid (rows : List Row) (paidRows : List Row) : Except String (List Row) :=
  paidRows.foldlM (readPaidRow rows) []

def readHeld (rows paid : List Row) (hold : List Address) : List Address :=
  hold.filter fun x => x ∈ addresses rows ∧ x ∉ addresses paid

/-- `resolve_includes`: each address once, where it first stands. -/
def resolveIncludes (includes : List Address) : List Address := KeepFirst.firstBy id includes

def checkInclude (rows paid : List Row) (held : List Address) (x : Address) : Except String Unit :=
  if x ∉ addresses rows then .error "is not in the input list"
  else if x ∈ addresses paid then .error "is already paid"
  else if x ∈ held then .error "is also on hold list"
  else .ok ()

def checkMaxRecipients (a : Args) : Except String Unit :=
  Except.require (∀ m ∈ a.maxRecipients, 1 ≤ m) "--max-recipients must be at least 1"

def checkStrategy (a : Args) : Except String Unit :=
  if a.strategy = .random then
    if a.draw.seed = [] then .error "--strategy random needs --seed"
    else if a.draw.largeFrom ≤ a.draw.mediumFrom then .error "--medium-from must be smaller than --large-from"
    else if ∃ n ∈ a.draw.largeTo, n ≤ a.draw.largeFrom then .error "--large-to must be larger than --large-from"
    else if ∃ t ∈ TIERS, ∃ c ∈ a.draw.counts t, c < 0 then .error "tier counts cannot be negative"
    else if a.budget = none ∧ a.draw.counts .small = none ∧ a.maxRecipients = none then
      .error "--strategy random needs --budget, --small-count or --max-recipients"
    else .ok ()
  else if a.draw.seed ≠ [] then .error "--seed is only used with --strategy random"
  else .ok ()

def checkForced (a : Args) (forced : List Row) : Except String Unit :=
  if ∃ b ∈ a.budget, b < amountSum forced then .error "the --include addresses need more than the budget"
  else if ∃ m ∈ a.maxRecipients, m < forced.length then .error "--include addresses exceed --max-recipients"
  else .ok ()

def order (strategy : Strategy) (rows : List Row) : List Row :=
  match strategy with
  | .smallestFirst =>
      rows.insertionSort fun r r' => toLex (r.amount, r.address.toNat) ≤ toLex (r'.amount, r'.address.toNat)
  | .largestFirst =>
      rows.insertionSort fun r r' =>
        toLex (-(r.amount : ℤ), r.address.toNat) ≤ toLex (-(r'.amount : ℤ), r'.address.toNat)
  | .input | .random => rows

/-- The recipients limit is reached. -/
def Full (a : Args) (forced : ℕ) (chosen : List Row) : Prop :=
  ∃ m ∈ a.maxRecipients, m ≤ ((forced + chosen.length : ℕ) : ℤ)

instance (a : Args) (forced : ℕ) (chosen : List Row) : Decidable (Full a forced chosen) :=
  inferInstanceAs (Decidable (∃ m ∈ a.maxRecipients, _))

def OverBudget (a : Args) (spent : ℕ) : Prop := ∃ b ∈ a.budget, b < spent

instance (a : Args) (spent : ℕ) : Decidable (OverBudget a spent) :=
  inferInstanceAs (Decidable (∃ b ∈ a.budget, _))

/-- The loop over the candidates, `forced` of them being taken already. -/
def fill (a : Args) (forced : ℕ) : List Row → ℕ → List Row → List Row
  | [], _, chosen => chosen
  | row :: rows, spent, chosen =>
      if Full a forced chosen then chosen
      else if OverBudget a (spent + row.amount) then
        if a.strategy = .smallestFirst then chosen else fill a forced rows spent chosen
      else fill a forced rows (spent + row.amount) (chosen ++ [row])

def choose (sha256 : Sha256) (a : Args) (forced candidates : List Row) : Except String (List Row × List Draw) :=
  if a.strategy = .random then
    randomSelect sha256 a.draw candidates (a.budget.map fun b : ℕ => (b : ℤ) - amountSum forced)
      (a.maxRecipients.map fun m => m - forced.length)
  else .ok (fill a forced.length candidates (amountSum forced) [], [])

/-- Not paid, not held and not taken already. -/
def candidatesOf (rows paid : List Row) (held : List Address) (forced : List Row) : List Row :=
  rows.filter fun r => r.address ∉ addresses paid ∧ r.address ∉ held ∧ r.address ∉ addresses forced

def main (sha256 : Sha256) (a : Args) : Except String Selection :=
  (consolidate a.rows).bind fun rows =>
  (readPaid rows a.paid.flatten).bind fun paid =>
  let held := readHeld rows paid a.hold.flatten
  let includes := resolveIncludes a.includes
  (includes.mapM (checkInclude rows paid held)).bind fun _ =>
  (checkMaxRecipients a).bind fun _ =>
  (checkStrategy a).bind fun _ =>
  let forced := includes.filterMap (listed rows)
  (checkForced a forced).bind fun _ =>
  (choose sha256 a forced (order a.strategy (candidatesOf rows paid held forced))).bind fun c =>
  let selected := forced ++ byAddress c.1
  .ok {
    selected := selected
    remaining := byAddress (rows.filter fun r => r.address ∉ addresses paid ∧ r.address ∉ addresses selected)
    draws := c.2 }

/-! ### What a selection is for -/

/-- A row that may be paid in this batch. -/
structure Eligible (a : Args) (r : Row) : Prop where
  listed : r ∈ a.rows
  not_held : r.address ∉ a.hold.flatten
  not_paid : r.address ∉ addresses a.paid.flatten

/-- A choice of rows that keeps to the lists and to the limits. -/
structure Feasible (a : Args) (chosen : List Row) : Prop where
  nodup : chosen.Nodup
  eligible : ∀ r ∈ chosen, Eligible a r
  includes : ∀ x ∈ a.includes, x ∈ addresses chosen
  budget : ∀ b ∈ a.budget, amountSum chosen ≤ b
  max_recipients : ∀ m ∈ a.maxRecipients, (chosen.length : ℤ) ≤ m

/-! ### The lists -/

theorem eq_of_address {rows : List Row} (hnd : (addresses rows).Nodup) {r r' : Row} (hr : r ∈ rows) (hr' : r' ∈ rows)
    (h : r.address = r'.address) : r = r' :=
  List.inj_on_of_nodup_map hnd hr hr' h

theorem mem_of_listed {rows : List Row} {x : Address} {r : Row} (h : listed rows x = some r) :
    r ∈ rows ∧ r.address = x :=
  ⟨List.mem_of_find?_eq_some h, by simpa using List.find?_some h⟩

theorem exists_listed {rows : List Row} {x : Address} (h : x ∈ addresses rows) : ∃ r, listed rows x = some r := by
  obtain ⟨r, hr, rfl⟩ := List.mem_map.mp h
  exact Option.isSome_iff_exists.mp (List.find?_isSome.mpr ⟨r, hr, by simp⟩)

theorem readPaidRow_ok {rows paid paid' : List Row} {row : Row} (h : readPaidRow rows paid row = .ok paid') :
    row ∈ rows ∧ row.address ∉ addresses paid ∧ paid' = paid ++ [row] := by
  unfold readPaidRow at h
  cases hl : listed rows row.address with
  | none => simp [hl] at h
  | some l =>
    obtain ⟨hmem, haddr⟩ := mem_of_listed hl
    simp only [hl] at h
    split_ifs at h with hamount hpaid
    have hrow : l = row := by
      cases l
      cases row
      simp only [ne_eq, not_not] at hamount haddr
      subst hamount haddr
      rfl
    subst hrow
    exact ⟨hmem, hpaid, (Except.ok.inj h).symm⟩

/-- The paid rows are rows of the list, each once. -/
theorem readPaid_run {rows paidRows paid paid' : List Row} (h : paidRows.foldlM (readPaidRow rows) paid = .ok paid')
    (hnd : (addresses paid).Nodup) :
    paid' = paid ++ paidRows ∧ (∀ r ∈ paidRows, r ∈ rows) ∧ (addresses paid').Nodup := by
  induction paidRows generalizing paid with
  | nil =>
    obtain rfl := Except.ok.inj h
    exact ⟨(List.append_nil _).symm, by simp, hnd⟩
  | cons row paidRows ih =>
    rw [List.foldlM_cons] at h
    obtain ⟨paid₁, hrow, h⟩ := Except.of_bind_ok h
    obtain ⟨hmem, hnew, rfl⟩ := readPaidRow_ok hrow
    have hnd₁ : (addresses (paid ++ [row])).Nodup := by
      rw [addresses, List.map_append]
      exact hnd.append (List.nodup_singleton _) (by simpa [addresses] using hnew)
    obtain ⟨rfl, hrest, hnd'⟩ := ih h hnd₁
    refine ⟨by simp, ?_, hnd'⟩
    intro r hr
    rcases List.mem_cons.mp hr with rfl | hr
    · exact hmem
    · exact hrest r hr

theorem readPaid_ok {rows paidRows paid : List Row} (h : readPaid rows paidRows = .ok paid) :
    paid = paidRows ∧ (∀ r ∈ paidRows, r ∈ rows) ∧ (addresses paidRows).Nodup := by
  obtain ⟨rfl, hrows, hnd⟩ := readPaid_run h List.nodup_nil
  exact ⟨rfl, hrows, hnd⟩

theorem checkInclude_ok {rows paid : List Row} {held : List Address} {x : Address} {u : Unit}
    (h : checkInclude rows paid held x = .ok u) : x ∈ addresses rows ∧ x ∉ addresses paid ∧ x ∉ held := by
  unfold checkInclude at h
  split_ifs at h with h1 h2 h3
  exact ⟨h1, h2, h3⟩

theorem mem_resolveIncludes {includes : List Address} {x : Address} :
    x ∈ resolveIncludes includes ↔ x ∈ includes := by
  rw [resolveIncludes]
  simpa using KeepFirst.mem_map_firstBy id (l := includes) (k := x)

theorem resolveIncludes_nodup (includes : List Address) : (resolveIncludes includes).Nodup := by
  rw [resolveIncludes]
  simpa using KeepFirst.firstBy_nodup id includes

/-- The rows of listed addresses are in the order of the addresses. -/
theorem addresses_filterMap {rows : List Row} {includes : List Address} (h : ∀ x ∈ includes, x ∈ addresses rows) :
    addresses (includes.filterMap (listed rows)) = includes := by
  induction includes with
  | nil => rfl
  | cons x includes ih =>
    obtain ⟨r, hr⟩ := exists_listed (h x (by simp))
    rw [List.filterMap_cons_some hr, addresses, List.map_cons, (mem_of_listed hr).2]
    congr 1
    exact ih fun y hy => h y (by simp [hy])

/-! ### The loop over the candidates -/

/-- What is taken next to the forced rows, the limits holding for both. -/
structure Within (a : Args) (forced candidates chosen : List Row) : Prop where
  subperm : chosen.Subperm candidates
  budget : ∀ b ∈ a.budget, amountSum forced + amountSum chosen ≤ b
  max_recipients : ∀ m ∈ a.maxRecipients, ((forced.length + chosen.length : ℕ) : ℤ) ≤ m

theorem amountSum_cons (row : Row) (rows : List Row) : amountSum (row :: rows) = row.amount + amountSum rows := rfl

/-- Every pass of the loop keeps to the limits, whatever it does with a row that is over. -/
theorem fill_within {a : Args} {forced spent : ℕ} (rows : List Row) {chosen : List Row} (hbudget : ∀ b ∈ a.budget, spent ≤ b)
    (hmax : ∀ m ∈ a.maxRecipients, ((forced + chosen.length : ℕ) : ℤ) ≤ m) :
    ∃ picked, fill a forced rows spent chosen = chosen ++ picked ∧ picked.Sublist rows ∧
      (∀ b ∈ a.budget, spent + amountSum picked ≤ b) ∧
      ∀ m ∈ a.maxRecipients, ((forced + (chosen ++ picked).length : ℕ) : ℤ) ≤ m := by
  have hstop : ∀ rows : List Row, ∃ picked, chosen = chosen ++ picked ∧ picked.Sublist rows ∧
      (∀ b ∈ a.budget, spent + amountSum picked ≤ b) ∧
      ∀ m ∈ a.maxRecipients, ((forced + (chosen ++ picked).length : ℕ) : ℤ) ≤ m :=
    fun rows => ⟨[], by simp, List.nil_sublist _, hbudget, by simpa using hmax⟩
  induction rows generalizing spent chosen with
  | nil => exact hstop []
  | cons row rows ih =>
    rw [fill]
    split_ifs with hfull hover hsmallest
    · exact hstop _
    · exact hstop _
    · obtain ⟨picked, heq, hsub, hb, hm⟩ := ih hbudget hmax hstop
      exact ⟨picked, heq, hsub.cons row, hb, hm⟩
    · have hbudget' : ∀ b ∈ a.budget, spent + row.amount ≤ b := by
        intro b hb
        by_contra hlt
        exact hover ⟨b, hb, by omega⟩
      have hmax' : ∀ m ∈ a.maxRecipients, ((forced + (chosen ++ [row]).length : ℕ) : ℤ) ≤ m := by
        intro m hm
        by_contra hlt
        refine hfull ⟨m, hm, ?_⟩
        simp at hlt ⊢
        omega
      obtain ⟨picked, heq, hsub, hb, hm⟩ := ih hbudget' hmax' fun rows =>
        ⟨[], by simp, List.nil_sublist _, hbudget', by simpa using hmax'⟩
      refine ⟨row :: picked, by simpa using heq, hsub.cons_cons row, ?_, by simpa using hm⟩
      intro b hb'
      have := hb b hb'
      rw [amountSum_cons]
      omega

/-- Smallest-first takes a first stretch of the candidates: it stops where they end, where the
batch is full, or where the next one is over the budget. -/
theorem fill_smallest {a : Args} (hstrategy : a.strategy = .smallestFirst) (forced spent : ℕ) (rows chosen : List Row) :
    ∃ n, n ≤ rows.length ∧ fill a forced rows spent chosen = chosen ++ rows.take n ∧
      (n = rows.length ∨ Full a forced (chosen ++ rows.take n) ∨
        OverBudget a (spent + amountSum (rows.take (n + 1)))) := by
  induction rows generalizing spent chosen with
  | nil => exact ⟨0, le_rfl, by simp [fill], Or.inl rfl⟩
  | cons row rows ih =>
    rw [fill]
    split_ifs with hfull hover
    · exact ⟨0, Nat.zero_le _, by simp, Or.inr (Or.inl (by simpa using hfull))⟩
    · exact ⟨0, Nat.zero_le _, by simp, Or.inr (Or.inr (by simpa [amountSum] using hover))⟩
    · obtain ⟨n, hn, heq, hend⟩ := ih (spent + row.amount) (chosen ++ [row])
      refine ⟨n + 1, by simpa using hn, by simpa using heq, ?_⟩
      rcases hend with rfl | hfull' | hover'
      · exact Or.inl rfl
      · exact Or.inr (Or.inl (by simpa using hfull'))
      · refine Or.inr (Or.inr ?_)
        rw [List.take_succ_cons, amountSum_cons, ← Nat.add_assoc]
        exact hover'

theorem choose_within {sha256 : Sha256} {a : Args} {forced candidates : List Row} {c : List Row × List Draw}
    (h : choose sha256 a forced candidates = .ok c) (hbudget : ∀ b ∈ a.budget, amountSum forced ≤ b)
    (hmax : ∀ m ∈ a.maxRecipients, (forced.length : ℤ) ≤ m) : Within a forced candidates c.1 := by
  unfold choose at h
  split_ifs at h with hrandom
  · obtain ⟨chosen, log, p₁, p₂, p₃, hok, hdrawn⟩ := randomSelect_ok sha256 a.draw candidates
      (a.budget.map fun b : ℕ => (b : ℤ) - amountSum forced) (a.maxRecipients.map fun m => m - forced.length)
    have hc : c.1 = chosen := congrArg Prod.fst (Except.ok.inj (h.symm.trans hok))
    rw [hc]
    obtain ⟨hsub, hb, hm⟩ := hdrawn.within
      (by
        intro x hx
        obtain ⟨b, hb, rfl⟩ := Option.mem_map.mp hx
        have := hbudget b hb
        omega)
      (by
        intro x hx
        obtain ⟨m, hm, rfl⟩ := Option.mem_map.mp hx
        have := hmax m hm
        omega)
    refine ⟨hsub, ?_, ?_⟩
    · intro b hb'
      have := hb _ (Option.mem_map_of_mem _ hb')
      omega
    · intro m hm'
      have := hm _ (Option.mem_map_of_mem _ hm')
      push_cast
      omega
  · obtain rfl := Except.ok.inj h
    obtain ⟨picked, heq, hsub, hb, hm⟩ := fill_within candidates hbudget (show ∀ m ∈ a.maxRecipients, ((forced.length + [].length : ℕ) : ℤ) ≤ m by simpa using hmax)
    rw [List.nil_append] at heq hm
    exact ⟨heq ▸ hsub.subperm, heq ▸ hb, heq ▸ hm⟩

/-! ### The whole selection -/

def candidates (a : Args) (forced : List Row) : List Row :=
  candidatesOf a.rows a.paid.flatten (readHeld a.rows a.paid.flatten a.hold.flatten) forced

theorem mem_candidates {a : Args} {forced : List Row} {r : Row} :
    r ∈ candidates a forced ↔ Eligible a r ∧ r.address ∉ addresses forced := by
  rw [candidates, candidatesOf, List.mem_filter, decide_eq_true_iff]
  constructor
  · rintro ⟨hr, hpaid, hheld, hforced⟩
    refine ⟨⟨hr, fun hhold => hheld ?_, hpaid⟩, hforced⟩
    exact List.mem_filter.mpr ⟨hhold, by simpa using ⟨List.mem_map_of_mem hr, hpaid⟩⟩
  · rintro ⟨⟨hr, hhold, hpaid⟩, hforced⟩
    exact ⟨hr, hpaid, fun hheld => hhold (List.mem_filter.mp hheld).1, hforced⟩

theorem perm_order (strategy : Strategy) (rows : List Row) : (order strategy rows).Perm rows := by
  cases strategy with
  | smallestFirst => exact List.perm_insertionSort _ _
  | largestFirst => exact List.perm_insertionSort _ _
  | input => exact List.Perm.refl _
  | random => exact List.Perm.refl _

theorem perm_byAddress (rows : List Row) : (byAddress rows).Perm rows := List.perm_insertionSort _ _

/-- The parts an accepted selection is put together from. -/
structure Parts (sha256 : Sha256) (a : Args) (s : Selection) (forced : List Row) (c : List Row × List Draw) : Prop where
  rows_nodup : (addresses a.rows).Nodup
  paid_listed : ∀ r ∈ a.paid.flatten, r ∈ a.rows
  paid_nodup : (addresses a.paid.flatten).Nodup
  forced_addresses : addresses forced = resolveIncludes a.includes
  forced_eligible : ∀ r ∈ forced, Eligible a r
  forced_budget : ∀ b ∈ a.budget, amountSum forced ≤ b
  forced_max : ∀ m ∈ a.maxRecipients, (forced.length : ℤ) ≤ m
  chosen_ok : choose sha256 a forced (order a.strategy (candidates a forced)) = .ok c
  selected : s.selected = forced ++ byAddress c.1
  remaining : s.remaining = byAddress (a.rows.filter fun r =>
    r.address ∉ addresses a.paid.flatten ∧ r.address ∉ addresses s.selected)

theorem main_ok {sha256 : Sha256} {a : Args} {s : Selection} (h : main sha256 a = .ok s) :
    ∃ forced c, Parts sha256 a s forced c := by
  obtain ⟨rows, hrows, h⟩ := Except.of_bind_ok h
  obtain ⟨paid, hpaid, h⟩ := Except.of_bind_ok h
  obtain ⟨us, hincludes, h⟩ := Except.of_bind_ok h
  obtain ⟨_, _, h⟩ := Except.of_bind_ok h
  obtain ⟨_, _, h⟩ := Except.of_bind_ok h
  obtain ⟨_, hforced, h⟩ := Except.of_bind_ok h
  obtain ⟨c, hc, h⟩ := Except.of_bind_ok h
  obtain rfl := Except.ok.inj h
  unfold consolidate at hrows
  split_ifs at hrows with hnd
  obtain rfl := Except.ok.inj hrows
  obtain ⟨rfl, hlisted, hpaidnd⟩ := readPaid_ok hpaid
  have hinc : ∀ x ∈ resolveIncludes a.includes, x ∈ addresses a.rows ∧ x ∉ addresses a.paid.flatten ∧
      x ∉ readHeld a.rows a.paid.flatten a.hold.flatten := by
    intro x hx
    obtain ⟨u, _, hu⟩ := Except.ok_of_mem_left (Except.forall₂_of_mapM_ok hincludes) hx
    exact checkInclude_ok hu
  have haddr := addresses_filterMap fun x hx => (hinc x hx).1
  unfold checkForced at hforced
  split_ifs at hforced with hb hm
  refine ⟨_, c, hnd, hlisted, hpaidnd, haddr, ?_, ?_, ?_, hc, rfl, rfl⟩
  · intro r hr
    have hx : r.address ∈ resolveIncludes a.includes := haddr ▸ List.mem_map_of_mem hr
    obtain ⟨x, _, hfind⟩ := List.mem_filterMap.mp hr
    obtain ⟨hin, hnotpaid, hnotheld⟩ := hinc _ hx
    refine ⟨(mem_of_listed hfind).1, fun hhold => hnotheld ?_, hnotpaid⟩
    exact List.mem_filter.mpr ⟨hhold, by simpa using ⟨hin, hnotpaid⟩⟩
  · intro b hb'
    by_contra hlt
    exact hb ⟨b, hb', by omega⟩
  · intro m hm'
    by_contra hlt
    exact hm ⟨m, hm', by omega⟩

section
variable {sha256 : Sha256} {a : Args} {s : Selection} {forced : List Row} {c : List Row × List Draw}

theorem Parts.within (h : Parts sha256 a s forced c) : Within a forced (candidates a forced) c.1 := by
  have hw := choose_within h.chosen_ok h.forced_budget h.forced_max
  exact ⟨hw.subperm.trans (perm_order _ _).subperm, hw.budget, hw.max_recipients⟩

theorem Parts.nodup_rows (h : Parts sha256 a s forced c) : a.rows.Nodup := h.rows_nodup.of_map _

theorem Parts.forced_nodup (h : Parts sha256 a s forced c) : forced.Nodup := by
  have := resolveIncludes_nodup a.includes
  rw [← h.forced_addresses] at this
  exact this.of_map _

theorem Parts.chosen_nodup (h : Parts sha256 a s forced c) : c.1.Nodup := by
  obtain ⟨l, hperm, hsub⟩ := h.within.subperm
  exact hperm.nodup_iff.mp ((h.nodup_rows.filter _).sublist hsub)

theorem Parts.selected_perm (h : Parts sha256 a s forced c) : s.selected.Perm (forced ++ c.1) := by
  rw [h.selected]
  exact (perm_byAddress _).append_left forced

theorem Parts.feasible (h : Parts sha256 a s forced c) : Feasible a s.selected := by
  have hperm := h.selected_perm
  have hsum : amountSum s.selected = amountSum forced + amountSum c.1 := by
    rw [← amountSum_append]
    exact (hperm.map Row.amount).sum_eq
  constructor
  · apply hperm.nodup_iff.mpr
    apply h.forced_nodup.append h.chosen_nodup
    intro r hf hc
    exact (mem_candidates.mp (h.within.subperm.subset hc)).2 (List.mem_map_of_mem hf)
  · intro r hr
    rcases List.mem_append.mp (hperm.mem_iff.mp hr) with hr | hr
    · exact h.forced_eligible r hr
    · exact (mem_candidates.mp (h.within.subperm.subset hr)).1
  · intro x hx
    have hforced : x ∈ addresses forced := by
      rw [h.forced_addresses]
      exact mem_resolveIncludes.mpr hx
    rw [h.selected, addresses, List.map_append]
    exact List.mem_append_left _ hforced
  · intro b hb
    rw [hsum]
    exact h.within.budget b hb
  · intro m hm
    rw [hperm.length_eq, List.length_append]
    exact h.within.max_recipients m hm

/-- Every row is selected, left or paid, and one of these only. -/
theorem Parts.partition (h : Parts sha256 a s forced c) :
    (s.selected ++ s.remaining ++ a.paid.flatten).Perm a.rows := by
  have hf := h.feasible
  have hrem : ∀ r, r ∈ s.remaining ↔ r ∈ a.rows ∧ r.address ∉ addresses a.paid.flatten ∧
      r.address ∉ addresses s.selected := by
    intro r
    rw [h.remaining, (perm_byAddress _).mem_iff, List.mem_filter, decide_eq_true_iff]
  have hremnd : s.remaining.Nodup := by
    rw [h.remaining]
    exact (perm_byAddress _).nodup_iff.mpr (h.nodup_rows.filter _)
  have hpaidnd : a.paid.flatten.Nodup := h.paid_nodup.of_map _
  apply (List.perm_ext_iff_of_nodup ?_ h.nodup_rows).mpr
  · intro r
    rw [List.mem_append, List.mem_append, hrem]
    constructor
    · rintro ((hr | ⟨hr, _⟩) | hr)
      · exact (hf.eligible r hr).listed
      · exact hr
      · exact h.paid_listed r hr
    · intro hr
      -- a row that shares its address with a paid or a selected one is that row
      by_cases hpaid : r.address ∈ addresses a.paid.flatten
      · obtain ⟨r', hr', heq⟩ := List.mem_map.mp hpaid
        exact Or.inr (eq_of_address h.rows_nodup (h.paid_listed r' hr') hr heq ▸ hr')
      · by_cases hsel : r.address ∈ addresses s.selected
        · obtain ⟨r', hr', heq⟩ := List.mem_map.mp hsel
          exact Or.inl (Or.inl (eq_of_address h.rows_nodup (hf.eligible r' hr').listed hr heq ▸ hr'))
        · exact Or.inl (Or.inr ⟨hr, hpaid, hsel⟩)
  · apply List.Nodup.append (hf.nodup.append hremnd ?_) hpaidnd ?_
    · intro r hs hr
      exact ((hrem r).mp hr).2.2 (List.mem_map_of_mem hs)
    · intro r hsr hp
      have hpaid : r.address ∈ addresses a.paid.flatten := List.mem_map_of_mem hp
      rcases List.mem_append.mp hsr with hr | hr
      · exact (hf.eligible r hr).not_paid hpaid
      · exact ((hrem r).mp hr).2.1 hpaid

/-- The smallest amounts go furthest: no feasible choice pays more recipients. -/
theorem Parts.smallest_optimal (h : Parts sha256 a s forced c) (hstrategy : a.strategy = .smallestFirst)
    {t : List Row} (ht : Feasible a t) : t.length ≤ s.selected.length := by
  obtain ⟨rest, hrest⟩ : ∃ rest, (forced ++ rest).Perm t := by
    have hsub : forced.Subperm t := by
      apply List.Nodup.subperm h.forced_nodup
      intro r hr
      have hx : r.address ∈ a.includes := by
        rw [← mem_resolveIncludes, ← h.forced_addresses]
        exact List.mem_map_of_mem hr
      obtain ⟨r', hr', heq⟩ := List.mem_map.mp (ht.includes _ hx)
      exact eq_of_address h.rows_nodup (ht.eligible r' hr').listed (h.forced_eligible r hr).listed heq ▸ hr'
    exact ⟨t.diff forced, List.subperm_append_diff_self_of_count_le (List.subperm_ext_iff.mp hsub)⟩
  have hnd : (forced ++ rest).Nodup := hrest.nodup_iff.mpr ht.nodup
  have hsorted : ((order a.strategy (candidates a forced)).Pairwise fun r r' => r.amount ≤ r'.amount) := by
    rw [hstrategy]
    refine (SortedBy.pairwise_insertionSort (fun r : Row => toLex (r.amount, r.address.toNat)) _).imp ?_
    intro r r' hle
    rcases (Prod.Lex.le_iff).mp hle with hlt | heq
    · exact hlt.le
    · exact heq.1.le
  have hrestsub : rest.Subperm (order a.strategy (candidates a forced)) := by
    apply List.Subperm.trans _ (perm_order _ _).symm.subperm
    apply List.Nodup.subperm hnd.of_append_right
    intro r hr
    have hel := ht.eligible r (hrest.mem_iff.mp (List.mem_append_right _ hr))
    refine mem_candidates.mpr ⟨hel, fun hf => ?_⟩
    obtain ⟨r', hr', heq⟩ := List.mem_map.mp hf
    have := eq_of_address h.rows_nodup (h.forced_eligible r' hr').listed hel.listed heq
    exact List.disjoint_of_nodup_append hnd hr' (this ▸ hr)
  have hchosen := h.chosen_ok
  rw [choose, if_neg (by rw [hstrategy]; decide)] at hchosen
  obtain rfl := Except.ok.inj hchosen
  obtain ⟨n, hn, hfill, hend⟩ := fill_smallest hstrategy forced.length (amountSum forced)
    (order a.strategy (candidates a forced)) []
  rw [List.nil_append] at hfill hend
  rw [h.selected_perm.length_eq, ← hrest.length_eq, List.length_append, List.length_append, hfill,
    List.length_take, min_eq_left hn]
  rcases hend with rfl | ⟨m, hm, hfull⟩ | ⟨b, hb, hover⟩
  · have := hrestsub.length_le
    omega
  · have hlim := ht.max_recipients m hm
    rw [← hrest.length_eq, List.length_append] at hlim
    rw [List.length_take, min_eq_left hn] at hfull
    omega
  · by_contra hlt
    have hbudget := ht.budget b hb
    have hsum : amountSum t = amountSum forced + amountSum rest := by
      rw [← amountSum_append]
      exact ((hrest.map Row.amount).sum_eq).symm
    have hmin : amountSum ((order a.strategy (candidates a forced)).take rest.length) ≤ amountSum rest :=
      SortedBy.sum_take_le hsorted hrestsub
    have hmono : amountSum ((order a.strategy (candidates a forced)).take (n + 1)) ≤
        amountSum ((order a.strategy (candidates a forced)).take rest.length) := by
      apply List.Sublist.sum_le_sum
      · exact (List.take_sublist_take_left (by omega)).map _
      · intro x _
        exact Nat.zero_le x
    omega

end

/-- An accepted selection splits the list into what is selected, what is left and what is paid;
it keeps to the lists and the limits, and smallest-first pays as many as any choice that does. -/
theorem selection_exact {sha256 : Sha256} {a : Args} {s : Selection} (h : main sha256 a = .ok s) :
    (s.selected ++ s.remaining ++ a.paid.flatten).Perm a.rows ∧ Feasible a s.selected ∧
      (a.strategy = .smallestFirst → ∀ t, Feasible a t → t.length ≤ s.selected.length) := by
  obtain ⟨forced, c, hparts⟩ := main_ok h
  exact ⟨hparts.partition, hparts.feasible, fun hs t ht => hparts.smallest_optimal hs ht⟩

/-- The larger row is required; the smaller one still fits the budget. -/
def sampleSelection : Args :=
  ⟨[sampleRow₁, sampleRow₂, ⟨3, 9, by decide⟩], [], [], [2], some 15, some 2, .smallestFirst,
    { sampleArgs with seed := [] }⟩

theorem selection_exact_sample : ∃ s, main List.length sampleSelection = .ok s ∧
    (s.selected ++ s.remaining ++ sampleSelection.paid.flatten).Perm sampleSelection.rows ∧
      Feasible sampleSelection s.selected ∧ (sampleSelection.strategy = .smallestFirst →
        ∀ t, Feasible sampleSelection t → t.length ≤ s.selected.length) := by
  have hok : (main List.length sampleSelection).isOk = true := by decide +kernel
  obtain ⟨s, h⟩ := Except.exists_ok_of_toBool hok
  exact ⟨s, h, selection_exact h⟩

end HarmonyMigration.Airdrop.SelectBatch
