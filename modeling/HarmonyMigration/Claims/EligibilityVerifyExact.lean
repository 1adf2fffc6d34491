import HarmonyMigration.Claims.EligibilityVerify
import HarmonyMigration.Claims.SupplyLedgerExact

/-! Exactly when the eligibility verification passes, and what that says of the category of an input row. -/

namespace HarmonyMigration.Claims.EligibilityVerify

open Airdrop Airdrop.One1 Decimal Except

open ContractReview (anyToHex requireAddressSecureKey fromhex hexPrefix KeyError HashesTo)

/-- The normalized address of a row, where it has one. -/
def Row.addressOf (u : Lower) (row : Row) : Text := (anyToHex u row.address).getD []

/-- What a category asks of the code of a row; `approved` says that its address has an active override. -/
def CodeOk (approved isContract : Prop) : Category → Prop
  | .automatic => isContract ↔ approved
  | .contractReview => isContract ∧ ¬approved
  | .excludedAddress => True

structure RowOk (u : Lower) (c : Category) (active : List Text) (row : Row) : Prop where
  named : HashesTo u row.address (row.key u)
  wallet : 0 ≤ row.amount .walletAirdrop
  vault : 0 ≤ row.amount .stakedToVault
  closes : row.amount .walletAirdrop + row.amount .stakedToVault = row.amount .totalClaim
  threshold : minimumAtto ≤ row.value
  code : ∃ isContract, row.codeBearing u = some isContract ∧ CodeOk (row.addressOf u ∈ active) (isContract = true) c

section Rows
variable {u : Lower} {c : Category} {active : List Text} {row : Row} {t t' : Tally}

theorem name_iff {x : Except KeyError Text} {a : Text} : x.mapError Error.name = .ok a ↔ x = .ok a := by
  refine ⟨mapError_ok, fun h => ?_⟩
  rw [h]
  rfl

theorem checkCode_iff {approved isContract : Bool} {x : Unit} :
    checkCode c approved isContract = .ok x ↔ CodeOk (approved = true) (isContract = true) c := by
  cases c with
  | automatic =>
    unfold checkCode CodeOk
    rw [require_bind_ok, require_iff]
    exact ⟨fun h => ⟨h.1, h.2⟩, fun h => ⟨h.mp, h.mpr⟩⟩
  | contractReview =>
    unfold checkCode CodeOk
    rw [require_iff]
  | excludedAddress => exact ⟨fun _ => trivial, fun _ => rfl⟩

/-- The address that is returned is the normalized one. -/
theorem addressOf_eq {key address : Text} (h : requireAddressSecureKey u row.address key = .ok address) :
    address = row.addressOf u := by
  unfold requireAddressSecureKey at h
  unfold Row.addressOf
  split at h
  · cases h
  · rename_i normalized hnormalized
    split at h
    · cases h
    · dsimp only at h
      split_ifs at h
      rw [hnormalized]
      exact (Except.ok.inj h).symm

/-- What a row that passes adds. -/
def Tally.count (u : Lower) (c : Category) (active : List Text) (t : Tally) (row : Row) : Tally :=
  t.add (row.key u) (row.addressOf u) (c = .automatic ∧ row.addressOf u ∈ active) row

theorem pairwise_cons_iff {key : Text} {keys : List Text} (h : keys.Pairwise (· > ·)) :
    ((∀ previous ∈ keys.head?, previous < key) ∧ key ∉ keys) ↔ (key :: keys).Pairwise (· > ·) := by
  rw [List.pairwise_cons]
  refine ⟨fun ⟨hhead, _⟩ => ⟨fun k hk => ?_, h⟩, fun ⟨hall, _⟩ => ⟨fun k hk => ?_, fun hmem => (hall key hmem).false⟩⟩
  · cases keys with
    | nil => cases hk
    | cons previous keys =>
      have hlast : previous < key := hhead previous rfl
      rcases List.mem_cons.mp hk with rfl | hk
      · exact hlast
      · exact ((List.pairwise_cons.mp h).1 k hk).trans hlast
  · exact hall k (List.mem_of_mem_head? hk)

theorem readRow_ok_iff (hsorted : t.keys.Pairwise (· > ·)) : readRow u c active t row = .ok t' ↔
    (row.key u :: t.keys).Pairwise (· > ·) ∧ RowOk u c active row ∧ t.count u c active row = t' := by
  rw [← pairwise_cons_iff hsorted]
  unfold readRow
  rw [require_bind_ok, require_bind_ok, and_assoc]
  refine and_congr_right fun _ => and_congr_right fun _ => ⟨fun h => ?_, fun ⟨hrow, hcount⟩ => ?_⟩
  · obtain ⟨address, hname, h⟩ := of_bind_ok h
    rw [name_iff] at hname
    obtain rfl := addressOf_eq hname
    rw [require_bind_ok, require_bind_ok, ofOption_bind_ok] at h
    obtain ⟨hamounts, hthreshold, isContract, hcode, h⟩ := h
    obtain ⟨x, hcheck, hcount⟩ := of_map_ok h
    have hok := checkCode_iff.mp hcheck
    rw [decide_eq_true_iff] at hok
    refine ⟨⟨⟨_, hname⟩, hamounts.1, hamounts.2.1, hamounts.2.2, hthreshold, isContract, hcode, hok⟩, ?_⟩
    rw [← hcount, Tally.count]
    simp
  · obtain ⟨address, hname⟩ := hrow.named
    obtain rfl := addressOf_eq hname
    obtain ⟨isContract, hcode, hok⟩ := hrow.code
    have hcheck : checkCode c (decide (row.addressOf u ∈ active)) isContract = .ok () :=
      checkCode_iff.mpr (by rwa [decide_eq_true_iff])
    rw [name_iff.mpr hname, bind_ok_left, require_bind_ok, require_bind_ok, ofOption_bind_ok]
    refine ⟨⟨hrow.wallet, hrow.vault, hrow.closes⟩, hrow.threshold, isContract, hcode, ?_⟩
    dsimp only
    rw [hcheck, ← hcount, Tally.count]
    simp [Except.map]

theorem run_ok_iff {rows : List Row} (hsorted : t.keys.Pairwise (· > ·)) :
    rows.foldlM (readRow u c active) t = .ok t' ↔
      ((rows.map fun row => row.key u).reverse ++ t.keys).Pairwise (· > ·) ∧ (∀ row ∈ rows, RowOk u c active row) ∧
        rows.foldl (Tally.count u c active) t = t' := by
  induction rows generalizing t with
  | nil => simp [hsorted, pure, Except.pure]
  | cons row rows ih =>
    have happend : ((row :: rows).map fun row => row.key u).reverse ++ t.keys =
        (rows.map fun row => row.key u).reverse ++ (row.key u :: t.keys) := by simp
    rw [List.foldlM_cons, List.foldl_cons, happend]
    refine ⟨fun h => ?_, fun ⟨hpairwise, hrows, hrun⟩ => ?_⟩
    · obtain ⟨s, hs, h⟩ := of_bind_ok h
      obtain ⟨hkeys, hrow, rfl⟩ := (readRow_ok_iff hsorted).mp hs
      obtain ⟨hpairwise, hrows, hrun⟩ := (ih hkeys).mp h
      exact ⟨hpairwise, List.forall_mem_cons.mpr ⟨hrow, hrows⟩, hrun⟩
    · have hkeys : (row.key u :: t.keys).Pairwise (· > ·) := (List.pairwise_append.mp hpairwise).2.1
      obtain ⟨hrow, hrows⟩ := List.forall_mem_cons.mp hrows
      have hstep : readRow u c active t row = .ok (t.count u c active row) :=
        (readRow_ok_iff hsorted).mpr ⟨hkeys, hrow, rfl⟩
      rw [hstep]
      exact (ih hkeys).mpr ⟨hpairwise, hrows, hrun⟩

/-! ### What the tally of a file is -/

theorem keys_foldl_count (rows : List Row) (t : Tally) :
    (rows.foldl (Tally.count u c active) t).keys = (rows.map fun row => row.key u).reverse ++ t.keys := by
  induction rows generalizing t with
  | nil => rfl
  | cons row rows ih =>
    rw [List.foldl_cons, ih]
    simp [Tally.count, Tally.add]

theorem rows_foldl_count (rows : List Row) (t : Tally) :
    (rows.foldl (Tally.count u c active) t).rows = t.rows + rows.length := by
  induction rows generalizing t with
  | nil => rfl
  | cons row rows ih =>
    rw [List.foldl_cons, ih, List.length_cons]
    simp only [Tally.count, Tally.add]
    omega

theorem totals_foldl_count (rows : List Row) (t : Tally) (component : Component) :
    (rows.foldl (Tally.count u c active) t).totals component =
      t.totals component + (rows.map fun row => row.componentAtto component).sum := by
  induction rows generalizing t with
  | nil => simp
  | cons row rows ih =>
    rw [List.foldl_cons, ih, List.map_cons, List.sum_cons, ← add_assoc]
    rfl

theorem mem_found_foldl_count (rows : List Row) (t : Tally) (a : Text) :
    a ∈ (rows.foldl (Tally.count u .automatic active) t).automaticCodeFound ↔
      a ∈ t.automaticCodeFound ∨ a ∈ active ∧ ∃ row ∈ rows, row.addressOf u = a := by
  induction rows generalizing t with
  | nil => simp
  | cons row rows ih =>
    rw [List.foldl_cons, ih]
    simp only [Tally.count, Tally.add, true_and, decide_eq_true_eq]
    by_cases hactive : row.addressOf u ∈ active
    · rw [if_pos hactive]
      grind
    · rw [if_neg hactive]
      grind

/-- A category file that is read: its tally, and its rows. -/
theorem readCategory_ok_iff {rows : List Row} : readCategory u c active rows = .ok t ↔
    (rows.map fun row => row.key u).Pairwise (· < ·) ∧ (∀ row ∈ rows, RowOk u c active row) ∧
      rows.foldl (Tally.count u c active) .start = t := by
  have hstart : Tally.start.keys.Pairwise (· > ·) := List.Pairwise.nil
  unfold readCategory
  rw [run_ok_iff hstart]
  have hnil : Tally.start.keys = [] := rfl
  rw [hnil, List.append_nil, List.pairwise_reverse]

/-! ### What is expected of the input -/

/-- The key and the metadata of an input row can be read. -/
def InputOk (u : Lower) (row : Row) : Prop :=
  HashesTo u row.address row.secureKey ∧ ∃ isContract, row.codeBearing u = some isContract

def Expected.count (u : Lower) (excluded : List Text) (e : Expected) (row : Row) : Expected where
  keys := if minimumAtto ≤ row.value then row.key u :: e.keys else e.keys
  excludedKeys := if minimumAtto ≤ row.value ∧ row.addressOf u ∈ excluded then row.key u :: e.excludedKeys
    else e.excludedKeys
  exact := if row.value = minimumAtto then e.exact + 1 else e.exact

variable {excluded : List Text} {e e' : Expected} {rows : List Row}

theorem inputRow_ok_iff : inputRow u excluded e row = .ok e' ↔ InputOk u row ∧ e.count u excluded row = e' := by
  unfold inputRow
  refine ⟨fun h => ?_, fun ⟨⟨⟨address, hname⟩, isContract, hcode⟩, hcount⟩ => ?_⟩
  · obtain ⟨address, hname, h⟩ := of_bind_ok h
    rw [name_iff] at hname
    obtain rfl := addressOf_eq hname
    obtain ⟨isContract, hcode, hcount⟩ := of_map_ok h
    exact ⟨⟨⟨_, hname⟩, isContract, ok_of_ofOption hcode⟩, hcount⟩
  · obtain rfl := addressOf_eq hname
    rw [name_iff.mpr hname, bind_ok_left, hcode, ← hcount]
    rfl

theorem input_ok_iff : rows.foldlM (inputRow u excluded) e = .ok e' ↔
    (∀ row ∈ rows, InputOk u row) ∧ rows.foldl (Expected.count u excluded) e = e' := by
  induction rows generalizing e with
  | nil => simp [pure, Except.pure]
  | cons row rows ih =>
    rw [List.foldlM_cons, List.foldl_cons, List.forall_mem_cons]
    refine ⟨fun h => ?_, fun ⟨⟨hrow, hrows⟩, hrun⟩ => ?_⟩
    · obtain ⟨s, hs, h⟩ := of_bind_ok h
      obtain ⟨hrow, rfl⟩ := inputRow_ok_iff.mp hs
      obtain ⟨hrows, hrun⟩ := ih.mp h
      exact ⟨⟨hrow, hrows⟩, hrun⟩
    · have hstep : inputRow u excluded e row = .ok (e.count u excluded row) := inputRow_ok_iff.mpr ⟨hrow, rfl⟩
      rw [hstep]
      exact ih.mpr ⟨hrows, hrun⟩

theorem mem_keys_foldl (rows : List Row) (e : Expected) (k : Text) :
    k ∈ (rows.foldl (Expected.count u excluded) e).keys ↔
      k ∈ e.keys ∨ ∃ row ∈ rows, minimumAtto ≤ row.value ∧ row.key u = k := by
  induction rows generalizing e with
  | nil => simp
  | cons row rows ih =>
    rw [List.foldl_cons, ih]
    unfold Expected.count
    by_cases hvalue : minimumAtto ≤ row.value
    · rw [if_pos hvalue]
      grind
    · rw [if_neg hvalue]
      grind

theorem mem_excludedKeys_foldl (rows : List Row) (e : Expected) (k : Text) :
    k ∈ (rows.foldl (Expected.count u excluded) e).excludedKeys ↔
      k ∈ e.excludedKeys ∨ ∃ row ∈ rows, (minimumAtto ≤ row.value ∧ row.addressOf u ∈ excluded) ∧ row.key u = k := by
  induction rows generalizing e with
  | nil => simp
  | cons row rows ih =>
    rw [List.foldl_cons, ih]
    unfold Expected.count
    by_cases hvalue : minimumAtto ≤ row.value ∧ row.addressOf u ∈ excluded
    · rw [if_pos hvalue]
      grind
    · rw [if_neg hvalue]
      grind

theorem exact_foldl (rows : List Row) (e : Expected) :
    (rows.foldl (Expected.count u excluded) e).exact =
      e.exact + (rows.filter fun row => row.value = minimumAtto).length := by
  induction rows generalizing e with
  | nil => rfl
  | cons row rows ih =>
    rw [List.foldl_cons, ih]
    dsimp only [Expected.count]
    by_cases hvalue : row.value = minimumAtto
    · rw [if_pos hvalue, List.filter_cons_of_pos (by simpa using hvalue), List.length_cons]
      omega
    · rw [if_neg hvalue, List.filter_cons_of_neg (by simpa using hvalue)]

end Rows

/-! ### The whole run -/

/-- The overrides whose addresses are not excluded. -/
def activeCode (excluded automaticCode : List Text) : List Text := automaticCode.filter (· ∉ excluded)

/-- The totals and the identity of a file are those of the summary. -/
structure SummaryOk (file : CategoryFile) (expected : CategorySummary) : Prop where
  rows : file.rows.length = expected.rows
  sha256 : file.sha256 = expected.outputSha256
  totals : ∀ component ∈ components,
    renderInt (file.rows.map fun row => row.componentAtto component).sum = expected.componentsAtto component

def keysOf (u : Lower) (rows : List Row) : List Text := rows.map fun row => row.key u

/-- What the run requires of its files, with the addresses that are excluded and those of the overrides. -/
structure Conforms (u : Lower) (i : Input) (excluded automaticCode : List Text) : Prop where
  inclusive : i.policy.comparison = "ge".toList
  exclusions : ∃ sources, excludedAddresses u i = .ok (excluded, sources)
  overrides : ∃ sources, loadAutomaticCodeAddresses u i.automaticCodeFiles = .ok (automaticCode, sources)
  requested : SameSet automaticCode i.policy.automaticCodeAddressesRequested
  input : ∀ row ∈ i.input, InputOk u row
  increasing : ∀ c, (keysOf u (i.files c).rows).Pairwise (· < ·)
  rows : ∀ c, ∀ row ∈ (i.files c).rows, RowOk u c (activeCode excluded automaticCode) row
  overridesPresent : ∀ a ∈ activeCode excluded automaticCode, ∃ row ∈ (i.files .automatic).rows, row.addressOf u = a
  disjoint : ∀ c c', c ≠ c' → ∀ k ∈ keysOf u (i.files c).rows, k ∉ keysOf u (i.files c').rows
  union : ∀ k, (∃ c, k ∈ keysOf u (i.files c).rows) ↔ ∃ row ∈ i.input, minimumAtto ≤ row.value ∧ row.key u = k
  excludedKeys : ∀ k, k ∈ keysOf u (i.files .excludedAddress).rows ↔
    ∃ row ∈ i.input, (minimumAtto ≤ row.value ∧ row.addressOf u ∈ excluded) ∧ row.key u = k
  exact : (i.input.filter fun row => row.value = minimumAtto).length = i.policy.exactThresholdRows
  summary : ∀ c, SummaryOk (i.files c) (i.policy.categories c)

section Run
variable {u : Lower} {i : Input} {excluded automaticCode active : List Text}

theorem sameSet_iff {l l' : List Text} : SameSet l l' ↔ ∀ a, a ∈ l ↔ a ∈ l' :=
  ⟨fun h a => ⟨h.1 a, h.2 a⟩, fun h => ⟨fun a => (h a).mp, fun a => (h a).mpr⟩⟩

theorem mem_keys_tally {c : Category} {rows : List Row} {k : Text} :
    k ∈ (rows.foldl (Tally.count u c active) .start).keys ↔ k ∈ keysOf u rows := by
  rw [keys_foldl_count, List.mem_append, List.mem_reverse]
  exact or_iff_left List.not_mem_nil

theorem checkSummary_iff {c : Category} {file : CategoryFile} {expected : CategorySummary} {x : Unit} :
    checkSummary file expected (file.rows.foldl (Tally.count u c active) .start) = .ok x ↔ SummaryOk file expected := by
  have hrows : (file.rows.foldl (Tally.count u c active) .start).rows = file.rows.length := by
    rw [rows_foldl_count]
    exact Nat.zero_add _
  have htotals : ∀ component, (file.rows.foldl (Tally.count u c active) .start).totals component =
      (file.rows.map fun row => row.componentAtto component).sum := fun component => by
    rw [totals_foldl_count]
    exact zero_add _
  unfold checkSummary
  rw [require_bind_ok, require_bind_ok, require_iff, hrows]
  simp only [htotals]
  exact ⟨fun h => ⟨h.1, h.2.1, h.2.2⟩, fun h => ⟨h.1, h.2, h.3⟩⟩

theorem found_iff {rows : List Row} :
    SameSet (rows.foldl (Tally.count u .automatic active) .start).automaticCodeFound active ↔
      ∀ a ∈ active, ∃ row ∈ rows, row.addressOf u = a := by
  have hmem : ∀ a, a ∈ (rows.foldl (Tally.count u .automatic active) .start).automaticCodeFound ↔
      a ∈ active ∧ ∃ row ∈ rows, row.addressOf u = a := fun a => by
    rw [mem_found_foldl_count]
    exact or_iff_right List.not_mem_nil
  rw [sameSet_iff]
  refine ⟨fun h a ha => ((hmem a).mp ((h a).mpr ha)).2, fun h a => (hmem a).trans ?_⟩
  exact ⟨fun hboth => hboth.1, fun ha => ⟨ha, h a ha⟩⟩

theorem exists_category {P : Category → Prop} :
    (∃ c, P c) ↔ P .automatic ∨ P .contractReview ∨ P .excludedAddress := by
  refine ⟨fun ⟨c, hc⟩ => ?_, fun h => ?_⟩
  · cases c with
    | automatic => exact .inl hc
    | contractReview => exact .inr (.inl hc)
    | excludedAddress => exact .inr (.inr hc)
  · rcases h with h | h | h
    · exact ⟨_, h⟩
    · exact ⟨_, h⟩
    · exact ⟨_, h⟩

theorem forall_category {P : Category → Prop} :
    (∀ c, P c) ↔ P .automatic ∧ P .contractReview ∧ P .excludedAddress := by
  refine ⟨fun h => ⟨h _, h _, h _⟩, fun ⟨ha, hr, he⟩ c => ?_⟩
  cases c with
  | automatic => exact ha
  | contractReview => exact hr
  | excludedAddress => exact he

theorem disjoint_iff {keys : Category → List Text} : (∀ c c', c ≠ c' → ∀ k ∈ keys c, k ∉ keys c') ↔
    (∀ k ∈ keys .automatic, k ∉ keys .contractReview) ∧ (∀ k ∈ keys .automatic, k ∉ keys .excludedAddress) ∧
      ∀ k ∈ keys .contractReview, k ∉ keys .excludedAddress := by
  refine ⟨fun h => ⟨h _ _ nofun, h _ _ nofun, h _ _ nofun⟩, fun ⟨har, hae, hre⟩ c c' hne k hk hk' => ?_⟩
  cases c <;> cases c' <;> grind

theorem union_iff : SameSet
      ((((i.files .automatic).rows.foldl (Tally.count u .automatic active) .start).keys ++
        ((i.files .contractReview).rows.foldl (Tally.count u .contractReview active) .start).keys) ++
        ((i.files .excludedAddress).rows.foldl (Tally.count u .excludedAddress active) .start).keys)
      (i.input.foldl (Expected.count u excluded) ⟨[], [], 0⟩).keys ↔
    ∀ k, (∃ c, k ∈ keysOf u (i.files c).rows) ↔ ∃ row ∈ i.input, minimumAtto ≤ row.value ∧ row.key u = k := by
  rw [sameSet_iff]
  refine forall_congr' fun k => ?_
  rw [List.mem_append, List.mem_append, mem_keys_tally, mem_keys_tally, mem_keys_tally, mem_keys_foldl, or_assoc,
    exists_category]
  simp

theorem excludedKeys_iff :
    SameSet ((i.files .excludedAddress).rows.foldl (Tally.count u .excludedAddress active) .start).keys
      (i.input.foldl (Expected.count u excluded) ⟨[], [], 0⟩).excludedKeys ↔
    ∀ k, k ∈ keysOf u (i.files .excludedAddress).rows ↔
      ∃ row ∈ i.input, (minimumAtto ≤ row.value ∧ row.addressOf u ∈ excluded) ∧ row.key u = k := by
  rw [sameSet_iff]
  refine forall_congr' fun k => ?_
  rw [mem_keys_tally, mem_excludedKeys_foldl]
  simp

theorem exact_eq : (i.input.foldl (Expected.count u excluded) ⟨[], [], 0⟩).exact =
    (i.input.filter fun row => row.value = minimumAtto).length := by
  rw [exact_foldl]
  exact Nat.zero_add _

/-- The run as the list of its checks. -/
theorem exists_main_ok_iff : (∃ out, main u i = .ok out) ↔
    i.policy.comparison = "ge".toList ∧ ∃ e, excludedAddresses u i = .ok e ∧
      ∃ a, loadAutomaticCodeAddresses u i.automaticCodeFiles = .ok a ∧
        SameSet a.1 i.policy.automaticCodeAddressesRequested ∧
        ∃ automatic, readCategory u .automatic (activeCode e.1 a.1) (i.files .automatic).rows = .ok automatic ∧
        ∃ contracts, readCategory u .contractReview (activeCode e.1 a.1) (i.files .contractReview).rows = .ok contracts ∧
        ∃ excluded, readCategory u .excludedAddress (activeCode e.1 a.1) (i.files .excludedAddress).rows = .ok excluded ∧
        SameSet automatic.automaticCodeFound (activeCode e.1 a.1) ∧
        ((∀ k ∈ automatic.keys, k ∉ contracts.keys) ∧ (∀ k ∈ automatic.keys, k ∉ excluded.keys) ∧
          ∀ k ∈ contracts.keys, k ∉ excluded.keys) ∧
        ∃ expected, i.input.foldlM (inputRow u e.1) ⟨[], [], 0⟩ = .ok expected ∧
        SameSet (automatic.keys ++ contracts.keys ++ excluded.keys) expected.keys ∧
        SameSet excluded.keys expected.excludedKeys ∧ expected.exact = i.policy.exactThresholdRows ∧
        (∃ x, checkSummary (i.files .automatic) (i.policy.categories .automatic) automatic = .ok x) ∧
        (∃ x, checkSummary (i.files .contractReview) (i.policy.categories .contractReview) contracts = .ok x) ∧
        ∃ x, checkSummary (i.files .excludedAddress) (i.policy.categories .excludedAddress) excluded = .ok x := by
  unfold main
  simp only [require_bind_ok, exists_and_left, exists_bind_ok_iff, exists_map_ok_iff, exists_and_right]
  rfl

/-- A run passes exactly where its files conform. -/
theorem exists_main_ok_iff_conforms :
    (∃ out, main u i = .ok out) ↔ ∃ excluded automaticCode, Conforms u i excluded automaticCode := by
  rw [exists_main_ok_iff]
  refine ⟨fun h => ?_, fun ⟨excluded, automaticCode, h⟩ => ?_⟩
  · obtain ⟨hge, ⟨excluded, sources⟩, hexcluded, ⟨automaticCode, codeSources⟩, hcode, hrequested, automatic, hautomatic,
      contracts, hcontracts, review, hreview, hfound, hdisjoint, expected, hinput, hunion, hexcludedKeys, hexact,
      ⟨x, hx⟩, ⟨y, hy⟩, ⟨z, hz⟩⟩ := h
    obtain ⟨ha, hra, rfl⟩ := readCategory_ok_iff.mp hautomatic
    obtain ⟨hc, hrc, rfl⟩ := readCategory_ok_iff.mp hcontracts
    obtain ⟨he, hre, rfl⟩ := readCategory_ok_iff.mp hreview
    obtain ⟨hrows, rfl⟩ := input_ok_iff.mp hinput
    simp only [mem_keys_tally] at hdisjoint
    refine ⟨excluded, automaticCode, hge, ⟨_, hexcluded⟩, ⟨_, hcode⟩, hrequested, hrows,
      forall_category.mpr ⟨ha, hc, he⟩, forall_category.mpr ⟨hra, hrc, hre⟩, found_iff.mp hfound,
      disjoint_iff.mpr hdisjoint, union_iff.mp hunion, excludedKeys_iff.mp hexcludedKeys, exact_eq.symm.trans hexact,
      forall_category.mpr ⟨checkSummary_iff.mp hx, checkSummary_iff.mp hy, checkSummary_iff.mp hz⟩⟩
  · obtain ⟨sources, hexcluded⟩ := h.exclusions
    obtain ⟨codeSources, hcode⟩ := h.overrides
    have hread : ∀ c, readCategory u c (activeCode excluded automaticCode) (i.files c).rows =
        .ok ((i.files c).rows.foldl (Tally.count u c (activeCode excluded automaticCode)) .start) := fun c =>
      readCategory_ok_iff.mpr ⟨h.increasing c, h.rows c, rfl⟩
    have hsummary : ∀ c, ∃ x, checkSummary (i.files c) (i.policy.categories c)
        ((i.files c).rows.foldl (Tally.count u c (activeCode excluded automaticCode)) .start) = .ok x := fun c =>
      ⟨(), checkSummary_iff.mpr (h.summary c)⟩
    refine ⟨h.inclusive, _, hexcluded, _, hcode, h.requested, _, hread _, _, hread _, _, hread _,
      found_iff.mpr h.overridesPresent, ?_, _, input_ok_iff.mpr ⟨h.input, rfl⟩, union_iff.mpr h.union,
      excludedKeys_iff.mpr h.excludedKeys, exact_eq.trans h.exact, hsummary _, hsummary _, hsummary _⟩
    simpa only [mem_keys_tally] using disjoint_iff.mp h.disjoint

/-- The categories of an eligible input row partition, and they follow the policy wherever the file has the address
and the code of the input row. -/
structure RowSound (u : Lower) (i : Input) (excluded active : List Text) (r : Row) : Prop where
  partition : ∃! c, r.key u ∈ keysOf u (i.files c).rows
  excludedIff : (∀ r' ∈ i.input, r'.key u = r.key u → r'.addressOf u = r.addressOf u) →
    (r.key u ∈ keysOf u (i.files .excludedAddress).rows ↔ r.addressOf u ∈ excluded)
  carried : (∀ r' ∈ i.input, r'.key u = r.key u → r'.addressOf u = r.addressOf u) →
    ∀ c, ∀ d ∈ (i.files c).rows, d.key u = r.key u → d.addressOf u = r.addressOf u →
      ∀ hasCode, r.codeBearing u = some hasCode → d.codeBearing u = some hasCode →
        assigned excluded active (r.addressOf u) hasCode = .ok c

theorem Conforms.rowSound (h : Conforms u i excluded automaticCode) {r : Row} (hr : r ∈ i.input)
    (hvalue : minimumAtto ≤ r.value) : RowSound u i excluded (activeCode excluded automaticCode) r := by
  have hexcluded : (∀ r' ∈ i.input, r'.key u = r.key u → r'.addressOf u = r.addressOf u) →
      (r.key u ∈ keysOf u (i.files .excludedAddress).rows ↔ r.addressOf u ∈ excluded) := by
    intro halone
    rw [h.excludedKeys]
    refine ⟨fun ⟨r', hr', ⟨_, haddress⟩, hkey⟩ => ?_, fun haddress => ⟨r, hr, ⟨hvalue, haddress⟩, rfl⟩⟩
    rw [← halone r' hr' hkey]
    exact haddress
  refine ⟨?_, hexcluded, fun halone c d hd hkey haddress hasCode hrcode hdcode => ?_⟩
  · obtain ⟨c, hc⟩ := (h.union (r.key u)).mpr ⟨r, hr, hvalue, rfl⟩
    refine ⟨c, hc, fun c' hc' => ?_⟩
    by_contra hne
    exact h.disjoint c' c hne _ hc' hc
  · have hmem : r.key u ∈ keysOf u (i.files c).rows := List.mem_map.mpr ⟨d, hd, hkey⟩
    obtain ⟨isContract, hcode, hok⟩ := (h.rows c d hd).code
    obtain rfl := Option.some.inj (hdcode.symm.trans hcode)
    rw [haddress] at hok
    unfold assigned
    by_cases hex : r.addressOf u ∈ excluded
    · have hin : r.key u ∈ keysOf u (i.files .excludedAddress).rows := (hexcluded halone).mpr hex
      have hc : c = .excludedAddress := by
        by_contra hne
        exact h.disjoint c .excludedAddress hne _ hmem hin
      rw [if_pos hex, hc]
    · rw [if_neg hex]
      cases c with
      | automatic =>
        by_cases hactive : r.addressOf u ∈ activeCode excluded automaticCode
        · have hcodeTrue : hasCode = true := hok.mpr hactive
          rw [if_pos hactive, hcodeTrue]
          rfl
        · rw [if_neg hactive, if_neg fun hcodeTrue => hactive (hok.mp hcodeTrue)]
      | contractReview => rw [if_neg hok.2, if_pos hok.1]
      | excludedAddress => exact absurd ((hexcluded halone).mp hmem) hex

/-- Exactly the conforming files pass, and in them every eligible input row is in one category. -/
theorem eligibility_pass_exact (u : Lower) (i : Input) :
    ((∃ out, main u i = .ok out) ↔ ∃ excluded automaticCode, Conforms u i excluded automaticCode) ∧
    ∀ excluded automaticCode, Conforms u i excluded automaticCode → ∀ r ∈ i.input, minimumAtto ≤ r.value →
      RowSound u i excluded (activeCode excluded automaticCode) r :=
  ⟨exists_main_ok_iff_conforms, fun _ _ h _ hr hvalue => h.rowSound hr hvalue⟩

end Run

/-! ### A category row that is not the input row -/

open SupplyLedger (zeroKey zeroHex lower_zeroKey hashesTo_zeroKey)

/-- A row of the zero address with one component. -/
def zeroRow (codeHash : Text) (component : Component) : Row where
  secureKey := zeroKey
  address := zeroHex
  codeHashShard0 := codeHash
  codeHashShard1 := []
  qualification := none
  amount := fun c => if c = component ∨ c = .totalClaim then minimumAtto else 0

/-- In the ledger the zero address has code, and all that it claims is for its wallet. -/
def ledgerRow : Row := zeroRow (hexPrefix ++ List.replicate 64 '1') .walletAirdrop

/-- In the automatic output it has no code, and all that it claims is staked. -/
def automaticRow : Row := zeroRow emptyCodeHash .stakedToVault

def relabelledFile (c : Category) : CategoryFile where
  rows := if c = .automatic then [automaticRow] else []
  sha256 := []

def relabelled : Input where
  input := [ledgerRow]
  files := relabelledFile
  automaticCodeFiles := []
  excludeAddress := []
  excludeAddressesFiles := []
  policy := {
    comparison := "ge".toList
    excludedAddressesRequested := []
    excludedAddressSources := []
    automaticCodeAddressesRequested := []
    exactThresholdRows := 1
    categories := fun c => ⟨(relabelledFile c).rows.length, [], fun component =>
      renderInt ((relabelledFile c).rows.map fun row => row.componentAtto component).sum⟩ }

theorem key_zeroRow (codeHash : Text) (component : Component) : (zeroRow codeHash component).key asciiLower = zeroKey :=
  lower_zeroKey

theorem rowOk_automaticRow : RowOk asciiLower .automatic [] automaticRow where
  named := by
    rw [automaticRow, key_zeroRow]
    exact hashesTo_zeroKey (by decide +kernel)
  wallet := by decide
  vault := by decide
  closes := by decide
  threshold := by decide
  code := ⟨false, by decide +kernel, by simp [CodeOk]⟩

theorem relabelled_conforms : Conforms asciiLower relabelled [] [] where
  inclusive := rfl
  exclusions := ⟨[], rfl⟩
  overrides := ⟨[], rfl⟩
  requested := by decide
  input := by
    intro row hrow
    obtain rfl := List.mem_singleton.mp hrow
    exact ⟨hashesTo_zeroKey (by decide +kernel), true, by decide +kernel⟩
  increasing := forall_category.mpr ⟨List.pairwise_singleton _ _, List.Pairwise.nil, List.Pairwise.nil⟩
  rows := forall_category.mpr ⟨fun row hrow => List.mem_singleton.mp hrow ▸ rowOk_automaticRow, nofun, nofun⟩
  overridesPresent := nofun
  disjoint := disjoint_iff.mpr ⟨fun _ _ => List.not_mem_nil, fun _ _ => List.not_mem_nil, nofun⟩
  union := by
    intro k
    rw [exists_category]
    have hvalue : minimumAtto ≤ ledgerRow.value := by decide
    have hledger : ledgerRow.key asciiLower = zeroKey := key_zeroRow _ _
    have hautomatic : automaticRow.key asciiLower = zeroKey := key_zeroRow _ _
    simp [keysOf, relabelled, relabelledFile, hautomatic, hledger, hvalue, eq_comm]
  excludedKeys := by
    intro k
    simp [keysOf, relabelled, relabelledFile]
  exact := by decide
  summary := fun c => ⟨rfl, rfl, fun _ _ => rfl⟩

theorem relabelled_pass : (∃ out, main asciiLower relabelled = .ok out) ∧ relabelled.input = [ledgerRow] ∧
    (relabelled.files .automatic).rows = [automaticRow] ∧ automaticRow.key asciiLower = ledgerRow.key asciiLower ∧
    automaticRow.amount .walletAirdrop ≠ ledgerRow.amount .walletAirdrop ∧
    automaticRow.codeHashShard0 ≠ ledgerRow.codeHashShard0 ∧ ledgerRow.codeBearing asciiLower = some true ∧
    assigned [] [] (ledgerRow.addressOf asciiLower) true = .ok .contractReview := by
  refine ⟨exists_main_ok_iff_conforms.mpr ⟨[], [], relabelled_conforms⟩, rfl, rfl, rfl, ?_, ?_, ?_, rfl⟩
  · decide
  · decide +kernel
  · decide +kernel

end HarmonyMigration.Claims.EligibilityVerify
