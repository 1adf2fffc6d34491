import HarmonyMigration.Claims.StageRows
import HarmonyMigration.Claims.WoneOverlay

/-! The published residual below the threshold. The program finds it by subtraction; here it is
summed from the rows of the overlaid ledger. -/

namespace HarmonyMigration.Claims.StagePolicy

open Erc20 Except

/-- What the non-issuance and retained-cap inventories take from an address. -/
def Input.inventory (i : Input) (a : Address) : ℤ :=
  Dict.sumAt i.existingFiles.flatten a + Dict.sumAt i.historicalFiles.flatten a

instance (i : Input) (a : Address) : Decidable (i.Reviewed a) := by unfold Input.Reviewed; infer_instance

/-- A wallet that qualifies by its claim but not by what the inventories leave. -/
def Input.FallsBelow (i : Input) (q : QualifiedRow) : Prop :=
  ¬i.Reviewed q.address ∧ q.qualification - i.inventory q.address < minimumAtto

instance (i : Input) (q : QualifiedRow) : Decidable (i.FallsBelow q) := by unfold Input.FallsBelow; infer_instance

/-- The row of the qualified file that a ledger row becomes. -/
def QualifiedRow.ofClaim (r : Wone.ClaimRow) (lastActivity : Option ℤ) : QualifiedRow :=
  ⟨r.key, r.address, r.qualificationTotal, r.wallet, r.staked, r.total, lastActivity⟩

/-- The summary that an overlay run writes. -/
def MigrationSummary.ofOverlay (o : Wone.Output) : MigrationSummary where
  passed := true
  woneReserve := o.reserve
  redistributedToRecipients := some o.totals.delivered
  redistributedToPriority := o.totals.delivered
  retainedNotIssued := o.retained
  nativeTotalClaim := o.totals.nativeTotal

section Inventories
variable {files : List (List (Address × ℤ))} {d e : Dict Address ℤ}

theorem mergeExisting_keys (h : mergeExisting files d = .ok e) {a : Address} (ha : a ∈ e.keys) :
    a ∈ d.keys ∨ ∃ p ∈ files.flatten, p.1 = a := by
  induction files generalizing d with
  | nil =>
    obtain rfl := Except.ok.inj h
    exact Or.inl ha
  | cons file rest ih =>
    unfold mergeExisting at h
    obtain ⟨amounts, hamounts, h⟩ := of_bind_ok h
    obtain ⟨hentries, -, -⟩ := loadAmounts_ok hamounts
    rw [require_bind_ok, hentries] at h
    rcases ih h.2 with hd | ⟨p, hp, hpa⟩
    · rcases Dict.mem_keys_foldl_insert.mp hd with hd | ⟨p, hp, hpa⟩
      · exact Or.inl hd
      · exact Or.inr ⟨p, by simp [hp], hpa⟩
    · exact Or.inr ⟨p, by rw [List.flatten_cons, List.mem_append]; exact Or.inr hp, hpa⟩

theorem mergeHistorical_keys (h : mergeHistorical files d = .ok e) {a : Address} (ha : a ∈ e.keys) :
    a ∈ d.keys ∨ ∃ p ∈ files.flatten, p.1 = a := by
  induction files generalizing d with
  | nil =>
    obtain rfl := Except.ok.inj h
    exact Or.inl ha
  | cons file rest ih =>
    unfold mergeHistorical at h
    obtain ⟨amounts, hamounts, h⟩ := of_bind_ok h
    obtain ⟨hentries, -, -⟩ := loadAmounts_ok hamounts
    rw [hentries] at h
    rcases ih h with hd | ⟨p, hp, hpa⟩
    · rcases Dict.mem_keys_foldl_add.mp hd with hd | ⟨p, hp, hpa⟩
      · exact Or.inl hd
      · exact Or.inr ⟨p, by simp [hp], hpa⟩
    · exact Or.inr ⟨p, by rw [List.flatten_cons, List.mem_append]; exact Or.inr hp, hpa⟩

end Inventories

section Row
variable {i : Input} {existing historical : Dict Address ℤ} {identities : Dict Address PrimaryCategory}
  {q : QualifiedRow} {r : PolicyRow}

theorem walletStage_meets (allocation net : ℤ) (time : Option ℤ) (since : ℤ) (months : ℕ) :
    (walletStage allocation net time since months).2.2 = true ↔ allocation ≠ 0 ∧ minimumAtto ≤ net := by
  unfold walletStage
  by_cases h0 : allocation = 0
  · simp [h0]
  · by_cases hn : net < minimumAtto
    · simp [h0, hn]
    · cases time with
      | none => simp [h0, hn, not_lt.mp hn]
      | some t => by_cases ht : since ≤ t <;> simp [h0, hn, ht, not_lt.mp hn]

theorem walletRow_shares (c : Context) (q : QualifiedRow) (before : ℤ) (b : ℤ × ℤ) :
    (c.walletRow q before b).classification ≠ .genuineContract ∧
      ((c.walletRow q before b).meetsThreshold = true ↔ before ≠ 0 ∧
        minimumAtto ≤ q.qualification - c.existing.getD q.address 0 - c.historical.getD q.address 0) := by
  refine ⟨?_, walletStage_meets ..⟩
  change (if c.identities.get? q.address = some .validatorAccount then Classification.validatorWallet
    else .wallet) ≠ .genuineContract
  split_ifs <;> simp

/-- How one policy row enters the totals. -/
theorem rowPolicy_shares (he : mergeExisting i.existingFiles .empty = .ok existing)
    (hh : mergeHistorical i.historicalFiles .empty = .ok historical)
    (hi : loadContractReview i.review = .ok identities)
    (h : (i.context existing historical identities).rowPolicy q = .ok r) :
    (q.total - i.deduction q.address =
        r.allocation + if r.classification = .genuineContract then r.contractNonIssuance else 0) ∧
      ((if i.FallsBelow q then q.total - i.deduction q.address else 0) =
        if r.classification ≠ .genuineContract ∧ 0 < r.allocation ∧ ¬r.meetsThreshold then r.allocation else 0) ∧
      0 ≤ r.allocation := by
  have hbefore := @beforeContractPolicy_eq i existing historical identities he hh q
  obtain ⟨h0, b, -, ⟨hp, rfl⟩ | ⟨group, stage, w, hp, -, rfl⟩⟩ := rowPolicy_ok h
  · have hnet : q.qualification - existing.getD q.address 0 - historical.getD q.address 0 =
        q.qualification - i.inventory q.address := by
      have hzero : (Dict.empty : Dict Address ℤ).getD q.address 0 = 0 := rfl
      rw [mergeExisting_ok he, mergeHistorical_ok hh, hzero, Input.inventory]
      ring
    have hnot : ¬i.Reviewed q.address := by
      rw [← policy_isSome_iff hi, hp]
      simp
    have hiff : i.FallsBelow q ↔ q.qualification - i.inventory q.address < minimumAtto := by
      simp [Input.FallsBelow, hnot]
    obtain ⟨hcls, hmeets⟩ := walletRow_shares (i.context existing historical identities) q
      ((i.context existing historical identities).beforeContractPolicy q) b
    refine ⟨by rw [if_neg hcls, add_zero]; exact hbefore.symm, ?_, h0⟩
    rw [← hbefore]
    rcases h0.eq_or_lt with hz | hpos
    · rw [← hz, ite_self]
      exact (if_neg fun hm => (lt_irrefl (0 : ℤ)) hm.2.1).symm
    · by_cases hf : i.FallsBelow q
      · have hfails := hiff.mp hf
        rw [← hnet] at hfails
        rw [if_pos hf, if_pos ⟨hcls, hpos, fun hm => absurd hfails (not_lt.mpr (hmeets.mp hm).2)⟩]
        rfl
      · have hpass := not_lt.mp fun hn => hf (hiff.mpr hn)
        rw [← hnet] at hpass
        rw [if_neg hf, if_neg fun hm => hm.2.2 (hmeets.mpr ⟨hpos.ne', hpass⟩)]
  · have hrev : i.Reviewed q.address := (policy_isSome_iff hi _).mp (by rw [hp]; rfl)
    refine ⟨?_, ?_, ?_⟩
    · rw [← hbefore]
      simp only [Context.contractRow]
      split_ifs <;> simp
    · rw [if_neg fun hf => hf.1 hrev, if_neg fun hf => hf.1 rfl]
    · simp only [Context.contractRow]
      split_ifs
      · exact h0
      · exact le_rfl

end Row

/-- The allocations, split as the program splits them. -/
theorem total_allocation_split {rows : List PolicyRow} (h0 : ∀ r ∈ rows, 0 ≤ r.allocation) :
    total PolicyRow.allocation rows = total PolicyRow.allocation (walletRows rows) +
      total PolicyRow.allocation (belowRows rows) + total PolicyRow.allocation (contractRows rows) := by
  simp only [total, walletRows, belowRows, contractRows]
  rw [Dict.sum_filter_eq fun r : PolicyRow => r.classification ≠ .genuineContract ∧ 0 < r.allocation ∧ r.meetsThreshold,
    Dict.sum_filter_eq fun r : PolicyRow => r.classification ≠ .genuineContract ∧ 0 < r.allocation ∧ ¬r.meetsThreshold,
    Dict.sum_filter_eq fun r : PolicyRow => r.classification = .genuineContract, ← List.sum_map_add, ← List.sum_map_add]
  refine congrArg _ (List.map_congr_left fun r hr => ?_)
  by_cases hc : r.classification = .genuineContract
  · simp [hc]
  · rcases (h0 r hr).eq_or_lt with hz | hpos
    · simp [hc, ← hz]
    · by_cases hm : r.meetsThreshold = true
      · simp [hc, hpos, hm]
      · simp [hc, hpos, hm]

section Ledger
variable {K : Keys} {w : Wone.Input} {o : Wone.Output}

/-- The overlaid ledger holds the native claims and what was delivered. -/
theorem ledger_total (hw : Wone.main K w = .ok o) :
    (o.totals.rows.map Wone.ClaimRow.total).sum = o.totals.nativeTotal + o.totals.delivered := by
  obtain ⟨holders, metadata, old, new, hran⟩ := Wone.main_ok hw
  have hrows : (o.totals.rows.map Wone.ClaimRow.total).sum =
      (o.totals.rows.map Wone.ClaimRow.nativeTotal).sum + Wone.airdropSum o.totals.rows := by
    rw [Wone.airdropSum, ← List.sum_map_add]
    exact congrArg _ (List.map_congr_left fun r hr => (hran.row_closes hr).2)
  have hold : (old.map Wone.ClaimRow.nativeTotal).sum = (w.native.map Wone.NativeRow.total).sum :=
    congrArg _ (map_eq_of_forall₂ hran.merged.overlaid fun row r hr => (Wone.applyOverlay_ok hr.2).2.2.2.2.1.symm).symm
  have hnew : (new.map Wone.ClaimRow.nativeTotal).sum = 0 := by
    refine List.sum_eq_zero fun x hx => ?_
    obtain ⟨r, hr, rfl⟩ := List.mem_map.mp hx
    exact (hran.fresh r hr).2.2.2.1
  rw [hrows, (hran.merged.perm.map Wone.ClaimRow.nativeTotal).sum_eq, List.map_append, List.sum_append, hold, hnew,
    hran.merged.nativeTotal, hran.merged.delivered]
  ring

/-- The inventories, summed over the ledger. -/
theorem inventory_total {i : Input} {existing historical : Dict Address ℤ} {ledger : List Address}
    (he : mergeExisting i.existingFiles .empty = .ok existing)
    (hh : mergeHistorical i.historicalFiles .empty = .ok historical) (hnd : ledger.Nodup)
    (hexisting : ∀ p ∈ i.existingFiles.flatten, p.1 ∈ ledger)
    (hhistorical : ∀ p ∈ i.historicalFiles.flatten, p.1 ∈ ledger) :
    (ledger.map i.inventory).sum = existing.values.sum + historical.values.sum := by
  have hzero (a : Address) : (Dict.empty : Dict Address ℤ).getD a 0 = 0 := rfl
  have hkeysE : ∀ a ∈ existing.keys, a ∈ ledger := fun a ha => by
    rcases mergeExisting_keys he ha with hd | ⟨p, hp, rfl⟩
    · simp [Dict.empty, Dict.keys] at hd
    · exact hexisting p hp
  have hkeysH : ∀ a ∈ historical.keys, a ∈ ledger := fun a ha => by
    rcases mergeHistorical_keys hh ha with hd | ⟨p, hp, rfl⟩
    · simp [Dict.empty, Dict.keys] at hd
    · exact hhistorical p hp
  rw [← Dict.sum_getD hnd hkeysE, ← Dict.sum_getD hnd hkeysH, ← List.sum_map_add]
  refine congrArg _ (List.map_congr_left fun a _ => ?_)
  rw [mergeExisting_ok he, mergeHistorical_ok hh, hzero, zero_add, zero_add]
  rfl

/-- Of the qualified rows, the source of the reserve is one. -/
theorem offset_total {ledger : List Wone.ClaimRow} (hnd : (ledger.map Wone.ClaimRow.address).Nodup)
    (hwone : ∃ r ∈ ledger, r.address = woneAddress) (reserve : ℤ) :
    (ledger.map fun r => if r.address = woneAddress then reserve else 0).sum = reserve := by
  obtain ⟨r, hr, ha⟩ := hwone
  have h := Dict.sum_filter_key (v := fun _ => reserve) hnd hr
  rw [ha, Dict.sum_filter_eq fun r : Wone.ClaimRow => r.address = woneAddress] at h
  exact h

/-- The residual is what the unqualified rows keep and what the fallen wallets keep, and the total
is what every row of the ledger keeps. -/
theorem below_threshold_real {i : Input} {out : Report} (hw : Wone.main K w = .ok o)
    (hkeys : ∀ row ∈ w.native, row.key = K.key row.address)
    (hqualified : List.Forall₂ (fun r q => q = QualifiedRow.ofClaim r q.lastActivity)
      (o.totals.rows.filter fun r => minimumAtto ≤ r.qualificationTotal) i.qualified)
    (hwone : ∃ r ∈ o.totals.rows, r.address = woneAddress ∧ minimumAtto ≤ r.qualificationTotal)
    (hmigration : i.migration = .ofOverlay o)
    (hexisting : ∀ p ∈ i.existingFiles.flatten, p.1 ∈ o.totals.rows.map Wone.ClaimRow.address)
    (hhistorical : ∀ p ∈ i.historicalFiles.flatten, p.1 ∈ o.totals.rows.map Wone.ClaimRow.address)
    (h : main i = .ok out) :
    out.belowThreshold =
        ((o.totals.rows.filter fun r => ¬minimumAtto ≤ r.qualificationTotal).map
          fun r => r.total - i.inventory r.address).sum +
        ((i.qualified.filter fun q => i.FallsBelow q).map fun q => q.total - i.deduction q.address).sum ∧
      out.totalMigration =
        ((o.totals.rows.filter fun r => ¬minimumAtto ≤ r.qualificationTotal).map
          fun r => r.total - i.inventory r.address).sum +
        total PolicyRow.allocation out.rows := by
  obtain ⟨existing, historical, identities, rows, he, hh, hi, -, -, hrows, -, rfl⟩ := main_ok h
  have hrows := forall₂_of_mapM_ok hrows
  obtain ⟨holders, metadata, old, new, hran⟩ := Wone.main_ok hw
  have hnd := hran.rows_nodup hkeys
  set ledger := o.totals.rows with hledger
  -- the qualified rows, counted once before and once after the policy
  have hbefore : (i.qualified.map fun q => q.total - i.deduction q.address).sum =
      total PolicyRow.allocation rows + total PolicyRow.contractNonIssuance (contractRows rows) := by
    rw [total, total, contractRows, Dict.sum_filter_eq fun r : PolicyRow => r.classification = .genuineContract,
      ← List.sum_map_add]
    exact congrArg _ (map_eq_of_forall₂ hrows fun q r hr => (rowPolicy_shares he hh hi hr).1)
  have hbelow : ((i.qualified.filter fun q => i.FallsBelow q).map fun q => q.total - i.deduction q.address).sum =
      total PolicyRow.allocation (belowRows rows) := by
    rw [Dict.sum_filter_eq i.FallsBelow, total, belowRows, Dict.sum_filter_eq fun r : PolicyRow =>
      r.classification ≠ .genuineContract ∧ 0 < r.allocation ∧ ¬r.meetsThreshold]
    exact congrArg _ (map_eq_of_forall₂ hrows fun q r hr => (rowPolicy_shares he hh hi hr).2.1)
  have hsplit := total_allocation_split fun r hr => by
    obtain ⟨q, -, hqr⟩ := ok_of_mem_right hrows hr
    exact (rowPolicy_shares he hh hi hqr).2.2
  -- the same rows in the ledger, where the reserve is taken from one of them
  have hclaims : (i.qualified.map fun q => q.total - i.deduction q.address).sum =
      ((ledger.filter fun r => minimumAtto ≤ r.qualificationTotal).map
        fun r => r.total - i.inventory r.address).sum - o.reserve := by
    have hmap : (ledger.filter fun r => minimumAtto ≤ r.qualificationTotal).map
        (fun r => r.total - i.deduction r.address) = i.qualified.map fun q => q.total - i.deduction q.address :=
      map_eq_of_forall₂ hqualified fun r q hq => by rw [hq]; rfl
    have hmem : ∃ r ∈ ledger.filter fun r => minimumAtto ≤ r.qualificationTotal, r.address = woneAddress := by
      obtain ⟨r, hr, ha, hq⟩ := hwone
      exact ⟨r, List.mem_filter.mpr ⟨hr, by simpa using hq⟩, ha⟩
    have hoffset := offset_total (hnd.sublist (List.filter_sublist.map _)) hmem o.reserve
    have hded (a : Address) : i.deduction a = i.inventory a + if a = woneAddress then o.reserve else 0 := by
      rw [Input.deduction, hmigration]
      rfl
    rw [← hmap, eq_sub_iff_add_eq, ← hoffset, ← List.sum_map_add]
    refine congrArg _ (List.map_congr_left fun r _ => ?_)
    rw [hded]
    ring
  have hwhole : ((ledger.filter fun r => minimumAtto ≤ r.qualificationTotal).map
        fun r => r.total - i.inventory r.address).sum +
      ((ledger.filter fun r => ¬minimumAtto ≤ r.qualificationTotal).map
        fun r => r.total - i.inventory r.address).sum =
      o.totals.nativeTotal + o.totals.delivered - (existing.values.sum + historical.values.sum) := by
    have hinv := inventory_total he hh hnd hexisting hhistorical
    rw [List.map_map] at hinv
    rw [Dict.sum_filter_eq fun r : Wone.ClaimRow => minimumAtto ≤ r.qualificationTotal, Dict.sum_map_ite_add_filter,
      ← ledger_total hw, ← hinv, eq_sub_iff_add_eq, ← List.sum_map_add]
    exact congrArg _ (List.map_congr_left fun r _ => sub_add_cancel ..)
  have hretained := hran.retained
  have hreserve := hran.reserve
  have htotal : (report (i.context existing historical identities) i.migration rows).totalMigration =
      o.totals.nativeTotal - (existing.values.sum + historical.values.sum + o.retained +
        total PolicyRow.contractNonIssuance (contractRows rows)) := by
    rw [hmigration]
    rfl
  have hresidual : (report (i.context existing historical identities) i.migration rows).belowThreshold =
      (report (i.context existing historical identities) i.migration rows).totalMigration -
        (total PolicyRow.allocation (walletRows rows) + total PolicyRow.allocation (contractRows rows)) := rfl
  have hrowsEq : (report (i.context existing historical identities) i.migration rows).rows = rows := rfl
  rw [hresidual, htotal, hrowsEq, hbelow]
  constructor
  · linarith
  · linarith

end Ledger

def smallNative (a : Address) (shard0 shard1 : ℤ) : Wone.NativeRow where
  key := a.toNat
  address := a
  wallet := shard0 + shard1
  staked := 0
  total := shard0 + shard1
  liquidShard0 := shard0
  liquidShard1 := shard1
  liquidTotal := shard0 + shard1
  price := some ⟨1, 0⟩
  codeHashShard0 := ""
  codeHashShard1 := ""

/-- One row below the threshold, one that the inventory takes below it, and three contracts. -/
def smallLedger : Wone.Input where
  native :=
    [smallNative 5 10 0, smallNative 7 minimumAtto 0,
      smallNative 0x5b18a4e73f9a4fe337a072516b317863ad3046aa#160 minimumAtto 0,
      smallNative 0x905582f21fb9855c809d5b8933272a292dfbb138#160 minimumAtto 0, smallNative woneAddress 5 minimumAtto]
  holders := [⟨5, 3, true⟩, ⟨7, 2, true⟩]
  holdersSha256 := ""
  summary := ⟨true, 93623067, woneAddress, 0, 5, 5, "", 2, 5⟩
  metadata := []
  excludeAddresses := []
  aggregateRequested := []
  minimumOne := minimumAtto.toNat

def smallPolicy (o : Wone.Output) : Input where
  qualified := (o.totals.rows.filter fun r => minimumAtto ≤ r.qualificationTotal).map fun r => .ofClaim r (some 0)
  qualifiedSha256 := ""
  activity := ⟨true, "", [(6, 0)], 4, 2, 4 * minimumAtto + 7⟩
  migration := .ofOverlay o
  review :=
    [⟨0x5b18a4e73f9a4fe337a072516b317863ad3046aa#160, .other "bridge", (1, "b", "r")⟩,
      ⟨0x905582f21fb9855c809d5b8933272a292dfbb138#160, .other "bridge", (1, "b", "r")⟩,
      ⟨woneAddress, .other "token", (1, "b", "r")⟩]
  existingFiles := [[(7#160, 3)]]
  historicalFiles := []
  manualWallets := []
  initialMonths := 6
  initialSince := 0

theorem below_threshold_real_small :
    ∃ o out, Wone.main ⟨BitVec.toNat, fun _ _ => BitVec.eq_of_toNat_eq⟩ smallLedger = .ok o ∧
      main (smallPolicy o) = .ok out ∧
      out.totalMigration =
        ((o.totals.rows.filter fun r => ¬minimumAtto ≤ r.qualificationTotal).map
          fun r => r.total - (smallPolicy o).inventory r.address).sum +
        total PolicyRow.allocation out.rows := by
  have hrun : ((Wone.main ⟨BitVec.toNat, fun _ _ => BitVec.eq_of_toNat_eq⟩ smallLedger).toOption.map fun o =>
      (main (smallPolicy o)).toBool &&
        (o.totals.rows.any fun r => r.address = woneAddress ∧ minimumAtto ≤ r.qualificationTotal) &&
        o.totals.rows.any fun r => r.address = 7) = some true := by decide +kernel
  obtain ⟨o, hmain, hchecked⟩ := Except.exists_ok_of_map hrun
  simp only [Bool.and_eq_true, List.any_eq_true, decide_eq_true_eq] at hchecked
  obtain ⟨⟨hpolicy, hwone⟩, r, hr, hseven⟩ := hchecked
  obtain ⟨out, hout⟩ := Except.exists_ok_of_toBool hpolicy
  refine ⟨o, out, hmain, hout, (below_threshold_real hmain (by decide) ?_ hwone rfl ?_ (by simp [smallPolicy]) hout).2⟩
  · exact List.forall₂_map_right_iff.mpr (List.forall₂_same.mpr fun r _ => rfl)
  · intro p hp
    obtain rfl : p = (7#160, 3) := by simpa [smallPolicy] using hp
    exact List.mem_map.mpr ⟨r, hr, hseven⟩

end HarmonyMigration.Claims.StagePolicy
