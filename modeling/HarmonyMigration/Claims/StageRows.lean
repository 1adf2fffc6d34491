import HarmonyMigration.Routing.StageFile

/-! Which rows of the stage policy its readers take. A reviewed contract whose whole claim is
consumed by deductions gets a row that they refuse. -/

namespace HarmonyMigration.Claims.StagePolicy

open Erc20 Except Routing

theorem splitFinalComponents_ok {wallet staked final : ℤ} {r : ℤ × ℤ}
    (h : splitFinalComponents wallet staked final = .ok r) :
    0 ≤ wallet ∧ 0 ≤ staked ∧ 0 ≤ final ∧ final ≤ wallet + staked ∧
      r.1 = max (final - staked) 0 ∧ r.1 + r.2 = final ∧ 0 ≤ r.2 ∧ r.2 ≤ staked := by
  unfold splitFinalComponents at h
  dsimp only at h
  split_ifs at h with h1 h2
  obtain rfl := Except.ok.inj h
  simp only [not_or, not_lt, le_min_iff] at h1 h2
  obtain ⟨⟨⟨hw, hs⟩, hf⟩, hle⟩ := h1
  have hmax : wallet - (wallet + staked - final) = final - staked := by ring
  refine ⟨hw, hs, hf, hle, by rw [hmax], by ring, h2.1, h2.2⟩

section Row
variable {c : Context} {q : QualifiedRow} {r : PolicyRow}

/-- Everything a successful row has checked and written. -/
theorem rowPolicy_ok (h : c.rowPolicy q = .ok r) :
    0 ≤ c.beforeContractPolicy q ∧
      ∃ b : ℤ × ℤ, splitFinalComponents q.wallet q.staked (c.beforeContractPolicy q) = .ok b ∧
        ((c.policy q.address = none ∧ r = c.walletRow q (c.beforeContractPolicy q) b) ∨
          ∃ group stage w, c.policy q.address = some (group, stage) ∧
            splitFinalComponents q.wallet q.staked (if stage ≠ .blank then c.beforeContractPolicy q else 0) =
              .ok w ∧
            r = c.contractRow q group stage (c.beforeContractPolicy q) b w) := by
  unfold Context.rowPolicy at h
  simp only [require_bind_ok] at h
  obtain ⟨-, -, hnonneg, h⟩ := h
  obtain ⟨b, hb, h⟩ := of_bind_ok h
  refine ⟨hnonneg, b, hb, ?_⟩
  split at h
  · rename_i hp
    obtain ⟨w, hw, rfl⟩ := of_map_ok h
    obtain rfl := Except.ok.inj (hb.symm.trans hw)
    exact Or.inl ⟨hp, rfl⟩
  · rename_i group stage hp
    obtain ⟨w, hw, rfl⟩ := of_map_ok h
    exact Or.inr ⟨group, stage, w, hp, hw, rfl⟩

theorem stageEntry_ok_iff (row : PolicyRow) :
    (∃ entry, stageEntry row = .ok entry) ↔
      row.stage ∈ [.blank, .initial, .nextStage, .deferred] ∧ row.treatment ∈ [.issue, .notIssued] ∧
      (0 ≤ min row.allocation (min row.wallet row.staked) ∧ row.wallet + row.staked = row.allocation) ∧
      ¬(row.treatment = .issue ∧ (row.stage = .blank ∨ row.allocation ≤ 0)) ∧
      ¬(row.treatment = .notIssued ∧ (row.stage ≠ .blank ∨ row.allocation ≠ 0)) := by
  unfold stageEntry
  simp only [require_bind_ok]
  refine ⟨fun ⟨_, h1, h2, h3, h4, h5, _⟩ => ⟨h1, h2, h3, h4, h5⟩, fun ⟨h1, h2, h3, h4, h5⟩ => ?_⟩
  exact ⟨_, h1, h2, h3, h4, h5, rfl⟩

theorem walletStage_stage (allocation net : ℤ) (time : Option ℤ) (since : ℤ) (months : ℕ) :
    (walletStage allocation net time since months).1 ∈ [Stage.blank, .initial, .nextStage, .deferred] ∧
      ((walletStage allocation net time since months).1 = .blank ↔ allocation = 0) := by
  unfold walletStage
  by_cases h0 : allocation = 0
  · simp [h0]
  · by_cases hn : net < minimumAtto
    · simp [h0, hn]
    · cases time with
      | none => simp [h0, hn]
      | some t => by_cases ht : since ≤ t <;> simp [h0, hn, ht]

/-- A wallet's row has a stage exactly when something of it is issued. -/
theorem walletRow_consumable {before : ℤ} {b : ℤ × ℤ} (h0 : 0 ≤ before)
    (hb : splitFinalComponents q.wallet q.staked before = .ok b) : Consumable (c.walletRow q before b) := by
  obtain ⟨-, -, -, -, hwallet, hsum, hs, -⟩ := splitFinalComponents_ok hb
  have hw : 0 ≤ b.1 := hwallet ▸ le_max_right _ _
  obtain ⟨hmem, hblank⟩ := walletStage_stage before
    (q.qualification - c.existing.getD q.address 0 - c.historical.getD q.address 0) q.lastActivity
    c.initialSince c.months
  refine ⟨(stageEntry_ok_iff _).mpr ⟨hmem, ?_, ⟨le_min h0 (le_min hw hs), hsum⟩, ?_, ?_⟩, ?_⟩
  · show (if 0 < before then Treatment.issue else .notIssued) ∈ _
    split_ifs <;> simp
  · rintro ⟨ht, hstage⟩
    have hpos : 0 < before := by
      by_contra hn
      simp [Context.walletRow, hn] at ht
    rcases hstage with hstage | hle
    · exact hpos.ne' (hblank.mp hstage)
    · exact absurd hpos (not_lt.mpr hle)
  · rintro ⟨ht, hstage⟩
    have hzero : before = 0 := by
      by_contra hn
      have hpos : 0 < before := lt_of_le_of_ne h0 (Ne.symm hn)
      simp [Context.walletRow, hpos] at ht
    rcases hstage with hstage | hne
    · exact hstage (hblank.mpr hzero)
    · exact hne hzero
  · intro hcls
    change (if c.identities.get? q.address = some .validatorAccount then Classification.validatorWallet
      else .wallet) = .genuineContract at hcls
    split_ifs at hcls

theorem contract_route_iff (row : PolicyRow) (address : Address) (category : PrimaryCategory) :
    (∃ route, (contractEntry row).bind (routePolicy address category) = .ok route) ↔
      (0 ≤ row.allocation ∧ 0 ≤ row.wallet ∧ 0 ≤ row.staked ∧ 0 ≤ row.contractNonIssuance ∧
        0 ≤ row.contractWalletNonIssuance ∧ 0 ≤ row.contractStakedNonIssuance) ∧
      (row.wallet + row.staked = row.allocation ∧
        row.contractWalletNonIssuance + row.contractStakedNonIssuance = row.contractNonIssuance) ∧
      row.classification = .genuineContract ∧
      (row.treatment = .notIssued ∧ row.stage = .blank ∧ row.allocation = 0 ∧ 0 < row.contractNonIssuance ∨
        row.treatment = .issue ∧ row.stage = .nextStage ∧ row.contractNonIssuance = 0 ∧
          (category = .multisigWallet ∧ row.group = .multisig ∨ category = .onewallet ∧ row.group = .onewallet ∨
            address ∈ layerzeroAddresses ∧ row.group = .layerzeroBridgeCollateral)) := by
  simp only [contractEntry, require_bind_bind, bind_ok_left, require_bind_ok, routePolicy, exists_and_left]
  refine and_congr_right fun _ => and_congr_right fun _ => and_congr_right fun _ => ?_
  by_cases ht : row.treatment = .notIssued
  · simp [ht]
  · simp only [ht, if_false, require_bind_ok, exists_and_left, false_and, false_or, and_assoc]
    refine and_congr_right fun _ => and_congr_right fun _ => and_congr_right fun _ => ?_
    split_ifs with h1 h2 h3
    · simp [h1]
    · simp [h2]
    · simp [h3]
    · simp [h1, h2, h3]

theorem contractPolicy_stage {address : Address} {category : PrimaryCategory} {group : PolicyGroup} {stage : Stage}
    (h : contractPolicy address category = some (group, stage)) :
    stage = .blank ∨ stage = .nextStage ∧
      (category = .multisigWallet ∧ group = .multisig ∨ category = .onewallet ∧ group = .onewallet ∨
        address ∈ layerzeroAddresses ∧ group = .layerzeroBridgeCollateral) := by
  unfold contractPolicy at h
  cases category <;> simp only [Option.some.injEq, Prod.mk.injEq, reduceCtorEq] at h
  case multisigWallet => simp [← h.1, ← h.2]
  case onewallet => simp [← h.1, ← h.2]
  all_goals
    split_ifs at h with hlz <;> simp only [Option.some.injEq, Prod.mk.injEq] at h <;> simp [← h.1, ← h.2, hlz]

/-- A contract's row is taken exactly when its claim exceeds its deductions. -/
theorem contractRow_consumable_iff {group : PolicyGroup} {stage : Stage} {before : ℤ} {b w : ℤ × ℤ}
    (h0 : 0 ≤ before) (hp : c.policy q.address = some (group, stage))
    (hb : splitFinalComponents q.wallet q.staked before = .ok b)
    (hw : splitFinalComponents q.wallet q.staked (if stage ≠ .blank then before else 0) = .ok w) :
    Consumable (c.contractRow q group stage before b w) ↔ 0 < before := by
  obtain ⟨category, hcategory, hpolicy⟩ := Option.bind_eq_some_iff.mp hp
  obtain ⟨-, -, -, -, hb1, hbsum, hb2, -⟩ := splitFinalComponents_ok hb
  obtain ⟨-, -, -, -, hw1, hwsum, hw2, -⟩ := splitFinalComponents_ok hw
  have hb1' : 0 ≤ b.1 := hb1 ▸ le_max_right _ _
  have hw1' : 0 ≤ w.1 := hw1 ▸ le_max_right _ _
  have hroute (row : PolicyRow) (hrow : row.contractCategory = some category) :
      (∃ category route, row.contractCategory = some category ∧
        (contractEntry row).bind (routePolicy row.address category) = .ok route) ↔
      ∃ route, (contractEntry row).bind (routePolicy row.address category) = .ok route := by
    simp [hrow]
  unfold Consumable
  rw [stageEntry_ok_iff, hroute _ hcategory, contract_route_iff]
  simp only [Context.contractRow, forall_const]
  rcases contractPolicy_stage hpolicy with rfl | ⟨rfl, hgroup⟩
  · -- nothing issued: the readers want a deduction to report
    simp only [ne_eq, not_true_eq_false, if_false] at hwsum ⊢
    simp [hw1', hw2, hwsum, hb1', hb2, hbsum, h0]
  · -- nothing left: a stage without an amount
    simp only [ne_eq, reduceCtorEq, not_false_eq_true, if_true] at hwsum ⊢
    by_cases hpos : 0 < before
    · simp [hpos, hw1', hw2, hwsum, h0, hgroup]
    · simp [hpos]

end Row

/-- A reviewed genuine contract. -/
def Input.Reviewed (i : Input) (a : Address) : Prop :=
  ∃ r ∈ i.review, r.address = a ∧ r.primaryCategory ≠ .validatorAccount

theorem contractPolicy_eq_none_iff (a : Address) (category : PrimaryCategory) :
    contractPolicy a category = none ↔ category = .validatorAccount := by
  cases category <;> simp only [contractPolicy, reduceCtorEq]
  all_goals split_ifs <;> simp

theorem policy_isSome_iff {i : Input} {existing historical : Dict Address ℤ}
    {identities : Dict Address PrimaryCategory} (h : loadContractReview i.review = .ok identities) (a : Address) :
    ((i.context existing historical identities).policy a).isSome ↔ i.Reviewed a := by
  unfold loadContractReview at h
  rw [require_bind_ok] at h
  obtain ⟨hnd, h⟩ := h
  obtain ⟨u, -, rfl⟩ := of_map_ok h
  have hnd' : ((i.review.map fun r => (r.address, r.primaryCategory)).map Prod.fst).Nodup := by
    rwa [List.map_map]
  have hentries := Dict.entries_ofList hnd'
  rw [Option.isSome_iff_ne_none, Context.policy, ne_eq, Option.bind_eq_none_iff]
  simp only [Input.context, Dict.get?_eq_some_iff, hentries, contractPolicy_eq_none_iff, List.mem_map,
    Prod.mk.injEq, not_forall, Input.Reviewed]
  refine ⟨?_, ?_⟩
  · rintro ⟨category, ⟨r, hr, rfl, rfl⟩, hne⟩
    exact ⟨r, hr, rfl, hne⟩
  · rintro ⟨r, hr, rfl, hne⟩
    exact ⟨r.primaryCategory, ⟨r, hr, rfl, rfl⟩, hne⟩

/-- Every row is taken downstream exactly when no reviewed contract's claim is consumed whole. -/
theorem rows_consumable_iff {i : Input} {out : Report} (h : main i = .ok out) :
    (∀ r ∈ out.rows, Consumable r) ↔
      ∀ q ∈ i.qualified, i.Reviewed q.address → i.deduction q.address < q.total := by
  obtain ⟨existing, historical, identities, rows, he, hh, hi, -, -, hrows, -, rfl⟩ := main_ok h
  have hrows := forall₂_of_mapM_ok hrows
  -- each row of the output against the row it comes from
  have hrow : ∀ q r, (i.context existing historical identities).rowPolicy q = .ok r →
      (Consumable r ↔ (i.Reviewed q.address → i.deduction q.address < q.total)) := by
    intro q r hr
    obtain ⟨h0, b, hb, ⟨hp, rfl⟩ | ⟨group, stage, w, hp, hw, rfl⟩⟩ := rowPolicy_ok hr
    · have hnot : ¬i.Reviewed q.address := by
        rw [← policy_isSome_iff hi, hp]
        simp
      exact iff_of_true (walletRow_consumable h0 hb) fun hrev => absurd hrev hnot
    · have hrev : i.Reviewed q.address := (policy_isSome_iff hi _).mp (by rw [hp]; rfl)
      rw [contractRow_consumable_iff h0 hp hb hw, beforeContractPolicy_eq he hh, sub_pos]
      simp [hrev]
  refine ⟨fun hall q hq => ?_, fun hall r hr => ?_⟩
  · obtain ⟨r, hr, hqr⟩ := ok_of_mem_left hrows hq
    exact (hrow q r hqr).mp (hall r hr)
  · obtain ⟨q, hq, hqr⟩ := ok_of_mem_right hrows hr
    exact (hrow q r hqr).mpr (hall q hq)

/-- The LayerZero contracts, and a multisig whose claim is wholly not issued. -/
def consumedMultisig (deduction : ℤ) : Input where
  qualified :=
    [⟨1, 0x5b18a4e73f9a4fe337a072516b317863ad3046aa#160, minimumAtto, minimumAtto, 0, minimumAtto, none⟩,
      ⟨2, 0x905582f21fb9855c809d5b8933272a292dfbb138#160, minimumAtto, minimumAtto, 0, minimumAtto, none⟩,
      ⟨3, 7#160, minimumAtto, minimumAtto, 0, minimumAtto, none⟩]
  qualifiedSha256 := ""
  activity := ⟨true, "", [(6, 0)], 3, 3, 3 * minimumAtto⟩
  migration := ⟨true, 0, some 0, 0, 0, 3 * minimumAtto⟩
  review :=
    [⟨0x5b18a4e73f9a4fe337a072516b317863ad3046aa#160, .other "bridge", (1, "b", "r")⟩,
      ⟨0x905582f21fb9855c809d5b8933272a292dfbb138#160, .other "bridge", (1, "b", "r")⟩,
      ⟨7#160, .multisigWallet, (1, "b", "r")⟩]
  existingFiles := [[(7#160, deduction)]]
  historicalFiles := []
  manualWallets := []
  initialMonths := 6
  initialSince := 0

theorem consumed_multisig_refused :
    ∃ out, main (consumedMultisig minimumAtto) = .ok out ∧ ¬∀ r ∈ out.rows, Consumable r := by
  have hrun : ((main (consumedMultisig minimumAtto)).toOption.map fun out =>
      out.rows.all fun r => (stageEntry r).toBool) = some false := by decide +kernel
  obtain ⟨out, hmain, hrefused⟩ := Except.exists_ok_of_map hrun
  refine ⟨out, hmain, fun h => ?_⟩
  have hall : (out.rows.all fun r => (stageEntry r).toBool) = true := by
    refine List.all_eq_true.mpr fun r hr => ?_
    obtain ⟨⟨entry, hentry⟩, -⟩ := h r hr
    rw [hentry]
    rfl
  exact absurd (hall.symm.trans hrefused) (by decide)

theorem rows_consumable_iff_partial :
    ∃ out, main (consumedMultisig 1) = .ok out ∧ ∀ r ∈ out.rows, Consumable r := by
  have hrun : (main (consumedMultisig 1)).toBool = true := by decide +kernel
  obtain ⟨out, hmain⟩ := Except.exists_ok_of_toBool hrun
  have hclaims : ∀ q ∈ (consumedMultisig 1).qualified, (consumedMultisig 1).deduction q.address < q.total := by
    decide +kernel
  exact ⟨out, hmain, (rows_consumable_iff hmain).mpr fun q hq _ => hclaims q hq⟩

end HarmonyMigration.Claims.StagePolicy
