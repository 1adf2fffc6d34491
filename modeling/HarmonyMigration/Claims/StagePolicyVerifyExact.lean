import HarmonyMigration.Claims.StagePolicyVerify

/-! What a pass of the stage-policy verification says about the rows, and that it says no more. -/

namespace HarmonyMigration.Claims.StagePolicyVerify

open Airdrop.One1 Decimal Except StagePolicy

/-! ### What a row may be -/

/-- The text of a stage of `wallet_stage`. -/
def stageText : Stage → Text
  | .blank => []
  | .initial => initialText
  | .nextStage => nextStageText
  | .deferred => deferredText
  | .manualReview => "manual_review".toList
  | .exchangeManual => exchangeManualText

namespace Row
variable (since : ℤ) (months : ℕ) (row : Row)

/-- What `wallet_stage` assigns to the row. -/
def prescribedStage : Text :=
  stageText (walletStage row.amounts.allocation row.netQualification row.lastActivity since months).1

structure AmountsClose : Prop where
  threshold : minimumAtto ≤ row.qualification
  nonneg : ∀ v ∈ row.amounts.values, 0 ≤ v
  deductions : row.deductionsClose
  components : row.amounts.wallet + row.amounts.staked = row.amounts.allocation
  contractComponents : row.amounts.contractWalletNonIssuance + row.amounts.contractStakedNonIssuance =
    row.amounts.contractNonIssuance

/-- A row is not issued iff it has no allocation; an issued wallet is in the next stage or where `wallet_stage` puts it,
and any other issued row is in the next stage or deferred. -/
def Admitted : Prop :=
  if row.amounts.allocation = 0 then row.treatment = notIssuedText ∧ row.stage = []
  else row.treatment = issueText ∧
    (row.stage = nextStageText ∨ row.stage = if row.isWallet then row.prescribedStage since months else deferredText)

instance : Decidable (row.Admitted since months) := by unfold Admitted; infer_instance

/-- What the policy prescribes for each classification, `contract_policy` included. -/
def Prescribed : Prop :=
  if row.isWallet then
    (row.treatment = notIssuedText ↔ row.amounts.allocation = 0) ∧ row.stage = row.prescribedStage since months
  else row.classification = genuineContractText ∧
    (row.stage = nextStageText ∧ row.treatment = issueText ∧ 0 < row.amounts.allocation ∨
      row.stage = [] ∧ row.treatment = notIssuedText ∧ 0 < row.amounts.contractNonIssuance)

instance : Decidable (row.Prescribed since months) := by unfold Prescribed; infer_instance

end Row

section Rows
variable {since : ℤ} {months : ℕ} {row : Row} {u : Lower}

theorem Row.checkAmounts_iff {x : Unit} : row.checkAmounts = .ok x ↔ row.AmountsClose := by
  unfold Row.checkAmounts
  simp only [require_bind_ok, require_iff]
  exact ⟨fun ⟨h1, h2, h3, h4, h5⟩ => ⟨h1, h2, h3, h4, h5⟩, fun h => ⟨h.1, h.2, h.3, h.4, h.5⟩⟩

theorem Row.AmountsClose.allocation_nonneg (h : row.AmountsClose) : 0 ≤ row.amounts.allocation :=
  h.nonneg _ (by simp [Amounts.values])

theorem Row.checkTreatment_iff {x : Unit} (hnonneg : 0 ≤ row.amounts.allocation) :
    row.checkTreatment = .ok x ↔
      if row.amounts.allocation = 0 then row.treatment = notIssuedText ∧ row.stage = []
      else row.treatment = issueText ∧ row.stage ∈ [initialText, nextStageText, deferredText] := by
  have hne : notIssuedText ≠ issueText := by decide
  unfold Row.checkTreatment
  split_ifs with hissue hzero hnot hzero
  · rw [require_bind_ok, require_iff, hissue, hzero]
    simp [hne.symm]
  · have hpos : 0 < row.amounts.allocation := by omega
    rw [require_bind_ok, require_iff]
    exact ⟨fun h => ⟨hissue, h.1⟩, fun h => ⟨h.2, hpos⟩⟩
  · rw [require_iff]
    exact ⟨fun h => ⟨hnot, h.1⟩, fun h => ⟨h.2, hzero⟩⟩
  · rw [require_iff]
    exact ⟨fun h => absurd h.2 hzero, fun h => absurd h.1 hissue⟩
  · simp [hnot]
  · simp [hissue]

theorem walletStage_fst {allocation net : ℤ} (hpos : allocation ≠ 0) (time : Option ℤ) :
    (walletStage allocation net time since months).1 =
      if net < minimumAtto then .deferred else if time.any fun t => since ≤ t then .initial else .deferred := by
  unfold walletStage
  simp only [if_neg hpos, apply_ite Prod.fst]
  congr 1
  cases time with
  | none => simp
  | some t => simp [apply_ite Prod.fst]

/-- The stage of an issued wallet follows from its activity and the threshold. -/
theorem Row.prescribedStage_of_pos (hpos : row.amounts.allocation ≠ 0) : row.prescribedStage since months =
    if row.active since ∧ row.meetsThreshold then initialText else deferredText := by
  have hmeets : row.meetsThreshold ↔ ¬row.netQualification < minimumAtto := not_lt.symm
  rw [Row.prescribedStage, walletStage_fst hpos]
  by_cases hbelow : row.netQualification < minimumAtto
  · rw [if_pos hbelow, if_neg fun h => hmeets.mp h.2 hbelow]
    rfl
  · have hactive : (row.active since ∧ row.meetsThreshold) ↔ row.active since := and_iff_left (hmeets.mpr hbelow)
    rw [if_neg hbelow, if_congr hactive rfl rfl, apply_ite stageText]
    rfl

theorem Row.checkStage_iff {x : Unit} : row.checkStage since = .ok x ↔
    (row.stage = initialText → row.isWallet ∧ row.active since ∧ row.meetsThreshold) ∧
      (row.stage = deferredText → ¬(row.isWallet ∧ row.active since ∧ row.meetsThreshold)) := by
  have hne : initialText ≠ deferredText := by decide
  unfold Row.checkStage
  split_ifs with hinitial
  · rw [require_iff]
    exact ⟨fun h => ⟨fun _ => h, fun hd => absurd (hinitial.symm.trans hd) hne⟩, fun h => h.1 hinitial⟩
  · rw [require_iff]
    exact ⟨fun h => ⟨fun hi => absurd hi hinitial, fun hd hall => h ⟨hd, hall⟩⟩, fun h hd => h.2 hd.1 hd.2⟩

theorem Row.not_isWallet_of_genuine (h : row.classification = genuineContractText) : ¬row.isWallet := by
  unfold Row.isWallet
  rw [h]
  decide

/-- What the three label checks leave of a row. -/
theorem Row.admitted_iff (hnonneg : 0 ≤ row.amounts.allocation) : row.Admitted since months ↔
    row.checkTreatment = .ok () ∧ row.checkStage since = .ok () ∧ row.checkContract = .ok () := by
  have hin : initialText ≠ nextStageText := by decide
  have hid : initialText ≠ deferredText := by decide
  have hnd : nextStageText ≠ deferredText := by decide
  have hempty : ([] : Text) ≠ initialText ∧ ([] : Text) ≠ deferredText := by decide
  have hgenuine : row.classification = genuineContractText → ¬row.isWallet := Row.not_isWallet_of_genuine
  rw [Row.checkTreatment_iff hnonneg, Row.checkStage_iff, Row.checkContract, require_iff]
  unfold Row.Admitted
  by_cases hzero : row.amounts.allocation = 0
  · rw [if_pos hzero, if_pos hzero]
    refine ⟨fun h => ⟨h, ⟨fun hi => ?_, fun hd => ?_⟩, fun hc => ?_⟩, fun h => h.1⟩
    · exact absurd (h.2.symm.trans hi) hempty.1
    · exact absurd (h.2.symm.trans hd) hempty.2
    · exact absurd (h.2.symm.trans hc.2) hempty.1
  · rw [if_neg hzero, if_neg hzero, Row.prescribedStage_of_pos hzero]
    by_cases hwallet : row.isWallet
    · by_cases hactive : row.active since ∧ row.meetsThreshold
      · rw [if_pos hwallet, if_pos hactive]
        grind
      · rw [if_pos hwallet, if_neg hactive]
        grind
    · rw [if_neg hwallet]
      grind

theorem step_ok_iff (months : ℕ) {s s' : State} : step u since s row = .ok s' ↔
    u.lower row.address ∉ s.seen ∧ row.AmountsClose ∧ row.Admitted since months ∧ s.count u row = s' := by
  unfold step
  rw [require_bind_ok]
  refine and_congr_right fun _ => ⟨fun h => ?_, fun ⟨hamounts, hadmitted, hcount⟩ => ?_⟩
  · obtain ⟨a, hamounts, h⟩ := of_bind_ok h
    obtain ⟨b, htreatment, h⟩ := of_bind_ok h
    obtain ⟨c, hstage, h⟩ := of_bind_ok h
    obtain ⟨d, hcontract, h⟩ := of_map_ok h
    have hclose := Row.checkAmounts_iff.mp hamounts
    exact ⟨hclose, (Row.admitted_iff hclose.allocation_nonneg).mpr ⟨htreatment, hstage, hcontract⟩, h⟩
  · obtain ⟨htreatment, hstage, hcontract⟩ := (Row.admitted_iff hamounts.allocation_nonneg).mp hadmitted
    have hok : row.checkAmounts = .ok () := Row.checkAmounts_iff.mpr hamounts
    rw [hok, bind_ok_left, htreatment, bind_ok_left, hstage, bind_ok_left, hcontract,
      ← hcount]
    rfl

end Rows

/-! ### The whole file -/

/-- Unique addresses, and rows that close and are admitted. -/
structure Accepted (u : Lower) (since : ℤ) (months : ℕ) (rows : List Row) : Prop where
  unique : (rows.map fun row => u.lower row.address).Nodup
  close : ∀ row ∈ rows, row.AmountsClose
  admitted : ∀ row ∈ rows, row.Admitted since months

/-- The allocation of the rows in the stage. -/
def stageSum (rows : List Row) (stage : Text) : ℤ :=
  ((rows.filter fun row => row.stage = stage).map fun row => row.amounts.allocation).sum

section File
variable {u : Lower} {since : ℤ} {months : ℕ} {rows : List Row} {s s' : State}

theorem seen_foldl_count (rows : List Row) (s : State) :
    (rows.foldl (State.count u) s).seen = (rows.map fun row => u.lower row.address).reverse ++ s.seen := by
  induction rows generalizing s with
  | nil => rfl
  | cons row rows ih =>
    rw [List.foldl_cons, ih]
    simp [State.count]

theorem run_ok_iff : rows.foldlM (step u since) s = .ok s' ↔
    (∀ row ∈ rows, u.lower row.address ∉ s.seen) ∧ Accepted u since months rows ∧
      rows.foldl (State.count u) s = s' := by
  induction rows generalizing s with
  | nil =>
    have hnil : Accepted u since months [] := ⟨List.nodup_nil, by simp, by simp⟩
    simp [hnil, pure, Except.pure]
  | cons row rows ih =>
    rw [List.foldlM_cons, List.foldl_cons]
    refine ⟨fun h => ?_, fun ⟨hfresh, haccepted, hrun⟩ => ?_⟩
    · obtain ⟨t, ht, h⟩ := of_bind_ok h
      obtain ⟨hnew, hclose, hadmitted, rfl⟩ := (step_ok_iff months).mp ht
      obtain ⟨hfresh, haccepted, hrun⟩ := ih.mp h
      have hsep : ∀ r ∈ rows, u.lower r.address ≠ u.lower row.address ∧ u.lower r.address ∉ s.seen := fun r hr =>
        not_or.mp fun hor => hfresh r hr (List.mem_cons.mpr hor)
      refine ⟨List.forall_mem_cons.mpr ⟨hnew, fun r hr => (hsep r hr).2⟩, ⟨?_, ?_, ?_⟩, hrun⟩
      · rw [List.map_cons, List.nodup_cons]
        refine ⟨fun hmem => ?_, haccepted.unique⟩
        obtain ⟨r, hr, heq⟩ := List.mem_map.mp hmem
        exact (hsep r hr).1 heq
      · exact List.forall_mem_cons.mpr ⟨hclose, haccepted.close⟩
      · exact List.forall_mem_cons.mpr ⟨hadmitted, haccepted.admitted⟩
    · obtain ⟨hnew, hfresh⟩ := List.forall_mem_cons.mp hfresh
      obtain ⟨hclose, hcloses⟩ := List.forall_mem_cons.mp haccepted.close
      obtain ⟨hadmitted, hadmitteds⟩ := List.forall_mem_cons.mp haccepted.admitted
      obtain ⟨hnot, hnodup⟩ := List.nodup_cons.mp haccepted.unique
      have hstep : step u since s row = .ok (s.count u row) :=
        (step_ok_iff months).mpr ⟨hnew, hclose, hadmitted, rfl⟩
      have hnext : ∀ r ∈ rows, u.lower r.address ∉ (s.count u row).seen := by
        intro r hr hmem
        rcases List.mem_cons.mp hmem with heq | hseen
        · exact hnot (List.mem_map.mpr ⟨r, hr, heq⟩)
        · exact hfresh r hr hseen
      rw [hstep]
      exact ih.mpr ⟨hnext, ⟨hnodup, hcloses, hadmitteds⟩, hrun⟩

theorem allocation_count (s : State) (row : Row) {stage : Text} (hstage : stage ≠ []) :
    (s.count u row).allocation stage =
      s.allocation stage + if row.stage = stage then row.amounts.allocation else 0 := by
  unfold State.allocation State.count
  by_cases hblank : row.stage = []
  · have hne : row.stage ≠ stage := fun h => hstage (h.symm.trans hblank)
    rw [if_pos hblank, if_neg hne, add_zero]
  · rw [if_neg hblank]
    unfold Dict.add
    rw [Dict.getD_insert]
    by_cases heq : row.stage = stage
    · rw [if_pos heq, if_pos heq.symm, heq]
      rfl
    · rw [if_neg heq, if_neg (Ne.symm heq), add_zero]

theorem allocation_foldl_count (rows : List Row) (s : State) {stage : Text} (hstage : stage ≠ []) :
    (rows.foldl (State.count u) s).allocation stage = s.allocation stage + stageSum rows stage := by
  induction rows generalizing s with
  | nil => simp [stageSum]
  | cons row rows ih =>
    rw [List.foldl_cons, ih, allocation_count s row hstage, add_assoc]
    congr 1
    unfold stageSum
    by_cases heq : row.stage = stage
    · rw [if_pos heq, List.filter_cons_of_pos (by simpa using heq), List.map_cons, List.sum_cons]
    · rw [if_neg heq, List.filter_cons_of_neg (by simpa using heq), zero_add]

theorem main_ok {i : Input} {out : Result} (h : main u i = .ok out) : ∃ s,
    i.rows.foldlM (step u i.summary.initialSince) .start = .ok s ∧
      s.allocation initialText = i.summary.initialWallets ∧
      s.allocation nextStageText = i.summary.nextStageContracts := by
  unfold main at h
  simp only [require_bind_ok] at h
  obtain ⟨-, -, h⟩ := h
  obtain ⟨s, hrun, h⟩ := of_bind_ok h
  obtain ⟨x, -, h⟩ := of_bind_ok h
  obtain ⟨readiness, -, h⟩ := of_bind_ok h
  obtain ⟨hinitial, h⟩ := require_bind_ok.mp h
  obtain ⟨compiled, -, h⟩ := of_bind_ok h
  obtain ⟨hnext, h⟩ := require_bind_ok.mp h
  exact ⟨s, hrun, hinitial, hnext⟩

/-- The summary that says of every total what the rows add up to. -/
def closingSummary (since : ℤ) (s : State) : Summary where
  status := readyText
  initialSince := since
  qualifiedRows := s.seen.length
  stageRows := s.stages.mapValues Prod.fst
  treatmentRows := s.treatments
  groups := s.groups
  automaticPolicyAddresses := s.initialRouting.getD automaticPolicyText 0
  manualRoutingAddresses := s.initialRouting.getD exchangeOrManualText 0
  initialValidators := s.initialValidators
  totalMigration := s.allocation initialText + s.allocation nextStageText
  grossNativeSnapshot := s.allocation initialText + s.allocation nextStageText
  totalExclusions := 0
  initialWallets := s.allocation initialText
  nextStageContracts := s.allocation nextStageText
  deferredWallets := 0

/-- The routing summary without overrides. -/
def closingRouting (s : State) : Routing where
  status := readyText
  stageOverrides := .empty
  stageTotals := .ofList [(initialText, s.allocation initialText), (nextStageText, s.allocation nextStageText),
    (deferredText, s.allocation deferredText), (exchangeManualText, 0)]
  stageReadiness := .ofList [(exchangeManualText, ⟨readyText, true⟩)]
  notIssuedTotal := 0
  treatmentNotIssuedTotal := 0
  vaultNotIssuedAssets := 0
  notIssuedStakedToVault := 0
  initialStageStatus := readyText

theorem countChecks_closing (since : ℤ) (s : State) : countChecks s (closingSummary since s) = .ok () := by
  have hkeys : (s.stages.mapValues Prod.fst).keys = s.stages.keys := by
    rw [Dict.mapValues, Dict.keys, List.map_map]
    rfl
  have hstages : ∀ e ∈ s.stages.entries, (s.stages.mapValues Prod.fst).get? e.1 = some e.2.1 := fun e he =>
    Dict.get?_eq_some_iff.mpr (List.mem_map.mpr ⟨e, he, rfl⟩)
  have hsame : ∀ {ν : Type} (d : Dict Text ν), ∀ e ∈ d.entries, d.get? e.1 = some e.2 := fun d e he =>
    Dict.get?_eq_some_iff.mpr he
  unfold countChecks closingSummary
  rw [require_bind_ok, require_bind_ok, require_bind_ok, require_bind_ok, require_bind_ok, require_bind_ok,
    require_bind_ok, require_bind_ok, require_iff, sameKeys, hkeys]
  exact ⟨rfl, ⟨fun _ h => h, fun _ h => h⟩, hstages, ⟨⟨fun _ h => h, fun _ h => h⟩, hsame _⟩, fun _ h => h, hsame _,
    ⟨rfl, rfl, rfl⟩, sub_zero _, add_zero _⟩

theorem checkExchange_closing (s : State) : (closingRouting s).checkExchange = .ok ⟨readyText, true⟩ := rfl

theorem checkCompiled_closing (s : State) {stage : Text} (h : stage ∈ [initialText, nextStageText, deferredText]) :
    (closingRouting s).checkCompiled stage (s.allocation stage) = .ok (s.allocation stage) := by
  have hget : (closingRouting s).stageTotals.get? stage = some (s.allocation stage) := by
    rcases List.mem_cons.mp h with rfl | h
    · rfl
    rcases List.mem_cons.mp h with rfl | h
    · rfl
    obtain rfl := List.mem_singleton.mp h
    rfl
  have hover : (closingRouting s).overrideTotals.getD stage 0 = 0 := rfl
  have hequal : require (s.allocation stage = s.allocation stage) Error.compiledMismatch = .ok () := require_iff.mpr rfl
  unfold Routing.checkCompiled
  rw [ofOption_bind_ok]
  refine ⟨_, hget, ?_⟩
  rw [hover, sub_zero, hequal]
  rfl

/-- No total keeps out a file whose rows are accepted. -/
theorem main_closing (hrun : rows.foldlM (step u since) .start = .ok s) :
    ∃ out, main u ⟨rows, closingSummary since s, closingRouting s⟩ = .ok out := by
  have hstatus : readyText ∈ statuses := by decide
  refine ⟨result s ⟨rows, closingSummary since s, closingRouting s⟩ ⟨readyText, true⟩ (s.allocation initialText), ?_⟩
  unfold main
  rw [require_bind_ok, require_bind_ok]
  refine ⟨hstatus, hstatus, ?_⟩
  change (rows.foldlM (step u since) .start).bind _ = _
  rw [hrun, bind_ok_left, countChecks_closing, bind_ok_left, checkExchange_closing, bind_ok_left, require_bind_ok]
  refine ⟨rfl, ?_⟩
  change ((closingRouting s).checkCompiled initialText (s.allocation initialText)).bind _ = _
  rw [checkCompiled_closing s (by decide), bind_ok_left, require_bind_ok]
  refine ⟨rfl, ?_⟩
  change ((closingRouting s).checkCompiled nextStageText (s.allocation nextStageText)).bind _ = _
  rw [checkCompiled_closing s (by decide), bind_ok_left, checkCompiled_closing s (by decide), bind_ok_left]
  rfl

/-- What a pass says of the file, and that a pass with some summaries says no more. -/
theorem stagePolicy_pass_exact (u : Lower) (since : ℤ) (months : ℕ) (rows : List Row) :
    (∀ i out, i.rows = rows → i.summary.initialSince = since → main u i = .ok out →
      Accepted u since months rows ∧ stageSum rows initialText = i.summary.initialWallets ∧
        stageSum rows nextStageText = i.summary.nextStageContracts) ∧
    (Accepted u since months rows →
      ∃ i out, i.rows = rows ∧ i.summary.initialSince = since ∧ main u i = .ok out) := by
  refine ⟨fun i out hrows hsince h => ?_, fun haccepted => ?_⟩
  · subst hrows hsince
    obtain ⟨s, hrun, hinitial, hnext⟩ := main_ok h
    obtain ⟨-, haccepted, rfl⟩ := run_ok_iff.mp hrun
    rw [allocation_foldl_count i.rows .start (by decide)] at hinitial hnext
    have hzero : ∀ stage, State.start.allocation stage = 0 := fun _ => rfl
    rw [hzero, zero_add] at hinitial hnext
    exact ⟨haccepted, hinitial, hnext⟩
  · have hrun : rows.foldlM (step u since) .start = .ok (rows.foldl (State.count u) .start) :=
      run_ok_iff.mpr ⟨fun _ _ => List.not_mem_nil, haccepted, rfl⟩
    obtain ⟨out, hout⟩ := main_closing hrun
    exact ⟨_, out, rfl, rfl, hout⟩

end File

/-! ### Rows that the policy does not prescribe -/

/-- A recently active row with the claim `gross`, which nothing is taken from. -/
def plainRow (address classification stage : String) (gross : ℤ) : Row where
  address := address.toList
  classification := classification.toList
  group := classification.toList
  routingCategory := automaticPolicyText
  stage := stage.toList
  treatment := issueText
  qualification := gross
  amounts := ⟨gross, 0, 0, 0, 0, 0, 0, gross, 0, gross⟩
  lastActivity := some 1

/-- An active wallet and a reviewed contract in each other's stage, a contract that an inventory consumes,
and a row of no known classification. -/
def misplacedRows : List Row :=
  [plainRow "0x01" "wallet" "next_stage" minimumAtto, plainRow "0x02" "genuine_contract" "deferred" minimumAtto,
    { plainRow "0x03" "genuine_contract" "" minimumAtto with
      treatment := notIssuedText, amounts := ⟨minimumAtto, minimumAtto, 0, 0, 0, 0, 0, 0, 0, 0⟩ },
    plainRow "0x04" "account" "next_stage" minimumAtto]

def misplacedInput : Input :=
  let s := misplacedRows.foldl (State.count asciiLower) .start
  ⟨misplacedRows, closingSummary 0 s, closingRouting s⟩

theorem misplaced_pass : (∃ out, main asciiLower misplacedInput = .ok out) ∧
    ∀ row ∈ misplacedInput.rows, ¬row.Prescribed misplacedInput.summary.initialSince 6 := by
  refine ⟨?_, by decide +kernel⟩
  have hok : (main asciiLower misplacedInput).toBool = true := by decide +kernel
  exact Except.exists_ok_of_toBool hok

end HarmonyMigration.Claims.StagePolicyVerify
