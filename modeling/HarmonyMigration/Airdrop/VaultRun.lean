import HarmonyMigration.Airdrop.Invariant
import HarmonyMigration.Airdrop.VaultDecode

/-! The planned calls on chain: what the Safe has approved, and what the vaults credit. -/

namespace HarmonyMigration.Airdrop.VaultBatch

open Erc20 Slices

/-- The token's ledger, the vaults that have code, and the credits they keep. -/
structure Chain where
  ledger : Ledger
  deployed : Address → Bool
  credit : Address → Address → ℕ

/-- The second loop of `depositBatch`; the additions are checked. -/
def creditAll (credit : Address → ℕ) (rows : List (ℕ × Address)) : Option (Address → ℕ) :=
  rows.foldlM (fun c r => if c r.2 + r.1 < 2 ^ 256 then some (add c r.2 r.1) else none) credit

/-- `depositBatch` of a vault, called by the Safe; `none` is a revert. -/
def depositBatch (T : Tokens) (token safe : Address) (w : Chain) (vault : Address) (amounts : List ℕ)
    (delegators : List Address) : Option Chain :=
  if delegators.length ≠ amounts.length ∨ 0 ∈ delegators ∨ 2 ^ 256 ≤ amounts.sum then none
  else
    match boolCall (D := Unit) T w.ledger ⟨.transferFrom, vault, token, safe, vault, amounts.sum⟩ with
    | .ok (l, true) =>
      (creditAll (w.credit vault) (amounts.zip delegators)).map fun credit =>
        { w with ledger := l, credit := Function.update w.credit vault credit }
    | _ => none

/-- A call of the Safe. The deployer refuses an address that has code, and an address without
code answers any call with success. Call data that is not as planned counts as a revert. -/
def execCall (T : Tokens) (strict : Address → Bool) (art : Artifact) (token safe : Address) (w : Chain)
    (call : Address × Bytes) : Option Chain :=
  if call.1 = factory then
    match decodeDeploy art token call.2 with
    | .ok (_, _, vault) =>
      if w.deployed vault then none else some { w with deployed := Function.update w.deployed vault true }
    | .error _ => none
  else if call.1 = token then
    (decodeApprove call.2).bind fun approval =>
      (w.ledger.approve strict token safe approval.1 approval.2).map fun l => { w with ledger := l }
  else if w.deployed call.1 then
    (decodeDepositBatch call.2).bind fun batch => depositBatch T token safe w call.1 batch.1 batch.2
  else some w

variable (T : Tokens) (strict : Address → Bool) (art : Artifact) (token safe : Address)

/-- A transaction makes all of its calls or none. -/
def execTx (w : Chain) (tx : PlannedTx) : Option Chain := tx.calls.foldlM (execCall T strict art token safe) w

/-- The vaults that a funding transaction calls have code. -/
def Ready (w : Chain) (tx : PlannedTx) : Prop := tx.kind = .fund → ∀ v ∈ tx.vaults, w.deployed v.address = true

/-- Transactions that go through, each funding one after its vaults were deployed. -/
inductive Executes : Chain → List PlannedTx → Chain → Prop
  | nil (w : Chain) : Executes w [] w
  | cons {w w₁ w₂ : Chain} {tx : PlannedTx} {txs : List PlannedTx} (hready : Ready w tx)
      (hexec : execTx T strict art token safe w tx = some w₁) (hrest : Executes w₁ txs w₂) : Executes w (tx :: txs) w₂

/-! ### Credits -/

/-- What some deposits give a delegator. -/
def amountFor (delegator : Address) (chunk : List Deposit) : ℕ := sumOf (chunk.filter fun d => d.delegator.1 = delegator)

/-- What the parts give a delegator of a vault. -/
def planned (parts : List (Vault × List Deposit)) (vault delegator : Address) : ℕ :=
  (parts.map fun p => if p.1.address = vault then amountFor delegator p.2 else 0).sum

variable {T strict art token safe}

theorem creditAll_ok {credit credit' : Address → ℕ} {chunk : List Deposit}
    (h : creditAll credit ((amountsOf chunk).zip (delegatorsOf chunk)) = some credit') (delegator : Address) :
    credit' delegator = credit delegator + amountFor delegator chunk := by
  rw [zip_amounts_delegators] at h
  induction chunk generalizing credit with
  | nil =>
    obtain rfl := Option.some.inj h
    simp [amountFor, sumOf, amountsOf]
  | cons d chunk ih =>
    rw [List.map_cons, creditAll, List.foldlM_cons] at h
    obtain ⟨next, hnext, hrest⟩ := Option.bind_eq_some_iff.mp h
    split_ifs at hnext
    obtain rfl := Option.some.inj hnext
    rw [ih hrest, amountFor, amountFor, List.filter_cons]
    by_cases hd : d.delegator.1 = delegator
    · simp only [hd, decide_true, if_true, add, Function.update_self, sumOf, amountsOf, List.map_cons, List.sum_cons]
      ring
    · have hne : delegator ≠ d.delegator.1 := fun he => hd he.symm
      simp only [hd, decide_false, Bool.false_eq_true, if_false, add, Function.update_of_ne hne]

/-! ### A pair of calls -/

variable {w w' : Chain} {m : Item}

/-- The first call of a pair sets the approval, whatever it was. -/
theorem exec_approval {calls : List (Address × Bytes)} (h : fundCalls token m = .ok calls) (htoken : token ≠ factory)
    (hexec : calls.foldlM (execCall T strict art token safe) w = some w') :
    ∃ body, decodeDepositBatch body = some (amountsOf m.chunk, delegatorsOf m.chunk) ∧
      execCall T strict art token safe
        { w with ledger := w.ledger.setAllowance (token, safe, m.vault.address) (sumOf m.chunk) }
        (m.vault.address, body) = some w' := by
  obtain ⟨hsum, body, hbody, rfl⟩ := fundCalls_ok h
  have happrove := decodeApprove_approveBody m.vault.address hsum
  rw [List.foldlM_cons] at hexec
  obtain ⟨w₁, hfirst, hexec⟩ := Option.bind_eq_some_iff.mp hexec
  rw [List.foldlM_cons] at hexec
  obtain ⟨w₂, hsecond, hlast⟩ := Option.bind_eq_some_iff.mp hexec
  obtain rfl := Option.some.inj hlast
  rw [execCall, if_neg htoken, if_pos rfl] at hfirst
  dsimp only at hfirst
  rw [happrove, Option.bind_some] at hfirst
  obtain ⟨l, hl, rfl⟩ := Option.map_eq_some_iff.mp hfirst
  unfold Ledger.approve at hl
  split_ifs at hl
  obtain rfl := Option.some.inj hl
  exact ⟨body, hbody, hsecond⟩

/-- The approval is for exactly what the deposits take, and nothing of it is left. -/
theorem exec_pair {calls : List (Address × Bytes)} (h : fundCalls token m = .ok calls) (htoken : token ≠ factory)
    (hfactory : m.vault.address ≠ factory) (hvault : m.vault.address ≠ token)
    (hdeployed : w.deployed m.vault.address = true) (hzero : w.ledger.allowance (token, safe, m.vault.address) = 0)
    (hexec : calls.foldlM (execCall T strict art token safe) w = some w') :
    w'.ledger.allowance = w.ledger.allowance ∧ w'.deployed = w.deployed ∧
      ∀ vault delegator, w'.credit vault delegator =
        w.credit vault delegator + if m.vault.address = vault then amountFor delegator m.chunk else 0 := by
  obtain ⟨body, hbody, hsecond⟩ := exec_approval h htoken hexec
  rw [execCall, if_neg hfactory, if_neg hvault] at hsecond
  dsimp only at hsecond
  rw [hdeployed, if_pos rfl, hbody, Option.bind_some] at hsecond
  unfold depositBatch at hsecond
  split_ifs at hsecond
  split at hsecond
  · rename_i l hcall
    obtain ⟨credit, hcredit, rfl⟩ := Option.map_eq_some_iff.mp hsecond
    obtain rfl := boolCall_true hcall
    refine ⟨?_, rfl, ?_⟩
    · funext k
      simp only [Ledger.apply, Ledger.setAllowance_allowance, sub, Function.update_apply, sumOf]
      split_ifs with hk
      · rw [hk, hzero, Nat.sub_self]
      · rfl
    · intro vault delegator
      by_cases hv : m.vault.address = vault
      · subst hv
        dsimp only
        rw [if_pos rfl, Function.update_self]
        exact creditAll_ok hcredit delegator
      · have hne : vault ≠ m.vault.address := fun he => hv he.symm
        dsimp only
        rw [if_neg hv, Function.update_of_ne hne, Nat.add_zero]
  · cases hsecond

/-- Without code at the vault the deposits do nothing, and the approval stays. -/
theorem exec_pair_undeployed {calls : List (Address × Bytes)} (h : fundCalls token m = .ok calls)
    (htoken : token ≠ factory) (hfactory : m.vault.address ≠ factory) (hvault : m.vault.address ≠ token)
    (hdeployed : w.deployed m.vault.address = false)
    (hexec : calls.foldlM (execCall T strict art token safe) w = some w') :
    w'.ledger.allowance (token, safe, m.vault.address) = sumOf m.chunk ∧ w'.credit = w.credit := by
  obtain ⟨body, hbody, hsecond⟩ := exec_approval h htoken hexec
  rw [execCall, if_neg hfactory, if_neg hvault] at hsecond
  dsimp only at hsecond
  rw [hdeployed, if_neg (by decide)] at hsecond
  obtain rfl := Option.some.inj hsecond
  exact ⟨by simp, rfl⟩

/-! ### A transaction -/

/-- What a transaction leaves as it was, and what it credits. -/
structure Effect (w w' : Chain) (parts : List (Vault × List Deposit)) : Prop where
  allowance_eq : w'.ledger.allowance = w.ledger.allowance
  deployed_mono : ∀ a, w.deployed a = true → w'.deployed a = true
  credit_eq : ∀ vault delegator, w'.credit vault delegator = w.credit vault delegator + planned parts vault delegator

theorem Effect.refl (w : Chain) : Effect w w [] := ⟨rfl, fun _ h => h, fun _ _ => rfl⟩

theorem Effect.trans {w w₁ w₂ : Chain} {p q : List (Vault × List Deposit)} (h : Effect w w₁ p) (h' : Effect w₁ w₂ q) :
    Effect w w₂ (p ++ q) := by
  refine ⟨h'.allowance_eq.trans h.allowance_eq, fun a ha => h'.deployed_mono a (h.deployed_mono a ha), ?_⟩
  intro vault delegator
  rw [h'.credit_eq, h.credit_eq, planned, planned, planned, List.map_append, List.sum_append, Nat.add_assoc]

/-- Pair after pair. -/
theorem exec_pairs {members : List Item} {callss : List (List (Address × Bytes))} (htoken : token ≠ factory)
    (h : List.Forall₂ (fun m calls => fundCalls token m = .ok calls) members callss)
    (hfactory : ∀ m ∈ members, m.vault.address ≠ factory) (hvault : ∀ m ∈ members, m.vault.address ≠ token)
    (hdeployed : ∀ m ∈ members, w.deployed m.vault.address = true)
    (hzero : ∀ m ∈ members, w.ledger.allowance (token, safe, m.vault.address) = 0)
    (hexec : callss.flatten.foldlM (execCall T strict art token safe) w = some w') :
    Effect w w' (members.map fun m => (m.vault, m.chunk)) := by
  induction h generalizing w with
  | nil =>
    obtain rfl := Option.some.inj hexec
    exact Effect.refl w
  | @cons m calls members callss hm _ ih =>
    rw [List.flatten_cons, List.foldlM_append] at hexec
    obtain ⟨w₁, hpair, hexec⟩ := Option.bind_eq_some_iff.mp hexec
    obtain ⟨hallow, hdep, hcredit⟩ := exec_pair hm htoken (hfactory m List.mem_cons_self) (hvault m List.mem_cons_self)
      (hdeployed m List.mem_cons_self) (hzero m List.mem_cons_self) hpair
    have hfirst : Effect w w₁ [(m.vault, m.chunk)] := by
      refine ⟨hallow, fun a ha => by rw [hdep, ha], ?_⟩
      intro vault delegator
      rw [hcredit, planned, List.map_singleton, List.sum_singleton]
    apply hfirst.trans
    apply ih
    · exact fun m' hm' => hfactory m' (List.mem_cons_of_mem m hm')
    · exact fun m' hm' => hvault m' (List.mem_cons_of_mem m hm')
    · intro m' hm'
      rw [hdep]
      exact hdeployed m' (List.mem_cons_of_mem m hm')
    · intro m' hm'
      rw [hallow]
      exact hzero m' (List.mem_cons_of_mem m hm')
    · exact hexec

/-- Deployments touch neither approvals nor credits. -/
theorem exec_deploys {group : List (Address × Bytes)} (hgroup : ∀ c ∈ group, c.1 = factory)
    (hexec : group.foldlM (execCall T strict art token safe) w = some w') : Effect w w' [] := by
  induction group generalizing w with
  | nil =>
    obtain rfl := Option.some.inj hexec
    exact Effect.refl w
  | cons c group ih =>
    rw [List.foldlM_cons] at hexec
    obtain ⟨w₁, hfirst, hexec⟩ := Option.bind_eq_some_iff.mp hexec
    have hstep : Effect w w₁ [] := by
      rw [execCall, if_pos (hgroup c List.mem_cons_self)] at hfirst
      split at hfirst
      · split_ifs at hfirst
        obtain rfl := Option.some.inj hfirst
        refine ⟨rfl, ?_, fun _ _ => rfl⟩
        intro a ha
        simp only [Function.update_apply]
        split_ifs
        · rfl
        · exact ha
      · cases hfirst
    exact hstep.trans (ih (fun c' hc' => hgroup c' (List.mem_cons_of_mem c hc')) hexec)

/-! ### The plan -/

/-- The calls of a deployment transaction. -/
structure Deploys (art : Artifact) (token : Address) (perTx : ℕ) (tx : PlannedTx) : Prop where
  kind_eq : tx.kind = .deploy
  calls_eq : tx.calls = tx.vaults.map fun v => (factory, deployData art token v.validator.1 v.governor.1)
  deposits_eq : tx.deposits = []
  gas_eq : tx.estimatedGas = deployBaseGas + deployGas * tx.vaults.length
  vaults_le : tx.vaults.length ≤ perTx

theorem deployTxs_ok (art : Artifact) (token : Address) (vaults : List Vault) {perTx : ℕ} (hper : 1 ≤ perTx) :
    (∀ tx ∈ deployTxs art token vaults perTx, Deploys art token perTx tx) ∧
      (deployTxs art token vaults perTx).flatMap PlannedTx.vaults = vaults.filter Vault.deploy := by
  constructor
  · intro tx htx
    obtain ⟨group, hgroup, rfl⟩ := List.mem_map.mp htx
    exact ⟨rfl, rfl, rfl, rfl, length_le_of_mem_cut (splitSizes_le hper) hgroup⟩
  · rw [deployTxs, List.flatMap_map, List.flatMap_id']
    exact flatten_cut (sum_splitSizes hper)

/-- A deployment transaction is read as its vaults. -/
theorem scanCalls_deploy {perTx : ℕ} {tx : PlannedTx} (h : Deploys art token perTx tx)
    (haddress : ∀ v ∈ tx.vaults, v.address = vaultAddress art token v.validator.1 v.governor.1) :
    scanCalls art token [] (tx.calls.map plainCall) = ⟨deployEntries tx, depositEntries tx, []⟩ := by
  have hentries : depositEntries tx = [] := by
    rw [depositEntries, h.deposits_eq, List.zip_nil_right]
    rfl
  have hscan := scan_deploys haddress 1 ⟨[], [], none, []⟩
  rw [scanCalls, h.calls_eq, deployEntries, h.kind_eq, hentries]
  simp only [hscan, List.nil_append, Option.toList_none, List.map_nil, if_true]

end HarmonyMigration.Airdrop.VaultBatch
