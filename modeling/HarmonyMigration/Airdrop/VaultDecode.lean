import HarmonyMigration.Airdrop.VaultPacking

/-! `decode_vault_tx` of `vault_batch.py`: what reviewers are shown of a Safe transaction, from its raw data. -/

namespace HarmonyMigration.Airdrop.VaultBatch

open Erc20 Slices

inductive DeployProblem
  | notTheAuditedCode
  | malformedArgument
  | otherToken (asset : Bytes)
  | zeroGovernor
  deriving DecidableEq

/-- `any(word[:12])`. -/
def dirty (w : Bytes) : Bool := (slice w 0 12).any (· ≠ 0)

/-- The address in a word. -/
def addressOf (w : Bytes) : Address := BitVec.ofNat 160 (beNat (w.drop 12))

/-- `(validator, governor, vault address)`. -/
def decodeDeploy (art : Artifact) (token : Address) (body : Bytes) :
    Except DeployProblem (Address × Address × Address) :=
  let n := art.creation.length
  if body.length ≠ 32 + n + 64 ∨ slice body 32 (32 + n) ≠ art.creation then .error .notTheAuditedCode
  else
    let salt := slice body 0 32
    let asset := slice body (32 + n) (32 + n + 32)
    let governor := body.drop (32 + n + 32)
    if dirty salt ∨ dirty asset ∨ dirty governor then .error .malformedArgument
    else if asset.drop 12 ≠ addressBytes token then .error (.otherToken (asset.drop 12))
    else if addressOf governor = 0 then .error .zeroGovernor
    else .ok (addressOf salt, addressOf governor, vaultAddress art token (addressOf salt) (addressOf governor))

def decodeApprove (body : Bytes) : Option (Address × ℕ) :=
  if body.length ≠ 68 ∨ slice body 0 4 ≠ approveSelector ∨ (slice body 4 16).any (· ≠ 0) then none
  else some (BitVec.ofNat 160 (beNat (slice body 16 36)), beNat (slice body 36 68))

inductive Problem
  | sendsEth (value : BitVec 256)
  | paysGasRefund
  | unofficialMultisend (payee : Address)
  | unreadableMultisend (e : DecodeError)
  | notMultisend
  | notPlain (call : ℕ) (operation : UInt8) (value : ℕ)
  | deploy (call : ℕ) (p : DeployProblem)
  | notApprove (call : ℕ)
  | approveWhileUnused (call first : ℕ)
  | notDepositBatch (call : ℕ) (target : Address)
  | notPrecededByApprove (call : ℕ) (target : Address) (total : ℕ)
  | approvalUnused (call : ℕ) (amount : ℕ) (spender : Address)
  deriving DecidableEq

structure Decoded where
  deploys : List (Address × Address × Address)
  deposits : List (ℕ × Address × Address × ℕ)
  problems : List Problem
  deriving DecidableEq

/-- The lists so far, with the approval that no deposit has used: its call, spender and amount. -/
structure Scan where
  deploys : List (Address × Address × Address)
  deposits : List (ℕ × Address × Address × ℕ)
  pending : Option (ℕ × Address × ℕ)
  problems : List Problem

def scanStep (art : Artifact) (token : Address) (s : Scan) (c : PackedCall × ℕ) : Scan :=
  let i := c.2
  if c.1.operation ≠ 0 ∨ c.1.value ≠ 0 then
    { s with problems := s.problems ++ [.notPlain i c.1.operation c.1.value] }
  else if c.1.target = factory then
    match decodeDeploy art token c.1.body with
    | .error p => { s with problems := s.problems ++ [.deploy i p] }
    | .ok got => { s with deploys := s.deploys ++ [got] }
  else if c.1.target = token then
    match decodeApprove c.1.body with
    | none => { s with problems := s.problems ++ [.notApprove i] }
    | some got =>
      match s.pending with
      | some first => { s with problems := s.problems ++ [.approveWhileUnused i first.1] }
      | none => { s with pending := some (i, got.1, got.2) }
  else
    match decodeDepositBatch c.1.body with
    | none => { s with problems := s.problems ++ [.notDepositBatch i c.1.target] }
    | some (amounts, delegators) =>
      let approved := s.pending.any fun p => p.2.1 = c.1.target ∧ p.2.2 = amounts.sum
      { s with
        problems := s.problems ++ if approved then [] else [.notPrecededByApprove i c.1.target amounts.sum]
        pending := none
        deposits := s.deposits ++ (amounts.zip delegators).map fun d => (i, c.1.target, d.2, d.1) }

def scanCalls (art : Artifact) (token : Address) (problems : List Problem) (calls : List PackedCall) : Decoded :=
  let s := (calls.zipIdx 1).foldl (scanStep art token) ⟨[], [], none, problems⟩
  { deploys := s.deploys
    deposits := s.deposits
    problems := s.problems ++ s.pending.toList.map fun p => .approvalUnused p.1 p.2.2 p.2.1 }

def decodeVaultTx (tx : SafeCall) (art : Artifact) (token : Address) : Decoded :=
  let problems := (if tx.value ≠ 0 then [Problem.sendsEth tx.value] else []) ++
    if tx.gasPrice ≠ 0 ∨ tx.gasToken ≠ 0 ∨ tx.refundReceiver ≠ 0 then [Problem.paysGasRefund] else []
  if tx.operation = 0 then scanCalls art token problems [⟨0, tx.payee, tx.value.toNat, tx.data⟩]
  else
    let problems := problems ++ if tx.payee ∉ officialMultisendCallOnly then [Problem.unofficialMultisend tx.payee] else []
    match decodeMultisend tx.data with
    | .error e => ⟨[], [], problems ++ [.unreadableMultisend e]⟩
    | .ok none => ⟨[], [], problems ++ [.notMultisend]⟩
    | .ok (some calls) => scanCalls art token problems calls

/-! ### A call at a time -/

theorem decodeApprove_approveBody (spender : Address) {amount : ℕ} (h : amount < 2 ^ 256) :
    decodeApprove (approveBody spender amount) = some (spender, amount) := by
  have hsel : approveSelector.length = 4 := rfl
  obtain ⟨hlen, hselector, hzeros, hto, hword⟩ := slices_addressBody hsel spender amount
  rw [decodeApprove, approveBody, hlen, hselector, hzeros, if_neg (by decide), hto, hword, ofNat_addressBytes,
    beNat_word h]

theorem dirty_addressWord (a : Address) : dirty (addressWord a) = false := (drop_addressWord a).1

theorem addressOf_addressWord (a : Address) : addressOf (addressWord a) = a := (drop_addressWord a).2

/-- A deployment is read as its validator, governor and vault. -/
theorem decodeDeploy_deployData (art : Artifact) (token validator : Address) {governor : Address} (h : governor ≠ 0) :
    decodeDeploy art token (deployData art token validator governor) =
      .ok (validator, governor, vaultAddress art token validator governor) := by
  have hword : ∀ a : Address, (addressWord a).length = 32 := fun a => length_word a.toNat
  have hshape : deployData art token validator governor =
      addressWord validator ++ (art.creation ++ (addressWord token ++ addressWord governor)) := by
    simp only [deployData, saltFor, Artifact.initcode, List.append_assoc]
  have hlen : (deployData art token validator governor).length = 32 + art.creation.length + 64 := by
    rw [hshape, List.length_append, List.length_append, List.length_append, hword, hword, hword]
    omega
  have hsalt : slice (deployData art token validator governor) 0 32 = addressWord validator := by
    rw [hshape]
    exact slice_append_left (hword validator)
  have hcreation : slice (deployData art token validator governor) 32 (32 + art.creation.length) = art.creation :=
    slice_between (addressWord validator) art.creation (addressWord token ++ addressWord governor) hshape (hword validator) rfl
  have hasset : slice (deployData art token validator governor) (32 + art.creation.length)
      (32 + art.creation.length + 32) = addressWord token := by
    refine slice_between (addressWord validator ++ art.creation) (addressWord token) (addressWord governor) ?_ ?_ ?_
    · rw [hshape, List.append_assoc]
    · rw [List.length_append, hword]
    · rw [hword]
  have hgovernor : (deployData art token validator governor).drop (32 + art.creation.length + 32) = addressWord governor := by
    rw [hshape, ← List.append_assoc, ← List.append_assoc]
    apply List.drop_left'
    rw [List.length_append, List.length_append, hword, hword]
  have htoken : (addressWord token).drop 12 = addressBytes token := by
    rw [addressWord_eq]
    exact List.drop_left' List.length_replicate
  unfold decodeDeploy
  dsimp only
  rw [hlen, hcreation, hsalt, hasset, hgovernor, if_neg (by simp), dirty_addressWord, dirty_addressWord,
    dirty_addressWord, if_neg (by simp), htoken, if_neg (by simp), addressOf_addressWord, addressOf_addressWord, if_neg h]

/-- What is sent as a batch, or directly, is scanned call by call. -/
theorem decodeVaultTx_safeTx {calls : List (Address × Bytes)} {multisend : Address} {tx : SafeCall} (art : Artifact)
    (token : Address) (hmultisend : multisend ∈ officialMultisendCallOnly) (h : safeTx calls multisend = .ok tx) :
    decodeVaultTx tx art token = scanCalls art token [] (calls.map fun c => ⟨0, c.1, 0, c.2⟩) := by
  have hmany : ∀ {tx : SafeCall}, (multisendCalls calls).map
      (fun data => (⟨multisend, 0, data, 1, 0, 0, 0, 0, 0⟩ : SafeCall)) = .ok tx →
      decodeVaultTx tx art token = scanCalls art token [] (calls.map fun c => ⟨0, c.1, 0, c.2⟩) := by
    intro tx h
    obtain ⟨data, hdata, rfl⟩ := Except.of_map_ok h
    rw [multisendCalls_eq] at hdata
    have hdecode := decodeMultisend_pack hdata
    rw [List.map_map] at hdecode
    have hop : ¬(1 : BitVec 256) = 0 := by decide
    unfold decodeVaultTx
    rw [if_neg hop, hdecode]
    simp only [hmultisend]
    rfl
  unfold safeTx at h
  split at h
  · obtain rfl := Except.ok.inj h
    rfl
  · exact hmany h

/-! ### A whole transaction -/

/-- A planned call as the decoder returns it. -/
def plainCall (c : Address × Bytes) : PackedCall := ⟨0, c.1, 0, c.2⟩

def deployEntries (tx : PlannedTx) : List (Address × Address × Address) :=
  if tx.kind = .deploy then tx.vaults.map fun v => (v.validator.1, v.governor.1, v.address) else []

/-- The second call of every pair deposits. -/
def depositEntries (tx : PlannedTx) : List (ℕ × Address × Address × ℕ) :=
  ((tx.vaults.zip tx.deposits).zipIdx).flatMap fun p =>
    p.1.2.map fun d => (2 * p.2 + 2, p.1.1.address, d.delegator.1, d.amount)

/-- The addresses by which the scan tells the calls apart. -/
structure Apart (token : Address) (vaults : List Vault) : Prop where
  token_ne : token ≠ factory
  vault_ne_factory : ∀ v ∈ vaults, v.address ≠ factory
  vault_ne_token : ∀ v ∈ vaults, v.address ≠ token

section Scan

variable {art : Artifact} {token : Address} {gasTarget : ℕ} {m : Item} {members : List Item} {tx : PlannedTx}

/-- A part becomes its approval and its deposits. -/
theorem fundCalls_ok {calls : List (Address × Bytes)} (h : fundCalls token m = .ok calls) :
    sumOf m.chunk < 2 ^ 256 ∧ ∃ body, decodeDepositBatch body = some (amountsOf m.chunk, delegatorsOf m.chunk) ∧
      calls = [(token, approveBody m.vault.address (sumOf m.chunk)), (m.vault.address, body)] := by
  obtain ⟨approve, happrove, h⟩ := Except.of_bind_ok h
  obtain ⟨body, hbody, rfl⟩ := Except.of_map_ok h
  obtain ⟨w, hw, rfl⟩ := Except.of_map_ok happrove
  have hlen : (amountsOf m.chunk).length = (delegatorsOf m.chunk).length := by
    rw [amountsOf, delegatorsOf, List.length_map, List.length_map]
  exact ⟨(toWord_ok hw).1, body, decode_depositBatchData hlen hbody, rfl⟩

theorem zip_amounts_delegators (chunk : List Deposit) :
    (amountsOf chunk).zip (delegatorsOf chunk) = chunk.map fun d => (d.amount, d.delegator.1) := by
  rw [amountsOf, delegatorsOf, List.zip_map']

/-- An approval and its deposits leave nothing pending. -/
theorem scan_pair (art : Artifact) {calls : List (Address × Bytes)} {s : Scan} (h : fundCalls token m = .ok calls) (htoken : token ≠ factory)
    (hfactory : m.vault.address ≠ factory) (hvault : m.vault.address ≠ token) (hs : s.pending = none) (k : ℕ) :
    ((calls.map plainCall).zipIdx k).foldl (scanStep art token) s =
      { s with deposits := s.deposits ++ m.chunk.map fun d => (k + 1, m.vault.address, d.delegator.1, d.amount) } := by
  obtain ⟨hsum, body, hbody, rfl⟩ := fundCalls_ok h
  obtain ⟨deploys, deposits, pending, problems⟩ := s
  obtain rfl : pending = none := hs
  have happrove := decodeApprove_approveBody m.vault.address hsum
  have hfirst : scanStep art token ⟨deploys, deposits, none, problems⟩
      (plainCall (token, approveBody m.vault.address (sumOf m.chunk)), k) =
        ⟨deploys, deposits, some (k, m.vault.address, sumOf m.chunk), problems⟩ := by
    simp only [scanStep, plainCall, ne_eq, not_true_eq_false, or_self, if_false, htoken, if_true, happrove]
  have hsecond : scanStep art token ⟨deploys, deposits, some (k, m.vault.address, sumOf m.chunk), problems⟩
      (plainCall (m.vault.address, body), k + 1) =
        ⟨deploys, deposits ++ m.chunk.map fun d => (k + 1, m.vault.address, d.delegator.1, d.amount), none, problems⟩ := by
    simp only [scanStep, plainCall, ne_eq, not_true_eq_false, or_self, if_false, hfactory, hvault, hbody,
      zip_amounts_delegators, List.map_map]
    simp [sumOf, Function.comp_def]
  rw [List.map_cons, List.map_cons, List.map_nil, List.zipIdx_cons, List.zipIdx_cons, List.zipIdx_nil, List.foldl_cons,
    List.foldl_cons, List.foldl_nil, hfirst, hsecond]

/-- Pair by pair, the deposits are listed with the number of their call. -/
theorem scan_pairs (art : Artifact) {callss : List (List (Address × Bytes))} (htoken : token ≠ factory)
    (h : List.Forall₂ (fun m calls => fundCalls token m = .ok calls) members callss)
    (hfactory : ∀ m ∈ members, m.vault.address ≠ factory) (hvault : ∀ m ∈ members, m.vault.address ≠ token) (j : ℕ)
    {s : Scan} (hs : s.pending = none) :
    ((callss.flatten.map plainCall).zipIdx (2 * j + 1)).foldl (scanStep art token) s =
      { s with deposits := s.deposits ++ (members.zipIdx j).flatMap fun p =>
          p.1.chunk.map fun d => (2 * p.2 + 2, p.1.vault.address, d.delegator.1, d.amount) } := by
  induction h generalizing j s with
  | nil => simp
  | @cons m calls members callss hm _ ih =>
    obtain ⟨-, body, -, hcalls⟩ := fundCalls_ok hm
    have hlen : (calls.map plainCall).length = 2 := by
      rw [hcalls]
      rfl
    have hpair := scan_pair art hm htoken (hfactory m List.mem_cons_self) (hvault m List.mem_cons_self) hs (2 * j + 1)
    rw [List.flatten_cons, List.map_append, List.zipIdx_append, List.foldl_append, hpair, hlen,
      show 2 * j + 1 + 2 = 2 * (j + 1) + 1 by ring]
    refine (ih (fun m' hm' => hfactory m' (List.mem_cons_of_mem m hm'))
      (fun m' hm' => hvault m' (List.mem_cons_of_mem m hm')) (j + 1) ?_).trans ?_
    · exact hs
    · rw [List.zipIdx_cons, List.flatMap_cons, List.append_assoc]

/-- Deployments are listed one by one. -/
theorem scan_deploys {group : List Vault} (haddress : ∀ v ∈ group, v.address = vaultAddress art token v.validator.1 v.governor.1)
    (k : ℕ) (s : Scan) :
    (((group.map fun v => (factory, deployData art token v.validator.1 v.governor.1)).map plainCall).zipIdx k).foldl
        (scanStep art token) s =
      { s with deploys := s.deploys ++ group.map fun v => (v.validator.1, v.governor.1, v.address) } := by
  induction group generalizing k s with
  | nil => simp
  | cons v group ih =>
    have hstep : scanStep art token s (plainCall (factory, deployData art token v.validator.1 v.governor.1), k) =
        { s with deploys := s.deploys ++ [(v.validator.1, v.governor.1, v.address)] } := by
      have hgot := decodeDeploy_deployData art token v.validator.1 v.governor.2
      rw [← haddress v List.mem_cons_self] at hgot
      simp only [scanStep, plainCall, ne_eq, not_true_eq_false, or_self, if_false, if_true, hgot]
    rw [List.map_cons, List.map_cons, List.zipIdx_cons, List.foldl_cons, hstep,
      ih (fun w hw => haddress w (List.mem_cons_of_mem v hw)), List.map_cons, List.append_assoc, List.singleton_append]

/-- A funding transaction is read as its deposits. -/
theorem scanCalls_fund (hfunds : Funds token gasTarget members tx) (hapart : Apart token tx.vaults) :
    scanCalls art token [] (tx.calls.map plainCall) = ⟨[], depositEntries tx, []⟩ := by
  obtain ⟨calls, hcalls, heq⟩ := hfunds.calls_eq
  have hmem : ∀ m ∈ members, m.vault ∈ tx.vaults := by
    intro m hm
    rw [hfunds.vaults_eq]
    exact List.mem_map_of_mem hm
  have hscan := scan_pairs art hapart.token_ne (Except.forall₂_of_mapM_ok hcalls)
    (fun m hm => hapart.vault_ne_factory _ (hmem m hm)) (fun m hm => hapart.vault_ne_token _ (hmem m hm)) 0
    (s := ⟨[], [], none, []⟩) rfl
  have hentries : depositEntries tx = (members.zipIdx 0).flatMap fun p =>
      p.1.chunk.map fun d => (2 * p.2 + 2, p.1.vault.address, d.delegator.1, d.amount) := by
    rw [depositEntries, zip_vaults_deposits hfunds, List.zipIdx_map, List.flatMap_map]
    rfl
  rw [scanCalls, heq]
  simp only [Nat.mul_zero, Nat.zero_add] at hscan
  simp only [hscan, hentries, List.nil_append, Option.toList_none, List.map_nil]

end Scan

end HarmonyMigration.Airdrop.VaultBatch
