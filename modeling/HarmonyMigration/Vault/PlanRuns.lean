import HarmonyMigration.Vault.GovernorDelegator

/-! The funding of the vaults, as `vault_batch.py` plans it and the Safe executes it, is a run of every vault's contract. -/

namespace HarmonyMigration.GovernorDelegator

open Keccak Erc20 Airdrop VaultBatch Slices

section Batch

variable {T : Tokens} {rows : List (Word × Address)}

theorem batchTotal_zero {start : ℕ} (h : (0 : Address) ∈ rows.map Prod.snd) :
    rows.foldlM (fun total row =>
      if row.2 = 0 then none else if total + row.1.toNat < 2 ^ 256 then some (total + row.1.toNat) else none) start =
      none := by
  induction rows generalizing start with
  | nil => cases h
  | cons row rows ih =>
    rw [List.foldlM_cons]
    by_cases hzero : row.2 = 0
    · rw [if_pos hzero]
      rfl
    · rw [if_neg hzero]
      have hrest : (0 : Address) ∈ rows.map Prod.snd := by
        rw [List.map_cons] at h
        exact (List.mem_cons.mp h).resolve_left (Ne.symm hzero)
      split_ifs
      · exact ih hrest
      · rfl

theorem batchTotal_of_ne {start : ℕ} (h : (0 : Address) ∉ rows.map Prod.snd) (hstart : start < 2 ^ 256) :
    rows.foldlM (fun total row =>
      if row.2 = 0 then none else if total + row.1.toNat < 2 ^ 256 then some (total + row.1.toNat) else none) start =
      if start + amountOf rows < 2 ^ 256 then some (start + amountOf rows) else none := by
  induction rows generalizing start with
  | nil =>
    rw [amountOf, List.map_nil, List.sum_nil, Nat.add_zero, if_pos hstart]
    rfl
  | cons row rows ih =>
    rw [List.map_cons, List.mem_cons, not_or] at h
    have hsum : amountOf (row :: rows) = row.1.toNat + amountOf rows := by simp [amountOf]
    rw [List.foldlM_cons, if_neg (Ne.symm h.1), hsum]
    by_cases hlt : start + row.1.toNat < 2 ^ 256
    · rw [if_pos hlt, Option.bind_eq_bind, Option.bind_some, ih h.2 hlt, Nat.add_assoc]
    · rw [if_neg hlt, if_neg (by omega)]
      rfl

/-- The two requirements of the first loop. -/
theorem batchTotal_eq (rows : List (Word × Address)) :
    batchTotal rows =
      if (0 : Address) ∈ rows.map Prod.snd ∨ 2 ^ 256 ≤ amountOf rows then none else some (amountOf rows) := by
  by_cases hzero : (0 : Address) ∈ rows.map Prod.snd
  · rw [if_pos (.inl hzero)]
    exact batchTotal_zero hzero
  · rw [batchTotal, batchTotal_of_ne hzero (by decide), Nat.zero_add]
    by_cases hlt : amountOf rows < 2 ^ 256
    · rw [if_pos hlt, if_neg (not_or.mpr ⟨hzero, Nat.not_le.mpr hlt⟩)]
    · rw [if_neg hlt, if_pos (.inr (Nat.not_lt.mp hlt))]

/-- The credits of a batch, without the events. -/
theorem creditAll_map (caller : Address) (s : State) (rows : List (Word × Address)) :
    creditAll s.balanceOf (rows.map fun row => (row.1.toNat, row.2)) =
      (rows.foldlM (credit caller) s).map State.balanceOf := by
  induction rows generalizing s with
  | nil => rfl
  | cons row rows ih =>
    rw [List.map_cons, creditAll, List.foldlM_cons, List.foldlM_cons, credit]
    dsimp only
    split_ifs with hlt
    · exact ih ({ s with balanceOf := add s.balanceOf row.2 row.1.toNat }.log (.deposit caller row.2 row.1.toNat))
    · rfl

variable {token safe vault : Address} {w : Chain} {s : State} {amounts : List Word} {delegators : List Address}

/-- The deposits of the planned chain are those of the contract. -/
theorem depositBatch_chain (hledger : s.ledger = w.ledger) (hcredit : s.balanceOf = w.credit vault) :
    VaultBatch.depositBatch T token safe w vault (amounts.map BitVec.toNat) delegators =
      (depositBatch T ⟨vault, token⟩ s safe amounts delegators).map fun s' =>
        { w with ledger := s'.ledger, credit := Function.update w.credit vault s'.balanceOf } := by
  unfold VaultBatch.depositBatch depositBatch
  rw [List.length_map]
  by_cases hlength : delegators.length = amounts.length
  · have hzip : (amounts.map BitVec.toNat).zip delegators =
        (amounts.zip delegators).map fun row => (row.1.toNat, row.2) := by
      rw [List.zip_map_left]
      rfl
    have hsum : (amounts.map BitVec.toNat).sum = amountOf (amounts.zip delegators) := by
      have hfst : (amounts.zip delegators).map Prod.fst = amounts := List.map_fst_zip hlength.ge
      conv_lhs => rw [← hfst, List.map_map]
      rfl
    have hsnd : (amounts.zip delegators).map Prod.snd = delegators := List.map_snd_zip hlength.le
    rw [if_neg (c := delegators.length ≠ amounts.length) (by simpa using hlength), batchTotal_eq, hsnd, hsum, hzip]
    by_cases hrefused : (0 : Address) ∈ delegators ∨ 2 ^ 256 ≤ amountOf (amounts.zip delegators)
    · rw [if_pos (.inr hrefused), if_pos hrefused]
      rfl
    · rw [if_neg (by simpa [hlength] using hrefused), if_neg hrefused, Option.bind_some, requireMove, hledger]
      dsimp only [pullOf]
      cases hcall : boolCall (D := Unit) T w.ledger
          ⟨.transferFrom, vault, token, safe, vault, amountOf (amounts.zip delegators)⟩ with
      | error e => rfl
      | ok answer =>
        obtain ⟨l, accepted⟩ := answer
        cases accepted with
        | false => rfl
        | true =>
          dsimp only
          rw [Option.bind_some, ← hcredit, creditAll_map safe { s with ledger := l }]
          cases hfold : (amounts.zip delegators).foldlM (credit safe) { s with ledger := l } with
          | none => rfl
          | some s' =>
            have hkept : s'.ledger = l := (credits_some hfold).ledger_eq
            rw [Option.map_some, Option.map_some, Option.map_some, hkept]
  · rw [if_pos (.inl hlength), if_pos hlength]
    rfl

end Batch

/-! ### The Safe's calls, seen from one vault -/

section Plan

variable {T : Tokens} {strict : Address → Bool} {art : Artifact} {token safe vault : Address} {w w' : Chain} {s : State}

/-- The vault's part of the chain: its contract holds the ledger and the credits that the chain has for it. -/
structure SeenAs (vault : Address) (w : Chain) (s : State) : Prop where
  ledger_eq : s.ledger = w.ledger
  credit_eq : s.balanceOf = w.credit vault

theorem run_append (cfg : Config) (s : State) (first rest : List Action) :
    run T strict cfg s (first ++ rest) = run T strict cfg (run T strict cfg s first) rest :=
  List.foldl_append

/-- What the vault sees: actions of others, and calls of its own functions. -/
def Sees (T : Tokens) (strict : Address → Bool) (token vault : Address) (s : State) (w' : Chain) : Prop :=
  ∃ actions, (∀ a ∈ actions, Action.Foreign ⟨vault, token⟩ a) ∧
    SeenAs vault w' (run T strict ⟨vault, token⟩ s actions)

theorem sees_step {a : Action} (hforeign : a.Foreign ⟨vault, token⟩)
    (hseen : SeenAs vault w' (step T strict ⟨vault, token⟩ s a)) : Sees T strict token vault s w' := by
  refine ⟨[a], ?_, hseen⟩
  intro b hb
  rw [List.mem_singleton.mp hb]
  exact hforeign

theorem boolCall_fst {l l' : Ledger} {m : Transfer} {accepted : Bool}
    (h : boolCall (D := Unit) T l m = .ok (l', accepted)) : (T.call l m).1 = l' := by
  unfold boolCall at h
  split at h
  · rename_i hcall
    rw [hcall]
    split_ifs at h
    · exact (Prod.mk.inj (Except.ok.inj h)).1
    · exact (Prod.mk.inj (Except.ok.inj h)).1
  · cases h

/-- Deposits at another vault are a transfer that this one does not make. -/
theorem sees_other {other : Address} {amounts : List ℕ} {delegators : List Address} (hother : vault ≠ other)
    (hseen : SeenAs vault w s)
    (h : VaultBatch.depositBatch T token safe w other amounts delegators = some w') : Sees T strict token vault s w' := by
  unfold VaultBatch.depositBatch at h
  split_ifs at h
  split at h
  · rename_i l hcall
    obtain ⟨credit', -, rfl⟩ := Option.map_eq_some_iff.mp h
    apply sees_step (a := .move ⟨.transferFrom, other, token, safe, other, amounts.sum⟩)
    · exact ⟨Ne.symm hother, by simp⟩
    · refine ⟨?_, ?_⟩
      · rw [step, hseen.ledger_eq]
        exact boolCall_fst hcall
      · rw [step, hseen.credit_eq]
        exact (Function.update_of_ne hother _ _).symm
  · cases h

theorem words_of_sum {amounts : List ℕ} (h : amounts.sum < 2 ^ 256) :
    (amounts.map (BitVec.ofNat 256)).map BitVec.toNat = amounts := by
  rw [List.map_map]
  conv_rhs => rw [← List.map_id amounts]
  apply List.map_congr_left
  intro n hn
  have hle : n ≤ amounts.sum := List.single_le_sum (fun _ _ => Nat.zero_le _) n hn
  simp only [Function.comp_apply, BitVec.toNat_ofNat, id]
  exact Nat.mod_eq_of_lt (by omega)

theorem sees_own {amounts : List ℕ} {delegators : List Address} (hsafe : safe ≠ vault) (hseen : SeenAs vault w s)
    (h : VaultBatch.depositBatch T token safe w vault amounts delegators = some w') :
    Sees T strict token vault s w' := by
  have hsum : amounts.sum < 2 ^ 256 := by
    unfold VaultBatch.depositBatch at h
    split_ifs at h with hrefused
    rw [not_or, not_or] at hrefused
    omega
  rw [← words_of_sum hsum, depositBatch_chain hseen.ledger_eq hseen.credit_eq] at h
  obtain ⟨s', hs', rfl⟩ := Option.map_eq_some_iff.mp h
  apply sees_step (a := .call safe (.depositBatch (amounts.map (BitVec.ofNat 256)) delegators))
  · exact hsafe
  · rw [step, call, hs', Option.getD_some]
    refine ⟨rfl, ?_⟩
    dsimp only
    rw [Function.update_self]

theorem sees_nothing (hledger : w'.ledger = w.ledger) (hcredit : w'.credit = w.credit) (hseen : SeenAs vault w s) :
    Sees T strict token vault s w' := by
  refine ⟨[], by simp, ?_, ?_⟩
  · rw [hledger]
    exact hseen.ledger_eq
  · rw [hcredit]
    exact hseen.credit_eq

theorem execCall_seen {c : Address × Bytes} (hsafe : safe ≠ vault) (hseen : SeenAs vault w s)
    (h : execCall T strict art token safe w c = some w') : Sees T strict token vault s w' := by
  unfold execCall at h
  by_cases hfactory : c.1 = factory
  · rw [if_pos hfactory] at h
    split at h
    · split_ifs at h
      obtain rfl := Option.some.inj h
      exact sees_nothing (w := w) rfl rfl hseen
    · cases h
  rw [if_neg hfactory] at h
  by_cases htoken : c.1 = token
  · rw [if_pos htoken] at h
    obtain ⟨approval, -, happrove⟩ := Option.bind_eq_some_iff.mp h
    obtain ⟨l, hl, rfl⟩ := Option.map_eq_some_iff.mp happrove
    apply sees_step (a := .approve token safe approval.1 approval.2)
    · exact hsafe
    · rw [step, hseen.ledger_eq, hl, Option.getD_some]
      exact ⟨rfl, hseen.credit_eq⟩
  rw [if_neg htoken] at h
  split_ifs at h
  · obtain ⟨batch, -, hbatch⟩ := Option.bind_eq_some_iff.mp h
    by_cases hvault : vault = c.1
    · rw [← hvault] at hbatch
      exact sees_own hsafe hseen hbatch
    · exact sees_other hvault hseen hbatch
  · obtain rfl := Option.some.inj h
    exact sees_nothing rfl rfl hseen

theorem Sees.trans {w₁ : Chain} (h : Sees T strict token vault s w₁)
    (hnext : ∀ s₁, SeenAs vault w₁ s₁ → Sees T strict token vault s₁ w') : Sees T strict token vault s w' := by
  obtain ⟨first, hfirst, hseen⟩ := h
  obtain ⟨rest, hrest, hend⟩ := hnext _ hseen
  refine ⟨first ++ rest, ?_, ?_⟩
  · intro a ha
    exact (List.mem_append.mp ha).elim (hfirst a) (hrest a)
  · rw [run_append]
    exact hend

theorem execTx_seen {calls : List (Address × Bytes)} (hsafe : safe ≠ vault) (hseen : SeenAs vault w s)
    (h : calls.foldlM (execCall T strict art token safe) w = some w') : Sees T strict token vault s w' := by
  induction calls generalizing w s with
  | nil =>
    obtain rfl := Option.some.inj h
    exact sees_nothing rfl rfl hseen
  | cons c calls ih =>
    rw [List.foldlM_cons] at h
    obtain ⟨w₁, hfirst, hrest⟩ := Option.bind_eq_some_iff.mp h
    apply (execCall_seen hsafe hseen hfirst).trans
    intro s₁ hseen₁
    exact ih hseen₁ hrest

theorem executes_seen {txs : List PlannedTx} (hsafe : safe ≠ vault) (hseen : SeenAs vault w s)
    (h : Executes T strict art token safe w txs w') : Sees T strict token vault s w' := by
  induction h generalizing s with
  | nil w => exact sees_nothing rfl rfl hseen
  | cons hready hexec hrest ih =>
    apply (execTx_seen hsafe hseen hexec).trans
    intro s₁ hseen₁
    exact ih hseen₁

end Plan

/-! ### A vault of two delegators -/

theorem five_ne_zero : (5 : Address) ≠ 0 := by decide

theorem seven_ne_zero : (7 : Address) ≠ 0 := by decide

theorem eight_ne_zero : (8 : Address) ≠ 0 := by decide

def plainItem : Item :=
  ⟨⟨⟨5, five_ne_zero⟩, ⟨5, five_ne_zero⟩, 9, [], false⟩, 0,
    [⟨⟨5, five_ne_zero⟩, ⟨7, seven_ne_zero⟩, 10⟩, ⟨⟨5, five_ne_zero⟩, ⟨8, eight_ne_zero⟩, 20⟩]⟩

def plainFund (calls : List (Address × Bytes)) : PlannedTx := ⟨.fund, calls, [plainItem.vault], [plainItem.chunk], 0⟩

/-- Only the vault has code. -/
def plainChain : Chain := ⟨plainLedger, fun a => a = 9, fun _ _ => 0⟩

theorem plainFund_executes : ∃ calls w', fundCalls 2 plainItem = .ok calls ∧
    execTx Airdrop.plainTokens (fun _ => false) ⟨[]⟩ 2 1 plainChain (plainFund calls) = some w' ∧ w'.credit 9 7 = 10 := by
  have hrun : ((fundCalls 2 plainItem).toOption.any fun calls =>
      (execTx Airdrop.plainTokens (fun _ => false) ⟨[]⟩ 2 1 plainChain (plainFund calls)).any fun w' => w'.credit 9 7 = 10) =
      true := by
    decide +kernel
  obtain ⟨calls, hcalls, hany⟩ := Except.exists_ok_of_any hrun
  obtain ⟨w', hexec, hcredit⟩ := (Option.any_eq_true _ _).mp hany
  exact ⟨calls, w', hcalls, hexec, of_decide_eq_true hcredit⟩

end HarmonyMigration.GovernorDelegator
