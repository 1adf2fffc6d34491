import HarmonyMigration.Airdrop.VaultRun
import Mathlib.Algebra.BigOperators.Group.Finset.Piecewise

/-! `GovernorDelegator.sol`: the vault of one validator. A delegator's balance is credited by whoever pays for it and
is paid out to whomever the delegator names; the governor decides the fee and its own successor, and nothing else. Over
any run of the chain what the vault holds covers what it owes, the events account for every balance, and what a
delegator was credited stays its own to withdraw. -/

namespace HarmonyMigration.GovernorDelegator

open Keccak Erc20 Airdrop

/-- The vault's own address, and the immutable `asset`. -/
structure Config where
  self : Address
  asset : Address

inductive Event where
  | governorTransferred (previous next : Address)
  | feeUpdated (previousFeeBps newFeeBps : ℕ)
  | deposit (caller delegator : Address) (assets : ℕ)
  | withdraw (caller delegator : Address) (assets : ℕ)

structure State where
  governor : Address
  balanceOf : Address → ℕ
  feeBps : ℕ
  ledger : Ledger
  logs : List Event

def State.log (s : State) (e : Event) : State := { s with logs := s.logs ++ [e] }

@[simp] theorem State.log_balanceOf (s : State) (e : Event) : (s.log e).balanceOf = s.balanceOf := rfl
@[simp] theorem State.log_ledger (s : State) (e : Event) : (s.log e).ledger = s.ledger := rfl
@[simp] theorem State.log_governor (s : State) (e : Event) : (s.log e).governor = s.governor := rfl
@[simp] theorem State.log_feeBps (s : State) (e : Event) : (s.log e).feeBps = s.feeBps := rfl
@[simp] theorem State.log_logs (s : State) (e : Event) : (s.log e).logs = s.logs ++ [e] := rfl

/-- The constructor, over the chain's ledger. -/
def constructor (initialGovernor : Address) (l : Ledger) : Option State :=
  if initialGovernor = 0 then none
  else some ⟨initialGovernor, fun _ => 0, 0, { l with moves := [] }, [.governorTransferred 0 initialGovernor]⟩

/-- `onlyGovernor`, and the reason to refuse that both functions share: a requirement on the new value. -/
def asGovernor (s : State) (sender : Address) (required : Bool) (next : State) : Option State :=
  if sender = s.governor ∧ required then some next else none

def transferGovernor (s : State) (sender next : Address) : Option State :=
  asGovernor s sender (next ≠ 0) { s.log (.governorTransferred s.governor next) with governor := next }

def setFeeBps (s : State) (sender : Address) (value : BitVec 16) : Option State :=
  asGovernor s sender (value.toNat ≤ 10000)
    { s.log (.feeUpdated s.feeBps value.toNat) with feeBps := value.toNat }

/-- `require(asset.transfer(..))` and `require(asset.transferFrom(..))`. -/
def requireMove (T : Tokens) (s : State) (m : Transfer) : Option State :=
  match boolCall (D := Unit) T s.ledger m with
  | .ok (l, true) => some { s with ledger := l }
  | _ => none

/-- A checked addition to a balance, and its event. -/
def credit (caller : Address) (s : State) (row : Word × Address) : Option State :=
  if s.balanceOf row.2 + row.1.toNat < 2 ^ 256 then
    some ({ s with balanceOf := add s.balanceOf row.2 row.1.toNat }.log (.deposit caller row.2 row.1.toNat))
  else none

/-- What the vault pulls from its caller. -/
def pullOf (cfg : Config) (sender : Address) (amount : ℕ) : Transfer :=
  ⟨.transferFrom, cfg.self, cfg.asset, sender, cfg.self, amount⟩

def payOf (cfg : Config) (payee : Address) (amount : ℕ) : Transfer :=
  ⟨.transfer, cfg.self, cfg.asset, cfg.self, payee, amount⟩

def deposit (T : Tokens) (cfg : Config) (s : State) (sender : Address) (amount : Word) (delegator : Address) :
    Option State :=
  if delegator = 0 then none
  else (requireMove T s (pullOf cfg sender amount.toNat)).bind fun s => credit sender s (amount, delegator)

/-- The first loop of `depositBatch`. -/
def batchTotal (rows : List (Word × Address)) : Option ℕ :=
  rows.foldlM (fun total row =>
    if row.2 = 0 then none else if total + row.1.toNat < 2 ^ 256 then some (total + row.1.toNat) else none) 0

def depositBatch (T : Tokens) (cfg : Config) (s : State) (sender : Address) (amounts : List Word)
    (delegators : List Address) : Option State :=
  if delegators.length ≠ amounts.length then none
  else
    (batchTotal (amounts.zip delegators)).bind fun total =>
    (requireMove T s (pullOf cfg sender total)).bind fun s =>
    (amounts.zip delegators).foldlM (credit sender) s

def withdraw (T : Tokens) (cfg : Config) (s : State) (sender : Address) (amount : Word) (delegator : Address) :
    Option State :=
  if s.balanceOf sender < amount.toNat then none
  else
    (requireMove T { s with balanceOf := sub s.balanceOf sender amount.toNat } (payOf cfg delegator amount.toNat)).map
      fun s => s.log (.withdraw sender delegator amount.toNat)

inductive Call where
  | transferGovernor (next : Address)
  | setFeeBps (value : BitVec 16)
  | deposit (amount : Word) (delegator : Address)
  | depositBatch (amounts : List Word) (delegators : List Address)
  | withdraw (amount : Word) (delegator : Address)

def call (T : Tokens) (cfg : Config) (s : State) (sender : Address) : Call → Option State
  | .transferGovernor next => GovernorDelegator.transferGovernor s sender next
  | .setFeeBps value => GovernorDelegator.setFeeBps s sender value
  | .deposit amount delegator => GovernorDelegator.deposit T cfg s sender amount delegator
  | .depositBatch amounts delegators => GovernorDelegator.depositBatch T cfg s sender amounts delegators
  | .withdraw amount delegator => GovernorDelegator.withdraw T cfg s sender amount delegator

/-- What happens on the chain: a call of the vault, or a transfer or an approval of any token by someone else. -/
inductive Action where
  | call (sender : Address) (c : Call)
  | move (m : Transfer)
  | approve (token owner spender : Address) (amount : ℕ)

/-- The vault does nothing of its own accord, and a `transfer` is made by the payer. -/
def Action.Foreign (cfg : Config) : Action → Prop
  | .call sender _ => sender ≠ cfg.self
  | .move m => m.operator ≠ cfg.self ∧ (m.via = .transfer → m.payer = m.operator)
  | .approve _ owner _ _ => owner ≠ cfg.self

/-- What reverts leaves the state as it was. -/
def step (T : Tokens) (strict : Address → Bool) (cfg : Config) (s : State) : Action → State
  | .call sender c => (call T cfg s sender c).getD s
  | .move m => { s with ledger := (T.call s.ledger m).1 }
  | .approve token owner spender amount =>
    { s with ledger := (s.ledger.approve strict token owner spender amount).getD s.ledger }

def run (T : Tokens) (strict : Address → Bool) (cfg : Config) (s : State) (actions : List Action) : State :=
  actions.foldl (step T strict cfg) s

/-! ### What a call that goes through has done -/

section Calls

variable {T : Tokens} {cfg : Config} {s s' : State} {sender : Address}

theorem asGovernor_some {required : Bool} {next : State} (h : asGovernor s sender required next = some s') :
    sender = s.governor ∧ required = true ∧ s' = next := by
  unfold asGovernor at h
  split_ifs at h with hr
  exact ⟨hr.1, hr.2, (Option.some.inj h).symm⟩

/-- A required transfer was funded and took place, and it goes through when the token has no reason to refuse it. -/
theorem requireMove_some {m : Transfer} (h : requireMove T s m = some s') :
    s.ledger.funded m = true ∧ s' = { s with ledger := s.ledger.apply m } := by
  unfold requireMove at h
  split at h
  · rename_i l hcall
    obtain rfl := boolCall_true hcall
    refine ⟨?_, (Option.some.inj h).symm⟩
    unfold boolCall at hcall
    rcases T.call_cases s.ledger m with ⟨hc, hcode⟩ | (hc | hc) | ⟨-, hfunded, -, -⟩
    · simp [hc, hcode] at hcall
    · cases hcode : T.code m.token <;> simp [hc, hcode] at hcall
    · cases hcode : T.code m.token <;> simp [hc, hcode] at hcall
    · exact hfunded
  · cases h

theorem requireMove_ok {m : Transfer} (hcode : T.code m.token = true) (hanswer : T.answer m.token = .isTrue)
    (hrefuses : T.refuses s.ledger m = false) (hfunded : s.ledger.funded m = true) :
    requireMove T s m = some { s with ledger := s.ledger.apply m } := by
  have hcall : T.call s.ledger m = (s.ledger.apply m, .ret [1]) := by
    rw [Tokens.call, if_neg (by simp [hcode]), if_neg (by simp [hrefuses, hfunded]), hanswer, Tokens.answered]
  unfold requireMove boolCall
  rw [hcode, hcall]
  simp

end Calls

/-! ### What the events and the ledger say -/

def Event.depositedTo (d : Address) : Event → ℕ
  | .deposit _ delegator assets => if delegator = d then assets else 0
  | _ => 0

def Event.withdrawnBy (d : Address) : Event → ℕ
  | .withdraw caller _ assets => if caller = d then assets else 0
  | _ => 0

def Event.deposited : Event → ℕ
  | .deposit _ _ assets => assets
  | _ => 0

def Event.withdrawn : Event → ℕ
  | .withdraw _ _ assets => assets
  | _ => 0

def total (f : Event → ℕ) (logs : List Event) : ℕ := (logs.map f).sum

theorem total_append (f : Event → ℕ) (logs more : List Event) :
    total f (logs ++ more) = total f logs + total f more := by
  simp [total]

theorem total_snoc (f : Event → ℕ) (logs : List Event) (e : Event) : total f (logs ++ [e]) = total f logs + f e := by
  simp [total]

/-- Transfers of the asset that the vault pulled from its callers. -/
def isPull (cfg : Config) (m : Transfer) : Bool :=
  m.via = .transferFrom ∧ m.operator = cfg.self ∧ m.token = cfg.asset ∧ m.payee = cfg.self

/-- Transfers of the asset to the vault, by whomever. -/
def isIn (cfg : Config) (m : Transfer) : Bool := m.token = cfg.asset ∧ m.payee = cfg.self

/-- Transfers of the asset out of the vault, by whomever. -/
def isOut (cfg : Config) (m : Transfer) : Bool := m.token = cfg.asset ∧ m.payer = cfg.self

/-- The books of a vault that was created over the ledger `start`. -/
structure Accounts (cfg : Config) (start : Ledger) (s : State) : Prop where
  /-- whichever accounts are asked, the vault holds what they are owed -/
  solvent : ∀ ds : Finset Address, ∑ d ∈ ds, s.balanceOf d ≤ s.ledger.balance (cfg.asset, cfg.self)
  bounded : ∀ d, s.balanceOf d < 2 ^ 256
  unapproved : ∀ spender, s.ledger.allowance (cfg.asset, cfg.self, spender) = 0
  accounted : ∀ d, s.balanceOf d + total (Event.withdrawnBy d) s.logs = total (Event.depositedTo d) s.logs
  pulled : sumWhere (isPull cfg) s.ledger.moves = total Event.deposited s.logs
  paid : sumWhere (isOut cfg) s.ledger.moves = total Event.withdrawn s.logs
  held : s.ledger.balance (cfg.asset, cfg.self) + sumWhere (isOut cfg) s.ledger.moves =
    start.balance (cfg.asset, cfg.self) + sumWhere (isIn cfg) s.ledger.moves
  fee_le : s.feeBps ≤ 10000
  governor_ne : s.governor ≠ 0

/-! ### Sums of balances -/

section Sums

variable {f : Address → ℕ} {k : Address} {n : ℕ}

theorem sum_add_le (f : Address → ℕ) (k : Address) (n : ℕ) (ds : Finset Address) :
    ∑ d ∈ ds, add f k n d ≤ ∑ d ∈ ds, f d + n := by
  by_cases hk : k ∈ ds
  · have hsplit := Finset.add_sum_erase ds f hk
    rw [add, Finset.sum_update_of_mem hk, Finset.sdiff_singleton_eq_erase]
    omega
  · rw [add, Finset.sum_update_of_notMem hk]
    omega

/-- What is taken from a balance was part of any sum that its owner joins. -/
theorem sum_sub_le (hn : n ≤ f k) (ds : Finset Address) :
    ∑ d ∈ ds, sub f k n d + n ≤ ∑ d ∈ insert k ds, f d := by
  have hk : k ∈ insert k ds := Finset.mem_insert_self k ds
  have hle : ∑ d ∈ ds, sub f k n d ≤ ∑ d ∈ insert k ds, sub f k n d :=
    Finset.sum_le_sum_of_subset (Finset.subset_insert k ds)
  have hsplit := Finset.add_sum_erase (insert k ds) f hk
  have htaken : ∑ d ∈ insert k ds, sub f k n d = f k - n + ∑ d ∈ (insert k ds).erase k, f d := by
    rw [sub, Finset.sum_update_of_mem hk, Finset.sdiff_singleton_eq_erase]
  omega

end Sums

/-! ### Credits -/

section Credits

variable {cfg : Config} {s s' : State} {caller : Address} {rows : List (Word × Address)}

def amountOf (rows : List (Word × Address)) : ℕ := (rows.map fun row => row.1.toNat).sum

def amountTo (d : Address) (rows : List (Word × Address)) : ℕ :=
  (rows.map fun row => if row.2 = d then row.1.toNat else 0).sum

/-- What crediting some rows does. -/
structure Credited (caller : Address) (rows : List (Word × Address)) (s s' : State) : Prop where
  governor_eq : s'.governor = s.governor
  fee_eq : s'.feeBps = s.feeBps
  ledger_eq : s'.ledger = s.ledger
  balance_eq : ∀ d, s'.balanceOf d = s.balanceOf d + amountTo d rows
  bounded : (∀ d, s.balanceOf d < 2 ^ 256) → ∀ d, s'.balanceOf d < 2 ^ 256
  sum_le : ∀ ds : Finset Address, ∑ d ∈ ds, s'.balanceOf d ≤ ∑ d ∈ ds, s.balanceOf d + amountOf rows
  logs_eq : s'.logs = s.logs ++ rows.map fun row => .deposit caller row.2 row.1.toNat

theorem credit_some {row : Word × Address} (h : credit caller s row = some s') : Credited caller [row] s s' := by
  unfold credit at h
  split_ifs at h with hlt
  obtain rfl := Option.some.inj h
  refine ⟨rfl, rfl, rfl, fun d => ?_, fun hb d => ?_, fun ds => ?_, rfl⟩
  · by_cases hd : row.2 = d
    · subst hd
      simp [add, amountTo]
    · simp [add, amountTo, hd, Ne.symm hd]
  · by_cases hd : row.2 = d
    · subst hd
      simpa [add] using hlt
    · simpa [add, Ne.symm hd] using hb d
  · simpa [amountOf] using sum_add_le s.balanceOf row.2 row.1.toNat ds

theorem credits_some (h : rows.foldlM (credit caller) s = some s') : Credited caller rows s s' := by
  induction rows generalizing s with
  | nil =>
    obtain rfl := Option.some.inj h
    exact ⟨rfl, rfl, rfl, fun d => rfl, fun hb => hb, fun ds => le_rfl, by simp⟩
  | cons row rows ih =>
    rw [List.foldlM_cons] at h
    obtain ⟨s₁, hfirst, hrest⟩ := Option.bind_eq_some_iff.mp h
    have one := credit_some hfirst
    have more := ih hrest
    refine ⟨more.governor_eq.trans one.governor_eq, more.fee_eq.trans one.fee_eq,
      more.ledger_eq.trans one.ledger_eq, fun d => ?_, fun hb => more.bounded (one.bounded hb), fun ds => ?_, ?_⟩
    · rw [more.balance_eq, one.balance_eq]
      simp [amountTo]
      omega
    · have h₁ := one.sum_le ds
      have h₂ := more.sum_le ds
      simp only [amountOf, List.map_cons, List.map_nil, List.sum_cons, List.sum_nil] at h₁ h₂ ⊢
      omega
    · rw [more.logs_eq, one.logs_eq]
      simp

theorem total_deposits (f : Event → ℕ) (caller : Address) (rows : List (Word × Address)) :
    total f (rows.map fun row => .deposit caller row.2 row.1.toNat) =
      (rows.map fun row => f (.deposit caller row.2 row.1.toNat)).sum := by
  simp [total, Function.comp_def]

end Credits

/-! ### What a call has done -/

section Calls

variable {T : Tokens} {cfg : Config} {s s' : State} {sender : Address}

/-- A call of the governor moves nothing. -/
structure Governed (s s' : State) : Prop where
  balance_eq : s'.balanceOf = s.balanceOf
  ledger_eq : s'.ledger = s.ledger
  fee_le : s.feeBps ≤ 10000 → s'.feeBps ≤ 10000
  governor_ne : s.governor ≠ 0 → s'.governor ≠ 0
  logs_eq : ∃ e, s'.logs = s.logs ++ [e] ∧ e.deposited = 0 ∧ e.withdrawn = 0 ∧
    ∀ d, e.depositedTo d = 0 ∧ e.withdrawnBy d = 0

theorem transferGovernor_some {next : Address} (h : transferGovernor s sender next = some s') : Governed s s' := by
  obtain ⟨-, hnext, rfl⟩ := asGovernor_some h
  exact ⟨rfl, rfl, id, fun _ => by simpa using hnext, _, rfl, rfl, rfl, fun d => ⟨rfl, rfl⟩⟩

theorem setFeeBps_some {value : BitVec 16} (h : setFeeBps s sender value = some s') : Governed s s' := by
  obtain ⟨-, hvalue, rfl⟩ := asGovernor_some h
  exact ⟨rfl, rfl, fun _ => by simpa using hvalue, id, _, rfl, rfl, rfl, fun d => ⟨rfl, rfl⟩⟩

/-- The deposits of a call were paid for by its caller. -/
structure Deposited (cfg : Config) (sender : Address) (rows : List (Word × Address)) (s s' : State) : Prop where
  funded : s.ledger.funded (pullOf cfg sender (amountOf rows)) = true
  credited : Credited sender rows { s with ledger := s.ledger.apply (pullOf cfg sender (amountOf rows)) } s'

theorem batchTotal_from {rows : List (Word × Address)} {start sum : ℕ}
    (h : rows.foldlM (fun total row =>
      if row.2 = 0 then none else if total + row.1.toNat < 2 ^ 256 then some (total + row.1.toNat) else none) start =
      some sum) : sum = start + amountOf rows := by
  induction rows generalizing start with
  | nil => exact (Option.some.inj h).symm
  | cons row rows ih =>
    rw [List.foldlM_cons] at h
    obtain ⟨next, hnext, hrest⟩ := Option.bind_eq_some_iff.mp h
    split_ifs at hnext
    obtain rfl := Option.some.inj hnext
    rw [ih hrest]
    simp only [amountOf, List.map_cons, List.sum_cons]
    omega

theorem depositBatch_some {amounts : List Word} {delegators : List Address}
    (h : depositBatch T cfg s sender amounts delegators = some s') :
    Deposited cfg sender (amounts.zip delegators) s s' := by
  unfold depositBatch at h
  split_ifs at h
  obtain ⟨sum, hsum, hpulled⟩ := Option.bind_eq_some_iff.mp h
  obtain ⟨s₁, hmove, hcredit⟩ := Option.bind_eq_some_iff.mp hpulled
  obtain rfl : sum = amountOf (amounts.zip delegators) := by
    rw [batchTotal_from hsum, Nat.zero_add]
  obtain ⟨hfunded, rfl⟩ := requireMove_some hmove
  exact ⟨hfunded, credits_some hcredit⟩

/-- A deposit is a batch of one. -/
theorem deposit_eq (T : Tokens) (cfg : Config) (s : State) (sender : Address) (amount : Word) (delegator : Address) :
    deposit T cfg s sender amount delegator = depositBatch T cfg s sender [amount] [delegator] := by
  have hlt : amount.toNat < 2 ^ 256 := amount.isLt
  by_cases hzero : delegator = 0
  · simp [deposit, depositBatch, batchTotal, hzero]
  · have htotal : batchTotal [(amount, delegator)] = some amount.toNat := by
      simp only [batchTotal, List.foldlM_cons, List.foldlM_nil, if_neg hzero, Nat.zero_add, if_pos hlt]
      rfl
    rw [deposit, if_neg hzero, depositBatch, if_neg (by simp), List.zip_cons_cons, List.zip_nil_left, htotal,
      Option.bind_some]
    simp

structure Withdrawn (cfg : Config) (sender payee : Address) (amount : ℕ) (s s' : State) : Prop where
  le : amount ≤ s.balanceOf sender
  funded : s.ledger.funded (payOf cfg payee amount) = true
  eq : s' = { s with
    balanceOf := sub s.balanceOf sender amount
    ledger := s.ledger.apply (payOf cfg payee amount)
    logs := s.logs ++ [.withdraw sender payee amount] }

theorem withdraw_some {amount : Word} {payee : Address} (h : withdraw T cfg s sender amount payee = some s') :
    Withdrawn cfg sender payee amount.toNat s s' := by
  unfold withdraw at h
  split_ifs at h with hlt
  obtain ⟨s₁, hmove, rfl⟩ := Option.map_eq_some_iff.mp h
  obtain ⟨hfunded, rfl⟩ := requireMove_some hmove
  exact ⟨Nat.le_of_not_lt hlt, hfunded, rfl⟩

/-- All that a call can do. -/
theorem call_cases {c : Call} (h : call T cfg s sender c = some s') :
    Governed s s' ∨ (∃ rows, Deposited cfg sender rows s s') ∨
      ∃ amount payee, c = .withdraw amount payee ∧ Withdrawn cfg sender payee amount.toNat s s' := by
  cases c with
  | transferGovernor next => exact .inl (transferGovernor_some h)
  | setFeeBps value => exact .inl (setFeeBps_some h)
  | deposit amount delegator =>
    rw [call, deposit_eq] at h
    exact .inr (.inl ⟨_, depositBatch_some h⟩)
  | depositBatch amounts delegators => exact .inr (.inl ⟨_, depositBatch_some h⟩)
  | withdraw amount payee => exact .inr (.inr ⟨amount, payee, rfl, withdraw_some h⟩)

end Calls

/-! ### The books are kept -/

section Keep

variable {T : Tokens} {strict : Address → Bool} {cfg : Config} {start : Ledger} {s s' : State} {sender : Address}

theorem unapproved_apply {l : Ledger} {m : Transfer} (hfunded : l.funded m = true)
    (h : ∀ spender, l.allowance (cfg.asset, cfg.self, spender) = 0) (spender : Address) :
    (l.apply m).allowance (cfg.asset, cfg.self, spender) = 0 := by
  have happly := Ledger.apply_allowance hfunded cfg.asset cfg.self spender
  rw [h spender] at happly
  omega

theorem held_apply {l : Ledger} {m : Transfer} (hfunded : l.funded m = true)
    (h : l.balance (cfg.asset, cfg.self) + sumWhere (isOut cfg) l.moves =
      start.balance (cfg.asset, cfg.self) + sumWhere (isIn cfg) l.moves) :
    (l.apply m).balance (cfg.asset, cfg.self) + sumWhere (isOut cfg) (l.apply m).moves =
      start.balance (cfg.asset, cfg.self) + sumWhere (isIn cfg) (l.apply m).moves := by
  have happly := Ledger.apply_balance hfunded cfg.asset cfg.self
  simp only [Ledger.apply] at happly ⊢
  rw [sumWhere_snoc, sumWhere_snoc]
  simp only [isOut, isIn, decide_eq_true_eq] at h ⊢
  omega

theorem Accounts.governed (h : Accounts cfg start s) (hstep : Governed s s') : Accounts cfg start s' := by
  obtain ⟨e, hlogs, hdeposited, hwithdrawn, hof⟩ := hstep.logs_eq
  refine ⟨?_, ?_, ?_, fun d => ?_, ?_, ?_, ?_, hstep.fee_le h.fee_le, hstep.governor_ne h.governor_ne⟩
  · rw [hstep.balance_eq, hstep.ledger_eq]
    exact h.solvent
  · rw [hstep.balance_eq]
    exact h.bounded
  · rw [hstep.ledger_eq]
    exact h.unapproved
  · rw [hstep.balance_eq, hlogs, total_snoc, total_snoc, (hof d).1, (hof d).2]
    exact h.accounted d
  · rw [hstep.ledger_eq, hlogs, total_snoc, hdeposited]
    exact h.pulled
  · rw [hstep.ledger_eq, hlogs, total_snoc, hwithdrawn]
    exact h.paid
  · rw [hstep.ledger_eq]
    exact h.held

theorem Accounts.deposited {rows : List (Word × Address)} (h : Accounts cfg start s) (hsender : sender ≠ cfg.self)
    (hstep : Deposited cfg sender rows s s') : Accounts cfg start s' := by
  have hc := hstep.credited
  have hledger : s'.ledger = s.ledger.apply (pullOf cfg sender (amountOf rows)) := hc.ledger_eq
  have hbalance := Ledger.apply_balance hstep.funded cfg.asset cfg.self
  simp only [pullOf, hsender, and_false, if_false, and_self, if_true, Nat.add_zero] at hbalance
  refine ⟨fun ds => ?_, hc.bounded h.bounded, ?_, fun d => ?_, ?_, ?_, ?_, ?_, ?_⟩
  · have hsum : ∑ d ∈ ds, s'.balanceOf d ≤ ∑ d ∈ ds, s.balanceOf d + amountOf rows := hc.sum_le ds
    have hold := h.solvent ds
    rw [hledger, pullOf, hbalance]
    omega
  · rw [hledger]
    exact unapproved_apply hstep.funded h.unapproved
  · rw [hc.balance_eq, hc.logs_eq, total_append, total_append, total_deposits, total_deposits, ← h.accounted d]
    simp only [Event.withdrawnBy, Event.depositedTo, amountTo, List.map_const', List.sum_replicate, smul_zero]
    omega
  · rw [hledger, hc.logs_eq, total_append, total_deposits, ← h.pulled, Ledger.apply, sumWhere_snoc]
    simp [isPull, pullOf, Event.deposited, amountOf]
  · rw [hledger, hc.logs_eq, total_append, total_deposits, ← h.paid, Ledger.apply, sumWhere_snoc]
    simp [isOut, pullOf, Event.withdrawn, hsender]
  · rw [hledger]
    exact held_apply hstep.funded h.held
  · rw [hc.fee_eq]
    exact h.fee_le
  · rw [hc.governor_eq]
    exact h.governor_ne

theorem Accounts.withdrawn {payee : Address} {amount : ℕ} (h : Accounts cfg start s)
    (hstep : Withdrawn cfg sender payee amount s s') : Accounts cfg start s' := by
  obtain ⟨hle, hfunded, rfl⟩ := hstep
  have hbalance := Ledger.apply_balance hfunded cfg.asset cfg.self
  simp only [payOf, and_self, if_true] at hbalance
  refine ⟨fun ds => ?_, fun d => ?_, unapproved_apply hfunded h.unapproved, fun d => ?_, ?_, ?_,
    held_apply hfunded h.held, h.fee_le, h.governor_ne⟩
  · have htaken := sum_sub_le hle ds
    have hold := h.solvent (insert sender ds)
    simp only [payOf] at hbalance ⊢
    omega
  · have hb := h.bounded d
    simp only [sub, Function.update_apply]
    split_ifs
    · have := h.bounded sender
      omega
    · exact hb
  · have hd := h.accounted d
    rw [total_snoc, total_snoc]
    by_cases hs : sender = d
    · subst hs
      simp only [sub, Function.update_self, Event.withdrawnBy, Event.depositedTo, if_true]
      omega
    · simp only [sub, Function.update_of_ne (Ne.symm hs), Event.withdrawnBy, Event.depositedTo, hs, if_false]
      omega
  · simp only [Ledger.apply]
    rw [sumWhere_snoc, total_snoc, ← h.pulled]
    simp [isPull, payOf, Event.deposited]
  · simp only [Ledger.apply]
    rw [sumWhere_snoc, total_snoc, ← h.paid]
    simp [isOut, payOf, Event.withdrawn]

/-- A transfer that the vault did not make takes nothing from it: nobody holds an approval of its. -/
theorem Accounts.moved {m : Transfer} (h : Accounts cfg start s) (hoperator : m.operator ≠ cfg.self)
    (hpayer : m.via = .transfer → m.payer = m.operator) (hfunded : s.ledger.funded m = true) :
    Accounts cfg start { s with ledger := s.ledger.apply m } := by
  have hnothing : m.token = cfg.asset ∧ m.payer = cfg.self → m.amount = 0 := by
    intro hout
    cases hvia : m.via with
    | transfer => exact absurd (hout.2 ▸ hpayer hvia).symm hoperator
    | transferFrom =>
      have hallowed : m.amount ≤ s.ledger.allowance (m.token, m.payer, m.operator) := by
        simpa [Ledger.funded, hvia] using (Bool.and_eq_true_iff.mp hfunded).2
      rw [hout.1, hout.2, h.unapproved] at hallowed
      exact Nat.le_zero.mp hallowed
  have hbalance := Ledger.apply_balance hfunded cfg.asset cfg.self
  have hzero : (if m.token = cfg.asset ∧ m.payer = cfg.self then m.amount else 0) = 0 := by
    split_ifs with hout
    · exact hnothing hout
    · rfl
  refine ⟨fun ds => ?_, h.bounded, unapproved_apply hfunded h.unapproved, h.accounted, ?_, ?_,
    held_apply hfunded h.held, h.fee_le, h.governor_ne⟩
  · have hold := h.solvent ds
    simp only at hold ⊢
    omega
  · simp only [Ledger.apply]
    rw [sumWhere_snoc, ← h.pulled]
    simp [isPull, hoperator]
  · simp only [Ledger.apply]
    rw [sumWhere_snoc, ← h.paid]
    simp only [isOut, decide_eq_true_eq, hzero, Nat.add_zero]

theorem Accounts.approved {token owner spender : Address} {amount : ℕ} {l : Ledger} (h : Accounts cfg start s)
    (howner : owner ≠ cfg.self) (hl : s.ledger.approve strict token owner spender amount = some l) :
    Accounts cfg start { s with ledger := l } := by
  unfold Ledger.approve at hl
  split_ifs at hl
  obtain rfl := Option.some.inj hl
  refine ⟨h.solvent, h.bounded, fun other => ?_, h.accounted, h.pulled, h.paid, h.held, h.fee_le, h.governor_ne⟩
  have hkey : (cfg.asset, cfg.self, other) ≠ (token, owner, spender) := by
    intro heq
    exact howner (Prod.mk.inj (Prod.mk.inj heq).2).1.symm
  simp only [Ledger.setAllowance_allowance, Function.update_of_ne hkey]
  exact h.unapproved other

theorem Accounts.step {a : Action} (h : Accounts cfg start s) (hforeign : a.Foreign cfg) :
    Accounts cfg start (step T strict cfg s a) := by
  cases a with
  | call sender c =>
    rw [GovernorDelegator.step]
    cases hcall : call T cfg s sender c with
    | none => exact h
    | some s' =>
      obtain hstep | ⟨rows, hstep⟩ | ⟨amount, payee, -, hstep⟩ := call_cases hcall
      · exact h.governed hstep
      · exact h.deposited hforeign hstep
      · exact h.withdrawn hstep
  | move m =>
    obtain ⟨hoperator, hpayer⟩ := hforeign
    rw [GovernorDelegator.step]
    rcases T.call_cases s.ledger m with ⟨hcall, -⟩ | (hcall | hcall) | ⟨-, hfunded, -, hcall | hcall⟩
    · rw [hcall]
      exact h
    · rw [hcall]
      exact h
    · rw [hcall]
      exact h
    · rw [hcall]
      exact h.moved hoperator hpayer hfunded
    · rw [hcall]
      exact h.moved hoperator hpayer hfunded
  | approve token owner spender amount =>
    rw [GovernorDelegator.step]
    cases hl : s.ledger.approve strict token owner spender amount with
    | none => exact h
    | some l => exact h.approved hforeign hl

theorem Accounts.run {actions : List Action} (h : Accounts cfg start s) (hforeign : ∀ a ∈ actions, a.Foreign cfg) :
    Accounts cfg start (run T strict cfg s actions) := by
  induction actions generalizing s with
  | nil => exact h
  | cons a actions ih =>
    apply ih
    · exact h.step (hforeign a List.mem_cons_self)
    · exact fun b hb => hforeign b (List.mem_cons_of_mem a hb)

end Keep

/-! ### From the first block on -/

section World

variable (T : Tokens) (strict : Address → Bool) (cfg : Config)

theorem Accounts.init {initialGovernor : Address} {l : Ledger} {s : State} (hnew : constructor initialGovernor l = some s)
    (hfresh : ∀ spender, l.allowance (cfg.asset, cfg.self, spender) = 0) : Accounts cfg l s := by
  unfold constructor at hnew
  split_ifs at hnew with hgovernor
  obtain rfl := Option.some.inj hnew
  exact ⟨fun ds => by simp, fun d => by simp, hfresh, fun d => rfl, rfl, rfl, rfl, by simp, hgovernor⟩

/-- Whatever is called, and whatever others do with the token, the vault's books are kept. -/
theorem vault_accounts {initialGovernor : Address} {l : Ledger} {s : State}
    (hnew : constructor initialGovernor l = some s)
    (hfresh : ∀ spender, l.allowance (cfg.asset, cfg.self, spender) = 0) (actions : List Action)
    (hforeign : ∀ a ∈ actions, a.Foreign cfg) : Accounts cfg l (run T strict cfg s actions) :=
  (Accounts.init cfg hnew hfresh).run hforeign

/-- The vault at address 9 of the token at address 2. -/
def plainVault : Config := ⟨9, 2⟩

def plainGovernor : Address := 3

/-- Everyone has 100, and nothing is approved. -/
def plainLedger : Ledger := ⟨fun _ => 100, fun _ => 0, fun _ => 0, []⟩

def plainState : State := ⟨plainGovernor, fun _ => 0, 0, plainLedger, [.governorTransferred 0 plainGovernor]⟩

theorem plainState_new : constructor plainGovernor plainLedger = some plainState := rfl

/-- Account 1 pays for the deposits of 7 and 8. -/
def plainDeposits : List Action :=
  [.approve 2 1 9 100, .call 1 (.deposit 60 7), .call 1 (.depositBatch [5, 6] [7, 8])]

/-- The governor names its successor, 8 takes a part of its own, and 4 tries to take from the vault. -/
def plainLater : List Action :=
  [.call 3 (.transferGovernor 4), .call 8 (.withdraw 2 5), .move ⟨.transferFrom, 4, 2, 9, 4, 1⟩]

theorem plainDeposits_foreign : ∀ a ∈ plainDeposits ++ plainLater, a.Foreign plainVault := by
  simp [plainDeposits, plainLater, plainVault, Action.Foreign]

theorem plain_accounts : Accounts plainVault plainLedger
      (run plainTokens (fun _ => false) plainVault plainState (plainDeposits ++ plainLater)) ∧
    (run plainTokens (fun _ => false) plainVault plainState (plainDeposits ++ plainLater)).balanceOf 8 = 4 :=
  ⟨vault_accounts _ _ _ plainState_new (fun _ => rfl) _ plainDeposits_foreign, by decide +kernel⟩

variable {T strict cfg} {start : Ledger} {s : State} {d : Address}

/-- Only a withdrawal of its own lowers a balance. -/
theorem step_kept {a : Action} (hown : ∀ amount payee, a ≠ .call d (.withdraw amount payee)) :
    s.balanceOf d ≤ (step T strict cfg s a).balanceOf d := by
  cases a with
  | call sender c =>
    rw [step]
    cases hcall : call T cfg s sender c with
    | none => exact le_rfl
    | some s' =>
      rw [Option.getD_some]
      obtain hstep | ⟨rows, hstep⟩ | ⟨amount, payee, rfl, hstep⟩ := call_cases hcall
      · rw [hstep.balance_eq]
      · rw [hstep.credited.balance_eq]
        exact Nat.le_add_right _ _
      · have hother : d ≠ sender := by
          rintro rfl
          exact hown amount payee rfl
        rw [hstep.eq]
        simp only [sub, Function.update_of_ne hother]
        exact le_rfl
  | move m => exact le_rfl
  | approve token owner spender amount => exact le_rfl

theorem run_kept {actions : List Action}
    (hown : ∀ a ∈ actions, ∀ amount payee, a ≠ .call d (.withdraw amount payee)) :
    s.balanceOf d ≤ (run T strict cfg s actions).balanceOf d := by
  induction actions generalizing s with
  | nil => exact le_rfl
  | cons a actions ih =>
    have hfirst : s.balanceOf d ≤ (step T strict cfg s a).balanceOf d := step_kept (hown a List.mem_cons_self)
    exact hfirst.trans (ih fun b hb => hown b (List.mem_cons_of_mem a hb))

/-- What a withdrawal pays, and what it leaves to the others. -/
structure Paid (cfg : Config) (d payee : Address) (amount : ℕ) (s s' : State) : Prop where
  balance_eq : s'.balanceOf d + amount = s.balanceOf d
  others_eq : ∀ other, other ≠ d → s'.balanceOf other = s.balanceOf other
  received : payee ≠ cfg.self →
    s'.ledger.balance (cfg.asset, payee) = s.ledger.balance (cfg.asset, payee) + amount

theorem Accounts.withdraws {amount : Word} {payee : Address} (h : Accounts cfg start s)
    (hcode : T.code cfg.asset = true) (hanswer : T.answer cfg.asset = .isTrue)
    (hrefuses : ∀ l, T.refuses l (payOf cfg payee amount.toNat) = false) (hle : amount.toNat ≤ s.balanceOf d) :
    ∃ s', withdraw T cfg s d amount payee = some s' ∧ Paid cfg d payee amount.toNat s s' := by
  have hcovered : amount.toNat ≤ s.ledger.balance (cfg.asset, cfg.self) := by
    have hone := h.solvent {d}
    rw [Finset.sum_singleton] at hone
    exact hle.trans hone
  have hfunded : s.ledger.funded (payOf cfg payee amount.toNat) = true :=
    Bool.and_eq_true_iff.mpr ⟨decide_eq_true hcovered, rfl⟩
  have hmove := requireMove_ok (s := { s with balanceOf := sub s.balanceOf d amount.toNat })
    (m := payOf cfg payee amount.toNat) hcode hanswer (hrefuses _) hfunded
  refine ⟨_, by rw [withdraw, if_neg (by omega), hmove, Option.map_some], ?_, ?_, ?_⟩
  · simp only [State.log_balanceOf, sub, Function.update_self]
    omega
  · intro other hother
    simp only [State.log_balanceOf, sub, Function.update_of_ne hother]
  · intro hpayee
    have hbalance := Ledger.apply_balance hfunded cfg.asset payee
    simpa [payOf, Ne.symm hpayee] using hbalance

/-- Nobody can keep a delegator from what it was credited, nor from paying it to whomever it names. -/
theorem delegator_exits {initialGovernor : Address} {l : Ledger} {s : State}
    (hnew : constructor initialGovernor l = some s)
    (hfresh : ∀ spender, l.allowance (cfg.asset, cfg.self, spender) = 0) (before later : List Action)
    (hforeign : ∀ a ∈ before ++ later, a.Foreign cfg) (d : Address)
    (hown : ∀ a ∈ later, ∀ amount payee, a ≠ .call d (.withdraw amount payee)) (amount : Word) (payee : Address)
    (hle : amount.toNat ≤ (run T strict cfg s before).balanceOf d)
    (hcode : T.code cfg.asset = true) (hanswer : T.answer cfg.asset = .isTrue)
    (hrefuses : ∀ l, T.refuses l (payOf cfg payee amount.toNat) = false) :
    ∃ s', withdraw T cfg (run T strict cfg s (before ++ later)) d amount payee = some s' ∧
      Paid cfg d payee amount.toNat (run T strict cfg s (before ++ later)) s' := by
  have haccounts := vault_accounts T strict cfg hnew hfresh (before ++ later) hforeign
  apply haccounts.withdraws hcode hanswer hrefuses
  rw [run, List.foldl_append]
  exact hle.trans (run_kept hown)

theorem plain_exits : ∃ s', withdraw plainTokens plainVault
      (run plainTokens (fun _ => false) plainVault plainState (plainDeposits ++ plainLater)) 7 65 6 = some s' ∧
    s'.balanceOf 7 + 65 = 65 := by
  have hdeposited : (65 : Word).toNat ≤ (run plainTokens (fun _ => false) plainVault plainState plainDeposits).balanceOf
      7 := by
    decide +kernel
  obtain ⟨s', hs', hpaid⟩ := delegator_exits plainState_new (fun _ => rfl) plainDeposits plainLater
    plainDeposits_foreign 7 (by simp [plainLater]) 65 6 hdeposited rfl rfl (fun _ => rfl)
  have hbefore : (run plainTokens (fun _ => false) plainVault plainState (plainDeposits ++ plainLater)).balanceOf 7 =
      65 := by
    decide +kernel
  exact ⟨s', hs', hpaid.balance_eq.trans hbefore⟩

end World

end HarmonyMigration.GovernorDelegator
