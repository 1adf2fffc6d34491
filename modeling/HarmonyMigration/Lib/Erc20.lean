import Mathlib.Tactic

/-! Standard ERC-20 tokens, a wrapped coin and the native coin of one chain. A
transfer moves exactly its amount or nothing; besides a lack of funds a token may
refuse for reasons of its own, by a revert or by answering `false`. -/

namespace Erc20

abbrev Address := BitVec 160

-- named, so that what is decided about lists of addresses is decided the same way everywhere
instance addressLawfulBEq : LawfulBEq Address := instLawfulBEq

theorem address_toNat_injective : Function.Injective (BitVec.toNat : Address → ℕ) :=
  fun _ _ => BitVec.eq_of_toNat_eq

inductive Via where
  | transfer
  | transferFrom
  deriving DecidableEq, Repr

/-- One call of `transfer` or `transferFrom`: `operator` calls, `payer` is debited. -/
structure Transfer where
  via : Via
  operator : Address
  token : Address
  payer : Address
  payee : Address
  amount : ℕ
  deriving DecidableEq, Repr

/-- Balances of all tokens, allowances (token, owner, spender) and coins; `moves`
holds every transfer that took place, in order. -/
structure Ledger where
  balance : Address × Address → ℕ
  allowance : Address × Address × Address → ℕ
  coin : Address → ℕ
  moves : List Transfer

def add {α : Type*} [DecidableEq α] (f : α → ℕ) (k : α) (n : ℕ) : α → ℕ :=
  Function.update f k (f k + n)

def sub {α : Type*} [DecidableEq α] (f : α → ℕ) (k : α) (n : ℕ) : α → ℕ :=
  Function.update f k (f k - n)

namespace Ledger

/-- The owner holds the amount and, for `transferFrom`, has approved it. -/
def funded (l : Ledger) (m : Transfer) : Bool :=
  m.amount ≤ l.balance (m.token, m.payer) &&
    (m.via = .transfer || m.amount ≤ l.allowance (m.token, m.payer, m.operator))

def apply (l : Ledger) (m : Transfer) : Ledger :=
  { l with
    balance := add (sub l.balance (m.token, m.payer) m.amount) (m.token, m.payee) m.amount
    allowance := match m.via with
      | .transfer => l.allowance
      | .transferFrom => sub l.allowance (m.token, m.payer, m.operator) m.amount
    moves := l.moves ++ [m] }

def moveCoin (l : Ledger) (a b : Address) (n : ℕ) : Ledger :=
  { l with coin := add (sub l.coin a n) b n }

/-- `wrapped` takes `n` coins of `who` and credits `who` with as many tokens. -/
def deposit (l : Ledger) (wrapped who : Address) (n : ℕ) : Option Ledger :=
  if n ≤ l.coin who then
    some { l.moveCoin who wrapped n with balance := add l.balance (wrapped, who) n }
  else none

/-- `wrapped` burns `n` tokens of `who` and sends `who` as many coins. -/
def withdraw (l : Ledger) (wrapped who : Address) (n : ℕ) : Option Ledger :=
  if n ≤ l.balance (wrapped, who) ∧ n ≤ l.coin wrapped then
    some { l.moveCoin wrapped who n with balance := sub l.balance (wrapped, who) n }
  else none

def setAllowance (l : Ledger) (k : Address × Address × Address) (n : ℕ) : Ledger :=
  { l with allowance := Function.update l.allowance k n }

@[simp] theorem setAllowance_balance (l : Ledger) (k : Address × Address × Address) (n : ℕ) :
    (l.setAllowance k n).balance = l.balance := rfl

@[simp] theorem setAllowance_allowance (l : Ledger) (k : Address × Address × Address) (n : ℕ) :
    (l.setAllowance k n).allowance = Function.update l.allowance k n := rfl

@[simp] theorem setAllowance_idem (l : Ledger) (k : Address × Address × Address) (n n' : ℕ) :
    (l.setAllowance k n).setAllowance k n' = l.setAllowance k n' := by
  simp [setAllowance]

/-- `approve`; the tokens in `strict` refuse a change between two nonzero allowances. -/
def approve (strict : Address → Bool) (l : Ledger) (token owner spender : Address) (n : ℕ) : Option Ledger :=
  if strict token ∧ n ≠ 0 ∧ l.allowance (token, owner, spender) ≠ 0 then none
  else some (l.setAllowance (token, owner, spender) n)

end Ledger

/-- What a call of a token hands back: a revert, or return data in 32-byte words. -/
inductive Reply where
  | revert
  | ret (words : List (BitVec 256))

inductive Answer where
  | isTrue
  | nothing
  deriving DecidableEq

inductive Refusal where
  | reverts
  | isFalse
  deriving DecidableEq

/-- The tokens of a chain: which addresses have code, how each token answers a
transfer it makes and one it refuses, and its own reasons to refuse. -/
structure Tokens where
  code : Address → Bool
  answer : Address → Answer
  refusal : Address → Refusal
  refuses : Ledger → Transfer → Bool

namespace Tokens

def answered : Answer → Reply
  | .isTrue => .ret [1]
  | .nothing => .ret []

def refused : Refusal → Reply
  | .reverts => .revert
  | .isFalse => .ret [0]

/-- A low-level call of a transfer. An address without code answers with success
and no data, and nothing happens. -/
def call (T : Tokens) (l : Ledger) (m : Transfer) : Ledger × Reply :=
  if T.code m.token = false then (l, .ret [])
  else if T.refuses l m || !l.funded m then (l, refused (T.refusal m.token))
  else (l.apply m, answered (T.answer m.token))

/-- A call either leaves the ledger alone, in a way no reader takes for success
when the token has code, or makes the transfer. -/
theorem call_cases (T : Tokens) (l : Ledger) (m : Transfer) :
    (T.call l m = (l, .ret []) ∧ T.code m.token = false) ∨
    (T.call l m = (l, .revert) ∨ T.call l m = (l, .ret [0])) ∨
    (T.code m.token = true ∧ l.funded m = true ∧ T.refuses l m = false ∧
      (T.call l m = (l.apply m, .ret [1]) ∨ T.call l m = (l.apply m, .ret []))) := by
  unfold call
  split_ifs with h1 h2
  · exact Or.inl ⟨rfl, h1⟩
  · cases T.refusal m.token <;> simp [refused]
  · simp only [Bool.or_eq_true, Bool.not_eq_true', not_or, Bool.not_eq_true,
      Bool.not_eq_false] at h1 h2
    cases T.answer m.token <;> simp [answered, h1, h2]

end Tokens

/-- The sum of the amounts of the transfers that satisfy `p`. -/
def sumWhere (p : Transfer → Bool) (ms : List Transfer) : ℕ := ((ms.filter p).map (·.amount)).sum

theorem sumWhere_nil (p : Transfer → Bool) : sumWhere p [] = 0 := rfl

theorem sumWhere_append (p : Transfer → Bool) (ms ns : List Transfer) :
    sumWhere p (ms ++ ns) = sumWhere p ms + sumWhere p ns := by
  simp [sumWhere]

theorem sumWhere_snoc (p : Transfer → Bool) (ms : List Transfer) (m : Transfer) :
    sumWhere p (ms ++ [m]) = sumWhere p ms + if p m then m.amount else 0 := by
  rw [sumWhere_append]
  cases h : p m <;> simp [sumWhere, h]

theorem sumWhere_filter (p q : Transfer → Bool) (ms : List Transfer) :
    sumWhere q (ms.filter p) = sumWhere (fun m => p m && q m) ms := by
  simp only [sumWhere, List.filter_filter, Bool.and_comm]

theorem sumWhere_flatMap {α : Type*} (p : Transfer → Bool) (f : α → List Transfer) (l : List α) :
    sumWhere p (l.flatMap f) = (l.map fun a => sumWhere p (f a)).sum := by
  induction l with
  | nil => rfl
  | cons a l ih => rw [List.flatMap_cons, sumWhere_append, ih, List.map_cons, List.sum_cons]

/-- A holder's balance of a token after a funded transfer, with what it sent and
what it received on either side. -/
theorem Ledger.apply_balance {l : Ledger} {m : Transfer} (h : l.funded m = true) (t a : Address) :
    (l.apply m).balance (t, a) + (if m.token = t ∧ m.payer = a then m.amount else 0) =
      l.balance (t, a) + if m.token = t ∧ m.payee = a then m.amount else 0 := by
  simp only [funded, Bool.and_eq_true, decide_eq_true_eq] at h
  have hb := h.1
  simp only [apply, add, sub, Function.update_apply, Prod.mk.injEq]
  by_cases ht : m.token = t
  · subst ht
    by_cases ho : a = m.payer <;> by_cases hd : a = m.payee
    · subst ho; simp [← hd]; omega
    · subst ho; simp [hd, Ne.symm hd]; omega
    · subst hd; simp [ho, Ne.symm ho]
    · simp [ho, hd, Ne.symm ho, Ne.symm hd]
  · simp [ht, Ne.symm ht]

theorem Ledger.apply_allowance {l : Ledger} {m : Transfer} (h : l.funded m = true) (t o sp : Address) :
    (l.apply m).allowance (t, o, sp) +
      (if m.via = .transferFrom ∧ m.token = t ∧ m.payer = o ∧ m.operator = sp then m.amount else 0) =
      l.allowance (t, o, sp) := by
  obtain ⟨via, operator, token, payer, payee, amount⟩ := m
  cases via with
  | transfer => simp [apply]
  | transferFrom =>
    obtain ⟨-, hle⟩ : amount ≤ l.balance (token, payer) ∧ amount ≤ l.allowance (token, payer, operator) := by
      simpa [funded] using h
    by_cases hk : token = t ∧ payer = o ∧ operator = sp
    · obtain ⟨rfl, rfl, rfl⟩ := hk
      simp [apply, sub, hle]
    · have hk' : (t, o, sp) ≠ (token, payer, operator) := by
        rintro ⟨⟩
        exact hk ⟨rfl, rfl, rfl⟩
      simp [apply, sub, Function.update_of_ne hk', hk]

/-- Unwrapping takes the amount from the holder's tokens and nothing else from any. -/
theorem Ledger.withdraw_some {l l' : Ledger} {w who : Address} {n : ℕ}
    (h : l.withdraw w who n = some l') :
    l'.moves = l.moves ∧ l'.allowance = l.allowance ∧
      ∀ t a, l'.balance (t, a) + (if t = w ∧ a = who then n else 0) = l.balance (t, a) := by
  unfold withdraw at h
  split_ifs at h with hle
  obtain rfl := Option.some.inj h
  refine ⟨rfl, rfl, fun t a => ?_⟩
  by_cases hk : t = w ∧ a = who
  · obtain ⟨rfl, rfl⟩ := hk
    simp [sub, hle.1]
  · simp [sub, hk]

theorem Ledger.deposit_some {l l' : Ledger} {w who : Address} {n : ℕ}
    (h : l.deposit w who n = some l') :
    l'.moves = l.moves ∧ l'.allowance = l.allowance ∧
      ∀ t a, l'.balance (t, a) = l.balance (t, a) + if t = w ∧ a = who then n else 0 := by
  unfold deposit at h
  split_ifs at h
  obtain rfl := Option.some.inj h
  refine ⟨rfl, rfl, fun t a => ?_⟩
  by_cases hk : t = w ∧ a = who
  · obtain ⟨rfl, rfl⟩ := hk
    simp [add]
  · simp [add, hk]

end Erc20
