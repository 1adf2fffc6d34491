import HarmonyMigration.BridgeClaims.Contract

/-! Transactions against the contract when every account that is sent coin may run
code of its own. That code calls back into the contract as often and as deeply as
it likes, catches the calls that fail, and accepts or rejects the coin. A frame
that fails leaves no trace. -/

namespace HarmonyMigration.BridgeClaims

open Keccak Erc20 ClaimTree

variable {D : Type}

/-- What the code of a paid account does next. -/
inductive Action (D : Type) where
  | call (c : Call D)
  | accept
  | reject

/-- A behaviour of all code outside the contract: the step `k` of the activation
reached along `path` is `adversary path k`. A path names an activation uniquely
within a run, so two activations in the same state may still act differently. -/
abbrev Adversary (D : Type) := List ℕ → ℕ → Action D

/-- The code of one activation, with at most `gas` steps. -/
def payee (exec : List ℕ → State → Call D → Except Error State) (adv : Adversary D)
    (path : List ℕ) : ℕ → ℕ → State → Option State
  | 0, _, _ => none
  | gas + 1, step, s =>
    match adv path step with
    | .accept => some s
    | .reject => none
    | .call c =>
      match exec (step :: path) s c with
      | .ok s' => payee exec adv path gas (step + 1) s'
      | .error _ => payee exec adv path gas (step + 1) s

/-- The code run by a coin transfer to `to`: the contract's own `receive`, the
wrapped coin's deposit for the sender, or `code`. -/
def sendNative (cfg : Config D) (code : State → Option State) (s : State) (dest : Address)
    (amount : ℕ) : Option State :=
  if s.ledger.coin cfg.self < amount then none
  else if dest = cfg.self then
    match receive cfg cfg.self with
    | .ok () => some s
    | .error _ => none
  else if dest = cfg.wrappedNative then
    (s.ledger.deposit cfg.wrappedNative cfg.self amount).map fun l => { s with ledger := l }
  else code { s with ledger := s.ledger.moveCoin cfg.self dest amount }

section
variable (T : Tokens) (cfg : Config D) [LinearOrder D] (K : Hash D) (adv : Adversary D)

/-- One call of the contract with call depth and steps bounded by `gas`. The
activation of a paid account is named by the number of events logged so far. -/
def exec : ℕ → List ℕ → State → Call D → Except Error State
  | 0, _, _, _ => .error .outOfGas
  | gas + 1, path, s, c =>
    call T cfg
      (fun s dest amount => sendNative cfg
        (fun s => payee (exec gas) adv (s.logs.length :: path) gas 0 s) s dest amount)
      K s c

/-- A transaction: a call with its gas. A call that fails changes nothing. -/
def transact (n : ℕ) (s : State) (tx : ℕ × Call D) : State :=
  match exec T cfg K adv tx.1 [n] s tx.2 with
  | .ok s' => s'
  | .error _ => s

/-- The transactions in order, the first of them numbered `n`. -/
def run : ℕ → State → List (ℕ × Call D) → State
  | _, s, [] => s
  | n, s, tx :: rest => run (n + 1) (transact T cfg K adv n s tx) rest

end

/-- A property that no untrusted code can break because the contract cannot. -/
def Preserves (P : State → Prop) (send : Send) : Prop :=
  ∀ s dest amount s', P s → send s dest amount = some s' → P s'

theorem payee_preserves {P : State → Prop} {exec : List ℕ → State → Call D → Except Error State}
    (hexec : ∀ path s c s', P s → exec path s c = .ok s' → P s') (adv : Adversary D)
    (path : List ℕ) (gas step : ℕ) (s s' : State) (hs : P s)
    (h : payee exec adv path gas step s = some s') : P s' := by
  induction gas generalizing step s with
  | zero => simp [payee] at h
  | succ gas ih =>
    simp only [payee] at h
    split at h
    · exact Option.some.inj h ▸ hs
    · cases h
    · split at h
      · exact ih _ _ (hexec _ _ _ _ hs ‹_›) h
      · exact ih _ _ hs h

section
variable {T : Tokens} {cfg : Config D} [LinearOrder D] {K : Hash D} {adv : Adversary D}
  {P : State → Prop}

/-- The rule for invariants under re-entry. If coin movements keep `P`, and every
call keeps `P` as long as the sends inside it do, then every call keeps `P`. -/
theorem exec_preserves
    (hcoin : ∀ s l, P s → l.balance = s.ledger.balance → l.allowance = s.ledger.allowance →
      l.moves = s.ledger.moves → P { s with ledger := l })
    (hdeposit : ∀ s amount l, P s →
      s.ledger.deposit cfg.wrappedNative cfg.self amount = some l → P { s with ledger := l })
    (hcall : ∀ send, Preserves P send → ∀ s c s', P s → call T cfg send K s c = .ok s' → P s')
    (gas : ℕ) (path : List ℕ) (s : State) (c : Call D) (s' : State) (hs : P s)
    (h : exec T cfg K adv gas path s c = .ok s') : P s' := by
  induction gas generalizing path s c s' with
  | zero => simp [exec] at h
  | succ gas ih =>
    refine hcall _ ?_ s c s' hs h
    intro s dest amount s' hs h
    simp only [sendNative] at h
    split_ifs at h with h1 h2 h3
    · split at h
      · exact Option.some.inj h ▸ hs
      · cases h
    · obtain ⟨l, hl, rfl⟩ := Option.map_eq_some_iff.mp h
      exact hdeposit s amount l hs hl
    · exact payee_preserves (fun path s c s' hs h => ih path s c s' hs h) adv _ gas 0 _ s'
        (hcoin s (s.ledger.moveCoin cfg.self dest amount) hs rfl rfl rfl) h

/-- What every call keeps holds after any list of transactions. -/
theorem run_preserves (hexec : ∀ gas path s c s', P s → exec T cfg K adv gas path s c = .ok s' → P s')
    (txs : List (ℕ × Call D)) (n : ℕ) (s : State) (hs : P s) : P (run T cfg K adv n s txs) := by
  induction txs generalizing n s with
  | nil => exact hs
  | cons tx rest ih =>
    refine ih _ _ ?_
    unfold transact
    split
    · exact hexec _ _ _ _ _ hs ‹_›
    · exact hs

end

end HarmonyMigration.BridgeClaims
