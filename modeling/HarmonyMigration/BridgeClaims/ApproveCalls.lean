import HarmonyMigration.BridgeClaims.Approvals

/-! `approve_claims.py`: the token checks of `preflight`, the calls of the approval batch, and
what they leave behind on the Safe. The batch wraps no more than the native total, although the
check counts all of the Safe's coins as funds of the wrapped token. -/

namespace HarmonyMigration.ApproveClaims

open Erc20 BridgeClaims

variable {D : Type}

inductive Method where
  | deposit
  | approve (spender : Address) (value : ℕ)
  deriving DecidableEq

/-- One call of the batch. -/
structure SafeCall where
  dest : Address
  value : ℕ
  method : Method
  deriving DecidableEq

/-- `int(amount).to_bytes(32, "big")`. -/
def fits (amount : ℕ) : Except String Unit := Except.require (amount < 2 ^ 256) "int too big to convert"

def approveCall (token spender : Address) (amount : ℕ) : Except String SafeCall :=
  (fits amount).map fun _ => ⟨token, 0, .approve spender amount⟩

def depositCall (wrapped : Address) (amount : ℕ) : SafeCall := ⟨wrapped, amount, .deposit⟩

/-- The chain at the pinned block: a token may not answer `balanceOf` or `allowance`. -/
structure Chain where
  ledger : Ledger
  hasBalance : Address → Bool
  hasAllowance : Address → Bool
  decimals : Address → Option ℕ

def Chain.balanceOf (c : Chain) (token owner : Address) : Option ℕ :=
  if c.hasBalance token then some (c.ledger.balance (token, owner)) else none

def Chain.allowance (c : Chain) (token owner spender : Address) : Option ℕ :=
  if c.hasAllowance token then some (c.ledger.allowance (token, owner, spender)) else none

structure Check where
  check : String
  ok : Bool
  deriving DecidableEq

section
variable (c : Chain) (funder spender : Address) (wrapped : Option Address)

/-- The checks of one approval. -/
def tokenChecks (p : Address × Approval) : List Check :=
  let balance := c.balanceOf p.1 funder
  let funds := if wrapped = some p.1 then balance.getD 0 + c.ledger.coin funder else balance.getD 0
  [⟨p.2.symbol ++ " decimals", c.decimals p.1 = some p.2.decimals⟩,
    ⟨p.2.symbol ++ " allowance readable", (c.allowance p.1 funder spender).isSome⟩,
    ⟨p.2.symbol ++ " funded", balance.isSome ∧ p.2.amountRaw ≤ funds⟩]

/-- `preflight`; `identity` are its checks of the Safe, the chain and the contract. -/
def preflight (identity : List Check) (m : Manifest D) : List Check :=
  identity ++ m.approvals.entries.flatMap (tokenChecks c funder spender wrapped)

/-- `assets` of the manifest: each token of the list with its total. -/
def assetTotals (assets : Dict Address Asset) (m : Manifest D) : List (Address × ℕ) :=
  let totals := perAsset m.rows
  (totals.keys.insertionSort fun s t => assetOrder assets s ≤ assetOrder assets t).map fun t =>
    (t, totals.measure Prod.snd t)

def nativeTotal (assets : Dict Address Asset) (m : Manifest D) : ℕ :=
  (((assetTotals assets m).filter fun a => a.1 = NATIVE_TOKEN).map Prod.snd).sum

/-- The deposit of the batch, if any. -/
def wrapCalls (assets : Dict Address Asset) (m : Manifest D) (noWrap : Bool) : Except String (List SafeCall) :=
  if nativeTotal assets m ≠ 0 ∧ noWrap = false then
    match wrapped with
    | none => .error "KeyError: None"
    | some w =>
      match m.approvals.get? w with
      | none => .error "KeyError: wrapped"
      | some a =>
        let held := (c.balanceOf w funder).getD 0
        let wrap := min (nativeTotal assets m) (a.amountRaw - held)
        if wrap ≠ 0 then .ok [depositCall w wrap] else .ok []
  else .ok []

/-- The calls of one approval: to 0 first when the current allowance is nonzero. -/
def approvalCalls (p : Address × Approval) : Except String (List SafeCall) :=
  let current := (c.allowance p.1 funder spender).getD 0
  (if current ≠ 0 then (approveCall p.1 spender 0).map fun call => [call] else .ok []).bind fun reset =>
  (approveCall p.1 spender p.2.amountRaw).map fun call => reset ++ [call]

/-- `build` of a signable batch. Packing the calls for the Safe encodes every value. -/
def build (identity : List Check) (assets : Dict Address Asset) (m : Manifest D) (noWrap : Bool) :
    Except String (List SafeCall) :=
  if (preflight c funder spender wrapped identity m).any fun k => !k.ok then
    .error "no signable files, these checks failed"
  else
    (wrapCalls c funder wrapped assets m noWrap).bind fun deposits =>
    (m.approvals.entries.mapM (approvalCalls c funder spender)).bind fun approves =>
    let calls := deposits ++ approves.flatten
    (calls.mapM fun call => fits call.value).map fun _ => calls

end

/-! ### The batch on the Safe -/

section
variable (strict : Address → Bool) (funder : Address)

/-- One call made by the Safe; `none` is a revert. -/
def execCall (l : Ledger) (call : SafeCall) : Option Ledger :=
  match call.method with
  | .deposit => l.deposit call.dest funder call.value
  | .approve spender n => l.approve strict call.dest funder spender n

/-- The calls in order, one transaction. -/
def exec (l : Ledger) (calls : List SafeCall) : Option Ledger := calls.foldlM (execCall strict funder) l

end

/-- The contract may pull every approval, and the Safe holds it. -/
def FullyFunded (m : Manifest D) (funder spender : Address) (l : Ledger) : Prop :=
  ∀ p ∈ m.approvals.entries, l.allowance (p.1, funder, spender) = p.2.amountRaw ∧
    p.2.amountRaw ≤ l.balance (p.1, funder)

section
variable {strict : Address → Bool} {funder spender : Address} {l : Ledger}

theorem exec_append (a b : List SafeCall) :
    exec strict funder l (a ++ b) = (exec strict funder l a).bind fun l' => exec strict funder l' b :=
  List.foldlM_append

theorem fits_ok {n : ℕ} (h : n < 2 ^ 256) : fits n = .ok () := if_pos h

theorem approveCall_ok {token : Address} {n : ℕ} {call : SafeCall} (h : approveCall token spender n = .ok call) :
    call = ⟨token, 0, .approve spender n⟩ := by
  obtain ⟨-, -, rfl⟩ := Except.of_map_ok h
  rfl

/-- The calls of an approval that fits a word. -/
def approvesOf (c : Chain) (funder spender : Address) (p : Address × Approval) : List SafeCall :=
  (if (c.allowance p.1 funder spender).getD 0 ≠ 0 then [⟨p.1, 0, .approve spender 0⟩] else []) ++
    [⟨p.1, 0, .approve spender p.2.amountRaw⟩]

theorem approvesOf_value {c : Chain} {p : Address × Approval} :
    ∀ call ∈ approvesOf c funder spender p, call.value = 0 := by
  intro call hcall
  rcases List.mem_append.mp hcall with hcall | hcall
  · split_ifs at hcall
    · rw [List.mem_singleton.mp hcall]
    · simp at hcall
  · rw [List.mem_singleton.mp hcall]

/-- With the reset in front, no token refuses, and only the one allowance changes. -/
theorem exec_approvalCalls (strict : Address → Bool) {c : Chain} {p : Address × Approval} {calls : List SafeCall}
    (h : approvalCalls c funder spender p = .ok calls) (hread : c.hasAllowance p.1 = true)
    (hl : l.allowance (p.1, funder, spender) = c.ledger.allowance (p.1, funder, spender)) :
    exec strict funder l calls = some (l.setAllowance (p.1, funder, spender) p.2.amountRaw) := by
  have hcurrent : (c.allowance p.1 funder spender).getD 0 = l.allowance (p.1, funder, spender) := by
    simp [Chain.allowance, hread, hl]
  unfold approvalCalls at h
  rw [hcurrent] at h
  obtain ⟨reset, hreset, h⟩ := Except.of_bind_ok h
  obtain ⟨call, hcall, rfl⟩ := Except.of_map_ok h
  obtain rfl := approveCall_ok hcall
  split_ifs at hreset with hzero
  · obtain ⟨call0, hcall0, rfl⟩ := Except.of_map_ok hreset
    obtain rfl := approveCall_ok hcall0
    simp [exec, execCall, Ledger.approve]
  · obtain rfl := Except.ok.inj hreset
    have h0 : l.allowance (p.1, funder, spender) = 0 := not_not.mp hzero
    simp [exec, execCall, Ledger.approve, h0]

/-- All approvals in order, each token once: every allowance is exact, no balance moves. -/
theorem exec_approvals (strict : Address → Bool) {c : Chain} {entries : List (Address × Approval)} {approves : List (List SafeCall)}
    (h : entries.mapM (approvalCalls c funder spender) = .ok approves)
    (hnd : (entries.map Prod.fst).Nodup) (hread : ∀ p ∈ entries, c.hasAllowance p.1 = true)
    (hl : ∀ p ∈ entries, l.allowance (p.1, funder, spender) = c.ledger.allowance (p.1, funder, spender)) :
    ∃ l', exec strict funder l approves.flatten = some l' ∧ l'.balance = l.balance ∧
      (∀ p ∈ entries, l'.allowance (p.1, funder, spender) = p.2.amountRaw) ∧
      ∀ k, k.1 ∉ entries.map Prod.fst → l'.allowance k = l.allowance k := by
  have hall := Except.forall₂_of_mapM_ok h
  clear h
  induction hall generalizing l with
  | nil => exact ⟨l, rfl, rfl, by simp, fun _ _ => rfl⟩
  | @cons p calls rest restCalls hone hall ih =>
    obtain ⟨hp, hnd⟩ := List.nodup_cons.mp hnd
    have hstep := exec_approvalCalls strict hone (hread p (by simp)) (hl p (by simp))
    have hother : ∀ k : Address × Address × Address, k.1 ≠ p.1 →
        (l.setAllowance (p.1, funder, spender) p.2.amountRaw).allowance k = l.allowance k :=
      fun k hk => Function.update_of_ne (fun he => hk (congrArg Prod.fst he)) _ _
    have hl1 : ∀ q ∈ rest,
        (l.setAllowance (p.1, funder, spender) p.2.amountRaw).allowance (q.1, funder, spender) =
          c.ledger.allowance (q.1, funder, spender) := by
      intro q hq
      rw [hother _ fun he => hp (List.mem_map.mpr ⟨q, hq, he⟩)]
      exact hl q (by simp [hq])
    obtain ⟨l', hexec, hbal, hmem, hrest⟩ := ih hnd (fun q hq => hread q (by simp [hq])) hl1
    refine ⟨l', ?_, ?_, ?_, ?_⟩
    · rw [List.flatten_cons, exec_append, hstep]
      exact hexec
    · exact hbal
    · intro q hq
      rcases List.mem_cons.mp hq with rfl | hq
      · rw [hrest _ hp]
        exact Function.update_self _ _ _
      · exact hmem q hq
    · intro k hk
      simp only [List.map_cons, List.mem_cons, not_or] at hk
      rw [hrest k hk.2, hother k hk.1]

end

section
variable {strict : Address → Bool} {funder spender : Address} {wrapped : Option Address} {c : Chain}
  {identity : List Check} {m : Manifest D} {assets : Dict Address Asset}

/-- What the token checks leave of an approval when they pass. -/
theorem of_preflight (h : ∀ k ∈ preflight c funder spender wrapped identity m, k.ok = true)
    {p : Address × Approval} (hp : p ∈ m.approvals.entries) :
    c.hasAllowance p.1 = true ∧ c.hasBalance p.1 = true ∧
      p.2.amountRaw ≤ c.ledger.balance (p.1, funder) +
        if wrapped = some p.1 then c.ledger.coin funder else 0 := by
  have hmem : ∀ k ∈ tokenChecks c funder spender wrapped p, k.ok = true := fun k hk =>
    h k (List.mem_append_right _ (List.mem_flatMap.mpr ⟨p, hp, hk⟩))
  simp only [tokenChecks, List.mem_cons, List.not_mem_nil, or_false, forall_eq_or_imp, forall_eq,
    Chain.allowance, Chain.balanceOf] at hmem
  obtain ⟨-, hallow, hfunded⟩ := hmem
  have h1 : c.hasAllowance p.1 = true := by
    by_contra hno
    simp [hno] at hallow
  have h2 : c.hasBalance p.1 = true := by
    by_contra hno
    simp [hno] at hfunded
  refine ⟨h1, h2, ?_⟩
  simp only [h2, if_true, Option.isSome_some, Option.getD_some, true_and, decide_eq_true_eq] at hfunded
  split_ifs at hfunded ⊢ <;> omega

/-- What the deposit of the batch leaves: no allowance changes, and the wrapped coin suffices if
what the Safe held and the native total together do. -/
theorem exec_wrapCalls (strict : Address → Bool)
    (h : ∀ k ∈ preflight c funder spender wrapped identity m, k.ok = true)
    {deposits : List SafeCall} (hw : wrapCalls c funder wrapped assets m false = .ok deposits) :
    ∃ l', exec strict funder c.ledger deposits = some l' ∧ l'.allowance = c.ledger.allowance ∧
      ∀ p ∈ m.approvals.entries, p.2.amountRaw ≤ l'.balance (p.1, funder) ↔
        (wrapped = some p.1 →
          p.2.amountRaw ≤ c.ledger.balance (p.1, funder) + nativeTotal assets m) := by
  unfold wrapCalls at hw
  have hle : ∀ p ∈ m.approvals.entries, wrapped ≠ some p.1 →
      p.2.amountRaw ≤ c.ledger.balance (p.1, funder) := by
    intro p hp hne
    simpa [hne] using (of_preflight h hp).2.2
  by_cases hnative : nativeTotal assets m ≠ 0
  · rw [if_pos ⟨hnative, rfl⟩] at hw
    cases wrapped with
    | none => cases hw
    | some w =>
      cases ha : m.approvals.get? w with
      | none => simp [ha] at hw
      | some a =>
        have hmem := Dict.get?_eq_some_iff.mp ha
        obtain ⟨-, hread, hfunds⟩ := of_preflight h hmem
        have hheld : (c.balanceOf w funder).getD 0 = c.ledger.balance (w, funder) := by
          simp [Chain.balanceOf, hread]
        simp only [ha, hheld] at hw
        have hcoins : a.amountRaw ≤ c.ledger.balance (w, funder) + c.ledger.coin funder := by
          simpa using hfunds
        have huniq : ∀ p ∈ m.approvals.entries, p.1 = w → p.2 = a := by
          intro p hp hpw
          have hp' := Dict.get?_eq_some_iff.mpr (hpw ▸ hp : (w, p.2) ∈ m.approvals.entries)
          exact Option.some.inj (hp'.symm.trans ha)
        set wrap := min (nativeTotal assets m) (a.amountRaw - c.ledger.balance (w, funder)) with hwrap
        by_cases hzero : wrap ≠ 0
        · rw [if_pos hzero] at hw
          obtain rfl := Except.ok.inj hw
          have hcoin : wrap ≤ c.ledger.coin funder := by omega
          obtain ⟨l', hl'⟩ : ∃ l', c.ledger.deposit w funder wrap = some l' :=
            ⟨_, if_pos hcoin⟩
          obtain ⟨-, hallow, hbal⟩ := Ledger.deposit_some hl'
          refine ⟨l', by simp [exec, execCall, depositCall, hl'], hallow, fun p hp => ?_⟩
          rw [hbal]
          by_cases hpw : p.1 = w
          · rw [huniq p hp hpw, hpw, if_pos ⟨rfl, rfl⟩]
            simp only [forall_const]
            omega
          · have hne : some w ≠ some p.1 := fun he => hpw (Option.some.inj he).symm
            simp [hpw, hne, hle p hp hne]
        · rw [if_neg hzero] at hw
          obtain rfl := Except.ok.inj hw
          refine ⟨c.ledger, rfl, rfl, fun p hp => ?_⟩
          by_cases hpw : p.1 = w
          · rw [huniq p hp hpw, hpw]
            simp only [forall_const]
            omega
          · have hne : some w ≠ some p.1 := fun he => hpw (Option.some.inj he).symm
            simp [hne, hle p hp hne]
  · rw [if_neg fun hcond => hnative hcond.1] at hw
    obtain rfl := Except.ok.inj hw
    have h0 : nativeTotal assets m = 0 := not_not.mp hnative
    refine ⟨c.ledger, rfl, rfl, fun p hp => ?_⟩
    by_cases hwp : wrapped = some p.1
    · simp [h0, hwp]
    · simp [hwp, hle p hp hwp]

/-- The calls of a signable batch succeed and leave every allowance exact. -/
theorem exec_build (strict : Address → Bool) {calls : List SafeCall}
    (h : build c funder spender wrapped identity assets m false = .ok calls) :
    ∃ l', exec strict funder c.ledger calls = some l' ∧
      (∀ p ∈ m.approvals.entries, l'.allowance (p.1, funder, spender) = p.2.amountRaw) ∧
      ∀ p ∈ m.approvals.entries, p.2.amountRaw ≤ l'.balance (p.1, funder) ↔
        (wrapped = some p.1 →
          p.2.amountRaw ≤ c.ledger.balance (p.1, funder) + nativeTotal assets m) := by
  unfold build at h
  split_ifs at h with hchecks
  have hpass : ∀ k ∈ preflight c funder spender wrapped identity m, k.ok = true := by
    simpa using hchecks
  obtain ⟨deposits, hw, h⟩ := Except.of_bind_ok h
  obtain ⟨approves, happroves, h⟩ := Except.of_bind_ok h
  obtain ⟨-, -, rfl⟩ := Except.of_map_ok h
  obtain ⟨l1, hexec1, hallow1, hbal1⟩ := exec_wrapCalls strict hpass hw
  obtain ⟨l2, hexec2, hbal2, hexact, -⟩ := exec_approvals strict (l := l1) happroves
    m.approvals.nodup (fun p hp => (of_preflight hpass hp).1) (fun p _ => by rw [hallow1])
  refine ⟨l2, ?_, hexact, fun p hp => ?_⟩
  · rw [exec_append, hexec1]
    exact hexec2
  · rw [hbal2]
    exact hbal1 p hp

theorem mem_rows_of_nativeTotal (h : nativeTotal assets m ≠ 0) : ∃ r ∈ m.rows, r.token = NATIVE_TOKEN := by
  by_contra hno
  apply h
  have hnil : (assetTotals assets m).filter (fun a => a.1 = NATIVE_TOKEN) = [] := by
    refine List.filter_eq_nil_iff.mpr fun a ha hnative => hno ?_
    obtain ⟨t, ht, rfl⟩ := List.mem_map.mp ha
    obtain ⟨r, hr, rfl⟩ := mem_keys_perAsset.mp ((List.mem_insertionSort _).mp ht)
    exact ⟨r, hr, by simpa using hnative⟩
  rw [nativeTotal, hnil]
  rfl

/-- With passing checks the batch of a built list is written unless an approval needs more than
256 bits. -/
theorem exists_build [LinearOrder D] {K : Keccak.HashFn D} {rows : List ClaimRow}
    (hbuild : buildGroup K wrapped assets rows = .ok m)
    (h : ∀ k ∈ preflight c funder spender wrapped identity m, k.ok = true)
    (hfits : ∀ p ∈ m.approvals.entries, p.2.amountRaw < 2 ^ 256) :
    ∃ calls, build c funder spender wrapped identity assets m false = .ok calls := by
  obtain ⟨-, happ, hnative, -⟩ := buildGroup_ok hbuild
  have hdeposits : ∃ deposits, wrapCalls c funder wrapped assets m false = .ok deposits ∧
      ∀ call ∈ deposits, call.value < 2 ^ 256 := by
    unfold wrapCalls
    by_cases hn : nativeTotal assets m ≠ 0
    · obtain ⟨r, hr, hrt⟩ := mem_rows_of_nativeTotal hn
      obtain ⟨w, rfl⟩ := Option.ne_none_iff_exists'.mp (hnative r hr hrt)
      have hkey : w ∈ m.approvals.keys := by
        rw [happ, mem_keys_approvals]
        exact ⟨r, hr, by simp [approveToken, hrt]⟩
      obtain ⟨a, ha⟩ := Option.ne_none_iff_exists'.mp (mt Dict.get?_eq_none_iff.mp (not_not.mpr hkey))
      have hlt : a.amountRaw < 2 ^ 256 := hfits _ (Dict.get?_eq_some_iff.mp ha)
      rw [if_pos ⟨hn, rfl⟩]
      simp only [ha]
      split_ifs
      · refine ⟨_, rfl, fun call hcall => ?_⟩
        obtain rfl := List.mem_singleton.mp hcall
        simp only [depositCall]
        omega
      · exact ⟨[], rfl, by simp⟩
    · exact ⟨[], if_neg fun hcond => hn hcond.1, by simp⟩
  have hone : ∀ p ∈ m.approvals.entries,
      approvalCalls c funder spender p = .ok (approvesOf c funder spender p) := by
    intro p hp
    simp only [approvalCalls, approveCall, fits_ok (hfits p hp), fits_ok (Nat.two_pow_pos 256), approvesOf]
    split_ifs <;> rfl
  obtain ⟨deposits, hw, hvalues⟩ := hdeposits
  have happroves := Except.mapM_ok_of_forall hone
  have hpack : ∀ call ∈ deposits ++ (m.approvals.entries.map (approvesOf c funder spender)).flatten,
      fits call.value = .ok () := by
    intro call hcall
    apply fits_ok
    rcases List.mem_append.mp hcall with hcall | hcall
    · exact hvalues call hcall
    · obtain ⟨calls, hcalls, hcall⟩ := List.mem_flatten.mp hcall
      obtain ⟨p, -, rfl⟩ := List.mem_map.mp hcalls
      rw [approvesOf_value call hcall]
      positivity
  unfold build
  rw [if_neg (by simpa using h), hw, happroves]
  simp only [Except.bind, Except.mapM_ok_of_forall hpack]
  exact ⟨_, rfl⟩

/-- A signable batch is written, its calls succeed and every allowance is exact; it leaves the
claims fully funded exactly when what the Safe holds of the wrapped coin covers the rows that
pay the wrapped coin itself, since the batch wraps no more than the native total. -/
theorem signable_batch_funds_iff [LinearOrder D] {K : Keccak.HashFn D} {rows : List ClaimRow}
    (hbuild : buildGroup K wrapped assets rows = .ok m)
    (h : ∀ k ∈ preflight c funder spender wrapped identity m, k.ok = true) :
    ((∀ p ∈ m.approvals.entries, p.2.amountRaw < 2 ^ 256) →
      ∃ calls, build c funder spender wrapped identity assets m false = .ok calls) ∧
    ∀ calls, build c funder spender wrapped identity assets m false = .ok calls →
      ∀ strict : Address → Bool, ∃ l, exec strict funder c.ledger calls = some l ∧
        (∀ p ∈ m.approvals.entries, l.allowance (p.1, funder, spender) = p.2.amountRaw) ∧
        (FullyFunded m funder spender l ↔ ∀ w a, wrapped = some w → m.approvals.get? w = some a →
          a.amountRaw ≤ c.ledger.balance (w, funder) + nativeTotal assets m) := by
  refine ⟨exists_build hbuild h, ?_⟩
  intro calls hcalls strict
  obtain ⟨l, hexec, hexact, hbal⟩ := exec_build strict hcalls
  refine ⟨l, hexec, hexact, ?_⟩
  constructor
  · intro hfull w a hw ha
    have hp := Dict.get?_eq_some_iff.mp ha
    exact (hbal _ hp).mp (hfull _ hp).2 hw
  · intro hcond p hp
    exact ⟨hexact p hp, (hbal p hp).mpr fun hw => hcond p.1 p.2 hw (Dict.get?_eq_some_iff.mpr hp)⟩

end

/-! ### A native row of 10 and a wrapped one of 5 -/

/-- The Safe 1 holds `held` of the wrapped coin 3 and 15 native coins, and has approved 1. -/
def safeChain (held : ℕ) : Chain where
  ledger :=
    { balance := fun p => if p = (3, 1) then held else 0
      allowance := fun p => if p = (3, 1, 2) then 1 else 0
      coin := fun a => if a = 1 then 15 else 0
      moves := [] }
  hasBalance := fun t => t = 3
  hasAllowance := fun t => t = 3
  decimals := fun t => if t = 3 then some 18 else none

theorem signable_batch_funds_iff_held :
    (∀ k ∈ preflight (safeChain 5) 1 2 (some 3) [] twoRowManifest, k.ok = true) ∧
    ∃ calls, build (safeChain 5) 1 2 (some 3) [] twoAssets twoRowManifest false = .ok calls ∧
      ∀ strict : Address → Bool, ∃ l, exec strict 1 (safeChain 5).ledger calls = some l ∧
        FullyFunded twoRowManifest 1 2 l := by
  have hbuild : buildGroup Keccak.Hash.nat.toHashFn (some 3) twoAssets twoRows = .ok twoRowManifest := by
    decide +kernel
  have hpass : ∀ k ∈ preflight (safeChain 5) 1 2 (some 3) [] twoRowManifest, k.ok = true := by
    decide +kernel
  obtain ⟨hsome, hiff⟩ := signable_batch_funds_iff hbuild hpass
  obtain ⟨calls, hcalls⟩ := hsome (by decide +kernel)
  refine ⟨hpass, calls, hcalls, fun strict => ?_⟩
  obtain ⟨l, hexec, -, hfull⟩ := hiff calls hcalls strict
  refine ⟨l, hexec, hfull.mpr ?_⟩
  intro w a hw ha
  obtain rfl := Option.some.inj hw
  obtain rfl : (⟨"WBNB", 18, 15, ["native BNB", "WBNB"]⟩ : Approval) = a :=
    Option.some.inj ((by decide +kernel : twoRowManifest.approvals.get? 3 = some _).symm.trans ha)
  decide +kernel

/-- Without wrapped coins the same list passes every check on 15 native coins, and the batch
wraps 10 of them for approvals of 15. -/
theorem wrapped_rows_underfunded :
    buildGroup Keccak.Hash.nat.toHashFn (some 3) twoAssets twoRows = .ok twoRowManifest ∧
    (∀ k ∈ preflight (safeChain 0) 1 2 (some 3) [] twoRowManifest, k.ok = true) ∧
    ∃ calls, build (safeChain 0) 1 2 (some 3) [] twoAssets twoRowManifest false = .ok calls ∧
      ∃ l, exec (fun _ => true) 1 (safeChain 0).ledger calls = some l ∧
        ¬FullyFunded twoRowManifest 1 2 l := by
  have hcalls : build (safeChain 0) 1 2 (some 3) [] twoAssets twoRowManifest false =
      .ok [⟨3, 10, .deposit⟩, ⟨3, 0, .approve 2 0⟩, ⟨3, 0, .approve 2 15⟩] := by
    decide +kernel
  have hbalance : (exec (fun _ => true) 1 (safeChain 0).ledger
      [⟨3, 10, .deposit⟩, ⟨3, 0, .approve 2 0⟩, ⟨3, 0, .approve 2 15⟩]).map
        (fun l => l.balance (3, 1)) = some 10 := by
    decide +kernel
  obtain ⟨l, hl, hten⟩ := Option.map_eq_some_iff.mp hbalance
  refine ⟨by decide +kernel, by decide +kernel, _, hcalls, l, hl, fun hfull => ?_⟩
  have hle := (hfull (3, ⟨"WBNB", 18, 15, ["native BNB", "WBNB"]⟩) (by decide +kernel)).2
  simp only [hten] at hle
  omega

end HarmonyMigration.ApproveClaims
