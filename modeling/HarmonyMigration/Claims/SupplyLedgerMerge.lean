import HarmonyMigration.Claims.SupplyLedger
import Mathlib.Data.List.ReduceOption

/-! The merge of the cutoff ledger is the outer join of its inputs. -/

namespace HarmonyMigration.Claims.SupplyLedger

open Airdrop.One1 ContractReview Decimal Except

variable {u : Lower} {int : Text → Option ℤ}

/-! ### Names and amounts -/

theorem requireName_ok_iff {address key normalized : Text} :
    requireName u address key = .ok normalized ↔ requireAddressSecureKey u address key = .ok normalized := by
  rw [requireName]
  cases requireAddressSecureKey u address key with
  | error e => simp [Except.mapError]
  | ok t => simp [Except.mapError]

/-- A text that is read as a number, not below zero. -/
def IsAmount (int : Text → Option ℤ) (t : Text) : Prop := ∃ n, int t = some n ∧ 0 ≤ n

def amount (int : Text → Option ℤ) (t : Text) : ℤ := (int t).getD 0

theorem unsigned_ok_iff {t : Text} {n : ℤ} : unsigned int t = .ok n ↔ int t = some n ∧ 0 ≤ n := by
  rw [unsigned, ofOption_bind_ok]
  constructor
  · intro ⟨m, hm, h⟩
    obtain ⟨_, hle, rfl⟩ := of_map_ok h
    exact ⟨hm, of_require_ok hle⟩
  · intro ⟨hn, hle⟩
    refine ⟨n, hn, ?_⟩
    rw [require, if_pos hle]
    rfl

theorem unsigned_total {t : Text} (h : IsAmount int t) : unsigned int t = .ok (amount int t) := by
  obtain ⟨n, hn, hle⟩ := h
  rw [unsigned_ok_iff, amount, hn]
  exact ⟨rfl, hle⟩

theorem of_unsigned_ok {t : Text} {n : ℤ} (h : unsigned int t = .ok n) : IsAmount int t ∧ n = amount int t := by
  obtain ⟨hn, hle⟩ := unsigned_ok_iff.mp h
  exact ⟨⟨n, hn, hle⟩, by rw [amount, hn]; rfl⟩

/-! ### Pending receipts -/

section Receipts

variable (u int)

def receiptsAt (l : List Receipt) (key : Text) : List Receipt := l.filter fun r => u.lower r.secureKey = key

def receiptAmount (r : Receipt) : ℤ := amount int r.amountAtto

/-- What is pending for a key. -/
def pendingAt (l : List Receipt) (key : Text) : Option Pending :=
  (receiptsAt u l key).head?.map fun r => ⟨r.recipient, ((receiptsAt u l key).map (receiptAmount int)).sum⟩

structure ReceiptsOk (l : List Receipt) : Prop where
  named : ∀ r ∈ l, HashesTo u r.recipient (u.lower r.secureKey)
  amounts : ∀ r ∈ l, IsAmount int r.amountAtto
  same : ∀ r ∈ l, ∀ r' ∈ l, u.lower r.secureKey = u.lower r'.secureKey → u.lower r.recipient = u.lower r'.recipient

variable {u int}

theorem receiptsAt_append (l l' : List Receipt) (key : Text) :
    receiptsAt u (l ++ l') key = receiptsAt u l key ++ receiptsAt u l' key := List.filter_append ..

theorem mem_receiptsAt {l : List Receipt} {key : Text} {r : Receipt} :
    r ∈ receiptsAt u l key ↔ r ∈ l ∧ u.lower r.secureKey = key := by
  rw [receiptsAt, List.mem_filter, decide_eq_true_eq]

/-- One more receipt changes what is pending for its own key. -/
theorem pendingAt_snoc (l : List Receipt) (r : Receipt) (key : Text) :
    pendingAt u int (l ++ [r]) key =
      if key = u.lower r.secureKey then
        some ⟨((pendingAt u int l key).getD ⟨r.recipient, 0⟩).address,
          ((pendingAt u int l key).getD ⟨r.recipient, 0⟩).amount + receiptAmount int r⟩
      else pendingAt u int l key := by
  rw [pendingAt, pendingAt, receiptsAt_append]
  by_cases hkey : key = u.lower r.secureKey
  · have hone : receiptsAt u [r] key = [r] := by simp [receiptsAt, hkey]
    rw [if_pos hkey, hone]
    cases h : receiptsAt u l key with
    | nil => simp
    | cons first rest => simp [add_assoc]
  · have hnone : receiptsAt u [r] key = [] := by simp [receiptsAt, Ne.symm hkey]
    rw [if_neg hkey, hnone, List.append_nil]

theorem loadReceipt_ok_iff {s s' : Dict Text Pending × ℤ} {r : Receipt} :
    loadReceipt u int s r = .ok s' ↔ HashesTo u r.recipient (u.lower r.secureKey) ∧ IsAmount int r.amountAtto ∧
      u.lower ((s.1.get? (u.lower r.secureKey)).getD ⟨r.recipient, 0⟩).address = u.lower r.recipient ∧
      s' = (s.1.insert (u.lower r.secureKey)
        ⟨((s.1.get? (u.lower r.secureKey)).getD ⟨r.recipient, 0⟩).address,
          ((s.1.get? (u.lower r.secureKey)).getD ⟨r.recipient, 0⟩).amount + receiptAmount int r⟩,
        s.2 + receiptAmount int r) := by
  constructor
  · intro h
    obtain ⟨normalized, hname, h⟩ := of_bind_ok h
    obtain ⟨n, hn, h⟩ := of_bind_ok h
    obtain ⟨_, hsame, rfl⟩ := of_map_ok h
    obtain ⟨hamount, rfl⟩ := of_unsigned_ok hn
    exact ⟨⟨normalized, requireName_ok_iff.mp hname⟩, hamount, of_require_ok hsame, rfl⟩
  · intro ⟨⟨normalized, hname⟩, hamount, hsame, hs⟩
    rw [hs, loadReceipt]
    dsimp only
    rw [requireName_ok_iff.mpr hname, bind_ok_left, unsigned_total hamount, bind_ok_left, require, if_pos hsame]
    rfl

/-- The loaded receipts, by key and in total. -/
def Loaded (u : Lower) (int : Text → Option ℤ) (l : List Receipt) (s : Dict Text Pending × ℤ) : Prop :=
  (∀ key, s.1.get? key = pendingAt u int l key) ∧ s.2 = (l.map (receiptAmount int)).sum

theorem Loaded.snoc {l : List Receipt} {s : Dict Text Pending × ℤ} (h : Loaded u int l s) (r : Receipt) :
    Loaded u int (l ++ [r]) (s.1.insert (u.lower r.secureKey)
        ⟨((s.1.get? (u.lower r.secureKey)).getD ⟨r.recipient, 0⟩).address,
          ((s.1.get? (u.lower r.secureKey)).getD ⟨r.recipient, 0⟩).amount + receiptAmount int r⟩,
        s.2 + receiptAmount int r) := by
  obtain ⟨hget, htotal⟩ := h
  constructor
  · intro key
    rw [Dict.get?_insert, pendingAt_snoc, hget, hget]
    split_ifs with hkey
    · rw [hkey]
    · rfl
  · rw [htotal, List.map_append, List.sum_append, List.map_singleton, List.sum_singleton]

/-- The first receipt of a key has the address of every later one, up to case. -/
theorem lower_pendingAt {l : List Receipt} {r : Receipt} (h : ReceiptsOk u int (l ++ [r])) :
    u.lower ((pendingAt u int l (u.lower r.secureKey)).getD ⟨r.recipient, 0⟩).address = u.lower r.recipient := by
  rw [pendingAt]
  cases hat : receiptsAt u l (u.lower r.secureKey) with
  | nil => rfl
  | cons first rest =>
    obtain ⟨hmem, hkey⟩ := mem_receiptsAt.mp (hat ▸ List.mem_cons_self (a := first))
    exact h.same first (List.mem_append_left _ hmem) r (by simp) hkey

theorem ReceiptsOk.left {l l' : List Receipt} (h : ReceiptsOk u int (l ++ l')) : ReceiptsOk u int l where
  named r hr := h.named r (List.mem_append_left _ hr)
  amounts r hr := h.amounts r (List.mem_append_left _ hr)
  same r hr r' hr' := h.same r (List.mem_append_left _ hr) r' (List.mem_append_left _ hr')

theorem load_total {l : List Receipt} (h : ReceiptsOk u int l) :
    ∃ s, l.foldlM (loadReceipt u int) (.empty, 0) = .ok s ∧ Loaded u int l s := by
  induction l using List.reverseRecOn with
  | nil => exact ⟨(.empty, 0), rfl, fun _ => rfl, rfl⟩
  | append_singleton l r ih =>
    obtain ⟨s, hs, hloaded⟩ := ih h.left
    have hr : r ∈ l ++ [r] := by simp
    refine ⟨_, ?_, hloaded.snoc r⟩
    rw [List.foldlM_append, hs]
    refine (congrArg (· >>= pure) (loadReceipt_ok_iff.mpr ⟨h.named r hr, h.amounts r hr, ?_, rfl⟩)).trans rfl
    rw [hloaded.1]
    exact lower_pendingAt h

theorem load_ok {l : List Receipt} {s : Dict Text Pending × ℤ}
    (h : l.foldlM (loadReceipt u int) (.empty, 0) = .ok s) : ReceiptsOk u int l ∧ Loaded u int l s := by
  induction l using List.reverseRecOn generalizing s with
  | nil =>
    obtain rfl := Except.ok.inj h
    exact ⟨⟨nofun, nofun, nofun⟩, fun _ => rfl, rfl⟩
  | append_singleton l r ih =>
    rw [List.foldlM_append] at h
    obtain ⟨t, ht, h⟩ := of_bind_ok h
    obtain ⟨hok, hloaded⟩ := ih ht
    rw [List.foldlM_cons] at h
    obtain ⟨t', hstep, h⟩ := of_bind_ok h
    obtain rfl := Except.ok.inj h
    obtain ⟨hname, hamount, hsame, rfl⟩ := loadReceipt_ok_iff.mp hstep
    rw [hloaded.1] at hsame
    refine ⟨⟨?_, ?_, ?_⟩, hloaded.snoc r⟩
    · intro r' hr'
      rcases List.mem_append.mp hr' with hr' | hr'
      · exact hok.named r' hr'
      · obtain rfl := List.mem_singleton.mp hr'
        exact hname
    · intro r' hr'
      rcases List.mem_append.mp hr' with hr' | hr'
      · exact hok.amounts r' hr'
      · obtain rfl := List.mem_singleton.mp hr'
        exact hamount
    · -- an earlier receipt of the key has the address that was kept for it
      have hearlier : ∀ r' ∈ l, u.lower r'.secureKey = u.lower r.secureKey → u.lower r'.recipient = u.lower r.recipient := by
        intro r' hr' hkey
        rw [← hsame, pendingAt]
        cases hat : receiptsAt u l (u.lower r.secureKey) with
        | nil => exact absurd (mem_receiptsAt.mpr ⟨hr', hkey⟩) (by rw [hat]; simp)
        | cons first rest =>
          obtain ⟨hmem, hfirst⟩ := mem_receiptsAt.mp (hat ▸ List.mem_cons_self (a := first))
          exact hok.same r' hr' first hmem (hkey.trans hfirst.symm)
      intro r' hr' r'' hr'' hkey
      rcases List.mem_append.mp hr' with h1 | h1 <;> rcases List.mem_append.mp hr'' with h2 | h2
      · exact hok.same r' h1 r'' h2 hkey
      · obtain rfl := List.mem_singleton.mp h2
        exact hearlier r' h1 hkey
      · obtain rfl := List.mem_singleton.mp h1
        exact (hearlier r'' h2 hkey.symm).symm
      · obtain rfl := List.mem_singleton.mp h1
        obtain rfl := List.mem_singleton.mp h2
        rfl

end Receipts

/-! ### Rows of a file -/

section Rows

variable {β : Type}

variable (u) in
def lowered (row : Row β) : Row β := { row with secureKey := u.lower row.secureKey }

variable (u) in
/-- The lower-cased keys increase, and every address that is there has its key. -/
structure RowsOk (l : List (Row β)) : Prop where
  increasing : Lookahead.Increasing Row.secureKey (l.map (lowered u))
  named : ∀ row ∈ l, row.address ≠ [] → HashesTo u row.address (u.lower row.secureKey)

theorem checkRow_ok_iff {previous : Option Text} {row row' : Row β} :
    checkRow u previous row = .ok row' ↔ (∀ p ∈ previous, p < u.lower row.secureKey) ∧
      (row.address ≠ [] → HashesTo u row.address (u.lower row.secureKey)) ∧ row' = lowered u row := by
  rw [checkRow, require_bind_ok]
  apply and_congr_right
  intro _
  split_ifs with haddress
  · simp [haddress, lowered, eq_comm]
  · constructor
    · intro h
      obtain ⟨normalized, hname, rfl⟩ := of_map_ok h
      exact ⟨fun _ => ⟨normalized, requireName_ok_iff.mp hname⟩, rfl⟩
    · intro ⟨hname, hrow⟩
      obtain ⟨normalized, hnormalized⟩ := hname haddress
      rw [requireName_ok_iff.mpr hnormalized, hrow]
      rfl

/-- The generator raises nowhere exactly when the file is in order. -/
theorem rows_eq_map_iff (previous : Option Text) (l xs : List (Row β)) :
    rows u previous l = xs.map .ok ↔ xs = l.map (lowered u) ∧ RowsOk u l ∧
      ∀ p ∈ previous, ∀ row ∈ l, p < u.lower row.secureKey := by
  induction l generalizing previous xs with
  | nil =>
    rw [rows]
    constructor
    · intro h
      exact ⟨(List.map_eq_nil_iff.mp h.symm), ⟨List.Pairwise.nil, nofun⟩, by simp⟩
    · intro ⟨h, _, _⟩
      rw [h]
      rfl
  | cons row l ih =>
    rw [rows]
    cases hcheck : checkRow u previous row with
    | error e =>
      constructor
      · intro h
        cases xs with
        | nil => cases h
        | cons x xs => cases h
      · intro ⟨_, hok, hprevious⟩
        have hrow : checkRow u previous row = .ok (lowered u row) :=
          checkRow_ok_iff.mpr ⟨fun p hp => hprevious p hp row (by simp), hok.named row (by simp), rfl⟩
        rw [hcheck] at hrow
        cases hrow
    | ok row' =>
      obtain ⟨hbefore, hname, rfl⟩ := checkRow_ok_iff.mp hcheck
      constructor
      · intro h
        cases xs with
        | nil => cases h
        | cons x xs =>
          obtain ⟨hx, hxs⟩ := List.cons.inj h
          obtain rfl := Except.ok.inj hx
          obtain ⟨rfl, hok, hbehind⟩ := (ih _ _).mp hxs
          have hlt : ∀ other ∈ l, u.lower row.secureKey < u.lower other.secureKey := hbehind _ rfl
          refine ⟨rfl, ⟨List.pairwise_cons.mpr ⟨?_, hok.increasing⟩, ?_⟩, ?_⟩
          · intro other hother
            obtain ⟨other, hmem, rfl⟩ := List.mem_map.mp hother
            exact hlt other hmem
          · intro other hother
            rcases List.mem_cons.mp hother with rfl | hother
            · exact hname
            · exact hok.named other hother
          · intro p hp other hother
            rcases List.mem_cons.mp hother with rfl | hother
            · exact hbefore p hp
            · exact (hbefore p hp).trans (hlt other hother)
      · intro ⟨hxs, hok, _⟩
        obtain ⟨hfirst, hrest⟩ := List.pairwise_cons.mp hok.increasing
        rw [hxs, List.map_cons, List.map_cons]
        refine congrArg _ ((ih _ _).mpr ⟨rfl, ⟨hrest, fun other h => hok.named other (List.mem_cons_of_mem _ h)⟩, ?_⟩)
        intro p hp other hother
        obtain rfl := Option.some.inj hp
        exact hfirst _ (List.mem_map_of_mem hother)

end Rows

/-! ### One output row -/

section OneRow

variable {β : Type} {key : Text} {c0 c1 : Option (Row Liquid)} {cs : Option (Row Staking)} {cr : Option Pending}

variable (int) in
/-- The value of a field, zero without a row. -/
def fieldOf (row : Option (Row β)) (field : β → Text) : ℤ := row.elim 0 fun row => amount int (field row.body)

variable (int) in
def FieldOk (row : Option (Row β)) (field : β → Text) : Prop := ∀ r ∈ row, IsAmount int (field r.body)

theorem intField_ok_iff {row : Option (Row β)} {field : β → Text} {n : ℤ} :
    intField int row field = .ok n ↔ FieldOk int row field ∧ n = fieldOf int row field := by
  cases row with
  | none => simp [intField, FieldOk, fieldOf, eq_comm]
  | some row =>
    simp only [intField, FieldOk, fieldOf, Option.mem_def, Option.some.injEq, forall_eq', Option.elim_some]
    constructor
    · exact of_unsigned_ok
    · intro ⟨hamount, hn⟩
      rw [hn]
      exact unsigned_total hamount

variable (int) in
def totalOf (c0 c1 : Option (Row Liquid)) (cs : Option (Row Staking)) (cr : Option Pending) : ℤ :=
  fieldOf int c0 Liquid.balanceAtto + fieldOf int c1 Liquid.balanceAtto + fieldOf int cs Staking.pendingUndelegationAtto +
    fieldOf int cs Staking.unclaimedRewardAtto + cr.elim 0 Pending.amount + fieldOf int cs Staking.activeDelegationAtto

variable (int) in
/-- The row of a key, as the columns define it. -/
def outRow (key : Text) (c0 c1 : Option (Row Liquid)) (cs : Option (Row Staking)) (cr : Option Pending) : OutRow where
  secureKey := key
  address := (presentAddresses c0 c1 cs cr).headD []
  liquidShard0 := fieldOf int c0 Liquid.balanceAtto
  liquidShard1 := fieldOf int c1 Liquid.balanceAtto
  liquidTotal := fieldOf int c0 Liquid.balanceAtto + fieldOf int c1 Liquid.balanceAtto
  activeDelegation := fieldOf int cs Staking.activeDelegationAtto
  pendingUndelegation := fieldOf int cs Staking.pendingUndelegationAtto
  unclaimedReward := fieldOf int cs Staking.unclaimedRewardAtto
  pendingCrossShard := cr.elim 0 Pending.amount
  walletAirdrop := fieldOf int c0 Liquid.balanceAtto + fieldOf int c1 Liquid.balanceAtto +
    fieldOf int cs Staking.pendingUndelegationAtto + fieldOf int cs Staking.unclaimedRewardAtto + cr.elim 0 Pending.amount
  stakedToVault := fieldOf int cs Staking.activeDelegationAtto
  totalClaim := totalOf int c0 c1 cs cr
  nonceShard0 := c0.elim [] fun row => row.body.nonce
  nonceShard1 := c1.elim [] fun row => row.body.nonce
  codeHashShard0 := c0.elim [] fun row => row.body.codeHash
  codeHashShard1 := c1.elim [] fun row => row.body.codeHash

variable (u int) in
structure RowOk (key : Text) (c0 c1 : Option (Row Liquid)) (cs : Option (Row Staking)) (cr : Option Pending) : Prop where
  same : ∀ a ∈ presentAddresses c0 c1 cs cr, u.lower a = u.lower ((presentAddresses c0 c1 cs cr).headD [])
  named : (presentAddresses c0 c1 cs cr).headD [] ≠ [] → HashesTo u ((presentAddresses c0 c1 cs cr).headD []) key
  liquid0 : FieldOk int c0 Liquid.balanceAtto
  liquid1 : FieldOk int c1 Liquid.balanceAtto
  active : FieldOk int cs Staking.activeDelegationAtto
  undelegation : FieldOk int cs Staking.pendingUndelegationAtto
  reward : FieldOk int cs Staking.unclaimedRewardAtto
  positive : 0 < totalOf int c0 c1 cs cr

theorem mergeRow_ok_iff {row : OutRow} :
    mergeRow u int key c0 c1 cs cr = .ok row ↔ RowOk u int key c0 c1 cs cr ∧ row = outRow int key c0 c1 cs cr := by
  have hsame : (∀ a ∈ (presentAddresses c0 c1 cs cr).tail, u.lower a = u.lower ((presentAddresses c0 c1 cs cr).headD [])) ↔
      ∀ a ∈ presentAddresses c0 c1 cs cr, u.lower a = u.lower ((presentAddresses c0 c1 cs cr).headD []) := by
    cases presentAddresses c0 c1 cs cr with
    | nil => simp
    | cons a l => simp
  rw [mergeRow]
  dsimp only
  rw [require_bind_ok, hsame]
  constructor
  · intro ⟨hsame, h⟩
    obtain ⟨normalized, hname, h⟩ := of_bind_ok h
    obtain ⟨_, h1, h⟩ := of_bind_ok h
    obtain ⟨_, h2, h⟩ := of_bind_ok h
    obtain ⟨_, h3, h⟩ := of_bind_ok h
    obtain ⟨_, h4, h⟩ := of_bind_ok h
    obtain ⟨_, h5, h⟩ := of_bind_ok h
    obtain ⟨_, hpositive, rfl⟩ := of_map_ok h
    obtain ⟨hfield1, rfl⟩ := intField_ok_iff.mp h1
    obtain ⟨hfield2, rfl⟩ := intField_ok_iff.mp h2
    obtain ⟨hfield3, rfl⟩ := intField_ok_iff.mp h3
    obtain ⟨hfield4, rfl⟩ := intField_ok_iff.mp h4
    obtain ⟨hfield5, rfl⟩ := intField_ok_iff.mp h5
    refine ⟨⟨hsame, ?_, hfield1, hfield2, hfield3, hfield4, hfield5, of_require_ok hpositive⟩, rfl⟩
    intro haddress
    rw [if_neg haddress] at hname
    exact ⟨normalized, requireName_ok_iff.mp hname⟩
  · intro ⟨hok, hrow⟩
    refine ⟨hok.same, ?_⟩
    have hname : ∃ normalized, (if (presentAddresses c0 c1 cs cr).headD [] = [] then (.ok [] : Except Error Text)
        else requireName u ((presentAddresses c0 c1 cs cr).headD []) key) = .ok normalized := by
      split_ifs with haddress
      · exact ⟨[], rfl⟩
      · obtain ⟨normalized, hnormalized⟩ := hok.named haddress
        exact ⟨normalized, requireName_ok_iff.mpr hnormalized⟩
    obtain ⟨normalized, hname⟩ := hname
    have hpositive := hok.positive
    rw [totalOf] at hpositive
    rw [hname, bind_ok_left, intField_ok_iff.mpr ⟨hok.liquid0, rfl⟩, bind_ok_left,
      intField_ok_iff.mpr ⟨hok.liquid1, rfl⟩, bind_ok_left, intField_ok_iff.mpr ⟨hok.active, rfl⟩, bind_ok_left,
      intField_ok_iff.mpr ⟨hok.undelegation, rfl⟩, bind_ok_left, intField_ok_iff.mpr ⟨hok.reward, rfl⟩, bind_ok_left,
      require, if_pos hpositive, hrow]
    rfl

end OneRow

/-! ### The loop -/

section Loop

variable {claims : Dict Text Pending} {l0 l1 : List (Row Liquid)} {ls : List (Row Staking)} {ks : List Text}

/-- A key of one of the four lists. -/
def InLists (l0 l1 : List (Row Liquid)) (ls : List (Row Staking)) (ks : List Text) (key : Text) : Prop :=
  (∃ row ∈ l0, row.secureKey = key) ∨ (∃ row ∈ l1, row.secureKey = key) ∨ (∃ row ∈ ls, row.secureKey = key) ∨ key ∈ ks

/-- The four lists, each in strictly increasing order. -/
structure Sorted (l0 l1 : List (Row Liquid)) (ls : List (Row Staking)) (ks : List Text) : Prop where
  liquid0 : Lookahead.Increasing Row.secureKey l0
  liquid1 : Lookahead.Increasing Row.secureKey l1
  staking : Lookahead.Increasing Row.secureKey ls
  receipts : Lookahead.Increasing id ks

theorem head_le {ρ : Type} {key : ρ → Text} {l : List ρ} (h : Lookahead.Increasing key l) {k : Text}
    (hk : ∀ first ∈ l.head?.map key, k ≤ first) : ∀ row ∈ l, k ≤ key row := by
  cases l with
  | nil => nofun
  | cons first l =>
    have hfirst : k ≤ key first := hk _ rfl
    intro row hrow
    rcases List.mem_cons.mp hrow with rfl | hrow
    · exact hfirst
    · exact hfirst.trans ((List.pairwise_cons.mp h).1 row hrow).le

theorem rows_of_nextKey_none {a0 a1 : Ahead Liquid} {as : Ahead Staking} (h : nextKey a0 a1 as ks = none) :
    a0.row? = none ∧ a1.row? = none ∧ as.row? = none ∧ ks = [] := by
  rw [nextKey, List.min?_eq_none_iff, List.reduceOption_eq_nil_iff] at h
  have hnone : ∀ o ∈ [a0.row?.map Row.secureKey, a1.row?.map Row.secureKey, as.row?.map Row.secureKey, ks.head?],
      o = none := by
    obtain ⟨n, hn⟩ := h
    intro o ho
    rw [hn] at ho
    exact List.eq_of_mem_replicate ho
  simpa using hnone

section NextKey

variable {a0 a1 : Ahead Liquid} {as : Ahead Staking} (h0 : a0.Yields l0) (h1 : a1.Yields l1) (hs : as.Yields ls)
include h0 h1 hs

theorem nextKey_eq :
    nextKey a0 a1 as ks = [l0.head?.map Row.secureKey, l1.head?.map Row.secureKey, ls.head?.map Row.secureKey,
      ks.head?].reduceOption.min? := by
  rw [nextKey, Lookahead.row?_of_yields h0, Lookahead.row?_of_yields h1, Lookahead.row?_of_yields hs]

/-- The next key is in one of the lists, and no list has a smaller one. -/
theorem of_nextKey_some {key : Text} (hsorted : Sorted l0 l1 ls ks) (h : nextKey a0 a1 as ks = some key) :
    InLists l0 l1 ls ks key ∧ ∀ k, InLists l0 l1 ls ks k → key ≤ k := by
  rw [nextKey_eq h0 h1 hs, List.min?_eq_some_iff] at h
  obtain ⟨hmem, hle⟩ := h
  simp only [List.reduceOption_mem_iff, List.mem_cons, List.not_mem_nil, or_false] at hmem hle
  constructor
  · rcases hmem with h | h | h | h
    · obtain ⟨row, hrow, rfl⟩ := Option.map_eq_some_iff.mp h.symm
      exact .inl ⟨row, List.mem_of_head? hrow, rfl⟩
    · obtain ⟨row, hrow, rfl⟩ := Option.map_eq_some_iff.mp h.symm
      exact .inr (.inl ⟨row, List.mem_of_head? hrow, rfl⟩)
    · obtain ⟨row, hrow, rfl⟩ := Option.map_eq_some_iff.mp h.symm
      exact .inr (.inr (.inl ⟨row, List.mem_of_head? hrow, rfl⟩))
    · exact .inr (.inr (.inr (List.mem_of_head? h.symm)))
  · intro k hk
    rcases hk with ⟨row, hrow, rfl⟩ | ⟨row, hrow, rfl⟩ | ⟨row, hrow, rfl⟩ | hk
    · exact head_le hsorted.liquid0 (fun first hfirst => hle first (.inl hfirst.symm)) row hrow
    · exact head_le hsorted.liquid1 (fun first hfirst => hle first (.inr (.inl hfirst.symm))) row hrow
    · exact head_le hsorted.staking (fun first hfirst => hle first (.inr (.inr (.inl hfirst.symm)))) row hrow
    · refine head_le hsorted.receipts (fun first hfirst => hle first (.inr (.inr (.inr ?_)))) k hk
      rw [Option.map_id] at hfirst
      exact hfirst.symm

end NextKey

section Turn

variable {key : Text} (hsorted : Sorted l0 l1 ls ks) (hle : ∀ k, InLists l0 l1 ls ks k → key ≤ k)
include hsorted hle

/-- What a turn leaves: everything behind its key. -/
theorem inLists_dropAt {k : Text} :
    InLists (Lookahead.dropAt Row.secureKey key l0) (Lookahead.dropAt Row.secureKey key l1)
      (Lookahead.dropAt Row.secureKey key ls) (Lookahead.dropAt id key ks) k ↔ InLists l0 l1 ls ks k ∧ key < k := by
  have h0 := Lookahead.mem_dropAt_iff hsorted.liquid0 fun r hr => hle _ (.inl ⟨r, hr, rfl⟩)
  have h1 := Lookahead.mem_dropAt_iff hsorted.liquid1 fun r hr => hle _ (.inr (.inl ⟨r, hr, rfl⟩))
  have hs := Lookahead.mem_dropAt_iff hsorted.staking fun r hr => hle _ (.inr (.inr (.inl ⟨r, hr, rfl⟩)))
  have hk := Lookahead.mem_dropAt_iff hsorted.receipts fun r hr => hle r (.inr (.inr (.inr hr)))
  simp only [InLists, h0, h1, hs, hk, id_eq]
  constructor
  · rintro (⟨row, ⟨hrow, hlt⟩, rfl⟩ | ⟨row, ⟨hrow, hlt⟩, rfl⟩ | ⟨row, ⟨hrow, hlt⟩, rfl⟩ | ⟨hk, hlt⟩)
    · exact ⟨.inl ⟨row, hrow, rfl⟩, hlt⟩
    · exact ⟨.inr (.inl ⟨row, hrow, rfl⟩), hlt⟩
    · exact ⟨.inr (.inr (.inl ⟨row, hrow, rfl⟩)), hlt⟩
    · exact ⟨.inr (.inr (.inr hk)), hlt⟩
  · rintro ⟨⟨row, hrow, rfl⟩ | ⟨row, hrow, rfl⟩ | ⟨row, hrow, rfl⟩ | hk, hlt⟩
    · exact .inl ⟨row, ⟨hrow, hlt⟩, rfl⟩
    · exact .inr (.inl ⟨row, ⟨hrow, hlt⟩, rfl⟩)
    · exact .inr (.inr (.inl ⟨row, ⟨hrow, hlt⟩, rfl⟩))
    · exact .inr (.inr (.inr ⟨hk, hlt⟩))

end Turn

theorem Sorted.dropAt (h : Sorted l0 l1 ls ks) (key : Text) :
    Sorted (Lookahead.dropAt Row.secureKey key l0) (Lookahead.dropAt Row.secureKey key l1)
      (Lookahead.dropAt Row.secureKey key ls) (Lookahead.dropAt id key ks) where
  liquid0 := h.liquid0.dropAt key
  liquid1 := h.liquid1.dropAt key
  staking := h.staking.dropAt key
  receipts := h.receipts.dropAt key

def find {β : Type} (l : List (Row β)) (key : Text) : Option (Row β) := l.find? fun row => row.secureKey = key

/-- The outer join: a row for each key, in order, made of what each list has at it. -/
structure Merged (u : Lower) (int : Text → Option ℤ) (claims : Dict Text Pending) (l0 l1 : List (Row Liquid))
    (ls : List (Row Staking)) (ks : List Text) (out : List OutRow) : Prop where
  increasing : Lookahead.Increasing OutRow.secureKey out
  keys : ∀ k, (∃ row ∈ out, row.secureKey = k) ↔ InLists l0 l1 ls ks k
  rows : ∀ row ∈ out, RowOk u int row.secureKey (find l0 row.secureKey) (find l1 row.secureKey) (find ls row.secureKey)
      (claims.get? row.secureKey) ∧
    row = outRow int row.secureKey (find l0 row.secureKey) (find l1 row.secureKey) (find ls row.secureKey)
      (claims.get? row.secureKey)

/-- A turn of the loop, in front of the join of what it leaves. -/
theorem Merged.cons {key : Text} {out : List OutRow} (hsorted : Sorted l0 l1 ls ks) (hin : InLists l0 l1 ls ks key)
    (hle : ∀ k, InLists l0 l1 ls ks k → key ≤ k)
    (hok : RowOk u int key (find l0 key) (find l1 key) (find ls key) (claims.get? key))
    (h : Merged u int claims (Lookahead.dropAt Row.secureKey key l0) (Lookahead.dropAt Row.secureKey key l1)
      (Lookahead.dropAt Row.secureKey key ls) (Lookahead.dropAt id key ks) out) :
    Merged u int claims l0 l1 ls ks
      (outRow int key (find l0 key) (find l1 key) (find ls key) (claims.get? key) :: out) where
  increasing := by
    apply List.pairwise_cons.mpr
    refine ⟨fun row hrow => ?_, h.increasing⟩
    exact ((inLists_dropAt hsorted hle).mp ((h.keys _).mp ⟨row, hrow, rfl⟩)).2
  keys := by
    intro k
    constructor
    · rintro ⟨row, hrow, rfl⟩
      rcases List.mem_cons.mp hrow with rfl | hrow
      · exact hin
      · exact ((inLists_dropAt hsorted hle).mp ((h.keys _).mp ⟨row, hrow, rfl⟩)).1
    · intro hk
      rcases (hle k hk).eq_or_lt with rfl | hlt
      · exact ⟨_, List.mem_cons_self, rfl⟩
      · obtain ⟨row, hrow, hkey⟩ := (h.keys k).mpr ((inLists_dropAt hsorted hle).mpr ⟨hk, hlt⟩)
        exact ⟨row, List.mem_cons_of_mem _ hrow, hkey⟩
  rows := by
    intro row hrow
    rcases List.mem_cons.mp hrow with rfl | hrow
    · exact ⟨hok, rfl⟩
    · have hlt := ((inLists_dropAt hsorted hle).mp ((h.keys _).mp ⟨row, hrow, rfl⟩)).2
      have hrest := h.rows row hrow
      simp only [find, Lookahead.find_dropAt hlt.ne'] at hrest ⊢
      exact hrest

/-- The heads at the next key are what the lists have at it. -/
theorem headAt_eq {key : Text} (hsorted : Sorted l0 l1 ls ks) (hle : ∀ k, InLists l0 l1 ls ks k → key ≤ k) :
    Lookahead.headAt Row.secureKey key l0 = find l0 key ∧ Lookahead.headAt Row.secureKey key l1 = find l1 key ∧
      Lookahead.headAt Row.secureKey key ls = find ls key :=
  ⟨Lookahead.headAt_eq_find hsorted.liquid0 fun r hr => hle _ (.inl ⟨r, hr, rfl⟩),
    Lookahead.headAt_eq_find hsorted.liquid1 fun r hr => hle _ (.inr (.inl ⟨r, hr, rfl⟩)),
    Lookahead.headAt_eq_find hsorted.staking fun r hr => hle _ (.inr (.inr (.inl ⟨r, hr, rfl⟩)))⟩

/-- A finished loop has read its files to the end, and what it wrote is their join. -/
theorem mergeLoop_ok {fuel : ℕ} {summary summary' : Summary} {a0 a1 : Ahead Liquid} {as : Ahead Staking}
    {out : List OutRow} (h : mergeLoop u int claims fuel summary a0 a1 as ks = .ok (out, summary')) :
    summary' = out.foldl Summary.add summary ∧ ∃ l0 l1 ls, a0.Yields l0 ∧ a1.Yields l1 ∧ as.Yields ls ∧
      (Sorted l0 l1 ls ks → Merged u int claims l0 l1 ls ks out) := by
  induction fuel generalizing summary a0 a1 as ks out with
  | zero => cases h
  | succ fuel ih =>
    rw [mergeLoop] at h
    cases hkey : nextKey a0 a1 as ks with
    | none =>
      rw [hkey] at h
      obtain ⟨rfl, rfl⟩ := Prod.mk.inj (Except.ok.inj h)
      obtain ⟨h0, h1, hs, hk⟩ := rows_of_nextKey_none hkey
      refine ⟨rfl, [], [], [], Lookahead.yields_nil h0, Lookahead.yields_nil h1, Lookahead.yields_nil hs, fun _ => ?_⟩
      exact ⟨List.Pairwise.nil, by simp [InLists, hk], nofun⟩
    | some key =>
      rw [hkey] at h
      obtain ⟨⟨current0, b0⟩, h0, h⟩ := of_bind_ok h
      obtain ⟨⟨current1, b1⟩, h1, h⟩ := of_bind_ok h
      obtain ⟨⟨currentStake, bs⟩, hs, h⟩ := of_bind_ok h
      obtain ⟨row, hrow, h⟩ := of_bind_ok h
      obtain ⟨⟨rest, summary''⟩, hrest, hout⟩ := of_map_ok h
      obtain ⟨rfl, rfl⟩ := Prod.mk.inj hout
      obtain ⟨hsummary, m0, m1, ms, hm0, hm1, hms, hmerged⟩ := ih hrest
      obtain ⟨l0, hl0, rfl, rfl⟩ := Lookahead.exists_of_take h0 hm0
      obtain ⟨l1, hl1, rfl, rfl⟩ := Lookahead.exists_of_take h1 hm1
      obtain ⟨ls, hls, rfl, rfl⟩ := Lookahead.exists_of_take hs hms
      refine ⟨hsummary, l0, l1, ls, hl0, hl1, hls, fun hsorted => ?_⟩
      obtain ⟨hin, hle⟩ := of_nextKey_some hl0 hl1 hls hsorted hkey
      obtain ⟨e0, e1, es⟩ := headAt_eq hsorted hle
      rw [e0, e1, es] at hrow
      obtain ⟨hok, rfl⟩ := mergeRow_ok_iff.mp hrow
      exact (hmerged (hsorted.dropAt key)).cons hsorted hin hle hok

/-- With the next key, one of the lists gets shorter. -/
theorem length_dropAt_lt {key : Text} (hsorted : Sorted l0 l1 ls ks) (hin : InLists l0 l1 ls ks key)
    (hle : ∀ k, InLists l0 l1 ls ks k → key ≤ k) :
    (Lookahead.dropAt Row.secureKey key l0).length + (Lookahead.dropAt Row.secureKey key l1).length +
      (Lookahead.dropAt Row.secureKey key ls).length + (Lookahead.dropAt id key ks).length <
      l0.length + l1.length + ls.length + ks.length := by
  have h0 := Lookahead.length_dropAt_le Row.secureKey key l0
  have h1 := Lookahead.length_dropAt_le Row.secureKey key l1
  have hs := Lookahead.length_dropAt_le Row.secureKey key ls
  have hk := Lookahead.length_dropAt_le id key ks
  obtain ⟨e0, e1, es⟩ := headAt_eq hsorted hle
  have hfound : ∀ {β : Type} (l : List (Row β)), (∃ row ∈ l, row.secureKey = key) → find l key ≠ none := by
    intro β l hrow hnone
    obtain ⟨row, hmem, hkey⟩ := hrow
    rw [find, List.find?_eq_none] at hnone
    simpa [hkey] using hnone row hmem
  rcases hin with h | h | h | h
  · have := Lookahead.length_dropAt_lt (e0 ▸ hfound l0 h)
    omega
  · have := Lookahead.length_dropAt_lt (e1 ▸ hfound l1 h)
    omega
  · have := Lookahead.length_dropAt_lt (es ▸ hfound ls h)
    omega
  · have ek := Lookahead.headAt_eq_find hsorted.receipts fun r hr => hle r (.inr (.inr (.inr hr)))
    have hhead : Lookahead.headAt id key ks ≠ none := by
      rw [ek]
      intro hnone
      rw [List.find?_eq_none] at hnone
      simpa using hnone key h
    have := Lookahead.length_dropAt_lt hhead
    omega

/-- With rows that all can be written, the loop comes to its end. -/
theorem mergeLoop_total {fuel : ℕ} (summary : Summary) {a0 a1 : Ahead Liquid} {as : Ahead Staking}
    (hfuel : l0.length + l1.length + ls.length + ks.length < fuel) (h0 : a0.Yields l0) (h1 : a1.Yields l1)
    (hs : as.Yields ls) (hsorted : Sorted l0 l1 ls ks)
    (hok : ∀ k, InLists l0 l1 ls ks k → RowOk u int k (find l0 k) (find l1 k) (find ls k) (claims.get? k)) :
    ∃ r, mergeLoop u int claims fuel summary a0 a1 as ks = .ok r := by
  induction fuel generalizing summary a0 a1 as l0 l1 ls ks with
  | zero => omega
  | succ fuel ih =>
    rw [mergeLoop]
    cases hkey : nextKey a0 a1 as ks with
    | none => exact ⟨_, rfl⟩
    | some key =>
      obtain ⟨hin, hle⟩ := of_nextKey_some h0 h1 hs hsorted hkey
      obtain ⟨e0, e1, es⟩ := headAt_eq hsorted hle
      obtain ⟨b0, ht0, hb0⟩ := Lookahead.take_total Row.secureKey key h0
      obtain ⟨b1, ht1, hb1⟩ := Lookahead.take_total Row.secureKey key h1
      obtain ⟨bs, hts, hbs⟩ := Lookahead.take_total Row.secureKey key hs
      have hrow := mergeRow_ok_iff.mpr ⟨hok key hin, rfl⟩
      have hshort := length_dropAt_lt hsorted hin hle
      obtain ⟨r, hr⟩ := ih (summary.add (outRow int key (find l0 key) (find l1 key) (find ls key) (claims.get? key)))
        (by omega) hb0 hb1 hbs (hsorted.dropAt key) (by
          intro k hk
          obtain ⟨hk, hlt⟩ := (inLists_dropAt hsorted hle).mp hk
          have hrest := hok k hk
          simp only [find, Lookahead.find_dropAt hlt.ne'] at hrest ⊢
          exact hrest)
      refine ⟨(outRow int key (find l0 key) (find l1 key) (find ls key) (claims.get? key) :: r.1, r.2), ?_⟩
      dsimp only
      rw [ht0, bind_ok_left, ht1, bind_ok_left, hts, bind_ok_left, e0, e1, es, hrow, bind_ok_left, hr]
      rfl

end Loop

end HarmonyMigration.Claims.SupplyLedger
