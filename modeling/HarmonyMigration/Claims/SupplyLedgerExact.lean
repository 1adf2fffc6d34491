import HarmonyMigration.Claims.SupplyLedgerMerge

/-! When the cutoff ledger is written, and what is in it: one row for every key of the inputs, with what each input has
at the key. -/

namespace HarmonyMigration.Claims.SupplyLedger

open Airdrop.One1 ContractReview Decimal Except

/-! ### What the inputs say of a key -/

section Spec

variable (u : Lower) (int : Text → Option ℤ)

/-- The row of a file whose lower-cased key this is. -/
def rowAt {β : Type} (l : List (Row β)) (key : Text) : Option (Row β) := l.find? fun row => u.lower row.secureKey = key

namespace Inputs

variable (I : Inputs)

def Occurs (key : Text) : Prop :=
  (∃ row ∈ I.liquid0, u.lower row.secureKey = key) ∨ (∃ row ∈ I.liquid1, u.lower row.secureKey = key) ∨
    (∃ row ∈ I.staking, u.lower row.secureKey = key) ∨ ∃ r ∈ I.receipts.receipts, u.lower r.secureKey = key

def liquid0At (key : Text) : ℤ := fieldOf int (rowAt u I.liquid0 key) Liquid.balanceAtto

def liquid1At (key : Text) : ℤ := fieldOf int (rowAt u I.liquid1 key) Liquid.balanceAtto

def activeAt (key : Text) : ℤ := fieldOf int (rowAt u I.staking key) Staking.activeDelegationAtto

def undelegationAt (key : Text) : ℤ := fieldOf int (rowAt u I.staking key) Staking.pendingUndelegationAtto

def rewardAt (key : Text) : ℤ := fieldOf int (rowAt u I.staking key) Staking.unclaimedRewardAtto

/-- The receipts of a key, over all directions and groups. -/
def receiptsSumAt (key : Text) : ℤ := ((receiptsAt u I.receipts.receipts key).map (receiptAmount int)).sum

def walletAt (key : Text) : ℤ :=
  I.liquid0At u int key + I.liquid1At u int key + I.undelegationAt u int key + I.rewardAt u int key +
    I.receiptsSumAt u int key

/-- An address that an input has for a key. -/
def HasAddress (key a : Text) : Prop :=
  a ≠ [] ∧ ((∃ row ∈ I.liquid0, u.lower row.secureKey = key ∧ row.address = a) ∨
    (∃ row ∈ I.liquid1, u.lower row.secureKey = key ∧ row.address = a) ∨
    (∃ row ∈ I.staking, u.lower row.secureKey = key ∧ row.address = a) ∨
    ∃ r ∈ I.receipts.receipts, u.lower r.secureKey = key ∧ r.recipient = a)

/-- Keys in order, addresses under their keys, no amount below zero, the reported pending total, and something for every
key. -/
structure WellFormed : Prop where
  liquid0 : RowsOk u I.liquid0
  liquid1 : RowsOk u I.liquid1
  staking : RowsOk u I.staking
  named : ∀ r ∈ I.receipts.receipts, HashesTo u r.recipient (u.lower r.secureKey)
  balances0 : ∀ row ∈ I.liquid0, IsAmount int row.body.balanceAtto
  balances1 : ∀ row ∈ I.liquid1, IsAmount int row.body.balanceAtto
  stakes : ∀ row ∈ I.staking, IsAmount int row.body.activeDelegationAtto ∧ IsAmount int row.body.pendingUndelegationAtto ∧
    IsAmount int row.body.unclaimedRewardAtto
  amounts : ∀ r ∈ I.receipts.receipts, IsAmount int r.amountAtto
  pending : int I.receipts.pendingActiveAtto = some (I.receipts.receipts.map (receiptAmount int)).sum
  positive : ∀ key, I.Occurs u key → 0 < I.walletAt u int key + I.activeAt u int key

/-- All inputs spell the address of a key alike, but for the case of letters. -/
def SpelledAlike : Prop := ∀ key a b, I.HasAddress u key a → I.HasAddress u key b → u.lower a = u.lower b

end Inputs

end Spec

variable {u : Lower} {int : Text → Option ℤ} {I : Inputs}

/-! ### Lower-cased rows -/

section Lowered

variable {β : Type} {l : List (Row β)} {key : Text}

theorem find_lowered (l : List (Row β)) (key : Text) : find (l.map (lowered u)) key = (rowAt u l key).map (lowered u) := by
  rw [find, List.find?_map]
  rfl

theorem fieldOf_lowered (row : Option (Row β)) (field : β → Text) :
    fieldOf int (row.map (lowered u)) field = fieldOf int row field := by
  cases row <;> rfl

theorem fieldOk_lowered (row : Option (Row β)) (field : β → Text) :
    FieldOk int (row.map (lowered u)) field ↔ FieldOk int row field := by
  cases row with
  | none => simp [FieldOk]
  | some row => simp [FieldOk, lowered]

theorem rowAt_eq_some_iff (h : Lookahead.Increasing Row.secureKey (l.map (lowered u))) {row : Row β} :
    rowAt u l key = some row ↔ row ∈ l ∧ u.lower row.secureKey = key := by
  constructor
  · intro hrow
    have hkey := List.find?_some hrow
    exact ⟨List.mem_of_find?_eq_some hrow, by simpa using hkey⟩
  · intro ⟨hmem, hkey⟩
    induction l with
    | nil => cases hmem
    | cons first l ih =>
      obtain ⟨hfirst, hrest⟩ := List.pairwise_cons.mp h
      rw [rowAt, List.find?_cons]
      rcases List.mem_cons.mp hmem with rfl | hmem
      · simp [hkey]
      · have hlt : u.lower first.secureKey < u.lower row.secureKey := hfirst _ (List.mem_map_of_mem hmem)
        have hne : u.lower first.secureKey ≠ key := hkey ▸ hlt.ne
        simpa [hne, rowAt] using ih hrest hmem

theorem forall_rowAt {p : Row β → Prop} (h : Lookahead.Increasing Row.secureKey (l.map (lowered u))) :
    (∀ row ∈ l, p row) ↔ ∀ key, ∀ row ∈ rowAt u l key, p row := by
  constructor
  · intro hall key row hrow
    exact hall row ((rowAt_eq_some_iff h).mp hrow).1
  · intro hall row hrow
    exact hall (u.lower row.secureKey) row ((rowAt_eq_some_iff h).mpr ⟨hrow, rfl⟩)

theorem exists_lowered_iff : (∃ row ∈ l.map (lowered u), row.secureKey = key) ↔ ∃ row ∈ l, u.lower row.secureKey = key := by
  constructor
  · rintro ⟨_, hrow, rfl⟩
    obtain ⟨row, hmem, rfl⟩ := List.mem_map.mp hrow
    exact ⟨row, hmem, rfl⟩
  · rintro ⟨row, hmem, rfl⟩
    exact ⟨lowered u row, List.mem_map_of_mem hmem, rfl⟩

end Lowered

/-! ### The receipts as one more list -/

section Claims

variable {claims : Dict Text Pending} {l : List Receipt} {key : Text}

theorem pendingAt_amount : (pendingAt u int l key).elim 0 Pending.amount = ((receiptsAt u l key).map (receiptAmount int)).sum := by
  rw [pendingAt]
  cases receiptsAt u l key with
  | nil => rfl
  | cons r rs => rfl

theorem mem_keys_iff (h : ∀ key, claims.get? key = pendingAt u int l key) :
    key ∈ claims.keys ↔ ∃ r ∈ l, u.lower r.secureKey = key := by
  have hnone : key ∉ claims.keys ↔ receiptsAt u l key = [] := by
    rw [← Dict.get?_eq_none_iff, h, pendingAt, Option.map_eq_none_iff, List.head?_eq_none_iff]
  rw [← not_iff_not, hnone, receiptsAt, List.filter_eq_nil_iff]
  simp

theorem length_keys_le (h : ∀ key, claims.get? key = pendingAt u int l key) : claims.keys.length ≤ l.length := by
  have hsub : claims.keys ⊆ l.map fun r => u.lower r.secureKey := by
    intro key hkey
    obtain ⟨r, hr, rfl⟩ := (mem_keys_iff h).mp hkey
    exact List.mem_map_of_mem hr
  have hnd : claims.keys.Nodup := claims.nodup
  have hle := (List.subperm_of_subset hnd hsub).length_le
  rwa [List.length_map] at hle

theorem increasing_keys (claims : Dict Text Pending) :
    Lookahead.Increasing id (claims.keys.insertionSort (· ≤ ·)) := by
  have hnd : (claims.keys.insertionSort (· ≤ ·)).Nodup :=
    (List.perm_insertionSort _ _).nodup_iff.mpr claims.nodup
  exact ((List.pairwise_insertionSort (· ≤ ·) claims.keys).and hnd).imp fun h => lt_of_le_of_ne h.1 h.2

end Claims

/-! ### The four lists of the loop -/

section Lists

variable (u I) in
def lists0 : List (Row Liquid) := I.liquid0.map (lowered u)

variable (u I) in
def lists1 : List (Row Liquid) := I.liquid1.map (lowered u)

variable (u I) in
def listsStaking : List (Row Staking) := I.staking.map (lowered u)

variable {claims : Dict Text Pending} {key : Text}

theorem inLists_iff (h : ∀ key, claims.get? key = pendingAt u int I.receipts.receipts key) :
    InLists (lists0 u I) (lists1 u I) (listsStaking u I) (claims.keys.insertionSort (· ≤ ·)) key ↔ I.Occurs u key := by
  rw [InLists, lists0, lists1, listsStaking, exists_lowered_iff, exists_lowered_iff, exists_lowered_iff,
    List.mem_insertionSort, mem_keys_iff h]
  rfl

/-- The amounts of a key, in the lists and in the inputs. -/
theorem totalOf_eq (h : ∀ key, claims.get? key = pendingAt u int I.receipts.receipts key) :
    totalOf int (find (lists0 u I) key) (find (lists1 u I) key) (find (listsStaking u I) key) (claims.get? key) =
      I.walletAt u int key + I.activeAt u int key := by
  rw [totalOf, lists0, lists1, listsStaking, find_lowered, find_lowered, find_lowered, h, pendingAt_amount]
  simp only [fieldOf_lowered]
  rfl

theorem mem_presentAddresses {c0 c1 : Option (Row Liquid)} {cs : Option (Row Staking)} {cr : Option Pending} {a : Text} :
    a ∈ presentAddresses c0 c1 cs cr ↔ a ≠ [] ∧ (c0.map Row.address = some a ∨ c1.map Row.address = some a ∨
      cs.map Row.address = some a ∨ cr.map Pending.address = some a) := by
  rw [presentAddresses, List.mem_filter, List.reduceOption_mem_iff]
  simp only [List.mem_cons, List.not_mem_nil, or_false, eq_comm (a := some a), ne_eq, decide_not, Bool.not_eq_true',
    decide_eq_false_iff_not]
  exact and_comm

theorem address_find_iff {β : Type} {l : List (Row β)} {a : Text} (h : RowsOk u l) :
    (find (l.map (lowered u)) key).map Row.address = some a ↔ ∃ row ∈ l, u.lower row.secureKey = key ∧ row.address = a := by
  rw [find_lowered, Option.map_map, Option.map_eq_some_iff]
  simp only [rowAt_eq_some_iff h.increasing, and_assoc]
  rfl

theorem mem_lists_addresses (h0 : RowsOk u I.liquid0) (h1 : RowsOk u I.liquid1) (hs : RowsOk u I.staking)
    (h : ∀ key, claims.get? key = pendingAt u int I.receipts.receipts key) {a : Text} :
    a ∈ presentAddresses (find (lists0 u I) key) (find (lists1 u I) key) (find (listsStaking u I) key) (claims.get? key) →
      I.HasAddress u key a := by
  rw [mem_presentAddresses, lists0, lists1, listsStaking, address_find_iff h0, address_find_iff h1, address_find_iff hs, h]
  intro ⟨hne, hwhere⟩
  refine ⟨hne, ?_⟩
  rcases hwhere with hrow | hrow | hrow | hreceipt
  · exact .inl hrow
  · exact .inr (.inl hrow)
  · exact .inr (.inr (.inl hrow))
  · rw [pendingAt, Option.map_map, Option.map_eq_some_iff] at hreceipt
    obtain ⟨r, hr, rfl⟩ := hreceipt
    obtain ⟨hmem, hkey⟩ := mem_receiptsAt.mp (List.mem_of_head? hr)
    exact .inr (.inr (.inr ⟨r, hmem, hkey, rfl⟩))

/-- Every address of a key is, up to case, among those that the loop compares. -/
theorem exists_mem_presentAddresses (h0 : RowsOk u I.liquid0) (h1 : RowsOk u I.liquid1) (hs : RowsOk u I.staking)
    (hr : ReceiptsOk u int I.receipts.receipts)
    (h : ∀ key, claims.get? key = pendingAt u int I.receipts.receipts key) {a : Text} (ha : I.HasAddress u key a) :
    ∃ b ∈ presentAddresses (find (lists0 u I) key) (find (lists1 u I) key) (find (listsStaking u I) key)
      (claims.get? key), u.lower a = u.lower b := by
  obtain ⟨hne, hwhere⟩ := ha
  rcases hwhere with hrow | hrow | hrow | ⟨r, hmem, hkey, rfl⟩
  · exact ⟨a, mem_presentAddresses.mpr ⟨hne, .inl ((address_find_iff h0).mpr hrow)⟩, rfl⟩
  · exact ⟨a, mem_presentAddresses.mpr ⟨hne, .inr (.inl ((address_find_iff h1).mpr hrow))⟩, rfl⟩
  · exact ⟨a, mem_presentAddresses.mpr ⟨hne, .inr (.inr (.inl ((address_find_iff hs).mpr hrow)))⟩, rfl⟩
  · -- the first receipt of the key stands for all of them
    obtain ⟨first, hfirst⟩ : ∃ first, (receiptsAt u I.receipts.receipts key).head? = some first := by
      cases hat : receiptsAt u I.receipts.receipts key with
      | nil => exact absurd (mem_receiptsAt.mpr ⟨hmem, hkey⟩) (by rw [hat]; simp)
      | cons first rest => exact ⟨first, rfl⟩
    obtain ⟨hfirstMem, hfirstKey⟩ := mem_receiptsAt.mp (List.mem_of_head? hfirst)
    refine ⟨first.recipient, mem_presentAddresses.mpr ⟨?_, ?_⟩, hr.same r hmem first hfirstMem (hkey.trans hfirstKey.symm)⟩
    · intro hempty
      obtain ⟨normalized, hname⟩ := hr.named first hfirstMem
      rw [hempty] at hname
      cases hname
    · rw [h, pendingAt, hfirst]
      exact .inr (.inr (.inr rfl))

end Lists

/-! ### The merge -/

section Main

variable {claims : Dict Text Pending}

theorem sorted_lists (h0 : RowsOk u I.liquid0) (h1 : RowsOk u I.liquid1) (hs : RowsOk u I.staking) :
    Sorted (lists0 u I) (lists1 u I) (listsStaking u I) (claims.keys.insertionSort (· ≤ ·)) where
  liquid0 := h0.increasing
  liquid1 := h1.increasing
  staking := hs.increasing
  receipts := increasing_keys claims

/-- What can be written for a key follows from the inputs. -/
theorem rowOk_of_wellFormed (h : I.WellFormed u int) (hsame : I.SpelledAlike u)
    (hclaims : ∀ key, claims.get? key = pendingAt u int I.receipts.receipts key) {key : Text} (hkey : I.Occurs u key) :
    RowOk u int key (find (lists0 u I) key) (find (lists1 u I) key) (find (listsStaking u I) key) (claims.get? key) := by
  set addresses := presentAddresses (find (lists0 u I) key) (find (lists1 u I) key) (find (listsStaking u I) key)
    (claims.get? key) with haddresses
  have hmem : ∀ a ∈ addresses, I.HasAddress u key a := fun a ha =>
    mem_lists_addresses h.liquid0 h.liquid1 h.staking hclaims ha
  have hhead : addresses.headD [] ≠ [] → addresses.headD [] ∈ addresses := by
    cases addresses with
    | nil => intro hne; exact absurd rfl hne
    | cons a l => intro _; exact List.mem_cons_self
  refine ⟨?_, ?_, ?_, ?_, ?_, ?_, ?_, ?_⟩
  · intro a ha
    have hne : addresses.headD [] ≠ [] := by
      cases hcases : addresses with
      | nil => rw [← haddresses, hcases] at ha; cases ha
      | cons b l => exact (hmem b (by rw [hcases]; simp)).1
    exact hsame key a _ (hmem a ha) (hmem _ (hhead hne))
  · intro hne
    obtain ⟨hne', hwhere⟩ := hmem _ (hhead hne)
    rcases hwhere with ⟨row, hrow, hk, ha⟩ | ⟨row, hrow, hk, ha⟩ | ⟨row, hrow, hk, ha⟩ | ⟨r, hr, hk, ha⟩
    · have hname := h.liquid0.named row hrow (ha ▸ hne')
      rwa [hk, ha] at hname
    · have hname := h.liquid1.named row hrow (ha ▸ hne')
      rwa [hk, ha] at hname
    · have hname := h.staking.named row hrow (ha ▸ hne')
      rwa [hk, ha] at hname
    · have hname := h.named r hr
      rwa [hk, ha] at hname
  · rw [lists0, find_lowered, fieldOk_lowered]
    exact (forall_rowAt h.liquid0.increasing).mp h.balances0 key
  · rw [lists1, find_lowered, fieldOk_lowered]
    exact (forall_rowAt h.liquid1.increasing).mp h.balances1 key
  · rw [listsStaking, find_lowered, fieldOk_lowered]
    exact fun row hrow => ((forall_rowAt h.staking.increasing).mp h.stakes key row hrow).1
  · rw [listsStaking, find_lowered, fieldOk_lowered]
    exact fun row hrow => ((forall_rowAt h.staking.increasing).mp h.stakes key row hrow).2.1
  · rw [listsStaking, find_lowered, fieldOk_lowered]
    exact fun row hrow => ((forall_rowAt h.staking.increasing).mp h.stakes key row hrow).2.2
  · rw [totalOf_eq hclaims]
    exact h.positive key hkey

theorem receiptsOk_of_wellFormed (h : I.WellFormed u int) (hsame : I.SpelledAlike u) :
    ReceiptsOk u int I.receipts.receipts where
  named := h.named
  amounts := h.amounts
  same := by
    have hpresent : ∀ r ∈ I.receipts.receipts, r.recipient ≠ [] := by
      intro r hr hempty
      obtain ⟨normalized, hname⟩ := h.named r hr
      rw [hempty] at hname
      cases hname
    intro r hr r' hr' hkey
    exact hsame (u.lower r.secureKey) _ _ ⟨hpresent r hr, .inr (.inr (.inr ⟨r, hr, rfl, rfl⟩))⟩
      ⟨hpresent r' hr', .inr (.inr (.inr ⟨r', hr', hkey.symm, rfl⟩))⟩

theorem merge_total (h : I.WellFormed u int) (hsame : I.SpelledAlike u) : ∃ r, merge u int I = .ok r := by
  have hreceipts := receiptsOk_of_wellFormed h hsame
  obtain ⟨⟨claims, total⟩, hload, hclaims, htotal⟩ := load_total hreceipts
  have hpending : loadPendingReceipts u int I.receipts = .ok claims := by
    rw [loadPendingReceipts, hload, bind_ok_left, require, if_pos (by rw [h.pending, ← htotal])]
    rfl
  obtain ⟨a0, hpull0, h0⟩ := Lookahead.pull_map_ok (ε := Error) (lists0 u I)
  obtain ⟨a1, hpull1, h1⟩ := Lookahead.pull_map_ok (ε := Error) (lists1 u I)
  obtain ⟨as, hpulls, hs⟩ := Lookahead.pull_map_ok (ε := Error) (listsStaking u I)
  have hrows0 := (rows_eq_map_iff none I.liquid0 (lists0 u I)).mpr ⟨rfl, h.liquid0, by simp⟩
  have hrows1 := (rows_eq_map_iff none I.liquid1 (lists1 u I)).mpr ⟨rfl, h.liquid1, by simp⟩
  have hrowss := (rows_eq_map_iff none I.staking (listsStaking u I)).mpr ⟨rfl, h.staking, by simp⟩
  have hfuel : (lists0 u I).length + (lists1 u I).length + (listsStaking u I).length +
      (claims.keys.insertionSort (· ≤ ·)).length < I.size + 1 := by
    have hkeys : claims.keys.length ≤ I.receipts.receipts.length := length_keys_le hclaims
    rw [lists0, lists1, listsStaking, List.length_map, List.length_map, List.length_map, List.length_insertionSort,
      Inputs.size]
    omega
  obtain ⟨r, hr⟩ := mergeLoop_total (u := u) (.start I.receipts.unsupportedPendingAtto) hfuel h0 h1 hs
    (sorted_lists h.liquid0 h.liquid1 h.staking)
    fun key hkey => rowOk_of_wellFormed h hsame hclaims ((inLists_iff hclaims).mp hkey)
  refine ⟨r, ?_⟩
  rw [merge, hpending, bind_ok_left]
  dsimp only
  rw [hrows0, hpull0, bind_ok_left, hrows1, hpull1, bind_ok_left, hrowss, hpulls, bind_ok_left]
  exact hr

/-- A merge that succeeds has read files in order and written their join. -/
theorem of_merge_ok {out : List OutRow} {summary : Summary} (h : merge u int I = .ok (out, summary)) :
    ∃ claims : Dict Text Pending, (∀ key, claims.get? key = pendingAt u int I.receipts.receipts key) ∧
      ReceiptsOk u int I.receipts.receipts ∧
      int I.receipts.pendingActiveAtto = some (I.receipts.receipts.map (receiptAmount int)).sum ∧
      RowsOk u I.liquid0 ∧ RowsOk u I.liquid1 ∧ RowsOk u I.staking ∧
      Merged u int claims (lists0 u I) (lists1 u I) (listsStaking u I) (claims.keys.insertionSort (· ≤ ·)) out ∧
      summary = out.foldl Summary.add (.start I.receipts.unsupportedPendingAtto) := by
  obtain ⟨claims, hload, h⟩ := of_bind_ok h
  obtain ⟨a0, hpull0, h⟩ := of_bind_ok h
  obtain ⟨a1, hpull1, h⟩ := of_bind_ok h
  obtain ⟨as, hpulls, h⟩ := of_bind_ok h
  obtain ⟨⟨claims', total⟩, hfold, hload⟩ := of_bind_ok hload
  obtain ⟨_, hpending, rfl⟩ := of_map_ok hload
  obtain ⟨hreceipts, hclaims, htotal⟩ := load_ok hfold
  obtain ⟨hsummary, l0, l1, ls, h0, h1, hs, hmerged⟩ := mergeLoop_ok h
  obtain ⟨rfl, hok0, -⟩ := (rows_eq_map_iff none I.liquid0 l0).mp (Lookahead.eq_map_of_pull hpull0 h0)
  obtain ⟨rfl, hok1, -⟩ := (rows_eq_map_iff none I.liquid1 l1).mp (Lookahead.eq_map_of_pull hpull1 h1)
  obtain ⟨rfl, hoks, -⟩ := (rows_eq_map_iff none I.staking ls).mp (Lookahead.eq_map_of_pull hpulls hs)
  refine ⟨claims', hclaims, hreceipts, ?_, hok0, hok1, hoks, hmerged (sorted_lists hok0 hok1 hoks), hsummary⟩
  rw [of_require_ok hpending, ← htotal]

theorem HasAddress.occurs {key a : Text} (h : I.HasAddress u key a) : I.Occurs u key := by
  obtain ⟨-, ⟨row, hrow, hkey, -⟩ | ⟨row, hrow, hkey, -⟩ | ⟨row, hrow, hkey, -⟩ | ⟨r, hr, hkey, -⟩⟩ := h
  · exact .inl ⟨row, hrow, hkey⟩
  · exact .inr (.inl ⟨row, hrow, hkey⟩)
  · exact .inr (.inr (.inl ⟨row, hrow, hkey⟩))
  · exact .inr (.inr (.inr ⟨r, hr, hkey⟩))

theorem wellFormed_of_merge_ok {out : List OutRow} {summary : Summary} (h : merge u int I = .ok (out, summary)) :
    I.WellFormed u int ∧ I.SpelledAlike u := by
  obtain ⟨claims, hclaims, hreceipts, hpending, h0, h1, hs, hmerged, -⟩ := of_merge_ok h
  have hall : ∀ key, I.Occurs u key → RowOk u int key (find (lists0 u I) key) (find (lists1 u I) key)
      (find (listsStaking u I) key) (claims.get? key) := by
    intro key hkey
    obtain ⟨row, hrow, rfl⟩ := (hmerged.keys key).mpr ((inLists_iff hclaims).mpr hkey)
    exact (hmerged.rows row hrow).1
  have hstake : ∀ row ∈ I.staking, ∀ field : Staking → Text,
      FieldOk int (find (listsStaking u I) (u.lower row.secureKey)) field → IsAmount int (field row.body) := by
    intro row hrow field hfield
    rw [listsStaking, find_lowered, fieldOk_lowered] at hfield
    exact hfield row ((rowAt_eq_some_iff hs.increasing).mpr ⟨hrow, rfl⟩)
  refine ⟨⟨h0, h1, hs, hreceipts.named, ?_, ?_, ?_, hreceipts.amounts, hpending, ?_⟩, ?_⟩
  · intro row hrow
    have hfield := (hall _ (.inl ⟨row, hrow, rfl⟩)).liquid0
    rw [lists0, find_lowered, fieldOk_lowered] at hfield
    exact hfield row ((rowAt_eq_some_iff h0.increasing).mpr ⟨hrow, rfl⟩)
  · intro row hrow
    have hfield := (hall _ (.inr (.inl ⟨row, hrow, rfl⟩))).liquid1
    rw [lists1, find_lowered, fieldOk_lowered] at hfield
    exact hfield row ((rowAt_eq_some_iff h1.increasing).mpr ⟨hrow, rfl⟩)
  · intro row hrow
    have hok := hall _ (.inr (.inr (.inl ⟨row, hrow, rfl⟩)))
    exact ⟨hstake row hrow _ hok.active, hstake row hrow _ hok.undelegation, hstake row hrow _ hok.reward⟩
  · intro key hkey
    rw [← totalOf_eq hclaims]
    exact (hall key hkey).positive
  · intro key a b ha hb
    have hok := hall key (HasAddress.occurs ha)
    obtain ⟨a', ha', hlowerA⟩ := exists_mem_presentAddresses h0 h1 hs hreceipts hclaims ha
    obtain ⟨b', hb', hlowerB⟩ := exists_mem_presentAddresses h0 h1 hs hreceipts hclaims hb
    rw [hlowerA, hlowerB, hok.same a' ha', hok.same b' hb']

/-- What a row says of its key. -/
structure RowExact (u : Lower) (int : Text → Option ℤ) (I : Inputs) (row : OutRow) : Prop where
  liquid0 : row.liquidShard0 = I.liquid0At u int row.secureKey
  liquid1 : row.liquidShard1 = I.liquid1At u int row.secureKey
  active : row.activeDelegation = I.activeAt u int row.secureKey
  undelegation : row.pendingUndelegation = I.undelegationAt u int row.secureKey
  reward : row.unclaimedReward = I.rewardAt u int row.secureKey
  receipts : row.pendingCrossShard = I.receiptsSumAt u int row.secureKey
  liquidTotal : row.liquidTotal = row.liquidShard0 + row.liquidShard1
  wallet : row.walletAirdrop = row.liquidShard0 + row.liquidShard1 + row.pendingUndelegation + row.unclaimedReward +
    row.pendingCrossShard
  staked : row.stakedToVault = row.activeDelegation
  total : row.totalClaim = row.walletAirdrop + row.stakedToVault

theorem rowExact_outRow {claims : Dict Text Pending} (key : Text)
    (hclaims : ∀ key, claims.get? key = pendingAt u int I.receipts.receipts key) :
    RowExact u int I (outRow int key (find (lists0 u I) key) (find (lists1 u I) key) (find (listsStaking u I) key)
      (claims.get? key)) := by
  have h0 : ∀ field : Liquid → Text, fieldOf int (find (lists0 u I) key) field = fieldOf int (rowAt u I.liquid0 key) field := by
    intro field
    rw [lists0, find_lowered, fieldOf_lowered]
  have h1 : ∀ field : Liquid → Text, fieldOf int (find (lists1 u I) key) field = fieldOf int (rowAt u I.liquid1 key) field := by
    intro field
    rw [lists1, find_lowered, fieldOf_lowered]
  have hs : ∀ field : Staking → Text,
      fieldOf int (find (listsStaking u I) key) field = fieldOf int (rowAt u I.staking key) field := by
    intro field
    rw [listsStaking, find_lowered, fieldOf_lowered]
  have hr : (claims.get? key).elim 0 Pending.amount = I.receiptsSumAt u int key := by
    rw [hclaims, pendingAt_amount]
    rfl
  exact ⟨h0 _, h1 _, hs _, hs _, hs _, hr, rfl, rfl, rfl, rfl⟩

/-- A total of the summary that each row adds to is the sum of a column. -/
theorem foldl_column {f : Summary → ℤ} {g : OutRow → ℤ} (h : ∀ s row, f (s.add row) = f s + g row) (out : List OutRow)
    (s : Summary) : f (out.foldl Summary.add s) = f s + (out.map g).sum := by
  induction out generalizing s with
  | nil => simp
  | cons row out ih => rw [List.foldl_cons, ih, h, List.map_cons, List.sum_cons, add_assoc]

theorem foldl_rows (out : List OutRow) (s : Summary) : (out.foldl Summary.add s).rows = s.rows + out.length := by
  induction out generalizing s with
  | nil => rfl
  | cons row out ih =>
    rw [List.foldl_cons, ih, List.length_cons, show (s.add row).rows = s.rows + 1 from rfl]
    omega

/-- Along the keys of the output, each file is met once. -/
theorem sum_fieldOf {β : Type} {l : List (Row β)} {out : List OutRow} (field : β → Text) (h : RowsOk u l)
    (hout : Lookahead.Increasing OutRow.secureKey out)
    (hmem : ∀ row ∈ l, ∃ o ∈ out, o.secureKey = u.lower row.secureKey) :
    (out.map fun o => fieldOf int (rowAt u l o.secureKey) field).sum = (l.map fun row => amount int (field row.body)).sum := by
  have hnd : (out.map OutRow.secureKey).Nodup := List.pairwise_map.mpr (hout.imp fun h => h.ne)
  have hsub : ∀ row ∈ l.map (lowered u), row.secureKey ∈ out.map OutRow.secureKey := by
    intro row hrow
    obtain ⟨raw, hraw, rfl⟩ := List.mem_map.mp hrow
    obtain ⟨o, ho, hkey⟩ := hmem raw hraw
    exact List.mem_map.mpr ⟨o, ho, hkey⟩
  have hsum := Lookahead.sum_find h.increasing hnd hsub fun row => amount int (field row.body)
  rw [List.map_map, List.map_map] at hsum
  rw [show (l.map fun row => amount int (field row.body)) =
    l.map ((fun row => amount int (field row.body)) ∘ lowered u) from rfl, ← hsum]
  apply congrArg
  apply List.map_congr_left
  intro o _
  have hfind : (l.map (lowered u)).find? (fun row => row.secureKey = o.secureKey) = (rowAt u l o.secureKey).map (lowered u) :=
    find_lowered l o.secureKey
  rw [Function.comp_apply, hfind]
  cases rowAt u l o.secureKey <;> rfl

/-- Every total is the sum of its input column. -/
structure SummaryExact (int : Text → Option ℤ) (I : Inputs) (out : List OutRow) (summary : Summary) : Prop where
  rows : summary.rows = out.length
  liquid0 : summary.liquidShard0 = (I.liquid0.map fun row => amount int row.body.balanceAtto).sum
  liquid1 : summary.liquidShard1 = (I.liquid1.map fun row => amount int row.body.balanceAtto).sum
  active : summary.activeDelegation = (I.staking.map fun row => amount int row.body.activeDelegationAtto).sum
  undelegation : summary.pendingUndelegation = (I.staking.map fun row => amount int row.body.pendingUndelegationAtto).sum
  reward : summary.unclaimedReward = (I.staking.map fun row => amount int row.body.unclaimedRewardAtto).sum
  receipts : summary.pendingCrossShard = (I.receipts.receipts.map (receiptAmount int)).sum
  reported : some summary.pendingCrossShard = int I.receipts.pendingActiveAtto
  wallet : summary.walletAirdrop = summary.liquidShard0 + summary.liquidShard1 + summary.pendingUndelegation +
    summary.unclaimedReward + summary.pendingCrossShard
  staked : summary.stakedToVault = summary.activeDelegation
  total : summary.totalClaim = summary.walletAirdrop + summary.stakedToVault

theorem summaryExact_of_merge_ok {out : List OutRow} {summary : Summary} (h : merge u int I = .ok (out, summary)) :
    SummaryExact int I out summary := by
  obtain ⟨claims, hclaims, hreceipts, hpending, h0, h1, hs, hmerged, hsummary⟩ := of_merge_ok h
  have hrow : ∀ row ∈ out, RowExact u int I row := by
    intro row hrow
    rw [(hmerged.rows row hrow).2]
    exact rowExact_outRow _ hclaims
  have hcolumn : ∀ {f : Summary → ℤ} {g : OutRow → ℤ}, f (.start I.receipts.unsupportedPendingAtto) = 0 →
      (∀ s row, f (s.add row) = f s + g row) → f summary = (out.map g).sum := by
    intro f g hzero hadd
    rw [hsummary, foldl_column hadd, hzero, zero_add]
  have hoccurs : ∀ key, I.Occurs u key → ∃ o ∈ out, o.secureKey = key := fun key hkey =>
    (hmerged.keys key).mpr ((inLists_iff hclaims).mpr hkey)
  have hsplit : ∀ {f g : OutRow → ℤ}, (∀ row ∈ out, f row = g row) → (out.map f).sum = (out.map g).sum := by
    intro f g hfg
    rw [List.map_congr_left hfg]
  have e0 : summary.liquidShard0 = (out.map OutRow.liquidShard0).sum := hcolumn rfl fun _ _ => rfl
  have e1 : summary.liquidShard1 = (out.map OutRow.liquidShard1).sum := hcolumn rfl fun _ _ => rfl
  have ea : summary.activeDelegation = (out.map OutRow.activeDelegation).sum := hcolumn rfl fun _ _ => rfl
  have eu : summary.pendingUndelegation = (out.map OutRow.pendingUndelegation).sum := hcolumn rfl fun _ _ => rfl
  have er : summary.unclaimedReward = (out.map OutRow.unclaimedReward).sum := hcolumn rfl fun _ _ => rfl
  have ep : summary.pendingCrossShard = (out.map OutRow.pendingCrossShard).sum := hcolumn rfl fun _ _ => rfl
  have ew : summary.walletAirdrop = (out.map OutRow.walletAirdrop).sum := hcolumn rfl fun _ _ => rfl
  have es : summary.stakedToVault = (out.map OutRow.stakedToVault).sum := hcolumn rfl fun _ _ => rfl
  have et : summary.totalClaim = (out.map OutRow.totalClaim).sum := hcolumn rfl fun _ _ => rfl
  have hreceiptsSum : summary.pendingCrossShard = (I.receipts.receipts.map (receiptAmount int)).sum := by
    have hnd : (out.map OutRow.secureKey).Nodup := List.pairwise_map.mpr (hmerged.increasing.imp fun h => h.ne)
    have hkeys : ∀ r ∈ I.receipts.receipts, u.lower r.secureKey ∈ out.map OutRow.secureKey := by
      intro r hr
      obtain ⟨o, ho, hkey⟩ := hoccurs _ (.inr (.inr (.inr ⟨r, hr, rfl⟩)))
      exact List.mem_map.mpr ⟨o, ho, hkey⟩
    have hsum := Dict.sum_by_key hnd (P := fun _ => true) (v := receiptAmount int) hkeys
    simp only [List.filter_true, List.map_map] at hsum
    rw [ep, hsplit fun row hmem => (hrow row hmem).receipts]
    exact hsum
  refine ⟨?_, ?_, ?_, ?_, ?_, ?_, hreceiptsSum, ?_, ?_, ?_, ?_⟩
  · rw [hsummary, foldl_rows, Summary.start, Nat.zero_add]
  · rw [e0, hsplit fun row hmem => (hrow row hmem).liquid0]
    exact sum_fieldOf _ h0 hmerged.increasing fun row hmem => hoccurs _ (.inl ⟨row, hmem, rfl⟩)
  · rw [e1, hsplit fun row hmem => (hrow row hmem).liquid1]
    exact sum_fieldOf _ h1 hmerged.increasing fun row hmem => hoccurs _ (.inr (.inl ⟨row, hmem, rfl⟩))
  · rw [ea, hsplit fun row hmem => (hrow row hmem).active]
    exact sum_fieldOf _ hs hmerged.increasing fun row hmem => hoccurs _ (.inr (.inr (.inl ⟨row, hmem, rfl⟩)))
  · rw [eu, hsplit fun row hmem => (hrow row hmem).undelegation]
    exact sum_fieldOf _ hs hmerged.increasing fun row hmem => hoccurs _ (.inr (.inr (.inl ⟨row, hmem, rfl⟩)))
  · rw [er, hsplit fun row hmem => (hrow row hmem).reward]
    exact sum_fieldOf _ hs hmerged.increasing fun row hmem => hoccurs _ (.inr (.inr (.inl ⟨row, hmem, rfl⟩)))
  · rw [hreceiptsSum, hpending]
  · rw [ew, e0, e1, eu, er, ep, hsplit fun row hmem => (hrow row hmem).wallet]
    simp only [List.sum_map_add]
  · rw [es, ea, hsplit fun row hmem => (hrow row hmem).staked]
  · rw [et, ew, es, hsplit fun row hmem => (hrow row hmem).total]
    simp only [List.sum_map_add]

/-- The merge succeeds exactly on well-formed inputs that spell each address alike, and then its rows are the full outer
join of the inputs. -/
theorem merge_exact (u : Lower) (int : Text → Option ℤ) (I : Inputs) :
    ((∃ r, merge u int I = .ok r) ↔ I.WellFormed u int ∧ I.SpelledAlike u) ∧
    ∀ out summary, merge u int I = .ok (out, summary) →
      Lookahead.Increasing OutRow.secureKey out ∧
      (∀ key, (∃ row ∈ out, row.secureKey = key) ↔ I.Occurs u key) ∧
      (∀ row ∈ out, RowExact u int I row) ∧ SummaryExact int I out summary := by
  refine ⟨⟨?_, fun h => merge_total h.1 h.2⟩, ?_⟩
  · intro ⟨⟨out, summary⟩, h⟩
    exact wellFormed_of_merge_ok h
  · intro out summary h
    obtain ⟨claims, hclaims, -, -, -, -, -, hmerged, -⟩ := of_merge_ok h
    refine ⟨hmerged.increasing, fun key => (hmerged.keys key).trans (inLists_iff hclaims), ?_, summaryExact_of_merge_ok h⟩
    intro row hrow
    rw [(hmerged.rows row hrow).2]
    exact rowExact_outRow _ hclaims

end Main

/-! ### Two spellings of one address -/

section Spellings

open Slices

def zeroAddress : Bytes := List.replicate 20 0

def zeroKey : Text := hexPrefix ++ hexText (Keccak256.keccak256Pure zeroAddress)

def zeroHex : Text := hexPrefix ++ hexText zeroAddress

def zeroOne1 : Text := toOne1 one zeroAddress

/-- The zero address has one atto on each shard. Shard 0 names it in hexadecimal, shard 1 in bech32. -/
def twoSpellings : Inputs where
  liquid0 := [⟨zeroKey, zeroHex, ⟨['1'], [], []⟩⟩]
  liquid1 := [⟨zeroKey, zeroOne1, ⟨['1'], [], []⟩⟩]
  staking := []
  receipts := ⟨[], ['0'], ['0']⟩

theorem lower_zeroKey : asciiLower.lower zeroKey = zeroKey := lower_hexAddress asciiLower _

/-- Both spellings are texts of the address. -/
theorem hashesTo_zeroKey {t : Text} (h : anyToHex asciiLower t = some zeroHex) : HashesTo asciiLower t zeroKey := by
  refine ⟨zeroHex, ?_⟩
  have hread : fromhex (zeroHex.drop 2) = some zeroAddress := fromhex_hexText zeroAddress
  rw [requireAddressSecureKey, h]
  simp only [hread, lower_zeroKey]
  rw [zeroKey, if_pos rfl]

theorem rowAt_zero (t : Text) (body : Liquid) :
    rowAt asciiLower [⟨zeroKey, t, body⟩] zeroKey = some ⟨zeroKey, t, body⟩ := by
  rw [rowAt, List.find?_cons, lower_zeroKey]
  simp

theorem occurs_zeroKey {key : Text} (h : twoSpellings.Occurs asciiLower key) : key = zeroKey := by
  simp only [Inputs.Occurs, twoSpellings, List.mem_singleton, exists_eq_left, lower_zeroKey, List.not_mem_nil, false_and,
    exists_false, false_or] at h
  rcases h with h | h | ⟨r, hr, -⟩
  · exact h.symm
  · exact h.symm
  · cases hr

theorem twoSpellings_wellFormed : twoSpellings.WellFormed asciiLower parseInt := by
  have hrows : ∀ t body, anyToHex asciiLower t = some zeroHex → RowsOk asciiLower [⟨zeroKey, t, (body : Liquid)⟩] := by
    intro t body h
    refine ⟨List.pairwise_singleton _ _, ?_⟩
    intro row hrow _
    obtain rfl := List.mem_singleton.mp hrow
    rw [lower_zeroKey]
    exact hashesTo_zeroKey h
  have hone : IsAmount parseInt ['1'] := ⟨1, by decide, by decide⟩
  refine ⟨hrows _ _ (by decide +kernel), hrows _ _ (by decide +kernel), ⟨List.Pairwise.nil, nofun⟩, nofun, ?_, ?_, nofun,
    nofun, by decide, ?_⟩
  · intro row hrow
    obtain rfl := List.mem_singleton.mp hrow
    exact hone
  · intro row hrow
    obtain rfl := List.mem_singleton.mp hrow
    exact hone
  · intro key hkey
    obtain rfl := occurs_zeroKey hkey
    simp only [Inputs.walletAt, Inputs.liquid0At, Inputs.liquid1At, Inputs.activeAt, Inputs.undelegationAt,
      Inputs.rewardAt, Inputs.receiptsSumAt, twoSpellings, rowAt_zero]
    decide

/-- Every address is the address of its key, and still the merge refuses. -/
theorem merge_refuses_spellings :
    ∃ I : Inputs, I.WellFormed asciiLower parseInt ∧ ∀ r, merge asciiLower parseInt I ≠ .ok r := by
  refine ⟨twoSpellings, twoSpellings_wellFormed, ?_⟩
  intro ⟨out, summary⟩ h
  have hsame := (wellFormed_of_merge_ok h).2
  have hdiffer : asciiLower.lower zeroHex ≠ asciiLower.lower zeroOne1 := by decide +kernel
  refine hdiffer (hsame zeroKey zeroHex zeroOne1 ?_ ?_)
  · exact ⟨by decide, .inl ⟨_, List.mem_singleton_self _, lower_zeroKey, rfl⟩⟩
  · exact ⟨by decide +kernel, .inr (.inl ⟨_, List.mem_singleton_self _, lower_zeroKey, rfl⟩)⟩

end Spellings

end HarmonyMigration.Claims.SupplyLedger
