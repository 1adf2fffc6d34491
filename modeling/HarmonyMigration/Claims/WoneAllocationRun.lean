import HarmonyMigration.Claims.WoneAllocation

/-! The walk of `verify-wone-allocation.py`, row by row: what an accepted row says, what the walk keeps of it, and
what a whole walk says of the three files. -/

namespace HarmonyMigration.Claims.WoneAllocation

open Erc20 Except Decimal Wone Verify

/-! ### What the holders are owed -/

/-- What a holder is delivered beside a native claim of `nativeTotal`. -/
def owed (ctx : Context) (holders : Dict Address ℤ) (nativeTotal : ℤ) (a : Address) : ℤ :=
  let wone := if a ∈ ctx.exclusions then 0 else holders.getD a 0
  if minimum ≤ nativeTotal + wone ∨ a ∈ ctx.aggregateDelivery then wone else 0

/-- A row of the overlay, the native row that it was matched with and what it amounts to. -/
structure Settled where
  row : Row
  native : Option Row
  values : Values

namespace Settled

def qualifies (e : Settled) : Bool := minimum ≤ e.values.qualification

/-- A component of the native row, zero without one. -/
def nativeAmount (e : Settled) (c : Component) : ℤ := (e.native.map fun n => (value n c : ℤ)).getD 0

end Settled

/-- The row is the one that its holder is to have. -/
structure Settles (ctx : Context) (holders : Dict Address ℤ) (e : Settled) : Prop where
  address : normalizeAddress (e.row .address) = some e.values.address
  secureKey : e.row .secureKey = secureKeyText ctx.keccak e.values.address
  key : e.values.key = (ctx.keccak.hash e.values.address).toNat
  nativePresent : e.values.nativePresent = e.native.isSome
  preserved : ∀ n ∈ e.native, validateNativeRow ctx.keccak n = .ok e.values.address ∧
    ∀ f ∈ nativeFields, f ∉ mutatedNativeFields → e.row f = n f
  fresh : e.native = none → e.values.address ∈ holders.keys ∧ ∃ m, ctx.metadata.get? e.values.address = some m ∧
    validateWoneOnlyStatic ctx e.row e.values.address m = .ok ()
  nativeWallet : e.values.nativeWallet = e.nativeAmount .walletAirdrop
  staked : e.values.staked = e.nativeAmount .stakedToVault
  nativeTotal : e.values.nativeTotal = e.nativeAmount .totalClaim
  woneBalance : e.values.woneBalance = if e.values.address ∈ ctx.exclusions then 0 else holders.getD e.values.address 0
  woneAirdrop : e.values.woneAirdrop = owed ctx holders (e.nativeAmount .totalClaim) e.values.address
  qualification : e.values.qualification = e.values.nativeTotal + e.values.woneBalance
  wallet : e.values.wallet = e.values.nativeWallet + e.values.woneAirdrop
  total : e.values.total = e.values.nativeTotal + e.values.woneAirdrop
  columns : ∀ x ∈ e.values.expected,
    (∃ n : ℕ, parseCanonical (e.row (.atto x.1)) = some n ∧ (n : ℤ) = x.2) ∧ e.row (.one x.1) = fixed 18 x.2
  closes : e.values.wallet + e.values.staked = e.values.total

/-- Only the balance of the row's own address counts. -/
theorem Settles.congr {ctx : Context} {holders holders' : Dict Address ℤ} {e : Settled} (h : Settles ctx holders e)
    (hsame : holders'.get? e.values.address = holders.get? e.values.address) : Settles ctx holders' e := by
  have hget : holders'.getD e.values.address 0 = holders.getD e.values.address 0 := by rw [Dict.getD, Dict.getD, hsame]
  have howed : owed ctx holders' (e.nativeAmount .totalClaim) e.values.address =
      owed ctx holders (e.nativeAmount .totalClaim) e.values.address := by
    unfold owed
    rw [hget]
  have hmem : e.values.address ∈ holders.keys → e.values.address ∈ holders'.keys := by
    intro hin
    by_contra hout
    exact Dict.get?_eq_none_iff.mp (hsame.symm.trans (Dict.get?_eq_none_iff.mpr hout)) hin
  exact { h with
    fresh := fun hnone => ⟨hmem (h.fresh hnone).1, (h.fresh hnone).2⟩
    woneBalance := by rw [h.woneBalance, hget]
    woneAirdrop := h.woneAirdrop.trans howed.symm }

/-! ### Readers -/

/-- The rows that a reader still gives. -/
def Cursor.rows (c : Cursor) : List Row := (c.current.map Item.row).toList ++ c.rest

/-- A reader without a row has come to the end of its file. -/
def Cursor.WellRead (c : Cursor) : Prop := c.current = none → c.rest = []

theorem Cursor.WellRead.rows_eq_nil {c : Cursor} (h : c.WellRead) (hnone : c.current = none) : c.rows = [] := by
  rw [rows, hnone, h hnone]
  rfl

theorem readItem_ok {previous : Option ℕ} {row : Row} {item : Item} (h : readItem previous row = .ok item) :
    item.row = row ∧ ∀ k ∈ previous, k < item.key := by
  unfold readItem at h
  split at h
  · cases h
  · obtain ⟨_, habove, rfl⟩ := of_map_ok h
    exact ⟨rfl, of_require_ok habove⟩

theorem pop_ok {previous : Option ℕ} {rows : List Row} {c : Cursor} (h : pop previous rows = .ok c) :
    c.rows = rows ∧ c.WellRead := by
  cases rows with
  | nil =>
    cases h
    exact ⟨rfl, fun _ => rfl⟩
  | cons row rest =>
    obtain ⟨item, hitem, rfl⟩ := of_map_ok h
    refine ⟨?_, fun hnone => by cases hnone⟩
    rw [Cursor.rows, ← (readItem_ok hitem).1]
    rfl

theorem next_ok {c c' : Cursor} {item : Item} (h : c.next = .ok c') (hcurrent : c.current = some item) :
    c.rows = item.row :: c'.rows ∧ c'.WellRead := by
  obtain ⟨hrows, hread⟩ := pop_ok h
  rw [Cursor.rows, hcurrent, hrows]
  exact ⟨rfl, hread⟩

/-- Every column of the threshold row is that of the overlay's. -/
def Copies (t row : Row) : Prop := ∀ f ∈ migrationFields, t f = row f

/-- A comparison takes the copy of a row that qualifies, and nothing otherwise. -/
theorem compare_ok {c c' : Cursor} {item : Item} {qualifies : Bool} (h : c.compare item qualifies = .ok c')
    (hread : c.WellRead) : c'.WellRead ∧ ∃ copies, c.rows = copies ++ c'.rows ∧
      List.Forall₂ Copies copies (if qualifies then [item.row] else []) := by
  unfold Cursor.compare at h
  obtain ⟨-, h⟩ := require_bind_ok.mp h
  cases qualifies with
  | true =>
    rw [if_pos rfl] at h
    cases hcurrent : c.current with
    | none => simp [hcurrent] at h
    | some t =>
      rw [hcurrent] at h
      obtain ⟨-, h⟩ := require_bind_ok.mp h
      obtain ⟨hcopy, h⟩ := require_bind_ok.mp h
      obtain ⟨hrows, hread'⟩ := next_ok h hcurrent
      exact ⟨hread', [t.row], hrows, .cons hcopy .nil⟩
  | false =>
    obtain ⟨_, -, rfl⟩ := of_map_ok h
    exact ⟨hread, [], rfl, .nil⟩

/-! ### A row -/

section Row
variable {ctx : Context} {holders : Dict Address ℤ} {seen : List Address} {item : Item}

theorem normalizeKey_secureKeyText (H : Keccak) (a : Address) :
    normalizeKey (secureKeyText H a) = some (H.hash a).toNat :=
  Hex.parse_render (H.hash a).isLt

theorem Item.key_eq (item : Item) {H : Keccak} {a : Address} (h : item.row .secureKey = secureKeyText H a) :
    item.key = (H.hash a).toNat := by
  have hread := item.read
  rw [h, normalizeKey_secureKeyText] at hread
  exact (Option.some.inj hread).symm

theorem validateNativeRow_ok {H : Keccak} {row : Row} {a : Address} (h : validateNativeRow H row = .ok a) :
    normalizeAddress (row .address) = some a ∧ row .secureKey = secureKeyText H a ∧
      value row .walletAirdrop + value row .stakedToVault = value row .totalClaim := by
  unfold validateNativeRow at h
  obtain ⟨address, haddress, h⟩ := ofOption_bind_ok.mp h
  obtain ⟨-, h⟩ := require_bind_ok.mp h
  obtain ⟨hkey, h⟩ := require_bind_ok.mp h
  obtain ⟨-, h⟩ := require_bind_ok.mp h
  obtain ⟨-, h⟩ := require_bind_ok.mp h
  obtain ⟨_, -, h⟩ := of_bind_ok h
  obtain ⟨-, h⟩ := require_bind_ok.mp h
  obtain ⟨-, h⟩ := require_bind_ok.mp h
  obtain ⟨-, h⟩ := require_bind_ok.mp h
  obtain ⟨htotal, h⟩ := require_bind_ok.mp h
  obtain ⟨_, -, h⟩ := of_bind_ok h
  obtain ⟨_, -, rfl⟩ := of_map_ok h
  exact ⟨haddress, hkey, htotal⟩

/-- A balance is given to a native row once; from then on it is negative. -/
theorem holderAmountForNative_ok {a : Address} {wone : ℤ} {holders' : Dict Address ℤ}
    (h : holderAmountForNative holders a = .ok (wone, holders')) : wone = holders.getD a 0 ∧
      ∀ a', holders'.get? a' = if a' = a then (holders.get? a).map Neg.neg else holders.get? a' := by
  unfold holderAmountForNative at h
  cases hget : holders.get? a with
  | none =>
    rw [hget] at h
    obtain ⟨rfl, rfl⟩ := Prod.mk.inj (Except.ok.inj h)
    refine ⟨by rw [Dict.getD, hget]; rfl, fun a' => ?_⟩
    split_ifs with ha
    · rw [ha, hget]
      rfl
    · rfl
  | some signed =>
    rw [hget] at h
    obtain ⟨_, -, h⟩ := of_map_ok h
    obtain ⟨rfl, rfl⟩ := Prod.mk.inj h
    exact ⟨by rw [Dict.getD, hget]; rfl, fun a' => Dict.get?_insert holders a a' (-signed)⟩

/-- What a row's base is drawn from. -/
structure Based (ctx : Context) (holders : Dict Address ℤ) (seen : List Address) (item : Item) (native : Option Item)
    (a : Address) (b : Base) : Prop where
  secureKey : item.row .secureKey = secureKeyText ctx.keccak a
  preserved : ∀ n ∈ native.map Item.row, validateNativeRow ctx.keccak n = .ok a ∧
    ∀ f ∈ nativeFields, f ∉ mutatedNativeFields → item.row f = n f
  fresh : native = none → a ∈ holders.keys ∧ ∃ m, ctx.metadata.get? a = some m ∧
    validateWoneOnlyStatic ctx item.row a m = .ok ()
  nativeWallet : b.nativeWallet = ((native.map Item.row).map fun n => (value n .walletAirdrop : ℤ)).getD 0
  staked : b.staked = ((native.map Item.row).map fun n => (value n .stakedToVault : ℤ)).getD 0
  nativeTotal : b.nativeTotal = ((native.map Item.row).map fun n => (value n .totalClaim : ℤ)).getD 0
  actualWone : b.actualWone = holders.getD a 0
  seen : b.seenMetadata = if native.isSome then seen else a :: seen
  holders : ∀ a', b.holders.get? a' =
    if native.isSome ∧ a' = a then (holders.get? a).map Neg.neg else holders.get? a'

theorem secureKey_of_static {row : Row} {a : Address} {m : MetadataText}
    (h : validateWoneOnlyStatic ctx row a m = .ok ()) : row .secureKey = secureKeyText ctx.keccak a := by
  unfold validateWoneOnlyStatic at h
  obtain ⟨-, h⟩ := require_bind_ok.mp h
  obtain ⟨-, h⟩ := require_bind_ok.mp h
  obtain ⟨-, h⟩ := require_bind_ok.mp h
  exact (require_bind_ok.mp h).1

theorem woneOnlyBase_ok {a : Address} {b : Base} (h : woneOnlyBase ctx holders seen item.row a = .ok b) :
    Based ctx holders seen item none a b := by
  unfold woneOnlyBase at h
  cases hmeta : ctx.metadata.get? a with
  | none => simp [hmeta] at h
  | some m =>
    rw [hmeta] at h
    obtain ⟨_, hstatic, h⟩ := of_bind_ok h
    obtain ⟨-, h⟩ := require_bind_ok.mp h
    cases hget : holders.get? a with
    | none => simp [hget] at h
    | some wone =>
      rw [hget] at h
      cases h
      have hmem : a ∈ holders.keys := by
        by_contra hout
        exact Option.some_ne_none wone (hget.symm.trans (Dict.get?_eq_none_iff.mpr hout))
      exact {
        secureKey := secureKey_of_static hstatic
        preserved := fun n hn => by cases hn
        fresh := fun _ => ⟨hmem, m, hmeta, hstatic⟩
        nativeWallet := rfl
        staked := rfl
        nativeTotal := rfl
        actualWone := by rw [Dict.getD, hget]; rfl
        seen := rfl
        holders := fun a' => by simp }

theorem nativeBase_ok {native : Item} {a : Address} {b : Base} (h : nativeBase ctx holders seen item native a = .ok b) :
    Based ctx holders seen item (some native) a b := by
  unfold nativeBase at h
  obtain ⟨nativeAddress, hrow, h⟩ := of_bind_ok h
  obtain ⟨-, h⟩ := require_bind_ok.mp h
  obtain ⟨haddress, h⟩ := require_bind_ok.mp h
  obtain ⟨hpreserved, h⟩ := require_bind_ok.mp h
  obtain ⟨⟨wone, holders'⟩, hamount, rfl⟩ := of_map_ok h
  subst haddress
  obtain ⟨hwone, hholders⟩ := holderAmountForNative_ok hamount
  have hkey : item.row .secureKey = native.row .secureKey :=
    hpreserved .secureKey (by simp [nativeFields]) (by simp [mutatedNativeFields])
  exact {
    secureKey := hkey.trans (validateNativeRow_ok hrow).2.1
    preserved := fun n hn => by
      obtain rfl : native.row = n := Option.some.inj hn
      exact ⟨hrow, hpreserved⟩
    fresh := fun hnone => by cases hnone
    nativeWallet := rfl
    staked := rfl
    nativeTotal := rfl
    actualWone := hwone
    seen := rfl
    holders := fun a' => by simpa using hholders a' }

theorem columns_of_mapM {row : Row} {l : List (Component × ℤ)} {us us' : List Unit}
    (hamounts : l.mapM (checkAmount row) = .ok us)
    (hfixed : (l.mapM fun e => require (row (.one e.1) = fixed 18 e.2) (Error.fixedMismatch e.1)) = .ok us') :
    ∀ x ∈ l, (∃ n : ℕ, parseCanonical (row (.atto x.1)) = some n ∧ (n : ℤ) = x.2) ∧ row (.one x.1) = fixed 18 x.2 := by
  intro x hx
  obtain ⟨_, -, hamount⟩ := ok_of_mem_left (forall₂_of_mapM_ok hamounts) hx
  obtain ⟨_, -, hone⟩ := ok_of_mem_left (forall₂_of_mapM_ok hfixed) hx
  obtain ⟨n, hn, h⟩ := ofOption_bind_ok.mp hamount
  exact ⟨⟨n, hn, of_require_ok h⟩, of_require_ok hone⟩

/-- The amounts of a row whose columns are read as expected add up as the columns do. -/
theorem closes_of_columns {row : Row} {v : Values}
    (hcolumns : ∀ x ∈ v.expected, ∃ n : ℕ, parseCanonical (row (.atto x.1)) = some n ∧ (n : ℤ) = x.2)
    (hcloses : value row .walletAirdrop + value row .stakedToVault = value row .totalClaim) :
    v.wallet + v.staked = v.total := by
  have hvalue : ∀ x ∈ v.expected, (value row x.1 : ℤ) = x.2 := by
    intro x hx
    obtain ⟨n, hn, hcast⟩ := hcolumns x hx
    rw [value, hn, ← hcast]
    rfl
  have hwallet : (value row .walletAirdrop : ℤ) = v.wallet := hvalue (.walletAirdrop, v.wallet) (by simp [Values.expected])
  have hstaked : (value row .stakedToVault : ℤ) = v.staked := hvalue (.stakedToVault, v.staked) (by simp [Values.expected])
  have htotal : (value row .totalClaim : ℤ) = v.total := hvalue (.totalClaim, v.total) (by simp [Values.expected])
  rw [← hwallet, ← hstaked, ← htotal]
  exact_mod_cast hcloses

theorem validateMigrationRow_ok {native : Option Item} {v : Values} {b : Base}
    (h : validateMigrationRow ctx holders seen item native = .ok (v, b)) :
    Settles ctx holders ⟨item.row, native.map Item.row, v⟩ ∧ v.key = item.key ∧
      Based ctx holders seen item native v.address b := by
  unfold validateMigrationRow at h
  obtain ⟨a, haddress, h⟩ := ofOption_bind_ok.mp h
  obtain ⟨b', hbase, h⟩ := of_bind_ok h
  have hbased : Based ctx holders seen item native a b' := by
    cases native with
    | none => exact woneOnlyBase_ok hbase
    | some n => exact nativeBase_ok hbase
  obtain ⟨_, hamounts, h⟩ := of_bind_ok h
  obtain ⟨⟨-, -, -, hcloses⟩, h⟩ := require_bind_ok.mp h
  obtain ⟨_, hoverlay, h⟩ := of_bind_ok h
  obtain ⟨_, hfixed, -⟩ := of_bind_ok hoverlay
  obtain ⟨_, -, h⟩ := of_bind_ok h
  obtain ⟨_, -, h⟩ := of_map_ok h
  obtain ⟨rfl, rfl⟩ := Prod.mk.inj h
  have hcolumns := columns_of_mapM hamounts hfixed
  refine ⟨?_, rfl, hbased⟩
  exact {
    address := haddress
    secureKey := hbased.secureKey
    key := item.key_eq hbased.secureKey
    nativePresent := (Option.isSome_map).symm
    preserved := hbased.preserved
    fresh := fun hnone => hbased.fresh (Option.map_eq_none_iff.mp hnone)
    nativeWallet := hbased.nativeWallet
    staked := hbased.staked
    nativeTotal := hbased.nativeTotal
    woneBalance := by simp only [valuesOf, hbased.actualWone]
    woneAirdrop := by
      simp only [valuesOf, owed, hbased.actualWone, hbased.nativeTotal]
      rfl
    qualification := rfl
    wallet := rfl
    total := rfl
    columns := hcolumns
    closes := closes_of_columns (fun x hx => (hcolumns x hx).1) hcloses }

end Row

/-! ### The walk -/

/-- What one turn of the loop does with the row `e`. -/
structure Stepped (ctx : Context) (row : Row) (previous : Option ℕ) (native threshold : Cursor) (s : State) (e : Settled)
    (native₁ threshold₁ : Cursor) (s₁ : State) : Prop where
  row : e.row = row
  above : ∀ k ∈ previous, k < e.values.key
  native : native.rows = e.native.toList ++ native₁.rows
  copied : ∃ copies, threshold.rows = copies ++ threshold₁.rows ∧
    List.Forall₂ Copies copies (if e.qualifies then [e.row] else [])
  settles : Settles ctx s.holders e
  metrics : s₁.metrics = s.metrics.add e.values
  seen : s₁.seenMetadata = if e.native.isSome then s.seenMetadata else e.values.address :: s.seenMetadata
  holders : ∀ a, s₁.holders.get? a =
    if e.native.isSome ∧ a = e.values.address then (s.holders.get? a).map Neg.neg else s.holders.get? a
  recipients : s₁.woneRecipients =
    if e.values.woneAirdrop ≠ 0 then e.values.address :: s.woneRecipients else s.woneRecipients
  special : s₁.special.entries =
    s.special.entries ++ if e.values.address ∈ requiredSpecial then [(e.values.address, e.values)] else []

theorem keepSpecial_ok {s s' : State} {v : Values} (h : keepSpecial s v = .ok s') : ∃ special, s' = { s with special } ∧
    special.entries = s.special.entries ++ if v.address ∈ requiredSpecial then [(v.address, v)] else [] := by
  unfold keepSpecial at h
  split_ifs at h with hrequired
  · obtain ⟨hnew, h⟩ := require_bind_ok.mp h
    obtain ⟨_, -, rfl⟩ := of_map_ok h
    exact ⟨_, rfl, by rw [Dict.entries_insert_of_notMem hnew, if_pos hrequired]⟩
  · cases h
    exact ⟨s.special, rfl, by rw [if_neg hrequired, List.append_nil]⟩

section Walk
variable {ctx : Context} {row : Row} {rest : List Row} {previous : Option ℕ} {native threshold : Cursor} {s : State}

theorem walk_cons {r : Cursor × State} (h : walk ctx (row :: rest) previous native threshold s = .ok r)
    (hnative : native.WellRead) (hthreshold : threshold.WellRead) : ∃ e native₁ threshold₁ s₁,
      Stepped ctx row previous native threshold s e native₁ threshold₁ s₁ ∧ native₁.WellRead ∧ threshold₁.WellRead ∧
        walk ctx rest (some e.values.key) native₁ threshold₁ s₁ = .ok r := by
  rw [walk] at h
  obtain ⟨item, hitem, h⟩ := of_bind_ok h
  obtain ⟨-, h⟩ := require_bind_ok.mp h
  obtain ⟨⟨v, b⟩, hrow, h⟩ := of_bind_ok h
  obtain ⟨threshold₁, hcompare, h⟩ := of_bind_ok h
  obtain ⟨s₀, haccount, h⟩ := of_bind_ok h
  obtain ⟨native₁, hnext, h⟩ := of_bind_ok h
  obtain ⟨s₁, hkeep, hwalk⟩ := of_bind_ok h
  obtain ⟨hitemRow, habove⟩ := readItem_ok hitem
  obtain ⟨hsettles, hkey, hbased⟩ := validateMigrationRow_ok hrow
  obtain ⟨hread, hcopied⟩ := compare_ok hcompare hthreshold
  obtain ⟨_, -, rfl⟩ := of_map_ok haccount
  obtain ⟨special, rfl, hspecial⟩ := keepSpecial_ok hkeep
  generalize hmatched : native.current.filter (fun n => ¬item.key < n.key) = matched at hnext hsettles hbased
  -- the native reader moves on exactly where its row was matched
  have hmoved : native.rows = (matched.map Item.row).toList ++ native₁.rows ∧ native₁.WellRead := by
    cases matched with
    | none =>
      cases hnext
      exact ⟨rfl, hnative⟩
    | some n => exact next_ok hnext (Option.filter_eq_some_iff.mp hmatched).1
  refine ⟨⟨item.row, matched.map Item.row, v⟩, native₁, threshold₁, _, ?_, hmoved.2, hread, hkey ▸ hwalk⟩
  exact {
    row := hitemRow
    above := fun k hk => hkey ▸ habove k hk
    native := hmoved.1
    copied := hcopied
    settles := hsettles
    metrics := rfl
    seen := by simpa using hbased.seen
    holders := fun a => by
      rw [Option.isSome_map, hbased.holders]
      split_ifs with ha
      · rw [ha.2]
      · rfl
    recipients := rfl
    special := hspecial }

/-- What a walk over `rows` keeps, the settled rows being `run`. -/
structure Walked (ctx : Context) (rows : List Row) (previous : Option ℕ) (native threshold : Cursor) (s : State)
    (threshold' : Cursor) (s' : State) (run : List Settled) : Prop where
  rows : run.map Settled.row = rows
  natives : run.filterMap Settled.native = native.rows
  copied : ∃ copies, threshold.rows = copies ++ threshold'.rows ∧
    List.Forall₂ Copies copies ((run.filter Settled.qualifies).map Settled.row)
  wellRead : threshold'.WellRead
  above : ∀ k ∈ previous, ∀ e ∈ run, k < e.values.key
  increasing : run.Pairwise fun e e' => e.values.key < e'.values.key
  settles : ∀ e ∈ run, Settles ctx s.holders e
  metrics : s'.metrics = run.foldl (fun m e => m.add e.values) s.metrics
  seen : ∀ a, a ∈ s'.seenMetadata ↔ a ∈ s.seenMetadata ∨ ∃ e ∈ run, e.native = none ∧ e.values.address = a
  kept : ∀ a, (∀ e ∈ run, e.native.isSome → e.values.address ≠ a) → s'.holders.get? a = s.holders.get? a
  marked : ∀ e ∈ run, e.native.isSome →
    s'.holders.get? e.values.address = (s.holders.get? e.values.address).map Neg.neg
  recipients : ∀ a, a ∈ s'.woneRecipients ↔
    a ∈ s.woneRecipients ∨ ∃ e ∈ run, e.values.woneAirdrop ≠ 0 ∧ e.values.address = a
  special : s'.special.entries = s.special.entries ++
    (run.filter fun e => e.values.address ∈ requiredSpecial).map fun e => (e.values.address, e.values)

theorem Walked.nil (hnative : native.WellRead) (hnone : native.current = none) (hthreshold : threshold.WellRead) :
    Walked ctx [] previous native threshold s threshold s [] where
  rows := rfl
  natives := (hnative.rows_eq_nil hnone).symm
  copied := ⟨[], rfl, .nil⟩
  wellRead := hthreshold
  above := by simp
  increasing := .nil
  settles := by simp
  metrics := rfl
  seen := by simp
  kept := fun _ _ => rfl
  marked := by simp
  recipients := by simp
  special := by simp

/-- Rows of one address have one key, so that the balances behind a row are those before it. -/
theorem Walked.cons {e : Settled} {native₁ threshold₁ threshold' : Cursor} {s₁ s' : State} {run : List Settled}
    (hstep : Stepped ctx row previous native threshold s e native₁ threshold₁ s₁)
    (hrest : Walked ctx rest (some e.values.key) native₁ threshold₁ s₁ threshold' s' run) :
    Walked ctx (row :: rest) previous native threshold s threshold' s' (e :: run) := by
  have hne : ∀ e' ∈ run, e'.values.address ≠ e.values.address := by
    intro e' he' haddress
    have habove := hrest.above e.values.key rfl e' he'
    rw [hstep.settles.key, (hrest.settles e' he').key, haddress] at habove
    exact lt_irrefl _ habove
  have hsame : ∀ a, a ≠ e.values.address → s₁.holders.get? a = s.holders.get? a := fun a ha => by
    rw [hstep.holders, if_neg fun h => ha h.2]
  obtain ⟨copies, hthreshold, hcopies⟩ := hstep.copied
  obtain ⟨copies', hthreshold', hcopies'⟩ := hrest.copied
  have hfilter : ((e :: run).filter Settled.qualifies).map Settled.row =
      (if e.qualifies then [e.row] else []) ++ (run.filter Settled.qualifies).map Settled.row := by
    rw [List.filter_cons]
    split_ifs <;> rfl
  refine {
    rows := by rw [List.map_cons, hstep.row, hrest.rows]
    natives := ?_
    copied := ⟨copies ++ copies', by rw [hthreshold, hthreshold', List.append_assoc],
      hfilter ▸ List.rel_append hcopies hcopies'⟩
    wellRead := hrest.wellRead
    above := fun k hk => List.forall_mem_cons.mpr ⟨hstep.above k hk, fun e' he' =>
      (hstep.above k hk).trans (hrest.above _ rfl e' he')⟩
    increasing := .cons (hrest.above _ rfl) hrest.increasing
    settles := List.forall_mem_cons.mpr ⟨hstep.settles, fun e' he' =>
      (hrest.settles e' he').congr (hsame _ (hne e' he')).symm⟩
    metrics := by rw [hrest.metrics, hstep.metrics, List.foldl_cons]
    seen := ?_
    kept := ?_
    marked := ?_
    recipients := ?_
    special := ?_ }
  · rw [hstep.native, ← hrest.natives, List.filterMap_cons]
    cases e.native <;> rfl
  · intro a
    rw [hrest.seen, hstep.seen]
    cases hnative : e.native <;> simp [hnative, or_assoc, or_left_comm, eq_comm]
  · intro a ha
    obtain ⟨hhead, htail⟩ := List.forall_mem_cons.mp ha
    rw [hrest.kept a htail, hstep.holders, if_neg fun h => hhead h.1 h.2.symm]
  · refine List.forall_mem_cons.mpr ⟨fun hsome => ?_, fun e' he' hsome => ?_⟩
    · rw [hrest.kept _ fun e' he' _ => hne e' he', hstep.holders, if_pos ⟨hsome, rfl⟩]
    · rw [hrest.marked e' he' hsome, hsame _ (hne e' he')]
  · intro a
    rw [hrest.recipients, hstep.recipients]
    split_ifs with hdelivers <;> simp [hdelivers, or_assoc, or_left_comm, eq_comm]
  · rw [hrest.special, hstep.special, List.append_assoc, List.filter_cons]
    by_cases hrequired : e.values.address ∈ requiredSpecial <;> simp [hrequired]

theorem walked {rows : List Row} {threshold' : Cursor} {s' : State}
    (h : walk ctx rows previous native threshold s = .ok (threshold', s'))
    (hnative : native.WellRead) (hthreshold : threshold.WellRead) :
    ∃ run, Walked ctx rows previous native threshold s threshold' s' run := by
  induction rows generalizing previous native threshold s with
  | nil =>
    rw [walk] at h
    obtain ⟨_, hnone, h⟩ := of_map_ok h
    obtain ⟨rfl, rfl⟩ := Prod.mk.inj h
    exact ⟨[], .nil hnative (Option.isNone_iff_eq_none.mp (of_require_ok hnone)) hthreshold⟩
  | cons row rest ih =>
    obtain ⟨e, native₁, threshold₁, s₁, hstep, hnative₁, hthreshold₁, h⟩ := walk_cons h hnative hthreshold
    obtain ⟨run, hrun⟩ := ih h hnative₁ hthreshold₁
    exact ⟨e :: run, .cons hstep hrun⟩

end Walk

end HarmonyMigration.Claims.WoneAllocation
