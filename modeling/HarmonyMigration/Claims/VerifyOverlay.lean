import HarmonyMigration.Claims.ClaimsVerify
import HarmonyMigration.Claims.WoneOverlay

/-! The overlaid ledger, as a file of texts, under the strict verifier. -/

namespace HarmonyMigration.Claims.Verify

open Erc20 Except Decimal Wone
open scoped List

/-! ### The overlay of a file -/

/-- The lower-case text of a key, as a number that orders the same: without `0x`, a text that starts
with 0 is below every text that starts with `0x`, and all others are above. -/
def SecureKey.textOrder (k : SecureKey) : ℕ :=
  if k.prefixed then 2 ^ 252 + k.value.toNat else if k.value.toNat < 2 ^ 252 then k.value.toNat else 2 ^ 256 + k.value.toNat

theorem SecureKey.textOrder_injective : Function.Injective SecureKey.textOrder := by
  rintro ⟨p, k⟩ ⟨p', k'⟩ h
  have hk := k.isLt
  have hk' := k'.isLt
  have hval : p = p' ∧ k.toNat = k'.toNat := by
    unfold SecureKey.textOrder at h
    cases p with
    | true =>
      cases p' with
      | true => exact ⟨rfl, Nat.add_left_cancel h⟩
      | false =>
        simp only [Bool.false_eq_true, if_false, if_true] at h
        split_ifs at h <;> omega
    | false =>
      cases p' with
      | true =>
        simp only [Bool.false_eq_true, if_false, if_true] at h
        split_ifs at h <;> omega
      | false =>
        simp only [Bool.false_eq_true, if_false] at h
        refine ⟨rfl, ?_⟩
        split_ifs at h <;> omega
  obtain ⟨rfl, hval⟩ := hval
  rw [BitVec.eq_of_toNat_eq hval]

/-- `new_holder_row` writes its key with `0x`. -/
def SecureHash.keys (H : SecureHash) : Keys where
  key a := SecureKey.textOrder ⟨true, H.hash a⟩
  injective _ _ h := H.injective (congrArg SecureKey.value (SecureKey.textOrder_injective h))

def digitsOnly (t : Text) : Bool := t ≠ [] ∧ t.all Char.isDigit

/-- The price's digits before and behind the point, which may be missing. -/
def parsePrice (t : Text) : Option Price :=
  let whole := t.takeWhile (· ≠ '.')
  match t.dropWhile (· ≠ '.') with
  | [] => (parseNat whole).map fun n => ⟨n, 0⟩
  | _ :: fraction =>
    if digitsOnly whole ∧ digitsOnly fraction then (parseNat (whole ++ fraction)).map fun n => ⟨n, fraction.length⟩
    else none

/-- What the overlay reads of a row. -/
def LedgerRow.native? (row : LedgerRow) : Option NativeRow :=
  match row.address with
  | .address _ a =>
    (parseInt (row.atto .walletAirdrop)).bind fun wallet =>
    (parseInt (row.atto .stakedToVault)).bind fun staked =>
    (parseInt (row.atto .totalClaim)).bind fun total =>
    (parseInt (row.atto .liquidShard0)).bind fun liquidShard0 =>
    (parseInt (row.atto .liquidShard1)).bind fun liquidShard1 =>
    (parseInt (row.atto .liquidTotal)).map fun liquidTotal =>
      { key := row.secureKey.textOrder, address := a, wallet, staked, total, liquidShard0, liquidShard1, liquidTotal,
        price := parsePrice row.priceUsdPerOne, codeHashShard0 := row.codeHashShard0, codeHashShard1 := row.codeHashShard1 }
  | _ => none

/-- The number of a computed component; the others are left alone. -/
def computed (r : ClaimRow) : Component → Option ℤ
  | .walletAirdrop => some r.wallet
  | .totalClaim => some r.total
  | .nativeWalletAirdrop => some r.nativeWallet
  | .woneBalance => some r.woneBalance
  | .woneAirdrop => some r.woneAirdrop
  | .qualificationTotal => some r.qualificationTotal
  | .nativeTotalClaim => some r.nativeTotal
  | _ => none

def priceScale (row : LedgerRow) : ℕ := ((parsePrice row.priceUsdPerOne).map Price.scale).getD 0

def usdText (scale : ℕ) (amount : ℤ × ℤ) : Text := renderInt amount.1 ++ '.' :: pad (18 + scale) amount.2.toNat

/-- `dict(row)`, updated. -/
def updated (row : LedgerRow) (r : ClaimRow) : LedgerRow :=
  { row with
    atto := fun c => (computed r c).elim (row.atto c) renderInt
    one := fun c => (computed r c).elim (row.one c) (fixed 18)
    walletAirdropUsd := usdText (priceScale row) r.walletUsd
    totalUsd := usdText (priceScale row) r.totalUsd }

/-- The row of texts that `new_holder_row` overlays. -/
def newLedgerRow (H : SecureHash) (a : Address) (codeHashShard0 : String) : LedgerRow where
  secureKey := ⟨true, H.hash a⟩
  address := .address true a
  addressOrSecureKey := .address true a
  addressResolved := "true".toList
  claimsShard0Block := "93623067".toList
  claimsShard1Block := "95882100".toList
  priceReferenceShard0Block := "93448483".toList
  priceUsdPerOne := "0.00074801".toList
  atto _ := "0".toList
  one _ := fixed 18 0
  walletAirdropUsd := "0.00000000000000000000000000".toList
  totalUsd := "0.00000000000000000000000000".toList
  originalLiquidTotal := []
  originalLiquidShard0 := []
  originalLiquidShard1 := []
  codeHashShard0 := codeHashShard0
  codeHashShard1 := ""

/-- The texts of a written row: those of the native row with its key, or of a new one, updated. -/
def written (H : SecureHash) (ledger : Ledger) (r : ClaimRow) : LedgerRow :=
  match ledger.rows.find? fun row => row.secureKey.textOrder = r.key with
  | some row => updated row r
  | none => updated (newLedgerRow H r.address r.codeHashShard0) r

inductive OverlayError where
  | overlayFields
  | unreadableRow
  | run (e : Wone.Error)

def readNative (ledger : Ledger) : Except OverlayError (List NativeRow) :=
  ledger.rows.mapM fun row => row.native?.elim (.error .unreadableRow) .ok

/-- `main` on a file of texts; the other inputs are those of `i`. -/
def overlayLedger (H : SecureHash) (ledger : Ledger) (i : Wone.Input) : Except OverlayError (Ledger × Output) :=
  (require (∀ c ∈ woneComponentNames, ledger.attoColumn c = false ∧ ledger.oneColumn c = false) .overlayFields).bind
    fun _ =>
  (readNative ledger).bind fun native =>
  match Wone.main H.keys { i with native } with
  | .error e => .error (.run e)
  | .ok out => .ok ({
      attoColumn := fun c => c ∈ woneComponentNames ∨ ledger.attoColumn c
      oneColumn := fun c => c ∈ woneComponentNames ∨ ledger.oneColumn c
      rows := out.totals.rows.map (written H ledger) }, out)

/-- The blocks and the price of a new row; the switches that ask for more than the default are off. -/
def pinned (requireAllAddresses : Bool) (woneThreshold : ℕ) : Flags where
  requireOverOneUsd := false
  requireOriginalOverUsd := false
  requireAllAddresses := requireAllAddresses
  expectedShard0Block := "93623067".toList
  expectedShard1Block := "95882100".toList
  expectedPriceBlock := "93448483".toList
  expectedPrice := "0.00074801".toList
  woneThreshold := woneThreshold

/-! ### An updated row -/

variable {H : SecureHash} {row : LedgerRow} {n : NativeRow} {r : ClaimRow} {wone : ℤ} {T T₀ : ℕ} {agg all : Bool}

theorem parsePrice_pinned : parsePrice "0.00074801".toList = some ⟨74801, 8⟩ := by decide

theorem native?_ok (h : row.native? = some n) : (∃ p, row.address = .address p n.address) ∧
    n.key = row.secureKey.textOrder ∧ parseInt (row.atto .walletAirdrop) = some n.wallet ∧
    parseInt (row.atto .stakedToVault) = some n.staked ∧ parseInt (row.atto .totalClaim) = some n.total ∧
    n.price = parsePrice row.priceUsdPerOne := by
  unfold LedgerRow.native? at h
  cases haddress : row.address with
  | address p a =>
    rw [haddress] at h
    simp only [Option.bind_eq_some_iff, Option.map_eq_some_iff] at h
    obtain ⟨wallet, hwallet, staked, hstaked, total, htotal, _, -, _, -, _, -, rfl⟩ := h
    exact ⟨⟨p, rfl⟩, rfl, hwallet, hstaked, htotal, rfl⟩
  | blank => simp [haddress] at h
  | key k => simp [haddress] at h
  | other => simp [haddress] at h

theorem value_of_parseInt {c : Component} {z : ℤ} (hs : Spelled row c) (hz : parseInt (row.atto c) = some z) :
    (row.value c : ℤ) = z := by
  have h := hs.1
  rw [parseUnsigned, hz, Option.bind_some] at h
  split_ifs at h with hnonneg
  rw [← Option.some.inj h]
  exact Int.toNat_of_nonneg hnonneg

/-- The numbers of a native row that the verifier accepts. -/
theorem native_values (hrow : RowOk H (pinned all T₀) false row) (hn : row.native? = some n) :
    (row.value .walletAirdrop : ℤ) = n.wallet ∧ (row.value .stakedToVault : ℤ) = n.staked ∧
      (row.value .totalClaim : ℤ) = n.total ∧ n.price = some ⟨74801, 8⟩ := by
  obtain ⟨-, -, hwallet, hstaked, htotal, hprice⟩ := native?_ok hn
  have hspelled := fun c hc => hrow.spelled c hc
  refine ⟨value_of_parseInt (hspelled _ (by decide)) hwallet, value_of_parseInt (hspelled _ (by decide)) hstaked,
    value_of_parseInt (hspelled _ (by decide)) htotal, ?_⟩
  rw [hprice, hrow.blocks.2.2.2]
  exact parsePrice_pinned

theorem applyOverlay_usd (h : applyOverlay n wone T agg = .ok r) {p : Price} (hp : n.price = some p) :
    r.walletUsd = usd p r.wallet ∧ r.totalUsd = usd p r.total := by
  rw [applyOverlay, hp] at h
  obtain rfl := Except.ok.inj h
  exact ⟨rfl, rfl⟩

theorem usdText_pinned (z : ℤ) : usdText 8 (usd ⟨74801, 8⟩ z) = fixed usdDecimals (z * 74801) := rfl

theorem value_updated (hcomputed : ∀ c, ∀ z ∈ computed r c, 0 ≤ z) (c : Component) :
    (updated row r).value c = (computed r c).elim (row.value c) Int.toNat := by
  cases hc : computed r c with
  | none => simp [LedgerRow.value, updated, hc]
  | some z =>
    simp only [LedgerRow.value, updated, hc, Option.elim_some, parseUnsigned_renderInt (hcomputed c z hc)]
    rfl

theorem spelled_updated (hcomputed : ∀ c, ∀ z ∈ computed r c, 0 ≤ z) {c : Component}
    (h : computed r c = none → Spelled row c) : Spelled (updated row r) c := by
  rw [Spelled, value_updated hcomputed]
  cases hc : computed r c with
  | none =>
    obtain ⟨hatto, hone⟩ := h hc
    simpa [updated, hc] using And.intro hatto hone
  | some z =>
    have hz := hcomputed c z hc
    simp only [updated, hc, Option.elim_some]
    exact ⟨parseUnsigned_renderInt hz, parseFixed_fixed (by decide) hz⟩

theorem mem_of_not_computed {c : Component} (h : computed r c = none) : c ∈ componentsOf false := by
  cases c <;> simp [computed, componentsOf, componentNames] at h ⊢

theorem computed_nonneg (hrow : RowOk H (pinned all T₀) false row) (hn : row.native? = some n)
    (hover : applyOverlay n wone T agg = .ok r) (hwone : 0 ≤ wone) : ∀ c, ∀ z ∈ computed r c, 0 ≤ z := by
  obtain ⟨hwallet, -, htotal, -⟩ := native_values hrow hn
  obtain ⟨-, -, -, hrnw, hrnt, hrwb, hrq, hrair, hrw, hrt⟩ := applyOverlay_ok hover
  have hair : 0 ≤ r.woneAirdrop := by
    rw [hrair]
    split_ifs <;> omega
  intro c z hz
  cases c <;> simp only [computed, Option.mem_def, Option.some.injEq, reduceCtorEq] at hz <;> omega

/-- An overlaid row is accepted, unless WONE below the threshold is delivered by authorization alone. -/
theorem updated_ok_iff (hrow : RowOk H (pinned all T₀) false row) (hn : row.native? = some n)
    (hover : applyOverlay n wone T agg = .ok r) (hwone : 0 ≤ wone) :
    RowOk H (pinned all T) true (updated row r) ↔ (agg = true → (T : ℤ) ≤ n.total + wone ∨ wone = 0) := by
  obtain ⟨hwallet, hstaked, htotal, hprice⟩ := native_values hrow hn
  obtain ⟨-, -, hrs, hrnw, hrnt, hrwb, hrq, hrair, hrw, hrt⟩ := applyOverlay_ok hover
  obtain ⟨husdWallet, husdTotal⟩ := applyOverlay_usd hover hprice
  have hcomputed := computed_nonneg hrow hn hover hwone
  have hvalue : ∀ c, (updated row r).value c = (computed r c).elim (row.value c) Int.toNat := value_updated hcomputed
  have hscale : priceScale row = 8 := by
    rw [priceScale, hrow.blocks.2.2.2]
    exact congrArg (fun p : Option Price => (p.map Price.scale).getD 0) parsePrice_pinned
  have husd : ∀ z : ℤ, 0 ≤ z → parseFixed usdDecimals (fixed usdDecimals (z * 74801)) = some (z.toNat * priceNumerator) :=
    fun z hz => by
      rw [parseFixed_fixed (by decide) (by omega), show priceNumerator = 74801 from rfl]
      exact congrArg some (by omega)
  have hsums := hrow.total
  have hnative : (updated row r).nativeWallet = row.nativeWallet := by
    simp only [LedgerRow.nativeWallet, hvalue, computed, Option.elim_none]
  have hwalletSum := hrow.wallet
  rw [if_neg (by decide), Nat.add_zero] at hwalletSum
  have hairdrop : (updated row r).expectedWone T = (updated row r).value .woneAirdrop ↔
      (agg = true → (T : ℤ) ≤ n.total + wone ∨ wone = 0) := by
    simp only [LedgerRow.expectedWone, hvalue, computed, Option.elim_some, hrnt, hrwb, hrair]
    by_cases hle : (T : ℤ) ≤ n.total + wone
    · rw [if_pos (by omega), if_pos (Or.inl hle)]
      simp [hle]
    · rw [if_neg (by omega)]
      cases agg with
      | false => simp [hle]
      | true =>
        simp only [hle, or_true, if_true, false_or, forall_const]
        omega
  rw [← hairdrop]
  refine ⟨fun h => (h.wone rfl).airdrop, fun hair => ?_⟩
  refine ⟨⟨hrow.named.resolved, hrow.named.unresolved, hrow.named.readable⟩, hrow.blocks, ?_, ?_, fun _ => ?_, ?_, ?_, ?_,
    ?_, ?_, fun h => absurd h (by simp [pinned]), ⟨0, rfl⟩⟩
  · exact fun c _ => spelled_updated hcomputed fun hnone => hrow.spelled c (mem_of_not_computed hnone)
  · simpa only [hvalue, computed, Option.elim_none] using hrow.liquid
  · refine ⟨?_, ?_, hair, ?_⟩
    · rw [hnative, hwalletSum, hvalue]
      simp only [computed, Option.elim_some]
      omega
    · simp only [hvalue, computed, Option.elim_some]
      omega
    · simp only [hvalue, computed, Option.elim_some, Option.elim_none]
      omega
  · rw [hnative, hwalletSum, if_pos rfl, hvalue, hvalue]
    simp only [computed, Option.elim_some]
    omega
  · simpa only [hvalue, computed, Option.elim_none] using hrow.staked
  · simp only [hvalue, computed, Option.elim_some, Option.elim_none]
    omega
  · rw [hvalue]
    simp only [updated, hscale, husdTotal, usdText_pinned, computed, Option.elim_some]
    exact husd _ (by omega)
  · rw [hvalue]
    simp only [updated, hscale, husdWallet, usdText_pinned, computed, Option.elim_some]
    exact husd _ (by omega)

/-! ### The rows of a run -/

section Run
variable {ledger ledger' : Ledger} {i : Wone.Input} {native : List NativeRow} {out : Output} {holders : Dict Address ℤ}

theorem haveWone_eq_false (h : ∀ c ∈ woneComponentNames, ledger.attoColumn c = false ∧ ledger.oneColumn c = false) :
    ledger.haveWone = false := by
  rw [Ledger.haveWone, List.any_eq_false]
  exact fun c hc => by simp [(h c hc).1]

/-- A successful run on a file. -/
structure LedgerRun (H : SecureHash) (ledger : Ledger) (i : Wone.Input) (native : List NativeRow) (ledger' : Ledger)
    (out : Output) : Prop where
  noWone : ledger.haveWone = false
  read : List.Forall₂ (fun row n => row.native? = some n) ledger.rows native
  main : Wone.main H.keys { i with native } = .ok out
  rows : ledger'.rows = out.totals.rows.map (written H ledger)
  haveWone : ledger'.haveWone = true
  complete : ledger'.Complete

theorem ledgerRun_of_overlayLedger (h : overlayLedger H ledger i = .ok (ledger', out)) (hread : readNative ledger = .ok native) :
    LedgerRun H ledger i native ledger' out := by
  unfold overlayLedger at h
  simp only [require_bind_ok, hread, bind_ok_left] at h
  obtain ⟨hnone, h⟩ := h
  cases hmain : Wone.main H.keys { i with native } with
  | error e => simp [hmain] at h
  | ok out' =>
    simp only [hmain, Except.ok.injEq, Prod.mk.injEq] at h
    obtain ⟨rfl, rfl⟩ := h
    refine ⟨haveWone_eq_false hnone, ?_, hmain, rfl, by simp [Ledger.haveWone, woneComponentNames], fun _ c hc => ?_⟩
    · refine (forall₂_of_mapM_ok hread).imp fun row n hn => ?_
      cases hnative : row.native? with
      | none => simp [hnative] at hn
      | some n' =>
        rw [hnative] at hn
        exact congrArg some (Except.ok.inj hn)
    · simp [hc]

theorem parseFixed_zeroUsd : parseFixed usdDecimals "0.00000000000000000000000000".toList = some 0 :=
  by decide +kernel

theorem newLedgerRow_ok (a : Address) (code : String) : RowOk H (pinned all T₀) false (newLedgerRow H a code) where
  named := ⟨fun h => by obtain ⟨rfl, rfl⟩ := Name.address.inj h; exact ⟨rfl, rfl, rfl⟩, fun h => by simp [newLedgerRow] at h,
    Or.inr ⟨true, a, rfl⟩⟩
  blocks := ⟨rfl, rfl, rfl, rfl⟩
  spelled c _ := by
    have h : parseUnsigned "0".toList = some 0 ∧ parseFixed attoDecimals (fixed 18 0) = some 0 := by decide
    exact h
  liquid := rfl
  wone h := absurd h (by decide)
  wallet := rfl
  staked := rfl
  total := rfl
  totalUsd := by
    rw [show (newLedgerRow H a code).value .totalClaim = 0 from rfl, Nat.zero_mul]
    exact parseFixed_zeroUsd
  walletUsd := by
    rw [show (newLedgerRow H a code).value .walletAirdrop = 0 from rfl, Nat.zero_mul]
    exact parseFixed_zeroUsd
  overOneUsd h := absurd h (by simp [pinned])
  original := ⟨0, rfl⟩

theorem newLedgerRow_native? (m : MetadataRow) :
    (newLedgerRow H m.address m.codeHashShard0).native? = some (blankRow H.keys m) := by
  have hzero : parseInt "0".toList = some 0 := by decide
  simp only [LedgerRow.native?, newLedgerRow, hzero, Option.bind_some, Option.map_some, parsePrice_pinned]
  rfl

/-- Where a written row comes from: a row of texts, what the overlay read of it, and what it computed. -/
structure Source (H : SecureHash) (all : Bool) (T₀ : ℕ) (i : Wone.Input) (holders : Dict Address ℤ) (row : LedgerRow)
    (n : NativeRow) (r : ClaimRow) : Prop where
  accepted : RowOk H (pinned all T₀) false row
  native : row.native? = some n
  overlaid : applyOverlay n (holders.getD n.address 0) i.minimumOne (i.aggregate n.address) = .ok r
  total : n.total = i.nativeTotalOf n.address

theorem find?_of_nodup {α κ : Type*} [DecidableEq κ] {f : α → κ} {l : List α} (h : (l.map f).Nodup) {x : α} (hx : x ∈ l) :
    (l.find? fun y => f y = f x) = some x := by
  induction l with
  | nil => simp at hx
  | cons y l ih =>
    obtain ⟨hhead, htail⟩ := List.nodup_cons.mp h
    rcases List.mem_cons.mp hx with rfl | hx
    · simp
    · have hne : f y ≠ f x := fun he => hhead (he ▸ List.mem_map_of_mem hx)
      rw [List.find?_cons_of_neg (by simpa using hne)]
      exact ih htail hx

variable {metadata : List MetadataRow} {new : List ClaimRow} {old : List ClaimRow} {fresh : List ClaimRow}

/-- The accepted rows of a ledger without WONE columns. -/
theorem accepted_rows (haccepted : ∃ t, verify H (pinned all T₀) ledger = .ok t) (hnone : ledger.haveWone = false) :
    (ledger.rows.Pairwise fun a b => a.secureKey.value.toNat < b.secureKey.value.toNat) ∧
      ∀ row ∈ ledger.rows, RowOk H (pinned all T₀) false row := by
  obtain ⟨-, hkeys, hrows, -⟩ := exists_verify_iff.mp haccepted
  exact ⟨hkeys, hnone ▸ hrows⟩

theorem secureKey_of_native? (hrow : RowOk H (pinned all T₀) false row) (hn : row.native? = some n) :
    row.secureKey.value = H.hash n.address := by
  obtain ⟨⟨p, haddress⟩, -⟩ := native?_ok hn
  exact (hrow.named.resolved haddress).1.symm

theorem native_addresses_nodup (run : LedgerRun H ledger i native ledger' out)
    (haccepted : ∃ t, verify H (pinned all T₀) ledger = .ok t) : (native.map NativeRow.address).Nodup := by
  obtain ⟨hkeys, hrows⟩ := accepted_rows haccepted run.noWone
  have hboth : List.Forall₂ (fun row n => row.native? = some n ∧ row ∈ ledger.rows) ledger.rows native :=
    List.forall₂_iff_get.mpr ⟨run.read.length_eq, fun k hk hk' => ⟨run.read.get hk hk', List.get_mem ..⟩⟩
  have hvalues : ledger.rows.map (fun row => row.secureKey.value.toNat) = native.map fun n => (H.hash n.address).toNat :=
    map_eq_of_forall₂ hboth fun row n h => by rw [secureKey_of_native? (hrows row h.2) h.1]
  refine List.Nodup.of_map (fun a => (H.hash a).toNat) ?_
  rw [List.map_map]
  exact hvalues ▸ List.pairwise_map.mpr (hkeys.imp fun hlt => hlt.ne)

theorem textOrder_nodup (hkeys : ledger.rows.Pairwise fun a b => a.secureKey.value.toNat < b.secureKey.value.toNat) :
    (ledger.rows.map fun row => row.secureKey.textOrder).Nodup := by
  refine List.pairwise_map.mpr (hkeys.imp fun {a b} hlt heq => ?_)
  rw [SecureKey.textOrder_injective heq] at hlt
  exact lt_irrefl _ hlt

theorem exists_source (haccepted : ∃ t, verify H (pinned all T₀) ledger = .ok t)
    (run : LedgerRun H ledger i native ledger' out) (steps : Steps H.keys { i with native } out holders metadata new)
    (ran : Ran H.keys { i with native } out holders (metadata.map MetadataRow.address) old fresh)
    (hfresh : ∀ r ∈ fresh, r ∈ new) {r : ClaimRow} (hr : r ∈ out.totals.rows) :
    ∃ row n, written H ledger r = updated row r ∧ Source H all T₀ { i with native } holders row n r ∧
      (row ∈ ledger.rows ∧ r ∈ old ∨ row.secureKey = ⟨true, H.hash r.address⟩ ∧ r ∈ fresh) := by
  obtain ⟨hkeys, hrows⟩ := accepted_rows haccepted run.noWone
  have hnd : (native.map NativeRow.address).Nodup := native_addresses_nodup run haccepted
  rcases ran.mem_rows.mp hr with hold | hnew
  · obtain ⟨n, hn, -, hover⟩ := ran.of_mem_old hold
    obtain ⟨row, hrow, hnative⟩ := ok_of_mem_right run.read hn
    have hkey : r.key = row.secureKey.textOrder := (applyOverlay_ok hover).1.trans (native?_ok hnative).2.1
    refine ⟨row, n, ?_, ⟨hrows row hrow, hnative, hover, (Ran.nativeTotalOf_eq hnd hn).symm⟩, Or.inl ⟨hrow, hold⟩⟩
    rw [written, hkey, find?_of_nodup (textOrder_nodup hkeys) hrow]
  · obtain ⟨m, hm, hnewRow⟩ := ok_of_mem_right (forall₂_of_mapM_ok steps.newRows) (hfresh r hnew)
    have haddress : r.address = m.address := (newHolderRow_ok hnewRow).2.1
    have hkey : r.key = SecureKey.textOrder ⟨true, H.hash m.address⟩ := (newHolderRow_ok hnewRow).1
    have honly : m.address ∉ native.map NativeRow.address := by
      have hmem : r.address ∈ fresh.map ClaimRow.address := List.mem_map_of_mem hnew
      obtain ⟨x, -, hx, honly⟩ := ran.mem_new_iff.mp hmem
      rw [← haddress, ← hx]
      exact honly.2.1
    have hnotFound : (ledger.rows.find? fun row => row.secureKey.textOrder = r.key) = none := by
      rw [List.find?_eq_none]
      intro row hrow hfound
      have hsame : row.secureKey = ⟨true, H.hash m.address⟩ :=
        SecureKey.textOrder_injective ((of_decide_eq_true hfound).trans hkey)
      obtain ⟨n, hn, hnative⟩ := ok_of_mem_left run.read hrow
      have hhash := secureKey_of_native? (hrows row hrow) hnative
      rw [hsame] at hhash
      exact honly (H.injective hhash ▸ List.mem_map_of_mem hn)
    obtain ⟨wone, hover, hget, hcode⟩ : ∃ wone, applyOverlay (blankRow H.keys m) wone i.minimumOne (i.aggregate m.address) =
        .ok r ∧ holders.getD m.address 0 = wone ∧ r.codeHashShard0 = m.codeHashShard0 := by
      unfold newHolderRow at hnewRow
      cases hw : holders.get? m.address with
      | none => simp [hw] at hnewRow
      | some wone =>
        simp only [hw, require_bind_ok] at hnewRow
        refine ⟨wone, hnewRow.2.2, by rw [Dict.getD, hw]; rfl, ?_⟩
        obtain rfl := Except.ok.inj hnewRow.2.2
        rfl
    refine ⟨newLedgerRow H m.address m.codeHashShard0, blankRow H.keys m, ?_,
      ⟨newLedgerRow_ok _ _, newLedgerRow_native? m, ?_, (Ran.nativeTotalOf_eq_zero honly).symm⟩,
      Or.inr ⟨by rw [haddress]; rfl, hnew⟩⟩
    · rw [written, hnotFound, haddress, hcode]
    · rw [show (blankRow H.keys m).address = m.address from rfl, hget]
      exact hover

/-- Every authorized holder reaches the threshold anyway. -/
def AuthorizedReach (i : Wone.Input) : Prop :=
  ∀ x ∈ i.holders, x.address ∉ i.excluded → i.aggregate x.address = true →
    (i.minimumOne : ℤ) ≤ i.nativeTotalOf x.address + x.amount

/-- A native key without `0x` stands to the new keys as its text does to texts that start with `0x`. -/
def PlainKeysAgree (H : SecureHash) (ledger : Ledger) (i : Wone.Input) : Prop :=
  ∀ row ∈ ledger.rows, row.secureKey.prefixed = false → ∀ x ∈ i.holders, i.WoneOnly x →
    if row.secureKey.value.toNat < 2 ^ 252 then row.secureKey.value.toNat < (H.hash x.address).toNat
    else (H.hash x.address).toNat < row.secureKey.value.toNat

theorem getD_nonneg (ran : Ran H.keys i out holders (metadata.map MetadataRow.address) old fresh) (a : Address) :
    0 ≤ holders.getD a 0 := by
  by_cases hzero : holders.getD a 0 = 0
  · exact hzero.ge
  · obtain ⟨x, hx, rfl, hex⟩ := ran.exists_holder hzero
    rw [ran.getD_holder hx, if_neg hex]
    exact (ran.positive x hx).le

theorem rows_ok_iff (haccepted : ∃ t, verify H (pinned all T₀) ledger = .ok t)
    (run : LedgerRun H ledger i native ledger' out) (steps : Steps H.keys { i with native } out holders metadata new)
    (ran : Ran H.keys { i with native } out holders (metadata.map MetadataRow.address) old fresh)
    (hfresh : ∀ r ∈ fresh, r ∈ new) :
    (∀ row ∈ ledger'.rows, RowOk H (pinned all i.minimumOne) true row) ↔ AuthorizedReach { i with native } := by
  have hrow : ∀ r ∈ out.totals.rows, RowOk H (pinned all i.minimumOne) true (written H ledger r) ↔
      (i.aggregate r.address = true → (i.minimumOne : ℤ) ≤
        Input.nativeTotalOf { i with native } r.address + holders.getD r.address 0 ∨ holders.getD r.address 0 = 0) := by
    intro r hr
    obtain ⟨row, n, hwritten, src, -⟩ := exists_source haccepted run steps ran hfresh hr
    have haddress : r.address = n.address := (applyOverlay_ok src.overlaid).2.1
    rw [hwritten, haddress, ← src.total]
    exact updated_ok_iff src.accepted src.native src.overlaid (getD_nonneg ran _)
  rw [run.rows, List.forall_mem_map]
  constructor
  · intro h x hx hex hagg
    have hget := ran.getD_holder hx
    rw [if_neg hex] at hget
    have hpos := ran.positive x hx
    have hdelivery : delivery { i with native } holders x.address ≠ 0 := by
      unfold delivery
      rw [if_pos (Or.inr hagg), hget]
      omega
    obtain ⟨r, hr, hrx⟩ := List.mem_map.mp (ran.mem_rows_of_delivery hdelivery)
    have hreach := (hrow r hr).mp (h r hr)
    rw [hrx, hget] at hreach
    rcases hreach hagg with hle | hzero
    · exact hle
    · omega
  · intro h r hr
    refine (hrow r hr).mpr fun hagg => ?_
    by_cases hzero : holders.getD r.address 0 = 0
    · exact Or.inr hzero
    · obtain ⟨x, hx, hxa, hex⟩ := ran.exists_holder hzero
      have hget := ran.getD_holder hx
      rw [hxa, if_neg hex] at hget
      rw [hget, ← hxa]
      exact Or.inl (h x hx (hxa ▸ hex) (hxa ▸ hagg))

/-! ### The keys of the written ledger -/

theorem written_textOrder (haccepted : ∃ t, verify H (pinned all T₀) ledger = .ok t)
    (run : LedgerRun H ledger i native ledger' out) (steps : Steps H.keys { i with native } out holders metadata new)
    (ran : Ran H.keys { i with native } out holders (metadata.map MetadataRow.address) old fresh)
    (hfresh : ∀ r ∈ fresh, r ∈ new) {r : ClaimRow} (hr : r ∈ out.totals.rows) :
    (written H ledger r).secureKey.textOrder = r.key := by
  obtain ⟨row, n, hwritten, src, -⟩ := exists_source haccepted run steps ran hfresh hr
  rw [hwritten, (applyOverlay_ok src.overlaid).1, (native?_ok src.native).2.1]
  rfl

theorem keys_increasing_iff (haccepted : ∃ t, verify H (pinned all T₀) ledger = .ok t)
    (run : LedgerRun H ledger i native ledger' out) (steps : Steps H.keys { i with native } out holders metadata new)
    (ran : Ran H.keys { i with native } out holders (metadata.map MetadataRow.address) old fresh)
    (hfresh : ∀ r ∈ fresh, r ∈ new) :
    (ledger'.rows.Pairwise fun a b => a.secureKey.value.toNat < b.secureKey.value.toNat) ↔
      PlainKeysAgree H ledger { i with native } := by
  have htext := fun {r} hr => written_textOrder haccepted run steps ran hfresh (r := r) hr
  have hnewKey : ∀ x ∈ i.holders, Input.WoneOnly { i with native } x → ∃ r ∈ out.totals.rows,
      (written H ledger r).secureKey = ⟨true, H.hash x.address⟩ := by
    intro x hx honly
    obtain ⟨r, hr, hrx⟩ := List.mem_map.mp (ran.mem_new_iff.mpr ⟨x, hx, rfl, honly⟩)
    have hrows := ran.mem_rows.mpr (Or.inr hr)
    refine ⟨r, hrows, SecureKey.textOrder_injective ?_⟩
    rw [htext hrows, (ran.fresh r hr).1, hrx]
    rfl
  rw [run.rows, List.pairwise_map]
  constructor
  · intro h row hrow hplain x hx honly
    obtain ⟨n, hn, hnative⟩ := ok_of_mem_left run.read hrow
    obtain ⟨r, hr, -, hover⟩ := ok_of_mem_left ran.merged.overlaid hn
    have hrows := ran.mem_rows.mpr (Or.inl hr)
    have hkey : (written H ledger r).secureKey = row.secureKey := by
      refine SecureKey.textOrder_injective ?_
      rw [htext hrows, (applyOverlay_ok hover).1, (native?_ok hnative).2.1]
    obtain ⟨r', hrows', hkey'⟩ := hnewKey x hx honly
    have hkeyText : r.key = row.secureKey.textOrder := by rw [← htext hrows, hkey]
    have hkeyText' : r'.key = 2 ^ 252 + (H.hash x.address).toNat := by
      rw [← htext hrows', hkey']
      rfl
    have hbound := (H.hash x.address).isLt
    simp only [SecureKey.textOrder, hplain, Bool.false_eq_true, if_false] at hkeyText
    split_ifs at hkeyText ⊢ with hlow
    · have hlt := SortedBy.lt_of_lt ran.merged.increasing h hrows hrows' (by omega)
      rwa [hkey, hkey'] at hlt
    · have hlt := SortedBy.lt_of_lt ran.merged.increasing h hrows' hrows (by omega)
      rwa [hkey, hkey'] at hlt
  · intro h
    refine ran.merged.increasing.imp_of_mem fun {a b} ha hb hlt => ?_
    obtain ⟨rowA, nA, hwrittenA, -, hA⟩ := exists_source haccepted run steps ran hfresh ha
    obtain ⟨rowB, nB, hwrittenB, -, hB⟩ := exists_source haccepted run steps ran hfresh hb
    rw [← htext ha, ← htext hb, hwrittenA, hwrittenB] at hlt
    rw [hwrittenA, hwrittenB]
    change rowA.secureKey.textOrder < rowB.secureKey.textOrder at hlt
    change rowA.secureKey.value.toNat < rowB.secureKey.value.toNat
    -- of two keys with the prefix the texts order as the values
    have hboth : ∀ {k k' : SecureKey}, k.prefixed = true → k'.prefixed = true → k.textOrder < k'.textOrder →
        k.value.toNat < k'.value.toNat := fun {k k'} hk hk' hlt => by
      simp only [SecureKey.textOrder, hk, hk', if_true] at hlt
      omega
    have honly : ∀ r ∈ fresh, ∃ x ∈ i.holders, x.address = r.address ∧ Input.WoneOnly { i with native } x := fun r hr =>
      ran.mem_new_iff.mp (List.mem_map_of_mem hr)
    rcases hA with ⟨hrowA, -⟩ | ⟨hkeyA, hfreshA⟩
    · rcases hB with ⟨hrowB, -⟩ | ⟨hkeyB, hfreshB⟩
      · have hnative : ledger.rows.Pairwise fun a b => a.secureKey.textOrder < b.secureKey.textOrder := by
          have hkeys : ledger.rows.map (fun row => row.secureKey.textOrder) = native.map NativeRow.key :=
            map_eq_of_forall₂ run.read fun row n hn => (native?_ok hn).2.1.symm
          refine List.pairwise_map.mp (hkeys ▸ List.pairwise_map.mpr ?_)
          exact (merge_native steps.merged).1
        exact SortedBy.lt_of_lt hnative (accepted_rows haccepted run.noWone).1 hrowA hrowB hlt
      · cases hplain : rowA.secureKey.prefixed with
        | true => exact hboth hplain (by rw [hkeyB]) hlt
        | false =>
          obtain ⟨x, hx, hxb, hxOnly⟩ := honly b hfreshB
          have hagree := h rowA hrowA hplain x hx hxOnly
          have hbound := (H.hash b.address).isLt
          rw [hxb] at hagree
          simp only [SecureKey.textOrder, hplain, hkeyB, Bool.false_eq_true, if_false, if_true] at hlt ⊢
          split_ifs at hlt hagree <;> omega
    · rcases hB with ⟨hrowB, -⟩ | ⟨hkeyB, -⟩
      · cases hplain : rowB.secureKey.prefixed with
        | true => exact hboth (by rw [hkeyA]) hplain hlt
        | false =>
          obtain ⟨x, hx, hxa, hxOnly⟩ := honly a hfreshA
          have hagree := h rowB hrowB hplain x hx hxOnly
          have hbound := (H.hash a.address).isLt
          rw [hxa] at hagree
          simp only [SecureKey.textOrder, hplain, hkeyA, Bool.false_eq_true, if_false, if_true] at hlt ⊢
          split_ifs at hlt hagree <;> omega
      · exact hboth (by rw [hkeyA]) (by rw [hkeyB]) hlt

/-! ### The totals -/

/-- The verifier's component totals are the sums of the columns, and those the overlay reports. -/
structure TotalsAgree (rows : List LedgerRow) (t : Totals) (s : Wone.Totals) : Prop where
  columns : ∀ c ∈ componentsOf true, t.components c = (rows.map fun row => row.value c).sum
  count : t.rows = s.rows.length
  nativeWallet : (t.components .nativeWalletAirdrop : ℤ) = s.nativeWallet
  woneAirdrop : (t.components .woneAirdrop : ℤ) = s.delivered
  wallet : (t.components .walletAirdrop : ℤ) = s.wallet
  staked : (t.components .stakedToVault : ℤ) = s.staked
  nativeTotal : (t.components .nativeTotalClaim : ℤ) = s.nativeTotal
  total : (t.components .totalClaim : ℤ) = s.total

theorem totalsAgree (haccepted : ∃ t, verify H (pinned all T₀) ledger = .ok t)
    (run : LedgerRun H ledger i native ledger' out) (steps : Steps H.keys { i with native } out holders metadata new)
    (ran : Ran H.keys { i with native } out holders (metadata.map MetadataRow.address) old fresh)
    (hfresh : ∀ r ∈ fresh, r ∈ new) {t : Totals} (hacc : Accepted H (pinned all T) true ledger'.rows .zero t) :
    TotalsAgree ledger'.rows t out.totals := by
  have hcolumns : ∀ c ∈ componentsOf true, t.components c = (ledger'.rows.map fun row => row.value c).sum := fun c hc => by
    rw [hacc.components c hc]
    exact Nat.zero_add _
  have hsum : ∀ c ∈ componentsOf true, ∀ f : ClaimRow → ℤ,
      (∀ r ∈ out.totals.rows, ((written H ledger r).value c : ℤ) = f r) →
        (t.components c : ℤ) = (out.totals.rows.map f).sum := fun c hc f hf => by
    rw [hcolumns c hc, run.rows, List.map_map, Nat.cast_list_sum, List.map_map]
    exact congrArg List.sum (List.map_congr_left hf)
  have hcomputed : ∀ c ∈ componentsOf true, ∀ f : ClaimRow → ℤ, (∀ r, computed r c = some (f r)) →
      (t.components c : ℤ) = (out.totals.rows.map f).sum := fun c hc f hf => by
    refine hsum c hc f fun r hr => ?_
    obtain ⟨row, n, hwritten, src, -⟩ := exists_source haccepted run steps ran hfresh hr
    have hnonneg := computed_nonneg src.accepted src.native src.overlaid (getD_nonneg ran _)
    rw [hwritten, value_updated hnonneg, hf]
    exact Int.toNat_of_nonneg (hnonneg c (f r) (hf r))
  have hstaked : (t.components .stakedToVault : ℤ) = (out.totals.rows.map ClaimRow.staked).sum := by
    refine hsum _ (by decide) _ fun r hr => ?_
    obtain ⟨row, n, hwritten, src, -⟩ := exists_source haccepted run steps ran hfresh hr
    have hnonneg := computed_nonneg src.accepted src.native src.overlaid (getD_nonneg ran _)
    rw [hwritten, value_updated hnonneg, (applyOverlay_ok src.overlaid).2.2.1]
    exact (native_values src.accepted src.native).2.1
  have hparts : ∀ f : ClaimRow → ℤ, (∀ r ∈ fresh, f r = 0) → (out.totals.rows.map f).sum = (old.map f).sum :=
    fun f hf => by
      rw [(ran.merged.perm.map f).sum_eq, List.map_append, List.sum_append, List.map_congr_left hf]
      simp
  have hstakedSum : (out.totals.rows.map ClaimRow.staked).sum = out.totals.staked := by
    rw [hparts _ fun r hr => (ran.fresh r hr).2.1, (merge_native steps.merged).2.2,
      map_eq_of_forall₂ ran.merged.overlaid fun n r h => (applyOverlay_ok h.2).2.2.1.symm]
    exact (zero_add _).symm
  have hnativeSum : (out.totals.rows.map ClaimRow.nativeTotal).sum = out.totals.nativeTotal := by
    rw [hparts _ fun r hr => (ran.fresh r hr).2.2.2.1, ran.merged.nativeTotal,
      map_eq_of_forall₂ ran.merged.overlaid fun n r h => (applyOverlay_ok h.2).2.2.2.2.1.symm]
    exact (zero_add _).symm
  have hdelivered : (out.totals.rows.map ClaimRow.woneAirdrop).sum = out.totals.delivered := by
    rw [ran.merged.delivered]
    exact (zero_add _).symm
  -- the sums of the columns close row by row, and the overlay's totals as a whole
  have htotalSum : (out.totals.rows.map ClaimRow.total).sum =
      (out.totals.rows.map ClaimRow.nativeTotal).sum + (out.totals.rows.map ClaimRow.woneAirdrop).sum := by
    rw [← List.sum_map_add]
    exact congrArg List.sum (List.map_congr_left fun r hr => (ran.row_closes hr).2)
  have hwalletSum : (out.totals.rows.map ClaimRow.total).sum =
      (out.totals.rows.map ClaimRow.wallet).sum + (out.totals.rows.map ClaimRow.staked).sum := by
    rw [← List.sum_map_add]
    exact congrArg List.sum (List.map_congr_left fun r hr => (ran.row_closes hr).1.symm)
  have hnativeWalletSum : (out.totals.rows.map ClaimRow.nativeTotal).sum =
      (out.totals.rows.map ClaimRow.nativeWallet).sum + (out.totals.rows.map ClaimRow.staked).sum := by
    rw [← List.sum_map_add]
    refine congrArg List.sum (List.map_congr_left fun r hr => ?_)
    obtain ⟨row, n, -, src, -⟩ := exists_source haccepted run steps ran hfresh hr
    obtain ⟨-, -, hrs, hrnw, hrnt, -⟩ := applyOverlay_ok src.overlaid
    obtain ⟨hwallet, hstaked, htotal, -⟩ := native_values src.accepted src.native
    have := src.accepted.total
    rw [hrs, hrnw, hrnt]
    omega
  obtain ⟨hcloses, hcloses', hcloses''⟩ := steps.closes
  have hnw := hcomputed .nativeWalletAirdrop (by decide) ClaimRow.nativeWallet fun _ => rfl
  have hair := hcomputed .woneAirdrop (by decide) ClaimRow.woneAirdrop fun _ => rfl
  have hw := hcomputed .walletAirdrop (by decide) ClaimRow.wallet fun _ => rfl
  have hnt := hcomputed .nativeTotalClaim (by decide) ClaimRow.nativeTotal fun _ => rfl
  have ht := hcomputed .totalClaim (by decide) ClaimRow.total fun _ => rfl
  refine ⟨hcolumns, ?_, by omega, by omega, by omega, by omega, by omega, by omega⟩
  rw [hacc.count, run.rows, List.length_map]
  exact Nat.zero_add _

/-- The strict verifier accepts an overlaid ledger, with the overlay's own totals, exactly where every
authorized holder reaches the threshold anyway and the keys without `0x` order as their texts do. -/
theorem overlay_accepted_iff (haccepted : ∃ t, verify H (pinned all T₀) ledger = .ok t)
    (hread : readNative ledger = .ok native) (h : overlayLedger H ledger i = .ok (ledger', out)) :
    (∃ t, verify H (pinned all i.minimumOne) ledger' = .ok t ∧ TotalsAgree ledger'.rows t out.totals) ↔
      AuthorizedReach { i with native } ∧ PlainKeysAgree H ledger { i with native } := by
  have run := ledgerRun_of_overlayLedger h hread
  obtain ⟨holders, metadata, new, steps⟩ := steps_of_main run.main
  obtain ⟨old, ran⟩ := steps.ran
  have hfresh : ∀ r ∈ new.insertionSort fun a b : ClaimRow => a.key ≤ b.key, r ∈ new := fun r hr =>
    (List.mem_insertionSort _).mp hr
  have hnames : ∀ row ∈ ledger'.rows, row.address ≠ .blank := by
    rw [run.rows, List.forall_mem_map]
    intro r hr
    obtain ⟨row, n, hwritten, src, -⟩ := exists_source haccepted run steps ran hfresh hr
    obtain ⟨⟨p, haddress⟩, -⟩ := native?_ok src.native
    rw [hwritten, show (updated row r).address = row.address from rfl, haddress]
    simp
  rw [← rows_ok_iff haccepted run steps ran hfresh, ← keys_increasing_iff haccepted run steps ran hfresh]
  constructor
  · rintro ⟨t, ht, -⟩
    obtain ⟨-, hkeys, hrows, -⟩ := exists_verify_iff.mp ⟨t, ht⟩
    rw [run.haveWone] at hrows
    exact ⟨hrows, hkeys⟩
  · rintro ⟨hrows, hkeys⟩
    obtain ⟨t, ht⟩ := exists_verify_iff.mpr ⟨run.complete, hkeys, run.haveWone ▸ hrows, fun _ => hnames⟩
    have hacc := (verify_ok ht).2.1
    rw [run.haveWone] at hacc
    exact ⟨t, ht, totalsAgree haccepted run steps ran hfresh hacc⟩

end Run

/-! ### A ledger with a holder and the contract -/

def plainHash : SecureHash where
  hash a := a.setWidth 256
  injective a b h := by
    have hval := congrArg BitVec.toNat h
    have ha := a.isLt
    have hb := b.isLt
    simp only [BitVec.toNat_setWidth] at hval
    exact BitVec.eq_of_toNat_eq (by omega)

def nativeRow (a : Address) (liquid staked : ℕ) : LedgerRow :=
  let amount : Component → ℕ
    | .liquidShard0 | .liquidTotal | .walletAirdrop => liquid
    | .activeStakedOrDelegated | .stakedToVault => staked
    | .totalClaim => liquid + staked
    | _ => 0
  { newLedgerRow plainHash a "" with
    atto := fun c => render (amount c)
    one := fun c => fixed 18 (amount c)
    walletAirdropUsd := fixed 26 (liquid * 74801)
    totalUsd := fixed 26 ((liquid + staked) * 74801 : ℕ) }

def smallLedger : Ledger where
  attoColumn _ := false
  oneColumn _ := false
  rows := [nativeRow 5 4 3, nativeRow woneAddress 26 0]

def outcome (x : Except Error Totals) : Option Error :=
  match x with
  | .error e => some e
  | .ok _ => none

/-- An exchange's wallet with 1 atto of WONE is delivered, and its row is refused. -/
theorem authorized_delivery_refused : ∃ ledger' out, (∃ t, verify plainHash (pinned true 10) smallLedger = .ok t) ∧
    overlayLedger plainHash smallLedger smallOverlay = .ok (ledger', out) ∧ smallOverlay.minimumOne = 10 ∧
    verify plainHash (pinned true 10) ledger' = .error .woneAirdropMismatch := by
  have hnative : outcome (verify plainHash (pinned true 10) smallLedger) = none := by decide +kernel
  have hrun : (overlayLedger plainHash smallLedger smallOverlay).toOption.map
      (fun x => outcome (verify plainHash (pinned true 10) x.1)) = some (some .woneAirdropMismatch) := by decide +kernel
  obtain ⟨⟨ledger', out⟩, hoverlay, hraised⟩ := Except.exists_ok_of_map hrun
  refine ⟨ledger', out, ?_, hoverlay, rfl, ?_⟩
  · cases h : verify plainHash (pinned true 10) smallLedger with
    | error e => simp [h, outcome] at hnative
    | ok t => exact ⟨t, rfl⟩
  · cases h : verify plainHash (pinned true 10) ledger' with
    | error e =>
      simp only [h, outcome, Option.some.injEq] at hraised
      rw [hraised]
    | ok t => simp [h, outcome] at hraised

def withoutExchange : Wone.Input := { smallOverlay with aggregateRequested := [], metadata := [⟨3, 11, false, "c"⟩] }

theorem overlay_accepted_small : ∃ ledger' out t,
    overlayLedger plainHash smallLedger withoutExchange = .ok (ledger', out) ∧
    verify plainHash (pinned true 10) ledger' = .ok t ∧ TotalsAgree ledger'.rows t out.totals := by
  have hnative : outcome (verify plainHash (pinned true 10) smallLedger) = none := by decide +kernel
  have hrun : (overlayLedger plainHash smallLedger withoutExchange).toBool = true := by decide +kernel
  have hread : (readNative smallLedger).toBool = true := by decide +kernel
  have haccepted : ∃ t, verify plainHash (pinned true 10) smallLedger = .ok t := by
    cases h : verify plainHash (pinned true 10) smallLedger with
    | error e => simp [h, outcome] at hnative
    | ok t => exact ⟨t, rfl⟩
  obtain ⟨native, hnat⟩ := Except.exists_ok_of_toBool hread
  obtain ⟨⟨ledger', out⟩, hoverlay⟩ := Except.exists_ok_of_toBool hrun
  obtain ⟨t, ht, htotals⟩ := (overlay_accepted_iff haccepted hnat hoverlay).mpr
    ⟨fun x _ _ hagg => by simp [Input.aggregate, withoutExchange] at hagg, fun row hrow hplain => by
      rcases List.mem_pair.mp hrow with rfl | rfl <;> simp [nativeRow, newLedgerRow] at hplain⟩
  exact ⟨ledger', out, t, hoverlay, ht, htotals⟩

end HarmonyMigration.Claims.Verify
