import HarmonyMigration.Claims.Basic
import HarmonyMigration.Lib.Decimal

/-! `migration-claims-verify`: the strict checks of a formatted claim ledger. -/

namespace HarmonyMigration.Claims.Verify

open Erc20 Except Decimal

/-! ### The ledger -/

/-- The names of both `componentNames` and `woneComponentNames`. -/
inductive Component where
  | liquidShard0 | liquidShard1 | liquidTotal | activeStakedOrDelegated | pendingUndelegation
  | unclaimedStakingReward | pendingCrossShard | walletAirdrop | stakedToVault | totalClaim
  | nativeWalletAirdrop | woneBalance | woneAirdrop | qualificationTotal | nativeTotalClaim
  deriving DecidableEq

def componentNames : List Component :=
  [.liquidShard0, .liquidShard1, .liquidTotal, .activeStakedOrDelegated, .pendingUndelegation,
    .unclaimedStakingReward, .pendingCrossShard, .walletAirdrop, .stakedToVault, .totalClaim]

def woneComponentNames : List Component :=
  [.nativeWalletAirdrop, .woneBalance, .woneAirdrop, .qualificationTotal, .nativeTotalClaim]

/-- `secure_key`: 32 bytes in hex, with or without `0x`. -/
structure SecureKey where
  prefixed : Bool
  value : BitVec 256
  deriving DecidableEq

/-- The texts that name an account, letter case apart; `blank` is the empty text. -/
inductive Name where
  | blank
  | address (withPrefix : Bool) (a : Address)
  | key (k : SecureKey)
  | other
  deriving DecidableEq

/-- A row of texts. The five WONE components stand in it whether or not the header has their columns. -/
structure LedgerRow where
  secureKey : SecureKey
  address : Name
  addressOrSecureKey : Name
  addressResolved : Text
  claimsShard0Block : Text
  claimsShard1Block : Text
  priceReferenceShard0Block : Text
  priceUsdPerOne : Text
  atto : Component → Text
  one : Component → Text
  walletAirdropUsd : Text
  totalUsd : Text
  originalLiquidTotal : Text
  originalLiquidShard0 : Text
  originalLiquidShard1 : Text
  codeHashShard0 : String
  codeHashShard1 : String

/-- The rows, and which columns of the WONE components the header has. -/
structure Ledger where
  attoColumn : Component → Bool
  oneColumn : Component → Bool
  rows : List LedgerRow

/-- `keccak256` of an address. -/
structure SecureHash where
  hash : Address → BitVec 256
  injective : Function.Injective hash

structure Flags where
  requireOverOneUsd : Bool
  requireOriginalOverUsd : Bool
  requireAllAddresses : Bool
  expectedShard0Block : Text
  expectedShard1Block : Text
  expectedPriceBlock : Text
  expectedPrice : Text
  woneThreshold : ℕ

inductive Error where
  | incompleteWoneOverlay
  | keysNotIncreasing
  | inconsistentUnresolvedAddress
  | invalidAddress
  | inconsistentResolvedAddress
  | unexpectedMetadata
  | invalidNumber (c : Component)
  | notReproduced (c : Component)
  | liquidTotalMismatch
  | nativeWalletAirdropMismatch
  | qualificationTotalMismatch
  | woneAirdropMismatch
  | walletAirdropMismatch
  | stakedToVaultMismatch
  | totalClaimMismatch
  | nativeTotalClaimMismatch
  | totalUsdMismatch
  | walletUsdMismatch
  | notOverOneUsd
  | originalLiquidMismatch
  | originalNotOverOneUsd
  | rowsWithoutAddress
  deriving DecidableEq

/-! ### The checks -/

def priceNumerator : ℕ := 74801

def attoDecimals : ℕ := 18

def usdDecimals : ℕ := 26

/-- One dollar, in the unit of `total_usd`. -/
def oneUsd : ℕ := 10 ^ usdDecimals

namespace LedgerRow
variable (row : LedgerRow)

/-- A component, once its text is known to be a number. -/
def value (c : Component) : ℕ := (parseUnsigned (row.atto c)).getD 0

def nativeWallet : ℕ :=
  row.value .liquidShard0 + row.value .liquidShard1 + row.value .pendingUndelegation + row.value .unclaimedStakingReward +
    row.value .pendingCrossShard

/-- What the verifier takes the WONE of a row to be. -/
def expectedWone (threshold : ℕ) : ℕ :=
  if threshold ≤ row.value .nativeTotalClaim + row.value .woneBalance then row.value .woneBalance else 0

end LedgerRow

/-- The fields that name the account. -/
def checkNames (H : SecureHash) (row : LedgerRow) : Except Error Unit :=
  match row.address with
  | .blank =>
    require (row.addressResolved = "false".toList ∧ row.addressOrSecureKey = .key row.secureKey)
      .inconsistentUnresolvedAddress
  | .address withPrefix a =>
    (require (H.hash a = row.secureKey.value) .invalidAddress).bind fun _ =>
    require (row.addressResolved = "true".toList ∧ row.addressOrSecureKey = .address withPrefix a)
      .inconsistentResolvedAddress
  | _ => .error .invalidAddress

def checkMetadata (flags : Flags) (row : LedgerRow) : Except Error Unit :=
  require (row.claimsShard0Block = flags.expectedShard0Block ∧ row.claimsShard1Block = flags.expectedShard1Block ∧
    row.priceReferenceShard0Block = flags.expectedPriceBlock ∧ row.priceUsdPerOne = flags.expectedPrice)
    .unexpectedMetadata

def checkComponent (row : LedgerRow) (c : Component) : Except Error Unit :=
  match parseUnsigned (row.atto c), parseFixed attoDecimals (row.one c) with
  | some value, some one => require (value = one) (.notReproduced c)
  | _, _ => .error (.invalidNumber c)

def componentsOf (haveWone : Bool) : List Component := componentNames ++ if haveWone then woneComponentNames else []

def checkComponents (haveWone : Bool) (row : LedgerRow) : Except Error Unit :=
  ((componentsOf haveWone).mapM (checkComponent row)).map fun _ => ()

def checkWone (threshold : ℕ) (row : LedgerRow) : Except Error Unit :=
  (require (row.nativeWallet = row.value .nativeWalletAirdrop) .nativeWalletAirdropMismatch).bind fun _ =>
  (require (row.value .nativeTotalClaim + row.value .woneBalance = row.value .qualificationTotal)
    .qualificationTotalMismatch).bind fun _ =>
  require (row.expectedWone threshold = row.value .woneAirdrop) .woneAirdropMismatch

def checkSums (flags : Flags) (haveWone : Bool) (row : LedgerRow) : Except Error Unit :=
  (require (row.value .liquidShard0 + row.value .liquidShard1 = row.value .liquidTotal) .liquidTotalMismatch).bind fun _ =>
  (if haveWone then checkWone flags.woneThreshold row else .ok ()).bind fun _ =>
  (require (row.nativeWallet + (if haveWone then row.value .woneAirdrop else 0) = row.value .walletAirdrop)
    .walletAirdropMismatch).bind fun _ =>
  (require (row.value .activeStakedOrDelegated = row.value .stakedToVault) .stakedToVaultMismatch).bind fun _ =>
  (require (row.value .walletAirdrop + row.value .stakedToVault = row.value .totalClaim) .totalClaimMismatch).bind fun _ =>
  require (haveWone = true → row.value .nativeWalletAirdrop + row.value .stakedToVault = row.value .nativeTotalClaim)
    .nativeTotalClaimMismatch

def checkUsd (flags : Flags) (row : LedgerRow) : Except Error Unit :=
  (require (parseFixed usdDecimals row.totalUsd = some (row.value .totalClaim * priceNumerator)) .totalUsdMismatch).bind
    fun _ =>
  (require (parseFixed usdDecimals row.walletAirdropUsd = some (row.value .walletAirdrop * priceNumerator))
    .walletUsdMismatch).bind fun _ =>
  require (flags.requireOverOneUsd = true → oneUsd < row.value .totalClaim * priceNumerator) .notOverOneUsd

/-- The original liquid value, read only where the flag asks for it. -/
def originalLiquid (flags : Flags) (row : LedgerRow) : Except Error ℕ :=
  if ¬flags.requireOriginalOverUsd then .ok 0 else
  match parseUnsigned row.originalLiquidTotal, parseUnsigned row.originalLiquidShard0,
    parseUnsigned row.originalLiquidShard1 with
  | some original, some original0, some original1 =>
    (require (original0 + original1 = original) .originalLiquidMismatch).bind fun _ =>
    (require (oneUsd < original * priceNumerator) .originalNotOverOneUsd).map fun _ => original
  | _, _, _ => .error .originalLiquidMismatch

/-! ### The run -/

/-- `accumulators`. -/
structure Totals where
  rows : ℕ
  rowsWithAddress : ℕ
  rowsWithoutAddress : ℕ
  strictOverOneUsd : ℕ
  components : Component → ℕ
  overOneTotalClaim : ℕ
  originalLiquidTotal : ℕ

def Totals.zero : Totals := ⟨0, 0, 0, 0, fun _ => 0, 0, 0⟩

def Totals.add (haveWone : Bool) (t : Totals) (row : LedgerRow) (original : ℕ) : Totals :=
  let overOne := oneUsd < row.value .totalClaim * priceNumerator
  { rows := t.rows + 1
    rowsWithAddress := t.rowsWithAddress + if row.address = .blank then 0 else 1
    rowsWithoutAddress := t.rowsWithoutAddress + if row.address = .blank then 1 else 0
    strictOverOneUsd := t.strictOverOneUsd + if overOne then 1 else 0
    components := fun c => t.components c + if c ∈ componentsOf haveWone then row.value c else 0
    overOneTotalClaim := t.overOneTotalClaim + if overOne then row.value .totalClaim else 0
    originalLiquidTotal := t.originalLiquidTotal + original }

def verifyRow (H : SecureHash) (flags : Flags) (haveWone : Bool) (previous : Option SecureKey) (row : LedgerRow)
    (t : Totals) : Except Error Totals :=
  (require (∀ k ∈ previous, k.value.toNat < row.secureKey.value.toNat) .keysNotIncreasing).bind fun _ =>
  (checkNames H row).bind fun _ =>
  (checkMetadata flags row).bind fun _ =>
  (checkComponents haveWone row).bind fun _ =>
  (checkSums flags haveWone row).bind fun _ =>
  (checkUsd flags row).bind fun _ =>
  (originalLiquid flags row).map fun original => t.add haveWone row original

def verifyRows (H : SecureHash) (flags : Flags) (haveWone : Bool) :
    List LedgerRow → Option SecureKey → Totals → Except Error Totals
  | [], _, t => .ok t
  | row :: rest, previous, t =>
    (verifyRow H flags haveWone previous row t).bind fun t => verifyRows H flags haveWone rest (some row.secureKey) t

def Ledger.haveWone (ledger : Ledger) : Bool := woneComponentNames.any ledger.attoColumn

def verify (H : SecureHash) (flags : Flags) (ledger : Ledger) : Except Error Totals :=
  (require (ledger.haveWone = true → ∀ c ∈ woneComponentNames, ledger.attoColumn c = true ∧ ledger.oneColumn c = true)
    .incompleteWoneOverlay).bind fun _ =>
  (verifyRows H flags ledger.haveWone ledger.rows none .zero).bind fun t =>
  (require (flags.requireAllAddresses = true → t.rowsWithoutAddress = 0) .rowsWithoutAddress).map fun _ => t

/-! ### What an accepted row is -/

/-- The text of a component spells its number twice. -/
def Spelled (row : LedgerRow) (c : Component) : Prop :=
  parseUnsigned (row.atto c) = some (row.value c) ∧ parseFixed attoDecimals (row.one c) = some (row.value c)

structure Named (H : SecureHash) (row : LedgerRow) : Prop where
  resolved : ∀ {withPrefix : Bool} {a : Address}, row.address = .address withPrefix a → H.hash a = row.secureKey.value ∧
    row.addressResolved = "true".toList ∧ row.addressOrSecureKey = .address withPrefix a
  unresolved : row.address = .blank → row.addressResolved = "false".toList ∧ row.addressOrSecureKey = .key row.secureKey
  readable : row.address = .blank ∨ ∃ withPrefix a, row.address = .address withPrefix a

structure WoneOk (threshold : ℕ) (row : LedgerRow) : Prop where
  nativeWallet : row.nativeWallet = row.value .nativeWalletAirdrop
  qualification : row.value .nativeTotalClaim + row.value .woneBalance = row.value .qualificationTotal
  airdrop : row.expectedWone threshold = row.value .woneAirdrop
  nativeTotal : row.value .nativeWalletAirdrop + row.value .stakedToVault = row.value .nativeTotalClaim

/-- An accepted row. -/
structure RowOk (H : SecureHash) (flags : Flags) (haveWone : Bool) (row : LedgerRow) : Prop where
  named : Named H row
  blocks : row.claimsShard0Block = flags.expectedShard0Block ∧ row.claimsShard1Block = flags.expectedShard1Block ∧
    row.priceReferenceShard0Block = flags.expectedPriceBlock ∧ row.priceUsdPerOne = flags.expectedPrice
  spelled : ∀ c ∈ componentsOf haveWone, Spelled row c
  liquid : row.value .liquidShard0 + row.value .liquidShard1 = row.value .liquidTotal
  wone : haveWone = true → WoneOk flags.woneThreshold row
  wallet : row.nativeWallet + (if haveWone then row.value .woneAirdrop else 0) = row.value .walletAirdrop
  staked : row.value .activeStakedOrDelegated = row.value .stakedToVault
  total : row.value .walletAirdrop + row.value .stakedToVault = row.value .totalClaim
  totalUsd : parseFixed usdDecimals row.totalUsd = some (row.value .totalClaim * priceNumerator)
  walletUsd : parseFixed usdDecimals row.walletAirdropUsd = some (row.value .walletAirdrop * priceNumerator)
  overOneUsd : flags.requireOverOneUsd = true → oneUsd < row.value .totalClaim * priceNumerator
  original : ∃ n, originalLiquid flags row = .ok n

variable {H : SecureHash} {flags : Flags} {haveWone : Bool} {row : LedgerRow} {u : Unit}

theorem checkNames_ok_iff : checkNames H row = .ok u ↔ Named H row := by
  obtain ⟨secureKey, address, addressOrSecureKey⟩ := row
  unfold checkNames
  constructor
  · intro h
    cases address with
    | blank => exact ⟨fun ha => by simp at ha, fun _ => of_require_ok h, Or.inl rfl⟩
    | address p a =>
      simp only [require_bind_ok] at h
      refine ⟨fun ha => ?_, fun ha => by simp at ha, Or.inr ⟨p, a, rfl⟩⟩
      obtain ⟨rfl, rfl⟩ := Name.address.inj ha
      exact ⟨h.1, of_require_ok h.2⟩
    | key k => cases h
    | other => cases h
  · rintro ⟨hresolved, hunresolved, hread⟩
    rcases hread with rfl | ⟨p, a, rfl⟩
    · exact if_pos (hunresolved rfl)
    · simp only [require_bind_ok]
      exact ⟨(hresolved rfl).1, if_pos (hresolved rfl).2⟩

theorem checkComponent_ok_iff {c : Component} : checkComponent row c = .ok u ↔ Spelled row c := by
  unfold checkComponent Spelled LedgerRow.value
  cases hatto : parseUnsigned (row.atto c) with
  | none => simp
  | some value =>
    cases hone : parseFixed attoDecimals (row.one c) with
    | none => simp
    | some one =>
      simp only [Option.getD_some, true_and, Option.some.injEq, require_iff]
      exact eq_comm

theorem checkComponents_ok_iff : checkComponents haveWone row = .ok u ↔ ∀ c ∈ componentsOf haveWone, Spelled row c := by
  constructor
  · intro h c hc
    obtain ⟨us, hus, -⟩ := of_map_ok h
    obtain ⟨u, -, hu⟩ := ok_of_mem_left (forall₂_of_mapM_ok hus) hc
    exact checkComponent_ok_iff.mp hu
  · intro h
    have hall := exists_mapM_ok_iff.mpr fun c hc => ⟨(), checkComponent_ok_iff.mpr (h c hc)⟩
    obtain ⟨us, hus⟩ := hall
    rw [checkComponents, hus]
    rfl

theorem bind_unit_ok {ε β : Type*} {x : Except ε Unit} {f : Unit → Except ε β} {b : β} :
    x.bind f = .ok b ↔ x = .ok () ∧ f () = .ok b := by
  cases x with
  | error e => simp [Except.bind]
  | ok u => simp [Except.bind]

theorem checkSums_ok_iff : checkSums flags haveWone row = .ok u ↔
    row.value .liquidShard0 + row.value .liquidShard1 = row.value .liquidTotal ∧
    (haveWone = true → WoneOk flags.woneThreshold row) ∧
    row.nativeWallet + (if haveWone then row.value .woneAirdrop else 0) = row.value .walletAirdrop ∧
    row.value .activeStakedOrDelegated = row.value .stakedToVault ∧
    row.value .walletAirdrop + row.value .stakedToVault = row.value .totalClaim := by
  unfold checkSums
  cases haveWone with
  | false => simp [bind_unit_ok, require_iff]
  | true =>
    simp only [if_true, checkWone, bind_unit_ok, require_iff, forall_const]
    constructor
    · rintro ⟨hliquid, ⟨hnative, hqual, hair⟩, hwallet, hstaked, htotal, hnt⟩
      exact ⟨hliquid, ⟨hnative, hqual, hair, hnt⟩, hwallet, hstaked, htotal⟩
    · rintro ⟨hliquid, ⟨hnative, hqual, hair, hnt⟩, hwallet, hstaked, htotal⟩
      exact ⟨hliquid, ⟨hnative, hqual, hair⟩, hwallet, hstaked, htotal, hnt⟩

theorem verifyRow_ok_iff {previous : Option SecureKey} {t t' : Totals} :
    verifyRow H flags haveWone previous row t = .ok t' ↔
      (∀ k ∈ previous, k.value.toNat < row.secureKey.value.toNat) ∧ RowOk H flags haveWone row ∧
        ∃ n, originalLiquid flags row = .ok n ∧ t' = t.add haveWone row n := by
  unfold verifyRow
  simp only [bind_unit_ok, require_iff, checkNames_ok_iff, checkMetadata, checkComponents_ok_iff, checkSums_ok_iff,
    checkUsd]
  constructor
  · rintro ⟨hkey, hnamed, hblocks, hspelled, ⟨hliquid, hwone, hwallet, hstaked, htotal⟩, ⟨hu, hw, hover⟩, h⟩
    obtain ⟨n, hn, rfl⟩ := of_map_ok h
    exact ⟨hkey, ⟨hnamed, hblocks, hspelled, hliquid, hwone, hwallet, hstaked, htotal, hu, hw, hover, n, hn⟩, n, hn, rfl⟩
  · rintro ⟨hkey, r, n, hn, rfl⟩
    refine ⟨hkey, r.named, r.blocks, r.spelled, ⟨r.liquid, r.wone, r.wallet, r.staked, r.total⟩,
      ⟨r.totalUsd, r.walletUsd, r.overOneUsd⟩, ?_⟩
    rw [hn]
    rfl

/-! ### What an accepted ledger is -/

/-- The rows of an accepted ledger, and what was added up over them. -/
structure Accepted (H : SecureHash) (flags : Flags) (haveWone : Bool) (rows : List LedgerRow) (t t' : Totals) : Prop where
  increasing : rows.Pairwise fun a b => a.secureKey.value.toNat < b.secureKey.value.toNat
  rowOk : ∀ row ∈ rows, RowOk H flags haveWone row
  components : ∀ c ∈ componentsOf haveWone, t'.components c = t.components c + (rows.map fun row => row.value c).sum
  count : t'.rows = t.rows + rows.length
  withoutAddress : t'.rowsWithoutAddress = t.rowsWithoutAddress + (rows.filter fun row => row.address = .blank).length

theorem verifyRows_ok {rows : List LedgerRow} {previous : Option SecureKey} {t t' : Totals}
    (h : verifyRows H flags haveWone rows previous t = .ok t') :
    Accepted H flags haveWone rows t t' ∧ ∀ k ∈ previous, ∀ row ∈ rows, k.value.toNat < row.secureKey.value.toNat := by
  induction rows generalizing previous t with
  | nil =>
    obtain rfl := Except.ok.inj h
    exact ⟨⟨.nil, by simp, by simp, rfl, rfl⟩, by simp⟩
  | cons row rest ih =>
    obtain ⟨s, hs, hrest⟩ := of_bind_ok h
    obtain ⟨hkey, hrow, n, -, rfl⟩ := verifyRow_ok_iff.mp hs
    obtain ⟨hacc, hafter⟩ := ih hrest
    have hnext : ∀ x ∈ rest, row.secureKey.value.toNat < x.secureKey.value.toNat := hafter row.secureKey rfl
    refine ⟨⟨List.pairwise_cons.mpr ⟨hnext, hacc.increasing⟩, ?_, ?_, ?_, ?_⟩, ?_⟩
    · exact List.forall_mem_cons.mpr ⟨hrow, hacc.rowOk⟩
    · intro c hc
      rw [hacc.components c hc, List.map_cons, List.sum_cons]
      simp only [Totals.add, if_pos hc]
      ring
    · rw [hacc.count, List.length_cons]
      simp only [Totals.add]
      ring
    · rw [hacc.withoutAddress, List.filter_cons]
      by_cases hblank : row.address = .blank
      · simp only [Totals.add, hblank, decide_true, if_true, List.length_cons]
        ring
      · simp [Totals.add, hblank]
    · intro k hk x hx
      rcases List.mem_cons.mp hx with rfl | hx
      · exact hkey k hk
      · exact (hkey k hk).trans (hnext x hx)

theorem exists_verifyRows {rows : List LedgerRow} {previous : Option SecureKey} {t : Totals}
    (hkeys : rows.Pairwise fun a b => a.secureKey.value.toNat < b.secureKey.value.toNat)
    (hprev : ∀ k ∈ previous, ∀ row ∈ rows, k.value.toNat < row.secureKey.value.toNat)
    (hrows : ∀ row ∈ rows, RowOk H flags haveWone row) : ∃ t', verifyRows H flags haveWone rows previous t = .ok t' := by
  induction rows generalizing previous t with
  | nil => exact ⟨t, rfl⟩
  | cons row rest ih =>
    obtain ⟨hhead, htail⟩ := List.pairwise_cons.mp hkeys
    have hrow := hrows row (by simp)
    obtain ⟨n, hn⟩ := hrow.original
    obtain ⟨t', ht'⟩ : ∃ t', verifyRows H flags haveWone rest (some row.secureKey) (t.add haveWone row n) = .ok t' := by
      refine ih htail (fun k hk x hx => ?_) fun x hx => hrows x (by simp [hx])
      obtain rfl := Option.some.inj hk
      exact hhead x hx
    refine ⟨t', ?_⟩
    rw [verifyRows, verifyRow_ok_iff.mpr ⟨fun k hk => hprev k hk row (by simp), hrow, n, hn, rfl⟩]
    exact ht'

/-- The ledger has all WONE columns, or none. -/
def Ledger.Complete (ledger : Ledger) : Prop :=
  ledger.haveWone = true → ∀ c ∈ woneComponentNames, ledger.attoColumn c = true ∧ ledger.oneColumn c = true

theorem verify_ok {ledger : Ledger} {t : Totals} (h : verify H flags ledger = .ok t) :
    ledger.Complete ∧ Accepted H flags ledger.haveWone ledger.rows .zero t ∧
      (flags.requireAllAddresses = true → ∀ row ∈ ledger.rows, row.address ≠ .blank) := by
  unfold verify at h
  simp only [require_bind_ok] at h
  obtain ⟨hcomplete, h⟩ := h
  obtain ⟨t', ht', h⟩ := of_bind_ok h
  obtain ⟨u, hu, rfl⟩ := of_map_ok h
  obtain ⟨hacc, -⟩ := verifyRows_ok ht'
  refine ⟨hcomplete, hacc, fun hall row hrow hblank => ?_⟩
  have hzero := of_require_ok hu hall
  rw [hacc.withoutAddress] at hzero
  have hnone := List.length_eq_zero_iff.mp (Nat.eq_zero_of_add_eq_zero hzero).2
  have hmem : row ∈ ledger.rows.filter fun row => row.address = .blank := List.mem_filter.mpr ⟨hrow, by simpa using hblank⟩
  rw [hnone] at hmem
  simp at hmem

/-- A ledger is accepted exactly when its keys increase and each row is. -/
theorem exists_verify_iff {ledger : Ledger} : (∃ t, verify H flags ledger = .ok t) ↔
    ledger.Complete ∧ (ledger.rows.Pairwise fun a b => a.secureKey.value.toNat < b.secureKey.value.toNat) ∧
      (∀ row ∈ ledger.rows, RowOk H flags ledger.haveWone row) ∧
      (flags.requireAllAddresses = true → ∀ row ∈ ledger.rows, row.address ≠ .blank) := by
  constructor
  · rintro ⟨t, h⟩
    obtain ⟨hcomplete, hacc, haddress⟩ := verify_ok h
    exact ⟨hcomplete, hacc.increasing, hacc.rowOk, haddress⟩
  · rintro ⟨hcomplete, hkeys, hrows, haddress⟩
    obtain ⟨t, ht⟩ : ∃ t, verifyRows H flags ledger.haveWone ledger.rows none .zero = .ok t :=
      exists_verifyRows hkeys (by simp) hrows
    obtain ⟨hacc, -⟩ := verifyRows_ok ht
    refine ⟨t, ?_⟩
    have hnone : flags.requireAllAddresses = true → t.rowsWithoutAddress = 0 := fun hall => by
      rw [hacc.withoutAddress, List.filter_eq_nil_iff.mpr fun row hrow => by simpa using haddress hall row hrow]
      rfl
    unfold verify
    rw [show require (ledger.haveWone = true → _) _ = Except.ok () from if_pos hcomplete, bind_ok_left, ht, bind_ok_left,
      show require (flags.requireAllAddresses = true → _) _ = Except.ok () from if_pos hnone]
    rfl

end HarmonyMigration.Claims.Verify
