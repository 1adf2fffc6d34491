import HarmonyMigration.Claims.VerifyOverlay
import HarmonyMigration.Lib.Hex

/-! The rows of texts that `apply-wone-qualification.py` reads and writes. -/

namespace HarmonyMigration.Claims.WoneAllocation

open Erc20 Except Decimal Wone Verify

/-- The columns of the overlaid ledger. -/
inductive Field where
  | secureKey | address | addressOrSecureKey | addressResolved
  | claimsShard0Block | claimsShard1Block | valuationPriceReferenceShard0Block | valuationPriceUsdPerOne
  | atto (c : Component) | one (c : Component)
  | walletAirdropUsd | totalUsd | nonceShard0 | nonceShard1 | codeHashShard0 | codeHashShard1
  deriving DecidableEq

def nativeFields : List Field :=
  [.secureKey, .address, .addressOrSecureKey, .addressResolved, .claimsShard0Block, .claimsShard1Block,
    .valuationPriceReferenceShard0Block, .valuationPriceUsdPerOne] ++
  componentNames.map .atto ++ componentNames.map .one ++
  [.walletAirdropUsd, .totalUsd, .nonceShard0, .nonceShard1, .codeHashShard0, .codeHashShard1]

/-- The native columns with those of the WONE components put before the sums they belong to. -/
def migrationFields : List Field :=
  nativeFields.flatMap fun
    | .atto .walletAirdrop =>
      [.atto .nativeWalletAirdrop, .atto .woneBalance, .atto .woneAirdrop, .atto .walletAirdrop]
    | .atto .totalClaim => [.atto .qualificationTotal, .atto .nativeTotalClaim, .atto .totalClaim]
    | .one .walletAirdrop => [.one .nativeWalletAirdrop, .one .woneBalance, .one .woneAirdrop, .one .walletAirdrop]
    | .one .totalClaim => [.one .qualificationTotal, .one .nativeTotalClaim, .one .totalClaim]
    | f => [f]

/-- A row of texts. In a row of the native ledger the WONE columns are not there and never read. -/
abbrev Row := Field → Text

/-- A row of the metadata of the holders without a claim. -/
structure MetadataText where
  address : Text
  woneBalanceAtto : Text
  combinedTotalAtto : Text
  claimRowPresent : Text
  nonceShard0 : Text
  codeHashShard0 : Text
  codeStatus : Text

/-- `keccak256`, of an address and of a text. -/
structure Keccak extends SecureHash where
  digest : Text → BitVec 256

/-- The text of a key orders as its number does. -/
def SecureHash.prefixedKeys (H : SecureHash) : Keys where
  key a := (H.hash a).toNat
  injective _ _ h := H.injective (BitVec.eq_of_toNat_eq h)

def secureKeyText (H : Keccak) (a : Address) : Text := Hex.render 64 (H.hash a).toNat

/-- `to_checksum`: a digit is put in upper case where the digest's digit is 8 or more. -/
def toChecksum (H : Keccak) (a : Address) : Text :=
  let raw := Hex.digits 40 a.toNat
  '0' :: 'x' :: List.zipWith (fun c k => if 8 ≤ (Hex.digit? k).getD 0 then c.toUpper else c) raw
    (Hex.digits 64 (H.digest raw).toNat)

def lower (t : Text) : Text := t.map Char.toLower

/-! ### What is read -/

/-- `normalize_address` of the overlay: `0x` may be missing. -/
def readAddress (t : Text) : Option Address :=
  (Hex.parse 40 (if "0x".toList <+: lower t then lower t else "0x".toList ++ lower t)).map (BitVec.ofNat 160)

def Row.key? (row : Row) : Option ℕ := Hex.parse 64 (lower (row .secureKey))

/-- What the overlay reads of a row. -/
def Row.native? (row : Row) : Option NativeRow :=
  (Row.key? row).bind fun key =>
  (readAddress (row .address)).bind fun address =>
  (parseInt (row (.atto .walletAirdrop))).bind fun wallet =>
  (parseInt (row (.atto .stakedToVault))).bind fun staked =>
  (parseInt (row (.atto .totalClaim))).bind fun total =>
  (parseInt (row (.atto .liquidShard0))).bind fun liquidShard0 =>
  (parseInt (row (.atto .liquidShard1))).bind fun liquidShard1 =>
  (parseInt (row (.atto .liquidTotal))).map fun liquidTotal =>
    { key, address, wallet, staked, total, liquidShard0, liquidShard1, liquidTotal,
      price := parsePrice (row .valuationPriceUsdPerOne), codeHashShard0 := String.ofList (row .codeHashShard0),
      codeHashShard1 := String.ofList (row .codeHashShard1) }

def MetadataText.present (m : MetadataText) : Bool := lower m.claimRowPresent ≠ "false".toList

def MetadataText.record? (m : MetadataText) : Option MetadataRow :=
  (readAddress m.address).bind fun address =>
  (parseInt m.woneBalanceAtto).map fun woneBalance =>
    { address, woneBalance, claimRowPresent := false, codeHashShard0 := String.ofList m.codeHashShard0 }

def readNativeRows (native : List Row) : Except OverlayError (List NativeRow) :=
  native.mapM fun row => (Row.native? row).elim (.error .unreadableRow) .ok

/-- Rows of holders with a claim are skipped. -/
def readMetadata (metadata : List MetadataText) : Except OverlayError (List MetadataRow) :=
  (metadata.filter fun m => ¬m.present).mapM fun m => m.record?.elim (.error .unreadableRow) .ok

/-! ### What is written -/

/-- The decimals of the price as the row spells it. -/
def Row.priceScale (row : Row) : ℕ := ((parsePrice (row .valuationPriceUsdPerOne)).map Price.scale).getD 0

/-- `dict(row)`, updated. -/
def updated (row : Row) (r : ClaimRow) : Row
  | .atto c => (computed r c).elim (row (.atto c)) renderInt
  | .one c => (computed r c).elim (row (.one c)) (fixed 18)
  | .walletAirdropUsd => usdText (Row.priceScale row) r.walletUsd
  | .totalUsd => usdText (Row.priceScale row) r.totalUsd
  | f => row f

/-- The row of texts that `new_holder_row` overlays. -/
def newHolderText (H : Keccak) (a : Address) (m : MetadataText) : Row
  | .secureKey => secureKeyText H a
  | .address => toChecksum H a
  | .addressOrSecureKey => toChecksum H a
  | .addressResolved => "true".toList
  | .claimsShard0Block => "93623067".toList
  | .claimsShard1Block => "95882100".toList
  | .valuationPriceReferenceShard0Block => "93448483".toList
  | .valuationPriceUsdPerOne => "0.00074801".toList
  | .atto _ => "0".toList
  | .one _ => fixed 18 0
  | .walletAirdropUsd => "0.00000000000000000000000000".toList
  | .totalUsd => "0.00000000000000000000000000".toList
  | .nonceShard0 => m.nonceShard0
  | .nonceShard1 => []
  | .codeHashShard0 => m.codeHashShard0
  | .codeHashShard1 => []

/-- The texts of a written row: those of the native row with its key, or of the new one, updated. -/
def written (H : Keccak) (native : List Row) (metadata : List MetadataText) (r : ClaimRow) : Row :=
  match native.find? fun row => Row.key? row = some r.key with
  | some row => updated row r
  | none =>
    ((metadata.filter fun m => ¬m.present).find? fun m => readAddress m.address = some r.address).elim (fun _ => [])
      fun m => updated (newHolderText H r.address m) r

/-- `main` on files of texts; the other inputs are those of `i`. -/
def applyQualification (H : Keccak) (native : List Row) (metadata : List MetadataText) (i : Wone.Input) :
    Except OverlayError (List Row × Output) :=
  (readNativeRows native).bind fun nativeRows =>
  (readMetadata metadata).bind fun records =>
  match Wone.main (SecureHash.prefixedKeys H.toSecureHash) { i with native := nativeRows, metadata := records } with
  | .error e => .error (.run e)
  | .ok out => .ok (out.totals.rows.map (written H native metadata), out)

end HarmonyMigration.Claims.WoneAllocation
