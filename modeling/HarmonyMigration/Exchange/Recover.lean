import HarmonyMigration.ContractReview.SecureKey
import HarmonyMigration.Exchange.PointArithmetic
import HarmonyMigration.Lib.Ecdsa
import HarmonyMigration.Lib.ExceptRun

/-! `recover_eip191_address` of `normalize-exchange-wallets.py`. The candidate point comes from a power that is a square
root only where there is one, and no line asks for the equation of the curve. -/

namespace HarmonyMigration.ExchangeRecovery

open Airdrop ContractReview Decimal Except Keccak256 ModArith ShortWeierstrass Slices

/-! ### The source's functions -/

/-- `message.encode("utf-8")`. -/
def encodeUtf8 (text : Text) : Bytes := text.flatMap String.utf8EncodeChar

def eip191Hash (message : Text) : Bytes :=
  let encoded := encodeUtf8 message
  let lead := encodeUtf8 ("\x19Ethereum Signed Message:\n".toList ++ Decimal.render encoded.length)
  keccak256Pure (lead ++ encoded)

/-- `int.from_bytes(eip191_hash(message), "big")`. -/
def messageDigest (message : Text) : ℕ := beNat (eip191Hash message)

def hexDigits : Text := "0123456789abcdefABCDEF".toList

/-- The two numbers of a signature and its recovery bit. -/
def readSignature (signature context : Text) : Except RecoverError (ℕ × ℕ × ℕ) :=
  let text := withoutPrefix (strip signature)
  (require (text.length = 130 ∧ ∀ c ∈ text, c ∈ hexDigits)
    (.valueError (context ++ ": signature is not 65-byte hex".toList))).bind fun _ =>
  (ofOption (fromhex text) .notHexadecimal).bind fun raw =>
  let r := beNat (slice raw 0 32)
  let s := beNat (slice raw 32 64)
  (ofOption raw[64]? .outOfRange).bind fun last =>
  let recoveryId := if last.toNat = 27 ∨ last.toNat = 28 then last.toNat - 27 else last.toNat
  (require (recoveryId = 0 ∨ recoveryId = 1)
    (.valueError (context ++ ": unsupported recovery id".toList))).bind fun _ =>
  (require ((0 < r ∧ r < secp256k1N) ∧ 0 < s ∧ s ≤ secp256k1N / 2)
    (.valueError (context ++ ": invalid or non-canonical signature".toList))).bind fun _ =>
  .ok (r, s, recoveryId)

/-- The candidate with the abscissa `r`, whose ordinate has the parity of the recovery bit. -/
def recoveredR (r recoveryId : ℕ) : ℤ × ℤ :=
  let x : ℤ := r
  let alpha := (powMod x 3 secp256k1P + 7) % secp256k1P
  let beta := powMod alpha ((secp256k1P + 1) / 4) secp256k1P
  (x, if beta % 2 = recoveryId then beta else secp256k1P - beta)

/-- The last twenty bytes of the hash of a public key. -/
def keyAddress (publicKey : ℤ × ℤ) : Text :=
  let encodedKey := toBytes 32 publicKey.1.toNat ++ toBytes 32 publicKey.2.toNat
  let hash := keccak256Pure encodedKey
  hexPrefix ++ hexText (hash.drop (hash.length - 20))

def recoverEip191Address (message signature context : Text) : Except RecoverError Text :=
  (readSignature signature context).bind fun (r, s, recoveryId) =>
  let point := recoveredR r recoveryId
  (scalarMultiply secp256k1N (some point)).bind fun multiple =>
  (require (multiple = none) (.valueError (context ++ ": invalid recovery point".toList))).bind fun _ =>
  let digest := messageDigest message
  (modInverse r secp256k1N).bind fun inverseR =>
  (scalarMultiply s (some point)).bind fun left =>
  (scalarMultiply (-digest) (some secp256k1G)).bind fun right =>
  (pointAdd left right).bind fun sum =>
  (scalarMultiply inverseR sum).bind fun publicKey =>
  (ofOption publicKey (.valueError (context ++ ": could not recover signer".toList))).map keyAddress

/-! ### Points of order `n` -/

abbrev Fn := ZMod secp256k1N

/-- The points that the order takes to infinity. -/
abbrev Torsion := AddSubgroup.torsionBy Point (secp256k1N : ℤ)

instance : Module Fn Torsion := AddSubgroup.torsionBy.zmodModule

def generatorT : Torsion := ⟨generator, AddSubgroup.torsionBy.nsmul_iff.mpr order_smul_generator⟩

theorem coe_generatorT : (generatorT : Point) = generator := rfl

theorem coordinates_generatorT : coordinates generatorT = some secp256k1G := coordinates_generator

theorem generatorT_ne_zero : generatorT ≠ 0 := fun h0 => generator_ne_zero (congrArg Subtype.val h0)

theorem coe_intCast_smul (z : ℤ) (T : Torsion) : (((z : Fn) • T : Torsion) : Point) = z • (T : Point) := by
  rw [Int.cast_smul_eq_zsmul]
  rfl

theorem coe_natCast_smul (n : ℕ) (T : Torsion) : (((n : Fn) • T : Torsion) : Point) = n • (T : Point) := by
  rw [Nat.cast_smul_eq_nsmul]
  rfl

theorem coe_smul (a : Fn) (T : Torsion) : ((a • T : Torsion) : Point) = a.val • (T : Point) := by
  have hcast : a = ((a.val : ℕ) : ℤ) := by simp
  conv_lhs => rw [hcast, coe_intCast_smul]
  exact natCast_zsmul _ _

theorem coe_ne_zero {T : Torsion} (h : T ≠ 0) : (T : Point) ≠ 0 := fun h0 => h (Subtype.ext h0)

theorem scalarMultiply_torsion {T : Torsion} (h : T ≠ 0) (z : ℤ) :
    scalarMultiply z (coordinates T) = .ok (coordinates ((z : Fn) • T : Torsion)) := by
  rw [scalarMultiply_eq (coe_ne_zero h)]
  have hscalar : (((if z < 0 then z % secp256k1N else z).toNat : ℤ) : Fn) = z := by
    split_ifs with hz
    · rw [Int.toNat_of_nonneg (reduced secp256k1N_pos z).1]
      exact ZMod.intCast_mod z secp256k1N
    · rw [Int.toNat_of_nonneg (by omega)]
  rw [← hscalar, coe_intCast_smul, natCast_zsmul]

/-! ### The candidate point -/

section Candidate

variable {r recoveryId : ℕ}

/-- The square root of the source, for every abscissa. -/
theorem exists_beta (r recoveryId : ℕ) : ∃ beta : ℤ, (0 < beta ∧ beta < secp256k1P) ∧
    (beta : Fp) = ((r : Fp) ^ 3 + 7) ^ ((secp256k1P + 1) / 4) ∧
    recoveredR r recoveryId = ((r : ℤ), if beta % 2 = recoveryId then beta else secp256k1P - beta) := by
  have halpha : (((powMod r 3 secp256k1P + 7) % secp256k1P : ℤ) : Fp) = (r : Fp) ^ 3 + 7 := by
    rw [intCast_emod, Int.cast_add, cast_powMod]
    push_cast
    rfl
  have hcast := cast_powMod (p := secp256k1P) ((powMod r 3 secp256k1P + 7) % secp256k1P) ((secp256k1P + 1) / 4)
  rw [halpha] at hcast
  refine ⟨_, ?_, hcast, rfl⟩
  obtain ⟨hnonneg, hlt⟩ := reduced secp256k1P_pos (((powMod r 3 secp256k1P + 7) % secp256k1P) ^ ((secp256k1P + 1) / 4))
  rw [← powMod_eq secp256k1P_pos] at hnonneg hlt
  refine ⟨lt_of_le_of_ne hnonneg fun h0 => ?_, hlt⟩
  rw [← h0, Int.cast_zero] at hcast
  exact pow_ne_zero _ (cube_add_seven_ne_zero r) hcast.symm

theorem recoveredR_reduced (r recoveryId : ℕ) :
    0 ≤ (recoveredR r recoveryId).2 ∧ (recoveredR r recoveryId).2 < secp256k1P := by
  obtain ⟨beta, hbeta, -, hpoint⟩ := exists_beta r recoveryId
  rw [hpoint]
  simp only
  split_ifs <;> omega

theorem recoveredR_parity (h : recoveryId = 0 ∨ recoveryId = 1) : (recoveredR r recoveryId).2 % 2 = recoveryId := by
  obtain ⟨beta, hbeta, -, hpoint⟩ := exists_beta r recoveryId
  have hodd : (secp256k1P : ℤ) % 2 = 1 := by decide
  rw [hpoint]
  simp only
  split_ifs <;> omega

/-- The candidate is a point of the curve where there is a square root. -/
theorem recoveredR_equation (h : IsSquare ((r : Fp) ^ 3 + 7)) :
    ((recoveredR r recoveryId).2 : Fp) ^ 2 = ((recoveredR r recoveryId).1 : Fp) ^ 3 + 7 := by
  obtain ⟨beta, -, hbeta, hpoint⟩ := exists_beta r recoveryId
  have hroot : (beta : Fp) ^ 2 = (r : Fp) ^ 3 + 7 := by
    rw [hbeta]
    exact pow_root h
  rw [hpoint]
  simp only
  split_ifs
  · rw [hroot, Int.cast_natCast]
  · push_cast
    rw [ZMod.natCast_self, zero_sub, neg_sq, hroot]

end Candidate

/-! ### What the function returns for a point of the curve -/

section Recovered

variable {message signature context address : Text} {r s recoveryId : ℕ}

theorem range_of_readSignature (h : readSignature signature context = .ok (r, s, recoveryId)) :
    (recoveryId = 0 ∨ recoveryId = 1) ∧ (0 < r ∧ r < secp256k1N) ∧ 0 < s ∧ s ≤ secp256k1N / 2 := by
  rw [readSignature] at h
  simp only [require_bind_ok, ofOption_bind_ok] at h
  obtain ⟨-, raw, -, last, -, hid, hrange, h⟩ := h
  obtain ⟨rfl, hrest⟩ := Prod.mk.inj (Except.ok.inj h)
  obtain ⟨rfl, rfl⟩ := Prod.mk.inj hrest
  exact ⟨hid, hrange⟩

/-- The key that the group determines from the point of a signature. -/
def recoveredKey (message : Text) (r s : ℕ) (R : Torsion) : Torsion :=
  Ecdsa.recovered generatorT (messageDigest message : Fn) (r : Fn) (s : Fn) R

theorem recover_of_torsion (hread : readSignature signature context = .ok (r, s, recoveryId)) {R : Torsion}
    (hR : coordinates R = some (recoveredR r recoveryId)) : recoverEip191Address message signature context =
      (ofOption (coordinates (recoveredKey message r s R)) .notSubscriptable).map keyAddress := by
  obtain ⟨-, ⟨hr0, hrN⟩, -⟩ := range_of_readSignature hread
  have hr : (r : Fn) ≠ 0 := natCast_ne_zero hr0 hrN
  have hR0 : R ≠ 0 := by
    rintro rfl
    cases hR
  have horder : scalarMultiply secp256k1N (coordinates R) = .ok none := by
    rw [scalarMultiply_torsion hR0, Int.cast_natCast, ZMod.natCast_self, zero_smul]
    rfl
  have hleft : scalarMultiply s (coordinates R) = .ok (coordinates ((s : Fn) • R : Torsion)) := by
    rw [scalarMultiply_torsion hR0, Int.cast_natCast]
  have hright : scalarMultiply (-(messageDigest message)) (some secp256k1G) =
      .ok (coordinates (-((messageDigest message : Fn) • generatorT) : Torsion)) := by
    have hmul := scalarMultiply_torsion generatorT_ne_zero (-(messageDigest message))
    rwa [coordinates_generatorT, Int.cast_neg, Int.cast_natCast, neg_smul] at hmul
  obtain ⟨v, hv, hinv⟩ := modInverse_prime (a := r) (by exact_mod_cast hr)
  generalize hT : (s : Fn) • R - (messageDigest message : Fn) • generatorT = T
  have hsum : pointAdd (coordinates ((s : Fn) • R : Torsion))
      (coordinates (-((messageDigest message : Fn) • generatorT) : Torsion)) = .ok (coordinates T) := by
    rw [pointAdd_eq, ← AddSubgroup.coe_add, ← sub_eq_add_neg, hT]
  have hkey : recoveredKey message r s R = (v : Fn) • T := by
    rw [recoveredKey, Ecdsa.recovered, hT, hinv, Int.cast_natCast]
  rw [recoverEip191Address, hread, bind_ok_left, hkey]
  simp only [← hR, horder, hv, hleft, hright, hsum, bind_ok_left]
  rw [require, if_pos trivial, bind_ok_left]
  by_cases hT0 : T = 0
  · -- no coordinates to multiply
    rw [hT0, smul_zero]
    rfl
  · have hv0 : (v : Fn) ≠ 0 := by
      rw [hinv, Int.cast_natCast]
      exact inv_ne_zero hr
    rw [scalarMultiply_torsion hT0, bind_ok_left]
    cases hc : coordinates ((v : Fn) • T : Torsion) with
    | none => exact absurd (coordinates_eq_none_iff.mp hc) (coe_ne_zero (smul_ne_zero hv0 hT0))
    | some key => rfl

end Recovered

end HarmonyMigration.ExchangeRecovery
