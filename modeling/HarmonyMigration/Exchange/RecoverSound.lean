import HarmonyMigration.Exchange.Recover

/-! Which recovered addresses belong to a signer. -/

namespace HarmonyMigration.ExchangeRecovery

open ContractReview Decimal Except Slices

/-! ### Standard verification -/

/-- `(r, s)` is a signature of the digest `e` under the key `Q`. -/
structure Verifies (e r s : ℕ) (Q : Point) : Prop where
  r_range : 0 < r ∧ r < secp256k1N
  s_range : 0 < s ∧ s < secp256k1N
  key : Q ≠ 0 ∧ secp256k1N • Q = 0
  abscissa : ∃ x y, coordinates (((e : Fn) * (s : Fn)⁻¹).val • generator + ((r : Fn) * (s : Fn)⁻¹).val • Q) = some (x, y) ∧
    x % secp256k1N = r

/-- The abscissa of a point of the curve. -/
def IsAbscissa (r : ℕ) : Prop := ∃ y : Fp, y ^ 2 = (r : Fp) ^ 3 + 7

/-- The candidate lies on the curve with the signalled parity, and the address is that of a key that signed. -/
structure Sound (message : Text) (r s recoveryId : ℕ) (address : Text) : Prop where
  abscissa : (recoveredR r recoveryId).1 = r
  on_curve : ((recoveredR r recoveryId).2 : Fp) ^ 2 = ((recoveredR r recoveryId).1 : Fp) ^ 3 + 7
  reduced : 0 ≤ (recoveredR r recoveryId).2 ∧ (recoveredR r recoveryId).2 < secp256k1P
  parity : (recoveredR r recoveryId).2 % 2 = recoveryId
  low_s : s ≤ secp256k1N / 2
  verifies : ∃ Q key, coordinates Q = some key ∧ keyAddress key = address ∧ Verifies (messageDigest message) r s Q

section Soundness

variable {message signature context address : Text} {r s recoveryId : ℕ}

theorem isAbscissa_iff : IsAbscissa r ↔ IsSquare ((r : Fp) ^ 3 + 7) := by
  rw [isSquare_iff_exists_sq]
  exact exists_congr fun y => eq_comm

/-- The order takes the candidate of every accepted signature to infinity. -/
theorem order_of_recover (hread : readSignature signature context = .ok (r, s, recoveryId))
    (h : recoverEip191Address message signature context = .ok address) :
    scalarMultiply secp256k1N (some (recoveredR r recoveryId)) = .ok none := by
  rw [recoverEip191Address, hread, bind_ok_left] at h
  obtain ⟨multiple, hmultiple, h⟩ := of_bind_ok h
  obtain ⟨rfl, -⟩ := require_bind_ok.mp h
  exact hmultiple

/-- An accepted candidate on the curve is a point of order `n`. -/
theorem exists_torsion (hread : readSignature signature context = .ok (r, s, recoveryId))
    (h : recoverEip191Address message signature context = .ok address) (hsquare : IsSquare ((r : Fp) ^ 3 + 7)) :
    ∃ R : Torsion, coordinates R = some (recoveredR r recoveryId) := by
  obtain ⟨-, ⟨-, hrN⟩, -⟩ := range_of_readSignature hread
  have hN := secp256k1N_lt
  have hx : 0 ≤ (recoveredR r recoveryId).1 ∧ (recoveredR r recoveryId).1 < secp256k1P := by
    rw [recoveredR]
    simp only
    omega
  have hcoord := coordinates_pointOf (recoveredR_equation hsquare) hx (recoveredR_reduced r recoveryId)
  rw [Prod.mk.eta] at hcoord
  have horder := order_of_recover hread h
  have hne : pointOf (recoveredR_equation hsquare) ≠ 0 := fun h0 => by
    rw [h0, coordinates_zero] at hcoord
    cases hcoord
  rw [← hcoord, scalarMultiply_natCast hne] at horder
  have hzero := coordinates_eq_none_iff.mp (Except.ok.inj horder)
  exact ⟨⟨_, AddSubgroup.torsionBy.nsmul_iff.mpr hzero⟩, hcoord⟩

/-- A recovered key verifies the signature. -/
theorem verifies_recoveredKey (hread : readSignature signature context = .ok (r, s, recoveryId)) {R : Torsion}
    (hR : coordinates R = some (recoveredR r recoveryId)) (hne : recoveredKey message r s R ≠ 0) :
    Verifies (messageDigest message) r s (recoveredKey message r s R) := by
  obtain ⟨-, hr, hs0, hs⟩ := range_of_readSignature hread
  have hpos := prime_secp256k1N.pos
  have hsN : s < secp256k1N := by omega
  have hverify := Ecdsa.verifyPoint_recovered generatorT (e := (messageDigest message : Fn)) (R := R)
    (natCast_ne_zero hr.1 hr.2) (natCast_ne_zero hs0 hsN)
  refine ⟨hr, ⟨hs0, hsN⟩, ⟨coe_ne_zero hne, AddSubgroup.torsionBy.nsmul_iff.mp (Subtype.property _)⟩, ?_⟩
  have hpoint := congrArg (fun T : Torsion => (T : Point)) hverify
  rw [Ecdsa.verifyPoint] at hpoint
  simp only [AddSubgroup.coe_add, coe_smul] at hpoint
  refine ⟨_, _, (congrArg coordinates hpoint).trans hR, ?_⟩
  exact Int.emod_eq_of_lt (by omega) (by exact_mod_cast hr.2)

/-- A returned address is that of a signer just where `r` is the abscissa of a point of the curve. -/
theorem recover_sound_iff (hread : readSignature signature context = .ok (r, s, recoveryId))
    (h : recoverEip191Address message signature context = .ok address) :
    (Sound message r s recoveryId address ∧
      (¬IsAbscissa r → ∃ e, recoverEip191Address message signature context = .error e)) ↔
      IsSquare ((r : Fp) ^ 3 + 7) := by
  constructor
  · intro hsound
    exact isAbscissa_iff.mp ⟨_, hsound.1.on_curve⟩
  intro hsquare
  refine ⟨?_, fun hnot => absurd (isAbscissa_iff.mpr hsquare) hnot⟩
  obtain ⟨hid, hr, hs0, hs⟩ := range_of_readSignature hread
  obtain ⟨R, hR⟩ := exists_torsion hread h hsquare
  rw [recover_of_torsion hread hR] at h
  obtain ⟨key, hkey, rfl⟩ := of_map_ok h
  have hcoord := ok_of_ofOption hkey
  have hne : recoveredKey message r s R ≠ 0 := fun h0 => by
    rw [h0] at hcoord
    cases hcoord
  exact ⟨rfl, recoveredR_equation hsquare, recoveredR_reduced r recoveryId, recoveredR_parity hid, hs,
    _, key, hcoord, rfl, verifies_recoveredKey hread hR hne⟩

end Soundness

theorem isSquare_of_powMod {a : ℤ} (h : ModArith.powMod (a ^ 3 + 7) (secp256k1P / 2) secp256k1P = 1) :
    IsSquare ((a : Fp) ^ 3 + 7) := by
  rw [ZMod.euler_criterion secp256k1P (cube_add_seven_ne_zero a)]
  have hcast := ModArith.cast_powMod (p := secp256k1P) (a ^ 3 + 7) (secp256k1P / 2)
  rw [h] at hcast
  push_cast at hcast
  exact hcast.symm

/-- Both numbers of the signature are 1. -/
def onCurveText : Text := hexPrefix ++ hexText (toBytes 32 1 ++ toBytes 32 1 ++ [27])

theorem sound_signature : ∃ address, recoverEip191Address [] onCurveText [] = .ok address ∧ Sound [] 1 1 0 address := by
  have hread : readSignature onCurveText [] = .ok (1, 1, 0) := Except.eq_ok_of_toOption (by decide +kernel)
  have hok : (recoverEip191Address [] onCurveText []).toBool = true := by decide +kernel
  have hsquare : IsSquare (((1 : ℕ) : Fp) ^ 3 + 7) := by
    exact_mod_cast isSquare_of_powMod (a := 1) (by decide +kernel)
  obtain ⟨address, h⟩ := Except.exists_ok_of_toBool hok
  exact ⟨address, h, ((recover_sound_iff hread h).mpr hsquare).1⟩

/-- `r` is 23, which is no abscissa, and `s` is 1. -/
def offCurveText : Text := hexPrefix ++ hexText (toBytes 32 23 ++ toBytes 32 1 ++ [27])

/-- An address comes out of a candidate that lies on another curve. -/
theorem off_curve_address : ∃ address, recoverEip191Address [] offCurveText [] = .ok address ∧
    readSignature offCurveText [] = .ok (23, 1, 0) ∧ ¬IsAbscissa 23 ∧ ¬Sound [] 23 1 0 address := by
  have hread : readSignature offCurveText [] = .ok (23, 1, 0) := Except.eq_ok_of_toOption (by decide +kernel)
  have hok : (recoverEip191Address [] offCurveText []).toBool = true := by decide +kernel
  have hnot : ¬IsAbscissa 23 := by
    intro h
    have hsquare := (ZMod.euler_criterion secp256k1P (cube_add_seven_ne_zero (23 : ℕ))).mp (isAbscissa_iff.mp h)
    have hcast : (((23 ^ 3 + 7 : ℤ) : Fp)) ^ (secp256k1P / 2) = 1 := by exact_mod_cast hsquare
    rw [← ModArith.cast_powMod, ← Int.cast_one] at hcast
    exact absurd ((ZMod.intCast_eq_intCast_iff' _ _ _).mp hcast) (by decide +kernel)
  obtain ⟨address, h⟩ := Except.exists_ok_of_toBool hok
  exact ⟨address, h, hread, hnot, fun hsound => hnot ⟨_, hsound.on_curve⟩⟩

end HarmonyMigration.ExchangeRecovery
