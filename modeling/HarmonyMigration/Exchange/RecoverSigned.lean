import HarmonyMigration.Exchange.Recover

/-! The signatures of a private key are recovered with one recovery bit and give another key with the other. -/

namespace HarmonyMigration.ExchangeRecovery

open Airdrop ContractReview Decimal Except ShortWeierstrass Slices

/-! ### Signing -/

/-- The second number before it is brought into the low half. -/
def rawS (d k e r : ℕ) : ℕ := (Ecdsa.signS (d : Fn) (k : Fn) (e : Fn) (r : Fn)).val

def lowS (s : ℕ) : ℕ := if secp256k1N / 2 < s then secp256k1N - s else s

/-- The parity of the nonce's point, flipped where `s` was negated. -/
def lowBit (s bit : ℕ) : ℕ := if secp256k1N / 2 < s then 1 - bit else bit

/-- `r || s || v` in hexadecimal. -/
def signatureText (lead : Text) (r s v : ℕ) : Text := lead ++ hexText (toBytes 32 r ++ toBytes 32 s ++ [UInt8.ofNat v])

/-! ### The text of a signature -/

section Texts

variable {lead context : Text} {r s bit : ℕ}

theorem strip_signatureText (hlead : lead = [] ∨ lead = hexPrefix) (v : ℕ) :
    withoutPrefix (strip (signatureText lead r s v)) = hexText (toBytes 32 r ++ toBytes 32 s ++ [UInt8.ofNat v]) := by
  have hdigits : ∀ n < 16, isSpace (Nat.digitChar n) = false := by decide
  have hhex : ∀ data : Bytes, ∀ c ∈ hexText data, isSpace c = false := by
    intro data c hc
    obtain ⟨n, hn, rfl⟩ := exists_digit_of_mem_hexText hc
    exact hdigits n hn
  have hspace : ∀ c ∈ signatureText lead r s v, isSpace c = false := by
    intro c hc
    rcases List.mem_append.mp hc with hc | hc
    · have hprefix : ∀ c ∈ hexPrefix, isSpace c = false := by decide
      rcases hlead with rfl | rfl
      · cases hc
      · exact hprefix c hc
    · exact hhex _ c hc
  rw [strip_of_forall hspace, signatureText]
  rcases hlead with rfl | rfl
  · rw [List.nil_append, withoutPrefix_hexText]
  · rfl

theorem readSignature_signatureText (hlead : lead = [] ∨ lead = hexPrefix) (hr : 0 < r ∧ r < secp256k1N)
    (hs : 0 < s ∧ s ≤ secp256k1N / 2) (hbit : bit = 0 ∨ bit = 1) :
    readSignature (signatureText lead r s (27 + bit)) context = .ok (r, s, bit) := by
  have hdigits : ∀ n < 16, Nat.digitChar n ∈ hexDigits := by decide
  have hwidth : secp256k1N < 256 ^ 32 := by decide
  have hlength : (hexText (toBytes 32 r ++ toBytes 32 s ++ [UInt8.ofNat (27 + bit)])).length = 130 := by
    rw [length_hexText]
    simp
  have hmem : ∀ c ∈ hexText (toBytes 32 r ++ toBytes 32 s ++ [UInt8.ofNat (27 + bit)]), c ∈ hexDigits := by
    intro c hc
    obtain ⟨n, hn, rfl⟩ := exists_digit_of_mem_hexText hc
    exact hdigits n hn
  have hfirst : slice (toBytes 32 r ++ toBytes 32 s ++ [UInt8.ofNat (27 + bit)]) 0 32 = toBytes 32 r := by
    rw [List.append_assoc]
    exact slice_append_left (length_toBytes 32 r)
  have hsecond : slice (toBytes 32 r ++ toBytes 32 s ++ [UInt8.ofNat (27 + bit)]) 32 64 = toBytes 32 s := by
    rw [List.append_assoc]
    exact (slice_append_right (length_toBytes 32 r) 0 32).trans (slice_append_left (length_toBytes 32 s))
  have hlast : (toBytes 32 r ++ toBytes 32 s ++ [UInt8.ofNat (27 + bit)])[64]? = some (UInt8.ofNat (27 + bit)) := by
    rw [List.getElem?_append_right (by simp)]
    simp
  have hid : (if (UInt8.ofNat (27 + bit)).toNat = 27 ∨ (UInt8.ofNat (27 + bit)).toNat = 28 then
      (UInt8.ofNat (27 + bit)).toNat - 27 else (UInt8.ofNat (27 + bit)).toNat) = bit := by
    rcases hbit with rfl | rfl <;> rfl
  rw [readSignature]
  simp only [require_bind_ok, ofOption_bind_ok, strip_signatureText hlead]
  refine ⟨⟨hlength, hmem⟩, _, fromhex_hexText _, _, hlast, ?_⟩
  rw [hid, hfirst, hsecond, beNat_toBytes (by omega), beNat_toBytes (by omega)]
  exact ⟨hbit, ⟨hr, hs⟩, rfl⟩

end Texts

/-! ### The two candidates -/

section Candidates

variable {T : Point} {r id : ℕ} {y : ℤ}

/-- A point of the curve and its negative have ordinates of different parity. -/
theorem parity_neg {x x' y' : ℤ} (h : coordinates T = some (x, y)) (hneg : coordinates (-T) = some (x', y')) :
    y' % 2 ≠ y % 2 := by
  cases T with
  | zero => cases h
  | some x₀ y₀ hT =>
    obtain ⟨-, rfl⟩ := Prod.mk.inj (Option.some.inj h)
    rw [WeierstrassCurve.Affine.Point.neg_some] at hneg
    obtain ⟨-, rfl⟩ := Prod.mk.inj (Option.some.inj hneg)
    have hne : y₀ ≠ 0 := by
      rintro rfl
      exact cube_add_seven_ne_zero x₀ (by rw [← equation_curve.mp hT.1, zero_pow (by decide)])
    have hpos : 0 < y₀.val := Nat.pos_of_ne_zero fun h0 => hne ((ZMod.val_eq_zero y₀).mp h0)
    have hlt := ZMod.val_lt y₀
    have hodd : secp256k1P % 2 = 1 := by decide
    rw [negY_curve, ZMod.neg_val, if_neg hne]
    omega

/-- The candidate with one parity is the point, and the one with the other its negative. -/
theorem coordinates_recoveredR (hT : coordinates T = some ((r : ℤ), y)) (hid : id = 0 ∨ id = 1) :
    some (recoveredR r id) = coordinates (if y % 2 = id then T else -T) := by
  have hparity := recoveredR_parity (r := r) hid
  cases T with
  | zero => cases hT
  | some x₀ y₀ h =>
    obtain ⟨hx, hy⟩ := Prod.mk.inj (Option.some.inj hT)
    have hcast : (r : Fp) = x₀ := by
      rw [Int.natCast_inj.mp hx.symm, ZMod.natCast_zmod_val]
    have hsquare : IsSquare ((r : Fp) ^ 3 + 7) := ⟨y₀, by rw [hcast, ← equation_curve.mp h.1, pow_two]⟩
    have hfirst : (recoveredR r id).1 = (x₀.val : ℕ) := hx.symm
    have hrange : 0 ≤ (recoveredR r id).1 ∧ (recoveredR r id).1 < secp256k1P := by
      rw [hfirst]
      exact val_lt x₀
    have hcoord := coordinates_pointOf (recoveredR_equation hsquare) hrange (recoveredR_reduced r id)
    have habscissa : ((recoveredR r id).1 : Fp) = x₀ := by rw [hfirst, intCast_val]
    rw [Prod.mk.eta] at hcoord
    rw [pointOf] at hcoord
    generalize_proofs hcandidate at hcoord
    have hpoints : WeierstrassCurve.Affine.Point.some _ _ hcandidate = .some x₀ y₀ h ∨
        WeierstrassCurve.Affine.Point.some _ _ hcandidate = -.some x₀ y₀ h :=
      WeierstrassCurve.Affine.Point.X_eq_iff.mp habscissa
    have hchoice : coordinates (.some x₀ y₀ h) = some (recoveredR r id) ∨
        coordinates (-.some x₀ y₀ h) = some (recoveredR r id) := by
      rcases hpoints with heq | heq
      · exact .inl (heq ▸ hcoord)
      · exact .inr (heq ▸ hcoord)
    generalize recoveredR r id = point at hchoice hparity
    obtain ⟨x', y'⟩ := point
    rcases hchoice with hsame | hother
    · obtain ⟨-, rfl⟩ := Prod.mk.inj (Option.some.inj (hT.symm.trans hsame))
      rw [if_pos hparity, hsame]
    · have hflip := parity_neg hT hother
      rw [if_neg fun h0 => hflip (hparity.trans h0.symm), hother]

end Candidates

/-! ### Recovering the signer -/

section Signed

variable {d k r e : ℕ} {y : ℤ}

/-- The scalars of a signature, as elements of the field. -/
theorem cast_lowS (s : ℕ) (hs : s < secp256k1N) : (lowS s : Fn) = if secp256k1N / 2 < s then -(s : Fn) else s := by
  rw [lowS]
  split_ifs with h
  · rw [Nat.cast_sub hs.le, ZMod.natCast_self, zero_sub]
  · rfl

theorem lowS_range {s : ℕ} (h0 : 0 < s) (hs : s < secp256k1N) : 0 < lowS s ∧ lowS s ≤ secp256k1N / 2 := by
  have hodd : secp256k1N % 2 = 1 := by decide
  rw [lowS]
  split_ifs <;> omega

theorem cast_rawS : (rawS d k e r : Fn) = Ecdsa.signS (d : Fn) (k : Fn) (e : Fn) (r : Fn) := by
  rw [rawS, ZMod.natCast_zmod_val]

/-- The sign of the nonce's point that a recovery bit selects. -/
theorem candidate_bit {bit : ℕ} (hR : coordinates (k • generator) = some ((r : ℤ), y)) (hbit : bit = 0 ∨ bit = 1) :
    some (recoveredR r bit) =
      coordinates ((if y % 2 = bit then (k : Fn) • generatorT else -((k : Fn) • generatorT) : Torsion) : Point) := by
  rw [coordinates_recoveredR hR hbit]
  split_ifs
  · rw [coe_natCast_smul, coe_generatorT]
  · rw [AddSubgroup.coe_neg, coe_natCast_smul, coe_generatorT]

theorem recoveredKey_signed {message : Text} (hk : (k : Fn) ≠ 0) (hr : (r : Fn) ≠ 0) :
    recoveredKey message r (lowS (rawS d k (messageDigest message) r))
      (if y % 2 = lowBit (rawS d k (messageDigest message) r) (y % 2).toNat then (k : Fn) • generatorT
        else -((k : Fn) • generatorT)) = (d : Fn) • generatorT := by
  have hsN : rawS d k (messageDigest message) r < secp256k1N := ZMod.val_lt _
  have hsigned := Ecdsa.recovered_signed generatorT (d := (d : Fn)) (e := (messageDigest message : Fn)) hk hr
  rw [recoveredKey, cast_lowS _ hsN, lowBit, cast_rawS]
  split_ifs with hhigh hbit hbit
  · omega
  · rw [Ecdsa.recovered_neg, hsigned]
  · exact hsigned
  · omega

theorem recoveredKey_other {message : Text} :
    recoveredKey message r (lowS (rawS d k (messageDigest message) r))
      (if y % 2 = (1 - lowBit (rawS d k (messageDigest message) r) (y % 2).toNat : ℕ) then (k : Fn) • generatorT
        else -((k : Fn) • generatorT)) =
      Ecdsa.recovered generatorT (messageDigest message : Fn) (r : Fn)
        (Ecdsa.signS (d : Fn) (k : Fn) (messageDigest message : Fn) (r : Fn)) (-((k : Fn) • generatorT)) := by
  have hsN : rawS d k (messageDigest message) r < secp256k1N := ZMod.val_lt _
  rw [recoveredKey, cast_lowS _ hsN, lowBit, cast_rawS]
  split_ifs with hhigh hbit hbit
  · rw [← neg_neg ((k : Fn) • generatorT), Ecdsa.recovered_neg, neg_neg]
  · omega
  · omega
  · rfl

/-- A low-s signature is recovered with its own bit. With the other bit the key is another point of the curve, so that
the address is the signer's only where the hashes of the two keys collide. -/
theorem recovers_signer (message context : Text) (hd : 0 < d ∧ d < secp256k1N) (hk : 0 < k ∧ k < secp256k1N)
    (hR : coordinates (k • generator) = some ((r : ℤ), y)) (hr : r ≠ 0 ∧ r < secp256k1N)
    (hs : rawS d k (messageDigest message) r ≠ 0) {lead : Text} (hlead : lead = [] ∨ lead = hexPrefix) :
    let s := lowS (rawS d k (messageDigest message) r)
    let bit := lowBit (rawS d k (messageDigest message) r) (y % 2).toNat
    ∃ key, coordinates (d • generator) = some key ∧
      recoverEip191Address message (signatureText lead r s (27 + bit)) context = .ok (keyAddress key) ∧
      (recoverEip191Address message (signatureText lead r s (27 + (1 - bit))) context = .ok (keyAddress key) →
        ∃ other, coordinates (-(d • generator) - (2 * (messageDigest message : Fn) * (r : Fn)⁻¹).val • generator) =
          some other ∧ other ≠ key ∧ keyAddress other = keyAddress key) := by
  intro s bit
  have hd0 : (d : Fn) ≠ 0 := natCast_ne_zero hd.1 hd.2
  have hk0 : (k : Fn) ≠ 0 := natCast_ne_zero hk.1 hk.2
  have hr0 : (r : Fn) ≠ 0 := natCast_ne_zero (Nat.pos_of_ne_zero hr.1) hr.2
  have hsN : rawS d k (messageDigest message) r < secp256k1N := ZMod.val_lt _
  have hbit : bit = 0 ∨ bit = 1 := by
    simp only [bit, lowBit]
    split_ifs <;> omega
  have hread : ∀ id, id = 0 ∨ id = 1 → readSignature (signatureText lead r s (27 + id)) context = .ok (r, s, id) :=
    fun id hid => readSignature_signatureText hlead ⟨Nat.pos_of_ne_zero hr.1, hr.2⟩
      (lowS_range (Nat.pos_of_ne_zero hs) hsN) hid
  have hkey : (((d : Fn) • generatorT : Torsion) : Point) = d • generator := coe_natCast_smul d generatorT
  have hother : 1 - bit = 0 ∨ 1 - bit = 1 := by omega
  cases hc : coordinates (d • generator) with
  | none =>
    rw [← hkey] at hc
    exact absurd (coordinates_eq_none_iff.mp hc) (coe_ne_zero (smul_ne_zero hd0 generatorT_ne_zero))
  | some key =>
    refine ⟨key, rfl, ?_, ?_⟩
    · rw [recover_of_torsion (hread bit hbit) (candidate_bit hR hbit).symm, recoveredKey_signed hk0 hr0, hkey, hc]
      rfl
    · intro h
      rw [recover_of_torsion (hread _ hother) (candidate_bit hR hother).symm, recoveredKey_other] at h
      have hs0 : Ecdsa.signS (d : Fn) (k : Fn) (messageDigest message : Fn) (r : Fn) ≠ 0 :=
        fun h0 => hs ((ZMod.val_eq_zero _).mpr h0)
      have h2 : (2 : Fn) ≠ 0 := by exact_mod_cast natCast_ne_zero (by decide : 0 < 2) (by decide : 2 < secp256k1N)
      have hne := Ecdsa.recovered_other_ne generatorT h2 generatorT_ne_zero hk0 hr0 hs0
      rw [Ecdsa.recovered_other generatorT hk0 hr0] at hne h
      obtain ⟨other, hcoord, haddress⟩ := of_map_ok h
      have hsome := ok_of_ofOption hcoord
      rw [AddSubgroup.coe_sub, AddSubgroup.coe_neg, hkey, coe_smul, coe_generatorT] at hsome
      refine ⟨other, hsome, ?_, haddress⟩
      rintro rfl
      refine hne (Subtype.ext (coordinates_injective ?_))
      rw [AddSubgroup.coe_sub, AddSubgroup.coe_neg, hkey, coe_smul, coe_generatorT, hsome, hc]

/-- The empty message, the private key 7 and the nonce 1. -/
theorem recovers_seven : ∃ key, coordinates (7 • generator) = some key ∧ ∃ s bit,
    recoverEip191Address [] (signatureText hexPrefix secp256k1G.1.toNat s (27 + bit)) [] = .ok (keyAddress key) := by
  have hR : coordinates (1 • generator) = some ((secp256k1G.1.toNat : ℤ), secp256k1G.2) := by
    rw [one_smul]
    exact coordinates_generator
  have hs : rawS 7 1 (messageDigest []) secp256k1G.1.toNat ≠ 0 := by
    have hdvd : ¬secp256k1N ∣ messageDigest [] + secp256k1G.1.toNat * 7 := by decide +kernel
    intro h0
    have hzero := (ZMod.val_eq_zero _).mp h0
    rw [Ecdsa.signS, Nat.cast_one, inv_one, one_mul] at hzero
    exact hdvd ((ZMod.natCast_eq_zero_iff _ _).mp (by exact_mod_cast hzero))
  obtain ⟨key, hkey, hright, -⟩ := recovers_signer [] [] (by decide : 0 < 7 ∧ 7 < secp256k1N)
    (by decide : 0 < 1 ∧ 1 < secp256k1N) hR (by decide) hs (.inr rfl)
  exact ⟨key, hkey, _, _, hright⟩

end Signed

end HarmonyMigration.ExchangeRecovery
