import Mathlib.Algebra.Order.Field.Rat
import Mathlib.Data.Rat.Cast.CharZero
import Mathlib.Tactic

/-! Decimal floating point in a context of fixed precision. A number is a sign, a coefficient
and an exponent; the result of an operation is rounded half to even to the precision of the
context, and too large an exponent is an overflow. -/

namespace DecimalContext

structure Dec where
  negative : Bool
  coeff : ℕ
  exp : ℤ
  deriving DecidableEq

structure Context where
  prec : ℕ
  emax : ℤ
  emin : ℤ

/-- The least and the greatest exponent of a full coefficient. -/
def Context.etiny (ctx : Context) : ℤ := ctx.emin - ctx.prec + 1

def Context.etop (ctx : Context) : ℤ := ctx.emax - ctx.prec + 1

/-- The number of digits; zero has one. -/
def ndigits (c : ℕ) : ℕ := (Nat.toDigits 10 c).length

/-- `c` without its last `k` digits. -/
def roundHalfEven (c k : ℕ) : ℕ :=
  let q := c / 10 ^ k
  let r := c % 10 ^ k
  if 2 * r < 10 ^ k then q
  else if 10 ^ k < 2 * r then q + 1
  else if q % 2 = 0 then q else q + 1

namespace Dec

def value (d : Dec) : ℚ := (if d.negative then -1 else 1) * d.coeff * 10 ^ d.exp

/-- The exponent of the first digit. -/
def adjusted (d : Dec) : ℤ := ndigits d.coeff + d.exp - 1

/-- `d` rounded to `p` digits, whatever the exponent. -/
def round (p : ℕ) (d : Dec) : Dec :=
  let k := ndigits d.coeff - p
  ⟨d.negative, roundHalfEven d.coeff k, d.exp + k⟩

/-- The result of an operation with the exact result `d`; `none` is an overflow. -/
def fix (ctx : Context) (d : Dec) : Option Dec :=
  if d.coeff = 0 then some { d with exp := min (max d.exp ctx.etiny) ctx.emax }
  else
    let expMin := ndigits d.coeff + d.exp - ctx.prec
    if ctx.etop < expMin then none
    else
      let expMin := max expMin ctx.etiny
      if d.exp < expMin then
        let coeff := roundHalfEven d.coeff (expMin - d.exp).toNat
        -- a carry may have made one digit too many
        let r : ℕ × ℤ := if ctx.prec < ndigits coeff then (coeff / 10, expMin + 1) else (coeff, expMin)
        if ctx.etop < r.2 then none else some ⟨d.negative, r.1, r.2⟩
      else some d

def mul (ctx : Context) (a b : Dec) : Option Dec :=
  fix ctx ⟨xor a.negative b.negative, b.coeff * a.coeff, a.exp + b.exp⟩

/-- `to_integral_value`. -/
def toIntegralValue (d : Dec) : Dec :=
  if 0 ≤ d.exp then d else ⟨d.negative, roundHalfEven d.coeff (-d.exp).toNat, 0⟩

/-- `int(d)`, towards zero. -/
def toInt (d : Dec) : ℤ :=
  (if d.negative then -1 else 1) *
    (if 0 ≤ d.exp then d.coeff * 10 ^ d.exp.toNat else d.coeff / 10 ^ (-d.exp).toNat : ℕ)

end Dec

/-! ### Digits and rounding -/

theorem ndigits_pos (c : ℕ) : 0 < ndigits c := List.length_pos_of_ne_nil Nat.toDigits_ne_nil

theorem ndigits_le_iff {c k : ℕ} (hk : 0 < k) : ndigits c ≤ k ↔ c < 10 ^ k :=
  Nat.length_toDigits_le_iff (by decide) hk

theorem lt_pow_ndigits (c : ℕ) : c < 10 ^ ndigits c := (ndigits_le_iff (ndigits_pos c)).mp le_rfl

theorem pow_le_of_ndigits {c k : ℕ} (hk : 0 < k) (h : k < ndigits c) : 10 ^ k ≤ c :=
  not_lt.mp fun hlt => not_lt.mpr ((ndigits_le_iff hk).mpr hlt) h

theorem pow_pred_ndigits_le {c : ℕ} (hc : c ≠ 0) : 10 ^ (ndigits c - 1) ≤ c := by
  have hpos := ndigits_pos c
  rcases Nat.eq_zero_or_pos (ndigits c - 1) with h0 | h1
  · rw [h0]
    exact Nat.one_le_iff_ne_zero.mpr hc
  · exact pow_le_of_ndigits h1 (by omega)

theorem ndigits_eq {c n : ℕ} (hn : 0 < n) (hlow : 10 ^ (n - 1) ≤ c) (hhigh : c < 10 ^ n) : ndigits c = n := by
  refine le_antisymm ((ndigits_le_iff hn).mpr hhigh) ?_
  by_contra hlt
  rcases Nat.eq_zero_or_pos (n - 1) with h0 | h1
  · have := ndigits_pos c
    omega
  · have := (ndigits_le_iff h1).mp (show ndigits c ≤ n - 1 by omega)
    omega

theorem ndigits_mul_pow {c : ℕ} (hc : c ≠ 0) (j : ℕ) : ndigits (c * 10 ^ j) = ndigits c + j := by
  have hpos := ndigits_pos c
  apply ndigits_eq (by omega)
  · calc 10 ^ (ndigits c + j - 1) = 10 ^ (ndigits c - 1) * 10 ^ j := by rw [← pow_add]; congr 1; omega
      _ ≤ c * 10 ^ j := Nat.mul_le_mul_right _ (pow_pred_ndigits_le hc)
  · rw [pow_add]
    exact Nat.mul_lt_mul_of_pos_right (lt_pow_ndigits c) (by positivity)

/-- Zeros behind the coefficient do not change what rounding to `p` digits drops. -/
theorem pow_dvd_mul_pow_iff {c p : ℕ} (hc : c ≠ 0) (j : ℕ) :
    10 ^ (ndigits (c * 10 ^ j) - p) ∣ c * 10 ^ j ↔ 10 ^ (ndigits c - p) ∣ c := by
  rw [ndigits_mul_pow hc]
  by_cases h : p ≤ ndigits c
  · rw [show ndigits c + j - p = ndigits c - p + j by omega, pow_add]
    exact Nat.mul_dvd_mul_iff_right (by positivity)
  · rw [show ndigits c - p = 0 by omega, pow_zero]
    exact iff_of_true (Dvd.dvd.mul_left (pow_dvd_pow 10 (by omega)) c) (one_dvd c)

theorem roundHalfEven_eq_or (c k : ℕ) :
    roundHalfEven c k = c / 10 ^ k ∨ roundHalfEven c k = c / 10 ^ k + 1 := by
  unfold roundHalfEven
  dsimp only
  split_ifs <;> simp

/-- Nothing but zeros is dropped, or the rounded number differs. -/
theorem roundHalfEven_exact_iff {c k : ℕ} : roundHalfEven c k * 10 ^ k = c ↔ 10 ^ k ∣ c := by
  constructor
  · intro h
    exact Dvd.intro_left _ h
  · intro h
    have h0 : c % 10 ^ k = 0 := Nat.mod_eq_zero_of_dvd h
    have hpos : 0 < 10 ^ k := by positivity
    have hround : roundHalfEven c k = c / 10 ^ k := by
      unfold roundHalfEven
      rw [if_pos (by rw [h0]; exact hpos)]
    rw [hround]
    exact Nat.div_mul_cancel h

theorem roundHalfEven_zero (c : ℕ) : roundHalfEven c 0 = c := by
  simpa using (roundHalfEven_exact_iff (k := 0) (c := c)).mpr (by simp)

namespace Dec

variable {d : Dec}

/-! ### Whole numbers -/

/-- The number without its sign. -/
def mag (d : Dec) : ℚ := d.coeff * 10 ^ d.exp

theorem value_eq (d : Dec) : d.value = (if d.negative then -1 else 1) * d.mag := by
  rw [value, mag, mul_assoc]

theorem mag_nonneg (d : Dec) : 0 ≤ d.mag := by
  unfold mag
  positivity

theorem mag_pos (h : d.coeff ≠ 0) : 0 < d.mag := by
  have hc : (0 : ℚ) < d.coeff := by exact_mod_cast Nat.pos_of_ne_zero h
  unfold mag
  positivity

theorem abs_value (d : Dec) : |d.value| = d.mag := by
  rw [value_eq]
  split_ifs
  · rw [neg_one_mul, abs_neg, abs_of_nonneg d.mag_nonneg]
  · rw [one_mul, abs_of_nonneg d.mag_nonneg]

theorem mag_eq_div (h : d.exp < 0) : d.mag = d.coeff / 10 ^ (-d.exp).toNat := by
  obtain ⟨j, hj⟩ : ∃ j : ℕ, d.exp = -(j : ℤ) := ⟨(-d.exp).toNat, by omega⟩
  rw [mag, hj, neg_neg, Int.toNat_natCast, zpow_neg, zpow_natCast, div_eq_mul_inv]

theorem mag_eq_mul (h : 0 ≤ d.exp) : d.mag = (d.coeff * 10 ^ d.exp.toNat : ℕ) := by
  obtain ⟨j, hj⟩ : ∃ j : ℕ, d.exp = (j : ℤ) := ⟨d.exp.toNat, by omega⟩
  rw [mag, hj, Int.toNat_natCast, zpow_natCast, Nat.cast_mul, Nat.cast_pow, Nat.cast_ofNat]

/-- A negative exponent leaves a whole number only behind enough zeros. -/
theorem mag_eq_nat_iff (h : d.exp < 0) {n : ℕ} : d.mag = n ↔ d.coeff = n * 10 ^ (-d.exp).toNat := by
  rw [mag_eq_div h, div_eq_iff (by positivity)]
  exact_mod_cast Iff.rfl

/-- `d == d.to_integral_value()`. -/
def Integral (d : Dec) : Prop := d.value = d.toIntegralValue.value

instance (d : Dec) : Decidable d.Integral := inferInstanceAs (Decidable (d.value = d.toIntegralValue.value))

theorem integral_iff_mag : d.Integral ↔ ∃ n : ℕ, d.mag = n := by
  unfold Integral
  by_cases h : 0 ≤ d.exp
  · rw [toIntegralValue, if_pos h]
    exact ⟨fun _ => ⟨_, mag_eq_mul h⟩, fun _ => rfl⟩
  · push Not at h
    have hwhole : d.toIntegralValue.mag = (roundHalfEven d.coeff (-d.exp).toNat : ℕ) := by
      rw [toIntegralValue, if_neg (not_le.mpr h), mag]
      simp
    have hneg : d.toIntegralValue.negative = d.negative := by
      rw [toIntegralValue, if_neg (not_le.mpr h)]
    constructor
    · intro heq
      exact ⟨_, by rw [← abs_value, heq, abs_value, hwhole]⟩
    · rintro ⟨n, hn⟩
      have hc := (mag_eq_nat_iff h).mp hn
      have hround : roundHalfEven d.coeff (-d.exp).toNat * 10 ^ (-d.exp).toNat = d.coeff :=
        roundHalfEven_exact_iff.mpr (Dvd.intro_left _ hc.symm)
      have hn' : roundHalfEven d.coeff (-d.exp).toNat = n :=
        Nat.eq_of_mul_eq_mul_right (by positivity) (hround.trans hc)
      rw [value_eq, value_eq, hneg, hwhole, hn, hn']

/-- A whole number is its own integer. -/
theorem toInt_eq (h : d.Integral) : (d.toInt : ℚ) = d.value := by
  obtain ⟨n, hn⟩ := integral_iff_mag.mp h
  have hwhole : (if 0 ≤ d.exp then d.coeff * 10 ^ d.exp.toNat
      else d.coeff / 10 ^ (-d.exp).toNat : ℕ) = n := by
    split_ifs with he
    · exact_mod_cast (mag_eq_mul he).symm.trans hn
    · rw [(mag_eq_nat_iff (not_le.mp he)).mp hn]
      exact Nat.mul_div_cancel _ (by positivity)
  rw [toInt, hwhole, value_eq, hn]
  split_ifs <;> simp

/-! ### What rounding keeps -/

theorem round_mag_eq_iff {p : ℕ} : (d.round p).mag = d.mag ↔ 10 ^ (ndigits d.coeff - p) ∣ d.coeff := by
  rw [← roundHalfEven_exact_iff, round, mag, mag]
  dsimp only
  rw [zpow_add₀ (by norm_num), mul_comm ((10 : ℚ) ^ d.exp), ← mul_assoc, zpow_natCast,
    mul_left_inj' (by positivity)]
  exact_mod_cast Iff.rfl

/-- A whole number stays whole, exact or not: what rounding drops lies before the point, or it
is zeros. -/
theorem round_integral {p : ℕ} (h : d.Integral) : (d.round p).Integral := by
  obtain ⟨n, hn⟩ := integral_iff_mag.mp h
  apply integral_iff_mag.mpr
  by_cases he : 0 ≤ (d.round p).exp
  · exact ⟨_, mag_eq_mul he⟩
  · push Not at he
    have hexp : d.exp + ((ndigits d.coeff - p : ℕ) : ℤ) < 0 := he
    have hc := (mag_eq_nat_iff (by omega)).mp hn
    have hdvd : 10 ^ (ndigits d.coeff - p) ∣ n * 10 ^ (-d.exp).toNat :=
      Dvd.dvd.mul_left (pow_dvd_pow 10 (by omega)) n
    rw [← hc] at hdvd
    exact ⟨n, (round_mag_eq_iff.mpr hdvd).trans hn⟩

/-! ### The result of an operation -/

/-- A coefficient of more digits is rounded to one of `p` digits, or up to the least of one more. -/
theorem round_coeff_bounds {p : ℕ} (hp : 0 < p) (h : p < ndigits d.coeff) :
    10 ^ (p - 1) ≤ (d.round p).coeff ∧ (d.round p).coeff ≤ 10 ^ p := by
  have hc : d.coeff ≠ 0 := by
    intro h0
    rw [h0] at h
    have h1 : ndigits 0 ≤ 1 := (ndigits_le_iff (by decide)).mpr (by decide)
    omega
  set k := ndigits d.coeff - p with hk
  have hlow : 10 ^ (p - 1) ≤ d.coeff / 10 ^ k := by
    rw [Nat.le_div_iff_mul_le (by positivity), ← pow_add]
    exact (Nat.pow_le_pow_right (by decide) (by omega)).trans (pow_pred_ndigits_le hc)
  have hhigh : d.coeff / 10 ^ k < 10 ^ p := by
    rw [Nat.div_lt_iff_lt_mul (by positivity), ← pow_add]
    exact (lt_pow_ndigits d.coeff).trans_le (Nat.pow_le_pow_right (by decide) (by omega))
  have hround : (d.round p).coeff = roundHalfEven d.coeff k := rfl
  rcases roundHalfEven_eq_or d.coeff k with hq | hq <;> omega

theorem round_of_ndigits_le {p : ℕ} (h : ndigits d.coeff ≤ p) : d.round p = d := by
  rw [round, Nat.sub_eq_zero_of_le h, roundHalfEven_zero]
  simp

/-- Exact rounding keeps the first digit in its place. -/
theorem round_adjusted_of_exact {p : ℕ} (hc : d.coeff ≠ 0)
    (h : 10 ^ (ndigits d.coeff - p) ∣ d.coeff) : (d.round p).adjusted = d.adjusted := by
  have hcut : (d.round p).coeff * 10 ^ (ndigits d.coeff - p) = d.coeff := roundHalfEven_exact_iff.mpr h
  have hne : (d.round p).coeff ≠ 0 := by
    intro h0
    rw [h0, Nat.zero_mul] at hcut
    exact hc hcut.symm
  have hdigits := ndigits_mul_pow hne (ndigits d.coeff - p)
  rw [hcut] at hdigits
  have hexp : (d.round p).exp = d.exp + (ndigits d.coeff - p : ℕ) := rfl
  rw [adjusted, adjusted]
  omega

variable {ctx : Context}

theorem fix_zero (ctx : Context) (hc : d.coeff = 0) : ∃ r, d.fix ctx = some r ∧ r.mag = 0 := by
  unfold fix
  rw [if_pos hc]
  exact ⟨_, rfl, by simp [mag, hc]⟩

/-- In the range of full coefficients an operation rounds to the precision, and overflows when
the rounded number lies above the greatest exponent. -/
theorem fix_normal (hprec : 0 < ctx.prec) (hc : d.coeff ≠ 0)
    (htiny : ctx.etiny ≤ ndigits d.coeff + d.exp - ctx.prec) :
    (d.fix ctx = none ∧ ctx.emax < (d.round ctx.prec).adjusted) ∨
    ∃ r, d.fix ctx = some r ∧ (d.round ctx.prec).adjusted ≤ ctx.emax ∧ r.negative = d.negative ∧
      r.mag = (d.round ctx.prec).mag := by
  unfold fix
  rw [if_neg hc]
  dsimp only
  rw [max_eq_left htiny]
  by_cases hn : ndigits d.coeff ≤ ctx.prec
  · rw [round_of_ndigits_le hn, if_neg (by omega : ¬d.exp < _)]
    unfold adjusted Context.etop
    split_ifs with htop
    · exact Or.inl ⟨rfl, by omega⟩
    · exact Or.inr ⟨d, rfl, by omega, rfl, rfl⟩
  · push Not at hn
    obtain ⟨hlow, hhigh⟩ := round_coeff_bounds (d := d) hprec hn
    set k := ndigits d.coeff - ctx.prec with hk
    have hdrop : (ndigits d.coeff + d.exp - ctx.prec - d.exp).toNat = k := by omega
    have hexp : ndigits d.coeff + d.exp - ctx.prec = d.exp + k := by omega
    have hround : d.round ctx.prec = ⟨d.negative, roundHalfEven d.coeff k, d.exp + k⟩ := rfl
    rw [hround] at hlow hhigh ⊢
    rw [hdrop, hexp, if_pos (by omega : d.exp < d.exp + k)]
    dsimp only at hlow hhigh
    unfold adjusted Context.etop
    by_cases hcarry : ctx.prec < ndigits (roundHalfEven d.coeff k)
    · have hten : roundHalfEven d.coeff k = 10 ^ ctx.prec :=
        le_antisymm hhigh (pow_le_of_ndigits hprec hcarry)
      have hdigits : ndigits (roundHalfEven d.coeff k) = ctx.prec + 1 := by
        rw [hten]
        exact ndigits_eq (by omega) (by simp) (Nat.pow_lt_pow_right (by decide) (by omega))
      rw [if_pos hcarry]
      dsimp only
      rw [hdigits]
      split_ifs with h1 h2
      · exact Or.inl ⟨rfl, by push_cast; omega⟩
      · exact Or.inl ⟨rfl, by push_cast; omega⟩
      · refine Or.inr ⟨_, rfl, by push_cast; omega, rfl, ?_⟩
        have hpow : 10 ^ ctx.prec = 10 ^ (ctx.prec - 1) * 10 := by
          rw [← pow_succ]
          congr 1
          omega
        rw [mag, mag]
        dsimp only
        rw [hten, hpow, Nat.mul_div_cancel _ (by decide), zpow_add_one₀ (by norm_num)]
        push_cast
        ring
    · have hdigits : ndigits (roundHalfEven d.coeff k) = ctx.prec := by
        refine le_antisymm (not_lt.mp hcarry) ?_
        by_contra hlt
        push Not at hlt
        have hone := ndigits_pos (roundHalfEven d.coeff k)
        have := (ndigits_le_iff (show 0 < ctx.prec - 1 by omega)).mp
          (show ndigits (roundHalfEven d.coeff k) ≤ ctx.prec - 1 by omega)
        omega
      rw [if_neg hcarry]
      dsimp only
      rw [hdigits]
      split_ifs with h1
      · exact Or.inl ⟨rfl, by omega⟩
      · exact Or.inr ⟨_, rfl, by omega, rfl, rfl⟩

/-- The coefficient has at most `w` digits before the point of the power `10 ^ e`. -/
theorem mag_lt {c w : ℕ} {e : ℤ} (h : c < 10 ^ w) : (c : ℚ) * 10 ^ e < 10 ^ (w + e) := by
  rw [zpow_add₀ (by norm_num), zpow_natCast]
  have hc : (c : ℚ) < 10 ^ w := by exact_mod_cast h
  exact mul_lt_mul_of_pos_right hc (by positivity)

theorem zpow_ten_le_tenth {e : ℤ} (h : e < 0) : (10 : ℚ) ^ e ≤ 1 / 10 := by
  calc (10 : ℚ) ^ e ≤ 10 ^ (-1 : ℤ) := zpow_le_zpow_right₀ (by norm_num) (by omega)
    _ = 1 / 10 := by norm_num

theorem round_coeff_ne_zero {p : ℕ} (hp : 0 < p) (hc : d.coeff ≠ 0) : (d.round p).coeff ≠ 0 := by
  by_cases hn : ndigits d.coeff ≤ p
  · rwa [round_of_ndigits_le hn]
  · have hlow := (round_coeff_bounds (d := d) hp (not_le.mp hn)).1
    have hpos : 0 < 10 ^ (p - 1) := by positivity
    omega

/-- Rounding reaches at most the next power of ten. -/
theorem round_mag_lt {p : ℕ} (hp : 0 < p) {e : ℤ} (h : ndigits d.coeff + d.exp ≤ e) :
    (d.round p).mag ≤ 10 ^ e := by
  by_cases hn : ndigits d.coeff ≤ p
  · rw [round_of_ndigits_le hn]
    exact (mag_lt (lt_pow_ndigits d.coeff)).le.trans (zpow_le_zpow_right₀ (by norm_num) h)
  · have hhigh := (round_coeff_bounds (d := d) hp (not_le.mp hn)).2
    have hc : ((d.round p).coeff : ℚ) ≤ 10 ^ p := by exact_mod_cast hhigh
    have hexp : (d.round p).exp = d.exp + (ndigits d.coeff - p : ℕ) := rfl
    calc (d.round p).mag ≤ 10 ^ p * 10 ^ (d.round p).exp := mul_le_mul_of_nonneg_right hc (by positivity)
      _ = 10 ^ ((p : ℤ) + (d.round p).exp) := by rw [zpow_add₀ (by norm_num), zpow_natCast]
      _ ≤ 10 ^ e := zpow_le_zpow_right₀ (by norm_num) (by omega)

theorem round_adjusted_le {p : ℕ} (hp : 0 < p) : (d.round p).adjusted ≤ ndigits d.coeff + d.exp := by
  by_cases hn : ndigits d.coeff ≤ p
  · rw [round_of_ndigits_le hn, adjusted]
    omega
  · have hhigh := (round_coeff_bounds (d := d) hp (not_le.mp hn)).2
    have hdigits : ndigits (d.round p).coeff ≤ p + 1 :=
      (ndigits_le_iff (by omega)).mpr (hhigh.trans_lt (Nat.pow_lt_pow_right (by decide) (by omega)))
    have hexp : (d.round p).exp = d.exp + (ndigits d.coeff - p : ℕ) := rfl
    rw [adjusted]
    omega

theorem not_integral_of_mag (hpos : 0 < d.mag) (hlt : d.mag < 1) : ¬d.Integral := by
  intro h
  obtain ⟨n, hn⟩ := integral_iff_mag.mp h
  rw [hn] at hpos hlt
  have h1 : 0 < n := by exact_mod_cast hpos
  have h2 : n < 1 := by exact_mod_cast hlt
  omega

/-- Below that range the result is small, and no overflow. -/
theorem fix_tiny (hprec : 0 < ctx.prec) (hc : d.coeff ≠ 0) (hemin : ctx.emin < 0)
    (hetop : ctx.etiny < ctx.etop) (htiny : ndigits d.coeff + d.exp - ctx.prec < ctx.etiny) :
    ∃ r, d.fix ctx = some r ∧ r.negative = d.negative ∧ r.mag < 1 := by
  have hsmall : ∀ e : ℤ, e ≤ ctx.emin → (10 : ℚ) ^ e < 1 := fun e he =>
    (zpow_ten_le_tenth (by omega)).trans_lt (by norm_num)
  have hlow : ctx.etiny = ctx.emin - ctx.prec + 1 := rfl
  unfold fix
  rw [if_neg hc]
  dsimp only
  rw [if_neg (by omega), max_eq_right htiny.le]
  by_cases he : d.exp < ctx.etiny
  · set j := (ctx.etiny - d.exp).toNat with hj
    have hdiv : d.coeff / 10 ^ j < 10 ^ (ctx.prec - 1) := by
      rw [Nat.div_lt_iff_lt_mul (by positivity), ← pow_add]
      exact (lt_pow_ndigits d.coeff).trans_le (Nat.pow_le_pow_right (by decide) (by omega))
    have hround : roundHalfEven d.coeff j ≤ 10 ^ (ctx.prec - 1) := by
      rcases roundHalfEven_eq_or d.coeff j with hq | hq <;> omega
    have hcoeff : roundHalfEven d.coeff j < 10 ^ ctx.prec :=
      hround.trans_lt (Nat.pow_lt_pow_right (by decide) (by omega))
    rw [if_pos he, if_neg (not_lt.mpr ((ndigits_le_iff hprec).mpr hcoeff))]
    dsimp only
    rw [if_neg (by omega)]
    refine ⟨_, rfl, rfl, ?_⟩
    have hc' : ((roundHalfEven d.coeff j : ℕ) : ℚ) ≤ 10 ^ (ctx.prec - 1) := by exact_mod_cast hround
    calc (roundHalfEven d.coeff j : ℚ) * 10 ^ ctx.etiny
        ≤ 10 ^ (ctx.prec - 1) * 10 ^ ctx.etiny := mul_le_mul_of_nonneg_right hc' (by positivity)
      _ = 10 ^ (((ctx.prec - 1 : ℕ) : ℤ) + ctx.etiny) := by rw [zpow_add₀ (by norm_num), zpow_natCast]
      _ < 1 := hsmall _ (by omega)
  · rw [if_neg he]
    refine ⟨d, rfl, rfl, ?_⟩
    exact (mag_lt (lt_pow_ndigits d.coeff)).trans (hsmall _ (by omega))

end Dec

end DecimalContext
